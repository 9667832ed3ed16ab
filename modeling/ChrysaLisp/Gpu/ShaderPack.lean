import ChrysaLisp.Gpu.ShaderFloat
import Mathlib.Data.List.Pairwise

set_option autoImplicit false

/-! # Packed and unpacked

A field is written word by word, each at its `slot`, and no two slots of a block meet. So what is in
the block is known cell by cell: the words of each field, and 0 elsewhere (`Written`), and a block
is the same as another that has the same words. What is unpacked is read from the slots, each float
as it comes back of the bits (`back`), and packed again it is the same words. -/

namespace ChrysaLisp.Shader

/-! ## The layout -/

theorem le_align (num : ℕ) {div : ℕ} (h : 0 < div) : num ≤ align num div := by
  unfold align
  split
  · exact Nat.le_refl num
  · have hsplit := Nat.div_add_mod' num div
    have hlt := Nat.mod_lt num h
    omega

theorem dvd_align (num div : ℕ) : div ∣ align num div := by
  unfold align
  split
  · exact Nat.dvd_of_mod_eq_zero ‹_›
  · exact Nat.dvd_add (Nat.dvd_mul_left div _) (Nat.dvd_refl div)

/-- The boundary a type wants, by the rules of a uniform block. -/
def boundary : InputType → ℕ
  | .float | .int => 4
  | .vec2 => 8
  | .vec3 | .vec4 | .mat4 => 16

theorem alignTo_size (type : InputType) : alignTo (shaderSize type) = boundary type := by cases type <;> rfl

theorem boundary_pos (type : InputType) : 0 < boundary type := by cases type <;> decide

def Field.stop (field : Field) : ℕ := field.offset + 4 * shaderSize field.type

/-- Where the fields lie from `offset` on. -/
structure Placed (offset stop : ℕ) (fields : List Field) : Prop where
  le : offset ≤ stop
  inside : ∀ field ∈ fields, offset ≤ field.offset ∧ field.stop ≤ stop
  bounded : ∀ field ∈ fields, boundary field.type ∣ field.offset
  apart : fields.Pairwise fun field next => field.stop ≤ next.offset

theorem placed_layoutFrom (inputs : List Input) :
    ∀ offset, Placed offset (layoutFrom offset inputs).1 (layoutFrom offset inputs).2 := by
  induction inputs with
  | nil => exact fun offset => ⟨Nat.le_refl _, fun _ h => absurd h List.not_mem_nil,
      fun _ h => absurd h List.not_mem_nil, List.Pairwise.nil⟩
  | cons input inputs ih =>
      intro offset
      have hfirst := le_align offset (boundary_pos input.type)
      have hrest := ih (align offset (boundary input.type) + shaderSize input.type * 4)
      rw [layoutFrom, alignTo_size]
      refine ⟨by have := hrest.le; omega, ?_, ?_, ?_⟩
      · intro field hfield
        rcases List.mem_cons.mp hfield with rfl | hin
        · have := hrest.le
          simp only [Field.stop]
          omega
        · have := hrest.inside field hin
          omega
      · intro field hfield
        rcases List.mem_cons.mp hfield with rfl | hin
        · exact dvd_align offset _
        · exact hrest.bounded field hin
      · refine List.pairwise_cons.mpr ⟨?_, hrest.apart⟩
        intro field hin
        have := (hrest.inside field hin).1
        simp only [Field.stop]
        omega

/-- Each input has its field, in order. -/
theorem forall₂_layoutFrom (inputs : List Input) : ∀ offset,
    List.Forall₂ (fun (field : Field) input => field.name = input.name ∧ field.type = input.type)
      (layoutFrom offset inputs).2 inputs := by
  induction inputs with
  | nil => exact fun _ => List.Forall₂.nil
  | cons input inputs ih => exact fun _ => List.Forall₂.cons ⟨rfl, rfl⟩ (ih _)

/-! ## The words of a block -/

/-- Where number `i` of a field is. -/
def Field.slot (field : Field) (i : ℕ) : ℕ :=
  field.offset + (if field.type = .mat4 then i % 4 * 4 + i / 4 else i) * 4

theorem slot_inside {field : Field} {i : ℕ} (hi : i < shaderSize field.type) :
    field.offset ≤ field.slot i ∧ field.slot i + 4 ≤ field.stop := by
  unfold Field.slot Field.stop
  split_ifs with hmat
  · rw [hmat] at hi ⊢
    change i < 16 at hi
    change _ ∧ _ ≤ _ + 4 * 16
    omega
  · omega

theorem slot_apart {field : Field} {i j : ℕ} (hi : i < shaderSize field.type)
    (hj : j < shaderSize field.type) (hne : i ≠ j) :
    field.slot i + 4 ≤ field.slot j ∨ field.slot j + 4 ≤ field.slot i := by
  unfold Field.slot
  split_ifs with hmat
  · rw [hmat] at hi hj
    change i < 16 at hi
    change j < 16 at hj
    omega
  · omega

/-- A field with the words that are put in it: as many as it is of, or none. -/
structure Words where
  field : Field
  words : List (BitVec 64)
  whole : words.length = shaderSize field.type ∨ words = []

def word (val : BitVec 64) : List Byte := Memory.bytesOf 4 val.toNat

namespace Words

def at? (w : Words) (i : ℕ) : BitVec 64 := w.words.getD i 0

def writes (w : Words) : List (ℕ × List Byte) :=
  w.words.zipIdx.map fun (val, i) => (w.field.slot i, word val)

theorem mem_writes {w : Words} {st : ℕ × List Byte} (h : st ∈ w.writes) :
    ∃ i, i < w.words.length ∧ st = (w.field.slot i, word (w.at? i)) := by
  obtain ⟨⟨val, i⟩, hin, rfl⟩ := List.mem_map.mp h
  obtain ⟨-, hlt, hval⟩ := List.mem_zipIdx hin
  simp only [Nat.zero_add, Nat.sub_zero] at hlt hval
  exact ⟨i, hlt, by rw [at?, List.getD_eq_getElem _ _ hlt, ← hval]⟩

theorem lt_size {w : Words} {i : ℕ} (hi : i < w.words.length) : i < shaderSize w.field.type := by
  rcases w.whole with hwhole | hnone
  · exact hwhole ▸ hi
  · rw [hnone] at hi
    exact absurd hi (Nat.not_lt_zero i)

theorem writes_apart (w : Words) : w.writes.Pairwise Memory.Apart := by
  refine List.pairwise_map.mpr ?_
  have hidx : (w.words.zipIdx.map Prod.snd).Nodup := by
    rw [List.zipIdx_map_snd]
    exact List.nodup_range'
  refine (List.Pairwise.and_mem.mp (List.pairwise_map.mp hidx)).imp ?_
  rintro ⟨val, i⟩ ⟨val', j⟩ ⟨hi, hj, hne⟩
  have hi' := (List.mem_zipIdx hi).2.1
  have hj' := (List.mem_zipIdx hj).2.1
  exact slot_apart (lt_size (by omega)) (lt_size (by omega)) hne

end Words

/-- The block that words are put in. -/
def blockOf (all : List Words) : ℕ → Byte := Memory.stores (fun _ => 0) (all.flatMap Words.writes)

/-- The fields of words lie one after another. -/
def Apart (all : List Words) : Prop := all.Pairwise fun w w' => w.field.stop ≤ w'.field.offset

theorem writes_inside {w : Words} {st : ℕ × List Byte} (h : st ∈ w.writes) :
    w.field.offset ≤ st.1 ∧ st.1 + st.2.length ≤ w.field.stop := by
  obtain ⟨i, hi, rfl⟩ := Words.mem_writes h
  exact slot_inside (Words.lt_size hi)

theorem all_apart {all : List Words} (h : Apart all) : (all.flatMap Words.writes).Pairwise Memory.Apart := by
  refine List.pairwise_flatMap.mpr ⟨fun w _ => w.writes_apart, ?_⟩
  refine h.imp ?_
  intro w w' hstop st hst st' hst'
  have hin := (writes_inside hst).2
  have hin' := (writes_inside hst').1
  exact Or.inl (by omega)

theorem mem_writes_of_lt {w : Words} {i : ℕ} (hi : i < w.words.length) :
    (w.field.slot i, word (w.at? i)) ∈ w.writes :=
  List.mem_map.mpr ⟨(w.words[i], i), List.mem_zipIdx_iff_getElem?.mpr (List.getElem?_eq_getElem hi),
    by rw [Words.at?, List.getD_eq_getElem _ _ hi]⟩

theorem word_zero : word 0 = List.replicate 4 0 := rfl

/-- Two fields of a block are one before the other. -/
theorem Apart.or {all : List Words} (h : Apart all) {w w' : Words} (hw : w ∈ all) (hw' : w' ∈ all)
    (hne : w ≠ w') :
    w.field.stop ≤ w'.field.offset ∨ w'.field.stop ≤ w.field.offset := by
  have hboth : all.Pairwise fun w w' => w.field.stop ≤ w'.field.offset ∨
    w'.field.stop ≤ w.field.offset := h.imp Or.inl
  have hsymm : Std.Symm fun w w' : Words => w.field.stop ≤ w'.field.offset ∨ w'.field.stop ≤ w.field.offset :=
    ⟨fun _ _ => Or.symm⟩
  exact hboth.forall hw hw' hne

/-- What is in a slot. -/
theorem load_slot {all : List Words} (h : Apart all) {w : Words} (hw : w ∈ all) {i : ℕ}
    (hi : i < shaderSize w.field.type) :
    Memory.load (blockOf all) (w.field.slot i) 4 = word (w.at? i) := by
  rcases w.whole with hwhole | hnone
  · have hput : (w.field.slot i, word (w.at? i)) ∈ all.flatMap Words.writes :=
      List.mem_flatMap.mpr ⟨w, hw, mem_writes_of_lt (hwhole ▸ hi)⟩
    have hload : Memory.load (blockOf all) _ (word (w.at? i)).length = word (w.at? i) :=
      Memory.load_stores (all_apart h) _ hput
    rwa [word, Memory.length_bytesOf] at hload
  · -- nothing is put in it, and nothing else reaches it
    have hzero : w.at? i = 0 := by rw [Words.at?, hnone, List.getD_nil]
    have hblank : Memory.Agree (fun p => w.field.slot i ≤ p ∧ p < w.field.slot i + 4) (blockOf all)
      fun _ => 0 := by
      refine Memory.agree_stores ?_
      intro st hst p hp
      obtain ⟨w', hw', hst'⟩ := List.mem_flatMap.mp hst
      have hin := writes_inside hst'
      have hslot := slot_inside hi
      have hne : w ≠ w' := by
        rintro rfl
        rw [Words.writes, hnone] at hst'
        exact absurd hst' List.not_mem_nil
      have := h.or hw hw' hne
      omega
    rw [hzero, word_zero, hblank.load fun k hk => by omega]
    rfl

/-- What is in no slot is blank. -/
theorem blockOf_blank {all : List Words} {p : ℕ}
    (h : ∀ w ∈ all, ∀ i < shaderSize w.field.type, p < w.field.slot i ∨ w.field.slot i + 4 ≤ p) :
    blockOf all p = 0 := by
  have hblank : Memory.Agree (fun q => q = p) (blockOf all) fun _ => 0 := by
    refine Memory.agree_stores ?_
    rintro st hst q rfl
    obtain ⟨w, hw, hst⟩ := List.mem_flatMap.mp hst
    obtain ⟨i, hi, rfl⟩ := Words.mem_writes hst
    exact h w hw i (Words.lt_size hi)
  exact hblank p rfl

/-- Blocks of the same fields are the same where the words are, as they are put. -/
theorem blockOf_eq {ι : Type} {l : List ι} {f g : ι → Words} (hf : Apart (l.map f)) (hg : Apart (l.map g))
    (hfield : ∀ q ∈ l, (f q).field = (g q).field)
    (hword : ∀ q ∈ l, ∀ i < shaderSize (f q).field.type, word ((f q).at? i) = word ((g q).at? i)) :
    blockOf (l.map f) = blockOf (l.map g) := by
  funext p
  by_cases hp : ∃ q ∈ l, ∃ i < shaderSize (f q).field.type,
    (f q).field.slot i ≤ p ∧ p < (f q).field.slot i + 4
  · obtain ⟨q, hq, i, hi, hle, hlt⟩ := hp
    have hload := load_slot hf (List.mem_map_of_mem hq) hi
    have hload' := load_slot hg (List.mem_map_of_mem hq) (hfield q hq ▸ hi)
    rw [← hfield q hq, ← hword q hq i hi, ← hload] at hload'
    have hcell := List.map_inj_left.mp hload' (p - (f q).field.slot i) (List.mem_range.mpr (by omega))
    rw [Nat.add_sub_cancel' hle] at hcell
    exact hcell.symm
  · have hout : ∀ q ∈ l, ∀ i < shaderSize (f q).field.type,
      p < (f q).field.slot i ∨ (f q).field.slot i + 4 ≤ p := by
      intro q hq i hi
      by_contra hin
      exact hp ⟨q, hq, i, hi, by omega, by omega⟩
    rw [blockOf_blank, blockOf_blank]
    · intro w hw
      obtain ⟨q, hq, rfl⟩ := List.mem_map.mp hw
      exact hfield q hq ▸ hout q hq
    · intro w hw
      obtain ⟨q, hq, rfl⟩ := List.mem_map.mp hw
      exact hout q hq

/-! ## Packing -/

variable (c : Conversions)

/-- A value of a type: an int, a number of any kind for a float, a sequence of as many for the others. -/
def OfType : InputType → Val → Prop
  | .int, .num (.int _) => True
  | .float, .num _ => True
  | .int, _ | .float, _ | _, .num _ => False
  | type, .seq elems => elems.length = shaderSize type

/-- A value of a type, or what a vector that is not given has. -/
def Fits (type : InputType) (val : Val) : Prop := OfType type val ∨ 1 < shaderSize type ∧ ∃ n, val = .num n

/-- The words of a value. -/
def wordsOf : InputType → Val → List (BitVec 64)
  | .int, .num val => [n2i c val]
  | .float, .num val => [shRealToFloat (shaderReal c val)]
  | _, .num _ => []
  | _, .seq elems => elems.map fun elem => shRealToFloat (shaderReal c elem)

def fieldWords (field : Field) (val : Val) : Words :=
  if h : (wordsOf c field.type val).length = shaderSize field.type
    then ⟨field, wordsOf c field.type val, Or.inl h⟩
  else ⟨field, [], Or.inr rfl⟩

theorem fieldWords_field (field : Field) (val : Val) : (fieldWords c field val).field = field := by
  unfold fieldWords
  split <;> rfl

theorem fieldWords_words {field : Field} {val : Val} (h : Fits field.type val) :
    (fieldWords c field val).words = wordsOf c field.type val := by
  unfold fieldWords
  split
  · rfl
  case isFalse hlen =>
    rcases h with htype | ⟨hsize, n, rfl⟩
    · refine absurd ?_ hlen
      cases htype' : field.type <;> cases val <;> simp_all [OfType, wordsOf, shaderSize, shaderDim]
    · cases htype : field.type <;> simp_all [wordsOf, shaderSize, shaderDim]

/-- Numbers put one after another are the words of them in their slots. -/
theorem stores_elems (block : ℕ → Byte) (elems : List Num) (slot : ℕ → ℕ) (f : Num → BitVec 64) :
    elems.zipIdx.foldl (fun block x => setInt block (slot x.2) (f x.1)) block =
      Memory.stores block ((elems.map f).zipIdx.map fun x => (slot x.2, word x.1)) := by
  rw [Memory.stores, List.zipIdx_map, List.map_map, List.foldl_map]
  rfl

/-- One turn of the loop puts the words of the value in their slots. -/
theorem packField_eq {vals : List (Str × Val)} {block : ℕ → Byte} {field : Field} {input : Input}
    (h : Fits field.type (given vals input)) :
    packField c vals block field input =
      some (Memory.stores block (fieldWords c field (given vals input)).writes) := by
  have hwords := fieldWords_words c h
  rw [Words.writes, fieldWords_field, hwords, packField]
  generalize given vals input = val at h ⊢
  obtain ⟨name, type, offset⟩ := field
  cases val with
  | num n => cases type <;> rfl
  | seq elems =>
      have hlen : type ≠ .int ∧ type ≠ .float ∧ elems.length = shaderSize type := by
        cases type <;> simp_all [Fits, OfType]
      cases type with
      | int => exact absurd rfl hlen.1
      | float => exact absurd rfl hlen.2.1
      | mat4 =>
          simp only [hlen.2.2, ne_eq, not_true_eq_false, if_false, if_true, wordsOf, Field.slot]
          rw [← stores_elems block elems (fun i => offset + (i % 4 * 4 + i / 4) * 4)]
      | vec2 | vec3 | vec4 =>
          simp only [hlen.2.2, ne_eq, not_true_eq_false, if_false, reduceCtorEq, wordsOf, Field.slot]
          rw [← stores_elems block elems (fun i => offset + i * 4)]

/-- The fields of inputs, each with its input. -/
def pairs (inputs : List Input) : List (Field × Input) := (shaderLayout inputs).2.zip inputs

theorem pairs_same {inputs : List Input} {q : Field × Input} (h : q ∈ pairs inputs) :
    q.1.name = q.2.name ∧ q.1.type = q.2.type :=
  List.forall₂_zip (forall₂_layoutFrom inputs 0) h

theorem pairs_fst (inputs : List Input) : (pairs inputs).map Prod.fst = (shaderLayout inputs).2 :=
  List.map_fst_zip (forall₂_layoutFrom inputs 0).length_eq.le

theorem pairs_snd (inputs : List Input) : (pairs inputs).map Prod.snd = inputs :=
  List.map_snd_zip (forall₂_layoutFrom inputs 0).length_eq.ge

theorem mem_of_pairs {inputs : List Input} {q : Field × Input} (h : q ∈ pairs inputs) : q.2 ∈ inputs :=
  pairs_snd inputs ▸ List.mem_map_of_mem h

def packWords (vals : List (Str × Val)) (q : Field × Input) : Words := fieldWords c q.1 (given vals q.2)

theorem apart_packWords (inputs : List Input) (vals : List (Str × Val)) :
    Apart ((pairs inputs).map (packWords c vals)) := by
  have hfields := (placed_layoutFrom inputs 0).apart
  rw [Apart, List.pairwise_map]
  simp only [packWords, fieldWords_field]
  exact List.pairwise_map.mp (pairs_fst inputs ▸ hfields)

theorem foldlM_packField {vals : List (Str × Val)} (l : List (Field × Input)) :
    ∀ {block : ℕ → Byte}, (∀ q ∈ l, Fits q.1.type (given vals q.2)) →
      l.foldlM (fun block q => packField c vals block q.1 q.2) block =
        some (Memory.stores block ((l.map (packWords c vals)).flatMap Words.writes)) := by
  induction l with
  | nil => exact fun _ => rfl
  | cons q l ih =>
      intro block h
      rw [List.foldlM_cons, packField_eq c (h q List.mem_cons_self), Option.bind_eq_bind, Option.bind_some,
        ih fun q hq => h q (List.mem_cons_of_mem _ hq), List.map_cons, List.flatMap_cons,
          Memory.stores_append, packWords]

variable {inputs : List Input} {vals : List (Str × Val)}

theorem shaderPack_eq (h : ∀ input ∈ inputs, Fits input.type (given vals input)) : shaderPack c inputs vals =
    some (Memory.load (blockOf ((pairs inputs).map (packWords c vals))) 0 (shaderLayout inputs).1) := by
  have hfits : ∀ q ∈ pairs inputs, Fits q.1.type (given vals q.2) := fun q hq =>
    (pairs_same hq).2 ▸ h q.2 (mem_of_pairs hq)
  have hfold : (pairs inputs).foldlM (fun block q => packField c vals block q.1 q.2) (fun _ => 0) =
      some (blockOf ((pairs inputs).map (packWords c vals))) := foldlM_packField c (pairs inputs) hfits
  exact congrArg (Option.map fun block => Memory.load block 0 (shaderLayout inputs).1) hfold

/-! ## Unpacking -/

/-- A word as it is read. -/
def low (val : BitVec 64) : BitVec 64 := (val.setWidth 32).setWidth 64

theorem numOf_word (val : BitVec 64) : BitVec.ofNat 64 (Memory.numOf (word val)) = low val := by
  refine BitVec.eq_of_toNat_eq ?_
  rw [word, Memory.numOf_bytesOf, low, BitVec.toNat_setWidth, BitVec.toNat_setWidth, BitVec.toNat_ofNat,
    (by decide : 256 ^ 4 = 2 ^ 32)]

theorem take_drop_load {mem : ℕ → Byte} {a n : ℕ} (h : a + 4 ≤ n) :
    ((Memory.load mem 0 n).drop a).take 4 = Memory.load mem a 4 := by
  refine List.ext_getElem (by simp; omega) ?_
  intro k hk hk'
  simp [Memory.load]

theorem stop_le {q : Field × Input} (h : q ∈ pairs inputs) : q.1.stop ≤ (shaderLayout inputs).1 := by
  have hin := (placed_layoutFrom inputs 0).inside q.1 (pairs_fst inputs ▸ List.mem_map_of_mem h)
  exact Nat.le_trans hin.2 (le_align _ (by decide))

theorem getUint_packed {q : Field × Input} (hq : q ∈ pairs inputs) {i : ℕ} (hi : i < shaderSize q.1.type) :
    getUint (Memory.load (blockOf ((pairs inputs).map (packWords c vals))) 0
      (shaderLayout inputs).1) (q.1.slot i) =
      low ((packWords c vals q).at? i) := by
  have hin := (slot_inside hi).2
  have hstop := stop_le hq
  have hload := load_slot (apart_packWords c inputs vals) (List.mem_map_of_mem hq)
    (i := i) (by rwa [packWords, fieldWords_field])
  rw [packWords, fieldWords_field, ← packWords] at hload
  rw [getUint, take_drop_load (by omega), hload, numOf_word]

/-- What the words of a field are read as. -/
def unpackWords (type : InputType) (words : ℕ → BitVec 64) : Val :=
  match type with
  | .int => .num (.int (((words 0).setWidth 32).signExtend 64))
  | .float => .num (.real (shFloatToReal (words 0)))
  | type => .seq ((List.range (shaderSize type)).map fun i => .real (shFloatToReal (words i)))

theorem unpackField_eq (block : Str) (field : Field) :
    unpackField block field = unpackWords field.type fun i => getUint block (field.slot i) := by
  obtain ⟨name, type, offset⟩ := field
  cases type <;> rfl

/-- What comes back of a value. -/
def returned (type : InputType) (val : Val) : Val :=
  unpackWords type fun i => low ((wordsOf c type val).getD i 0)

theorem unpackWords_congr {type : InputType} {f g : ℕ → BitVec 64} (h : ∀ i < shaderSize type, f i = g i) :
    unpackWords type f = unpackWords type g := by
  cases type with
  | int | float => simp only [unpackWords, h 0 Nat.one_pos]
  | vec2 | vec3 | vec4 | mat4 =>
      refine congrArg Val.seq (List.map_congr_left ?_)
      intro i hi
      rw [h i (List.mem_range.mp hi)]

theorem shaderUnpack_eq (h : ∀ input ∈ inputs, Fits input.type (given vals input)) :
    shaderUnpack inputs (Memory.load (blockOf ((pairs inputs).map (packWords c vals))) 0
      (shaderLayout inputs).1) =
      inputs.map fun input => (input.name, returned c input.type (given vals input)) := by
  rw [shaderUnpack, ← pairs_fst, List.map_map]
  conv_rhs => rw [← pairs_snd inputs, List.map_map]
  refine List.map_congr_left ?_
  intro q hq
  obtain ⟨hname, htype⟩ := pairs_same hq
  have hwords := fieldWords_words c (htype ▸ h q.2 (mem_of_pairs hq) : Fits q.1.type (given vals q.2))
  refine Prod.ext hname ?_
  change unpackField _ q.1 = returned c q.2.type (given vals q.2)
  rw [unpackField_eq, returned, ← htype]
  refine unpackWords_congr ?_
  intro i hi
  rw [getUint_packed c hq hi, Words.at?, packWords, hwords]

/-! ## Packed again -/

/-- What is unpacked is given again under its name. -/
theorem given_map {f : Input → Val} (hnodup : (inputs.map Input.name).Nodup) {input : Input}
    (hin : input ∈ inputs) :
    given (inputs.map fun input => (input.name, f input)) input = f input := by
  have hfind : (inputs.map fun input => (input.name, f input)).find?
    (fun val => decide (val.1 = input.name)) =
      some (input.name, f input) := by
    induction inputs with
    | nil => exact absurd hin List.not_mem_nil
    | cons first rest ih =>
        rw [List.map_cons, List.nodup_cons] at hnodup
        rw [List.map_cons]
        rcases List.mem_cons.mp hin with rfl | hrest
        · exact List.find?_cons_of_pos (by simp)
        · have hne : first.name ≠ input.name := fun heq => hnodup.1 (heq ▸ List.mem_map_of_mem hrest)
          rw [List.find?_cons_of_neg (by simpa using hne)]
          exact ih hnodup.2 hrest
  rw [given, hfind]
  rfl

theorem low_shRealToFloat (w : BitVec 64) : low (shRealToFloat w) = shRealToFloat w := by
  have hlt : (shRealToFloat w).toNat < 2 ^ 32 := by
    have hw := w.isLt
    rw [shRealToFloat_toNat]
    rcases floatIndex_cases (magnitude w) with ⟨-, hzero⟩ | ⟨-, hleast, hlast, -⟩
    · rw [if_pos hzero]
      decide
    · rw [if_neg (by omega)]
      omega
  refine BitVec.eq_of_toNat_eq ?_
  rw [low, BitVec.toNat_setWidth, BitVec.toNat_setWidth, Nat.mod_eq_of_lt hlt, Nat.mod_eq_of_lt (by omega)]

/-- The words of what is no int are floats, and what is not there is one. -/
theorem wordsOf_float {type : InputType} {val : Val} (h : type ≠ .int) (i : ℕ) :
    ∃ w, (wordsOf c type val).getD i 0 = shRealToFloat w := by
  have hzero : ∃ w, (0 : BitVec 64) = shRealToFloat w := ⟨0, by decide⟩
  have helem : ∀ elems : List Num, ∃ w,
    (elems.map fun elem => shRealToFloat (shaderReal c elem)).getD i 0 = shRealToFloat w := by
    intro elems
    rcases Nat.lt_or_ge i elems.length with hlt | hge
    · exact ⟨shaderReal c elems[i], by rw [List.getD_eq_getElem _ _ (by simpa using hlt), List.getElem_map]⟩
    · rw [List.getD_eq_default _ _ (by simpa using hge)]
      exact hzero
  cases type with
  | int => exact absurd rfl h
  | float =>
      cases val with
      | num n => cases i with
        | zero => exact ⟨_, rfl⟩
        | succ i => exact hzero
      | seq elems => exact helem elems
  | vec2 | vec3 | vec4 | mat4 =>
      cases val with
      | num n => exact hzero
      | seq elems => exact helem elems

theorem word_congr {v w : BitVec 64} (h : v.setWidth 32 = w.setWidth 32) : word v = word w := by
  have hmod := congrArg BitVec.toNat h
  rw [BitVec.toNat_setWidth, BitVec.toNat_setWidth, (by decide : 2 ^ 32 = 256 ^ 4)] at hmod
  rw [word, word, ← Memory.bytesOf_mod, hmod, Memory.bytesOf_mod]

theorem setWidth_signExtend (x : BitVec 32) : (x.signExtend 64).setWidth 32 = x := by
  refine BitVec.eq_of_getLsbD_eq ?_
  intro i hi
  rw [BitVec.getLsbD_setWidth, BitVec.getLsbD_signExtend, decide_eq_true hi, if_pos hi, Bool.true_and,
    decide_eq_true (by omega : i < 64), Bool.true_and]

theorem setWidth_low (v : BitVec 64) : (low v).setWidth 32 = v.setWidth 32 := by
  rw [low, BitVec.setWidth_setWidth_of_le _ (by decide), BitVec.setWidth_eq]

theorem shRealToFloat_low {val w : BitVec 64} (h : val = shRealToFloat w) :
    shRealToFloat (shFloatToReal (low val)) = val := by
  rw [h, low_shRealToFloat]
  exact shRealToFloat_back w

/-- The words of what has come back are as they were. -/
theorem word_returned {type : InputType} {val : Val} {i : ℕ} (hi : i < shaderSize type) :
    word ((wordsOf c type (returned c type val)).getD i 0) = word ((wordsOf c type val).getD i 0) := by
  rcases eq_or_ne type .int with rfl | hne
  · obtain rfl : i = 0 := Nat.lt_one_iff.mp hi
    refine word_congr ?_
    change ((((low ((wordsOf c .int val).getD 0 0)).setWidth 32).signExtend 64).setWidth 32) = _
    rw [setWidth_signExtend, setWidth_low]
  · obtain ⟨w, hw⟩ : ∃ w, (wordsOf c type val).getD i 0 = shRealToFloat w := wordsOf_float c hne i
    cases type with
    | int => exact absurd rfl hne
    | float =>
        obtain rfl : i = 0 := Nat.lt_one_iff.mp hi
        exact congrArg word (shRealToFloat_low hw)
    | vec2 | vec3 | vec4 | mat4 =>
        simp only [returned, unpackWords, wordsOf, List.map_map]
        rw [List.getD_eq_getElem _ _ (by simpa using hi), List.getElem_map, List.getElem_range]
        exact congrArg word (shRealToFloat_low hw)

theorem fits_returned (type : InputType) (val : Val) : Fits type (returned c type val) := by
  refine Or.inl ?_
  cases type <;> simp [returned, unpackWords, OfType]

/-- What was unpacked is packed to the same block. -/
theorem shaderPack_again (hnodup : (inputs.map Input.name).Nodup)
    (h : ∀ input ∈ inputs, Fits input.type (given vals input)) :
    shaderPack c inputs (inputs.map fun input => (input.name, returned c input.type (given vals input))) =
      shaderPack c inputs vals := by
  have hgiven : ∀ input ∈ inputs,
    given (inputs.map fun input => (input.name, returned c input.type (given vals input)))
      input = returned c input.type (given vals input) := fun input hin => given_map hnodup hin
  rw [shaderPack_eq c h, shaderPack_eq c fun input hin => by rw [hgiven input hin]; exact fits_returned c _ _]
  rw [blockOf_eq (apart_packWords c inputs _) (apart_packWords c inputs vals)]
  · exact fun q _ => (fieldWords_field c q.1 _).trans (fieldWords_field c q.1 _).symm
  · intro q hq i hi
    have htype := (pairs_same hq).2
    have hfits := h q.2 (mem_of_pairs hq)
    rw [packWords, fieldWords_field] at hi
    rw [Words.at?, Words.at?, packWords, packWords, hgiven q.2 (mem_of_pairs hq), ← htype,
      fieldWords_words c (fits_returned c _ _), fieldWords_words c (htype ▸ hfits)]
    exact word_returned c hi

/-! ## Packed right -/

/-- The inputs of a program: no two of a name, and a default of its type for each, or none, a
    number, where it is a vector. -/
structure Program where
  inputs : List Input
  distinct : (inputs.map Input.name).Nodup
  fits : ∀ input ∈ inputs, Fits input.type input.val

/-- What is given for an input is of its type. -/
def Program.Typed (p : Program) (vals : List (Str × Val)) : Prop :=
  ∀ input ∈ p.inputs, ∀ val, vals.find? (fun val => decide (val.1 = input.name)) = some val →
    OfType input.type val.2

/-- The reals that are given for floats. -/
def realsOf : InputType → Val → List (BitVec 64)
  | .int, _ => []
  | .float, .num n => [shaderReal c n]
  | _, .num _ => []
  | _, .seq elems => elems.map (shaderReal c)

/-- A finite real comes back rounded. -/
def RealRight (w r : BitVec 64) : Prop := magnitude w < realInfinity → Rounded w r

/-- A value of a type comes back right: an int of 32 bits as it was, and each real rounded. -/
def ValRight (type : InputType) (val out : Val) : Prop :=
  match type with
  | .int => ∀ v, val = .num (.int v) → (v.setWidth 32).signExtend 64 = v → out = .num (.int v)
  | .float => ∀ n, val = .num n → ∃ r, out = .num (.real r) ∧ RealRight (shaderReal c n) r
  | _ => ∀ elems, val = .seq elems → ∃ rs : List (BitVec 64), out = .seq (rs.map Num.real) ∧
      List.Forall₂ RealRight (elems.map (shaderReal c)) rs

/-- The fields of a program lie one after another on their boundaries inside the block, what is
    packed comes back right, and is packed again to the same block. -/
structure PackedRight (p : Program) (vals : List (Str × Val)) : Prop where
  fields : List.Forall₂ (fun (field : Field) input => field.name = input.name ∧ field.type = input.type)
    (shaderLayout p.inputs).2 p.inputs
  apart : (shaderLayout p.inputs).2.Pairwise fun field next => field.stop ≤ next.offset
  placed : ∀ field ∈ (shaderLayout p.inputs).2,
    boundary field.type ∣ field.offset ∧ field.stop ≤ (shaderLayout p.inputs).1
  comes : ∃ block, shaderPack c p.inputs vals = some block ∧
    List.Forall₂ (fun (input : Input) out => out.1 = input.name ∧
      ValRight c input.type (given vals input) out.2)
      p.inputs (shaderUnpack p.inputs block) ∧
    shaderPack c p.inputs (shaderUnpack p.inputs block) = some block

theorem Program.Typed.fits {p : Program} (h : p.Typed vals) {input : Input} (hin : input ∈ p.inputs) :
    Fits input.type (given vals input) := by
  unfold given
  cases hfind : vals.find? fun val => decide (val.1 = input.name) with
  | none => exact p.fits input hin
  | some val => exact Or.inl (h input hin val hfind)

/-- The reals of a sequence, as they come back. -/
theorem returned_seq {type : InputType} {elems : List Num} (hne : type ≠ .int ∧ type ≠ .float)
    (hlen : elems.length = shaderSize type) :
    returned c type (.seq elems) = .seq (((elems.map (shaderReal c)).map back).map Num.real) := by
  have hlist : (List.range (shaderSize type)).map (fun i =>
      Num.real (shFloatToReal (low ((elems.map fun elem => shRealToFloat (shaderReal c elem)).getD i 0)))) =
      ((elems.map (shaderReal c)).map back).map Num.real := by
    refine List.ext_getElem (by simp [hlen]) ?_
    intro i hi hi'
    simp only [List.length_map, List.length_range] at hi hi'
    rw [List.getElem_map, List.getElem_range, List.getD_eq_getElem _ _ (by simpa using hi'), List.getElem_map,
      List.getElem_map, List.getElem_map, List.getElem_map, low_shRealToFloat]
    rfl
  cases type with
  | int => exact absurd rfl hne.1
  | float => exact absurd rfl hne.2
  | vec2 | vec3 | vec4 | mat4 => exact congrArg Val.seq hlist

theorem realRight_back (w : BitVec 64) : RealRight w (back w) ↔ (magnitude w < realInfinity → InRange w) :=
  imp_congr_right fun _ => rounded_back_iff w

theorem forall₂_back (ws : List (BitVec 64)) :
    List.Forall₂ RealRight ws (ws.map back) ↔ ∀ w ∈ ws, magnitude w < realInfinity → InRange w := by
  rw [List.forall₂_map_right_iff, List.forall₂_same]
  simp only [realRight_back]

theorem intRight_returned (val : Val) : ValRight c .int val (returned c .int val) := by
  rintro v rfl hv
  change Val.num (.int (((low v).setWidth 32).signExtend 64)) = _
  rw [setWidth_low, hv]

theorem floatRight_returned (n : Num) : ValRight c .float (.num n) (returned c .float (.num n)) ↔
    (magnitude (shaderReal c n) < realInfinity → InRange (shaderReal c n)) := by
  have hback : returned c .float (.num n) = .num (.real (back (shaderReal c n))) := by
    change Val.num (.real (shFloatToReal (low (shRealToFloat _)))) = _
    rw [low_shRealToFloat]
    rfl
  rw [← realRight_back, hback]
  constructor
  · intro h
    obtain ⟨r, hr, hright⟩ := h n rfl
    obtain rfl : back (shaderReal c n) = r := by simpa using hr
    exact hright
  · rintro h n' hn
    obtain rfl : n = n' := by simpa using hn
    exact ⟨_, rfl, h⟩

theorem seqRight_returned {type : InputType} {elems : List Num} (hne : type ≠ .int ∧ type ≠ .float)
    (hlen : elems.length = shaderSize type) : ValRight c type (.seq elems) (returned c type (.seq elems)) ↔
      ∀ w ∈ elems.map (shaderReal c), magnitude w < realInfinity → InRange w := by
  have hright : ValRight c type (.seq elems) (returned c type (.seq elems)) ↔
      ∀ elems', Val.seq elems = .seq elems' → ∃ rs : List (BitVec 64),
        returned c type (.seq elems) = .seq (rs.map Num.real) ∧
          List.Forall₂ RealRight (elems'.map (shaderReal c)) rs := by
    cases type with
    | int => exact absurd rfl hne.1
    | float => exact absurd rfl hne.2
    | vec2 | vec3 | vec4 | mat4 => exact Iff.rfl
  rw [hright, ← forall₂_back, returned_seq c hne hlen]
  constructor
  · intro h
    obtain ⟨rs, hrs, hforall⟩ := h elems rfl
    have hinj : Function.Injective Num.real := fun _ _ heq => by simpa using heq
    rwa [hinj.list_map (Val.seq.inj hrs)]
  · intro h elems' heq
    rw [← Val.seq.inj heq]
    exact ⟨_, rfl, h⟩

/-- A value that fits comes back right just where the reals in it are in range. -/
theorem valRight_returned {type : InputType} {val : Val} (h : Fits type val) :
    ValRight c type val (returned c type val) ↔
      ∀ w ∈ realsOf c type val, magnitude w < realInfinity → InRange w := by
  rcases eq_or_ne type .int with rfl | hint
  · exact ⟨fun _ w hw => absurd hw List.not_mem_nil, fun _ => intRight_returned c val⟩
  · rcases eq_or_ne type .float with rfl | hfloat
    · cases val with
      | num n =>
          rw [floatRight_returned]
          exact ⟨fun hn w hw => List.mem_singleton.mp hw ▸ hn, fun hall => hall _ List.mem_cons_self⟩
      | seq elems => simp [Fits, OfType, shaderSize, shaderDim] at h
    · cases val with
      | num n =>
          -- a vector that is not given
          cases type with
          | int => exact absurd rfl hint
          | float => exact absurd rfl hfloat
          | vec2 | vec3 | vec4 | mat4 =>
              exact ⟨fun _ w hw => absurd hw List.not_mem_nil, fun _ elems heq => by simp at heq⟩
      | seq elems =>
          have hlen : elems.length = shaderSize type := by cases type <;> simp_all [Fits, OfType]
          rw [seqRight_returned c ⟨hint, hfloat⟩ hlen]
          cases type with
          | int => exact absurd rfl hint
          | float => exact absurd rfl hfloat
          | vec2 | vec3 | vec4 | mat4 => exact Iff.rfl

variable {c} in
theorem PackedRight.inRange {p : Program} (hright : PackedRight c p vals) (h : p.Typed vals) :
    ∀ input ∈ p.inputs, ∀ w ∈ realsOf c input.type (given vals input), magnitude w < realInfinity →
      InRange w := by
  intro input hin
  have hfits : ∀ input ∈ p.inputs, Fits input.type (given vals input) := fun input hin => h.fits hin
  obtain ⟨block, hblock, hback, -⟩ := hright.comes
  obtain rfl := Option.some.inj ((shaderPack_eq c hfits).symm.trans hblock)
  rw [shaderUnpack_eq c hfits, List.forall₂_map_right_iff, List.forall₂_same] at hback
  exact (valRight_returned c (hfits input hin)).mp (hback input hin).2

/-- The values of a program are packed right just where none of the reals in them is rounded to an
    infinity or lies just below the least normal float. -/
theorem packedRight_iff (p : Program) (vals : List (Str × Val)) (h : p.Typed vals) : PackedRight c p vals ↔
    ∀ input ∈ p.inputs, ∀ w ∈ realsOf c input.type (given vals input), magnitude w < realInfinity →
      InRange w := by
  refine ⟨fun hright => hright.inRange h, ?_⟩
  intro hrange
  have hfits : ∀ input ∈ p.inputs, Fits input.type (given vals input) := fun input hin => h.fits hin
  have hplaced := placed_layoutFrom p.inputs 0
  have hunpack := shaderUnpack_eq c hfits
  refine ⟨forall₂_layoutFrom p.inputs 0, hplaced.apart, ?_, _, shaderPack_eq c hfits, ?_, ?_⟩
  · intro field hin
    exact ⟨hplaced.bounded field hin, Nat.le_trans (hplaced.inside field hin).2 (le_align _ (by decide))⟩
  · rw [hunpack, List.forall₂_map_right_iff, List.forall₂_same]
    exact fun input hin => ⟨rfl, (valRight_returned c (hfits input hin)).mpr (hrange input hin)⟩
  · rw [hunpack, shaderPack_again c p.distinct hfits, shaderPack_eq c hfits]

/-- A program of a float and an int. -/
def tinted : Program where
  inputs := [⟨asc "tint", .float, .num (.fixed 0)⟩, ⟨asc "count", .int, .num (.int 7)⟩]
  distinct := by decide
  fits := by simp [Fits, OfType]

theorem typed_tinted (n : Num) : tinted.Typed [(asc "tint", .num n)] := by
  intro input hin val hval
  obtain rfl : val = (asc "tint", .num n) := List.mem_singleton.mp (List.mem_of_find?_eq_some hval)
  have hfound := List.find?_some hval
  have hname : asc "tint" = input.name := of_decide_eq_true hfound
  rcases List.mem_cons.mp hin with rfl | hin
  · trivial
  · obtain rfl := List.mem_singleton.mp hin
    exact absurd hname (by decide)

example : shaderLayout tinted.inputs = (16, [⟨asc "tint", .float, 0⟩, ⟨asc "count", .int, 4⟩]) := by decide

/-- What the conversions give of 0. -/
def zeroes : Conversions := ⟨fun _ => 0, fun _ => 0, fun _ => 0⟩

/-- With the real 1.5. -/
theorem packedRight_iff_of_tint : PackedRight zeroes tinted [(asc "tint", .num (.real 0x3ff8000000000000))] ↔
    ∀ input ∈ tinted.inputs,
      ∀ w ∈ realsOf zeroes input.type (given [(asc "tint", .num (.real 0x3ff8000000000000))] input),
      magnitude w < realInfinity → InRange w :=
  packedRight_iff zeroes tinted _ (typed_tinted _)

/-- A real of 1e300 does not come back as an infinity. -/
theorem not_packedRight_large :
    ¬ PackedRight zeroes tinted [(asc "tint", .num (.real 0x7e37e43c8800759c))] := by
  intro hright
  have hrange := hright.inRange (typed_tinted _) ⟨asc "tint", .float, .num (.fixed 0)⟩ List.mem_cons_self
    0x7e37e43c8800759c (by decide) (by decide)
  exact absurd hrange.1 (by decide)

end ChrysaLisp.Shader
