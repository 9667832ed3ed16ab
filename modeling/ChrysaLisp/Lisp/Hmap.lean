import Mathlib.Logic.Function.Basic
import ChrysaLisp.Library.FiniteMap

set_option autoImplicit false

/-! # Environments one by one

`class/hmap`: the buckets of an environment and what searches them. A symbol is searched for by its
address, first where its `str_hashslot` says, whatever environment that was said of. An environment of
one bucket is itself the bucket, here a list of one as everywhere. -/

namespace ChrysaLisp.Lookup

open FiniteMap

variable {S V : Type}

structure Hmap (S V : Type) where
  buckets : List (List (S × V))
  parent : Option ℕ
  refs : ℕ
  capacity : ℕ
  /-- Its elements are no longer in the cells it was made with. -/
  grown : Bool

/-- `:hset :bucket` -/
def bucketOf (hash : S → ℕ) (num_buckets : ℕ) (key : S) : ℕ :=
  if num_buckets = 1 then 0 else hash key % num_buckets

namespace Hmap

section Room

variable (room : ℕ) (grow : ℕ → ℕ)

/-- `:array :set_cap`, with the capacity the heap then gives. -/
def setCap (h : Hmap S V) (new_cap : ℕ) : Hmap S V :=
  if h.capacity < new_cap then { h with capacity := grow new_cap, grown := true } else h

/-- `:hmap :create`, with room for some elements in its own cells. -/
def create (num_buckets : ℕ) : Hmap S V :=
  let this : Hmap S V := ⟨List.replicate num_buckets [], none, 1, room, false⟩
  if num_buckets = 1 then this else this.setCap grow num_buckets

/-- `:list :push_back2` on a bucket. -/
def pushBack2 (h : Hmap S V) (j : ℕ) (p : S × V) : Hmap S V :=
  let b := h.buckets.getD j []
  let this := { h with buckets := h.buckets.set j (b ++ [p]) }
  if h.buckets.length = 1 ∧ h.capacity < 2 * (b.length + 1) then this.setCap grow (2 * h.capacity) else this

variable (hash : S → ℕ)

/-- `:hmap :copy` -/
def copy (h : Hmap S V) (num_buckets : ℕ) : Hmap S V :=
  h.buckets.flatten.foldl (fun obj p => obj.pushBack2 grow (bucketOf hash num_buckets p.1) p)
    { create room grow num_buckets with parent := h.parent }

/-- `:hmap :resize`: the elements of a copy are put in the place of its own. -/
def resize (h : Hmap S V) (num_buckets : ℕ) : Hmap S V :=
  let that := h.copy room grow hash num_buckets
  let length := if num_buckets = 1 then 2 * that.buckets.flatten.length else num_buckets
  { h.setCap grow length with buckets := that.buckets }

end Room

section Search

variable [DecidableEq S] (hash : S → ℕ) (slot : S → ℕ) (h : Hmap S V) (key : S)

/-- The bucket of a key, and which it is. -/
def place : ℕ := bucketOf hash h.buckets.length key

def bucket : List (S × V) := h.buckets.getD (h.place hash key) []

/-- The last known slot, and then a scan of the bucket. -/
def pfind : Option ℕ :=
  let b := h.bucket hash key
  if b[slot key]?.map Prod.fst = some key then some (slot key)
  else b.findIdx? (fun p => decide (p.1 = key))

/-- The slot where a key was found is noted for next time, as it was if that is where it was. -/
def noted (i : Option ℕ) : S → ℕ := i.elim slot (fun i => Function.update slot key i)

/-- The value of what was found is another. -/
def setValue (i : ℕ) (value : V) : Hmap S V :=
  { h with
    buckets := h.buckets.set (h.place hash key) ((h.bucket hash key).modify i (fun p => (p.1, value))) }

/-- `:hmap :pinsert` -/
def pinsert (grow : ℕ → ℕ) (value : V) : Hmap S V × (S → ℕ) :=
  match h.pfind hash slot key with
  | some i => (h.setValue hash key i value, noted slot key (some i))
  | none =>
      (h.pushBack2 grow (h.place hash key) (key, value),
        noted slot key (some (h.bucket hash key).length))

/-- `(undef env sym)`, with `:list :erase2`. -/
def undef : Hmap S V × (S → ℕ) :=
  match h.pfind hash slot key with
  | some i =>
      ({ h with buckets := h.buckets.set (h.place hash key) (swapOut (h.bucket hash key) i) },
        noted slot key (some i))
  | none => (h, slot)

/-- The value at what was found. -/
def valueAt (i : ℕ) : Option V := ((h.bucket hash key)[i]?).map Prod.snd

end Search

end Hmap

/-! ## What an environment binds -/

/-- Symbols are the same by their address. -/
def same [DecidableEq S] (a b : S) : Bool := decide (a = b)

section Same

variable [DecidableEq S]

theorem same_iff {a b : S} : same a b = true ↔ a = b := decide_eq_true_iff

theorem same_same : Same (same (S := S)) where
  refl _ := same_iff.2 rfl
  symm h := same_iff.2 (same_iff.1 h).symm
  trans hab hbc := same_iff.2 ((same_iff.1 hab).trans (same_iff.1 hbc))

/-- What is bound as the pairs there are. -/
def pairsOf (f : S → Option V) : Map S V := fun k => (f k).map (fun v => (k, v))

omit [DecidableEq S] in
@[simp] theorem find_pairsOf (f : S → Option V) (k : S) : (pairsOf f).find k = f k := by
  simp [Map.find, pairsOf, Function.comp_def]

theorem put_pairsOf (f : S → Option V) (k : S) (v : V) :
    (pairsOf f).put same k v = pairsOf (Function.update f k (some v)) := by
  funext x
  rw [Map.put]
  by_cases hx : k = x
  · subst hx
    rw [if_pos (same_iff.2 rfl), pairsOf, pairsOf, Function.update_self]
    cases f k with
    | none => rfl
    | some w => rfl
  · rw [if_neg (fun h => hx (same_iff.1 h)), pairsOf, pairsOf, Function.update_of_ne (Ne.symm hx)]

theorem drop_pairsOf (f : S → Option V) (k : S) :
    (pairsOf f).drop same k = pairsOf (Function.update f k none) := by
  funext x
  rw [Map.drop]
  by_cases hx : k = x
  · subst hx
    rw [if_pos (same_iff.2 rfl), pairsOf, Function.update_self, Option.map_none]
  · rw [if_neg (fun h => hx (same_iff.1 h)), pairsOf, pairsOf, Function.update_of_ne (Ne.symm hx)]

end Same

/-- Where a key's pair is. -/
def goesTo (hash : S → ℕ) (num_buckets : ℕ) (key : S) : Option ℕ := some (bucketOf hash num_buckets key)

/-- The environment binds what the map says, each key in its bucket and no key twice. -/
structure Binds [DecidableEq S] (hash : S → ℕ) (h : Hmap S V) (f : S → Option V) : Prop where
  pos : 0 < h.buckets.length
  kept : Kept same (goesTo hash h.buckets.length) h.buckets (pairsOf f)

theorem bucketOf_lt (hash : S → ℕ) {n : ℕ} (hn : 0 < n) (key : S) : bucketOf hash n key < n := by
  unfold bucketOf
  split_ifs with h
  · exact hn
  · exact Nat.mod_lt _ hn

namespace Hmap

section Fields

variable (grow : ℕ → ℕ) (h : Hmap S V)

@[simp] theorem buckets_setCap (n : ℕ) : (h.setCap grow n).buckets = h.buckets := by
  unfold setCap
  split_ifs <;> rfl

@[simp] theorem parent_setCap (n : ℕ) : (h.setCap grow n).parent = h.parent := by
  unfold setCap
  split_ifs <;> rfl

@[simp] theorem refs_setCap (n : ℕ) : (h.setCap grow n).refs = h.refs := by
  unfold setCap
  split_ifs <;> rfl

@[simp] theorem buckets_pushBack2 (j : ℕ) (p : S × V) :
    (h.pushBack2 grow j p).buckets = h.buckets.set j (h.buckets.getD j [] ++ [p]) := by
  unfold pushBack2
  dsimp only
  split_ifs <;> simp

@[simp] theorem parent_pushBack2 (j : ℕ) (p : S × V) : (h.pushBack2 grow j p).parent = h.parent := by
  unfold pushBack2
  dsimp only
  split_ifs <;> simp

@[simp] theorem refs_pushBack2 (j : ℕ) (p : S × V) : (h.pushBack2 grow j p).refs = h.refs := by
  unfold pushBack2
  dsimp only
  split_ifs <;> simp

@[simp] theorem buckets_create (room n : ℕ) :
    (create room grow n : Hmap S V).buckets = List.replicate n [] := by
  unfold create
  dsimp only
  split_ifs <;> simp

@[simp] theorem parent_create (room n : ℕ) : (create room grow n : Hmap S V).parent = none := by
  unfold create
  dsimp only
  split_ifs <;> simp

@[simp] theorem refs_create (room n : ℕ) : (create room grow n : Hmap S V).refs = 1 := by
  unfold create
  dsimp only
  split_ifs <;> simp

section Search

variable [DecidableEq S] (hash : S → ℕ) (slot : S → ℕ) (key : S)

@[simp] theorem parent_pinsert (value : V) :
    (h.pinsert hash slot key grow value).1.parent = h.parent := by
  unfold pinsert setValue
  split
  all_goals simp

@[simp] theorem refs_pinsert (value : V) : (h.pinsert hash slot key grow value).1.refs = h.refs := by
  unfold pinsert setValue
  split
  all_goals simp

@[simp] theorem parent_undef : (h.undef hash slot key).1.parent = h.parent := by
  unfold undef
  split
  all_goals rfl

@[simp] theorem refs_undef : (h.undef hash slot key).1.refs = h.refs := by
  unfold undef
  split
  all_goals rfl

end Search

/-- What pushing pairs on leaves as it was. -/
theorem foldl_pushBack2_fields (place : S → ℕ) (l : List (S × V)) :
    (l.foldl (fun obj p => obj.pushBack2 grow (place p.1) p) h).parent = h.parent ∧
      (l.foldl (fun obj p => obj.pushBack2 grow (place p.1) p) h).refs = h.refs := by
  induction l generalizing h with
  | nil => exact ⟨rfl, rfl⟩
  | cons p l ih =>
    obtain ⟨hparent, hrefs⟩ := ih (h.pushBack2 grow (place p.1) p)
    rw [List.foldl_cons, hparent, hrefs]
    exact ⟨parent_pushBack2 grow h _ p, refs_pushBack2 grow h _ p⟩

@[simp] theorem parent_copy (room : ℕ) (hash : S → ℕ) (n : ℕ) :
    (h.copy room grow hash n).parent = h.parent :=
  (foldl_pushBack2_fields grow _ (bucketOf hash n) _).1

@[simp] theorem refs_copy (room : ℕ) (hash : S → ℕ) (n : ℕ) : (h.copy room grow hash n).refs = 1 := by
  rw [copy, (foldl_pushBack2_fields grow _ (bucketOf hash n) _).2]
  exact refs_create grow room n

@[simp] theorem parent_resize (room : ℕ) (hash : S → ℕ) (n : ℕ) :
    (h.resize room grow hash n).parent = h.parent := parent_setCap grow h _

@[simp] theorem refs_resize (room : ℕ) (hash : S → ℕ) (n : ℕ) :
    (h.resize room grow hash n).refs = h.refs := refs_setCap grow h _

end Fields

end Hmap

section Binds

variable [DecidableEq S] {hash : S → ℕ} {h h' : Hmap S V} {f : S → Option V} {slot : S → ℕ} {key : S}

theorem Binds.congr (hb : Binds hash h f) (heq : h'.buckets = h.buckets) : Binds hash h' f := by
  constructor
  · rw [heq]; exact hb.pos
  · rw [heq]; exact hb.kept

theorem Binds.goes (_ : Binds hash h f) (key : S) :
    Goes same (goesTo hash h.buckets.length) h.buckets key (h.place hash key) where
  here := rfl
  agree p _ hp := by rw [same_iff.1 hp]; rfl

theorem Binds.bucket (hb : Binds hash h f) (key : S) :
    h.buckets[h.place hash key]? = some (h.bucket hash key) := by
  have hlt : h.place hash key < h.buckets.length := bucketOf_lt hash hb.pos key
  rw [Hmap.bucket, List.getD_eq_getElem?_getD, List.getElem?_eq_getElem hlt]
  rfl

/-- Whatever its slot says, a key is found if it is there. -/
theorem found_pfind (hash : S → ℕ) (slot : S → ℕ) (h : Hmap S V) (key : S) :
    Found same (h.bucket hash key) key (h.pfind hash slot key) := by
  unfold Hmap.pfind
  dsimp only
  split_ifs with hslot
  · obtain ⟨p, hp, hkey⟩ := Option.map_eq_some_iff.1 hslot
    exact ⟨p, hp, same_iff.2 hkey⟩
  · exact found_findIdx? (fun p _ => rfl)

theorem Binds.look (hb : Binds hash h f) (slot : S → ℕ) (key : S) :
    f key = (h.pfind hash slot key).bind (h.valueAt hash key) := by
  have hlook := hb.kept.look_found (hb.goes key) (hb.bucket key) (found_pfind hash slot h key)
  rw [← find_pairsOf f key, Map.find, hlook]
  cases h.pfind hash slot key with
  | none => rfl
  | some i => rfl

/-- What is found has a value. -/
theorem Binds.valueAt_isSome (hb : Binds hash h f) {i : ℕ} (hi : h.pfind hash slot key = some i) :
    ∃ v, h.valueAt hash key i = some v ∧ f key = some v := by
  have hlook := hb.look slot key
  have hfound := found_pfind hash slot h key
  rw [hi] at hlook hfound
  obtain ⟨p, hp, -⟩ := hfound
  have hv : h.valueAt hash key i = some p.2 := by rw [Hmap.valueAt, hp]; rfl
  exact ⟨p.2, hv, by rw [hlook, Option.bind_some, hv]⟩

theorem Binds.pfind_isSome (hb : Binds hash h f) (slot : S → ℕ) (key : S) :
    (h.pfind hash slot key).isSome = (f key).isSome := by
  cases hi : h.pfind hash slot key with
  | none => rw [hb.look slot key, hi]; rfl
  | some i =>
    obtain ⟨v, -, hf⟩ := hb.valueAt_isSome hi
    rw [hf]
    rfl

/-- A bucket with what a search of it and a value come to. -/
theorem Binds.put (hb : Binds hash h f) {r : Option ℕ}
    (hr : Found same (h.bucket hash key) key r) {value : V}
    (heq : h'.buckets = h.buckets.set (h.place hash key) (putAt (h.bucket hash key) key value r)) :
    Binds hash h' (Function.update f key (some value)) := by
  have hkept := hb.kept.put same_same (hb.goes key) (hb.bucket key) hr value
  rw [put_pairsOf] at hkept
  constructor
  · rw [heq, List.length_set]; exact hb.pos
  · rw [heq, List.length_set]; exact hkept

theorem Binds.setValue (hb : Binds hash h f) {i : ℕ} (hi : h.pfind hash slot key = some i) (value : V) :
    Binds hash (h.setValue hash key i value) (Function.update f key (some value)) := by
  have hr := found_pfind hash slot h key
  rw [hi] at hr
  exact hb.put hr rfl

theorem Binds.pinsert (hb : Binds hash h f) (grow : ℕ → ℕ) (slot : S → ℕ) (key : S) (value : V) :
    Binds hash (h.pinsert hash slot key grow value).1 (Function.update f key (some value)) := by
  unfold Hmap.pinsert
  cases hi : h.pfind hash slot key with
  | some i => exact hb.setValue hi value
  | none =>
    have hr := found_pfind hash slot h key
    rw [hi] at hr
    exact hb.put hr (by rw [Hmap.buckets_pushBack2]; rfl)

theorem Binds.undef (hb : Binds hash h f) (slot : S → ℕ) (key : S) :
    Binds hash (h.undef hash slot key).1 (Function.update f key none) := by
  have hkept := hb.kept.drop same_same (hb.goes key) (hb.bucket key) (found_pfind hash slot h key)
  rw [drop_pairsOf] at hkept
  unfold Hmap.undef
  cases hi : h.pfind hash slot key with
  | some i =>
    rw [hi] at hkept
    constructor
    · rw [List.length_set]; exact hb.pos
    · rw [List.length_set]; exact hkept
  | none =>
    have hnone : Function.update f key none = f := by
      rw [Function.update_eq_self_iff, hb.look slot key, hi, Option.bind_none]
    rw [hnone]
    exact hb

/-! ## Other buckets -/

theorem holds_nil_pairsOf : Holds same ([] : List (S × V)) (pairsOf fun _ => none) := Holds.nil

theorem binds_create (hash : S → ℕ) (room : ℕ) (grow : ℕ → ℕ) {n : ℕ} (hn : 0 < n) :
    Binds hash (Hmap.create room grow n : Hmap S V) (fun _ => none) := by
  constructor
  · rw [Hmap.buckets_create, List.length_replicate]
    exact hn
  · rw [Hmap.buckets_create, List.length_replicate]
    exact (filled_replicate _ n).kept same_same holds_nil_pairsOf (List.Perm.refl _)

omit [DecidableEq S] in
theorem filled_foldl (hash : S → ℕ) (grow : ℕ → ℕ) {n : ℕ} (hn : 0 < n) (l : List (S × V))
    {done : List (S × V)} (hlen : h.buckets.length = n) (hdone : Filled (goesTo hash n) h.buckets done) :
    (l.foldl (fun obj p => obj.pushBack2 grow (bucketOf hash n p.1) p) h).buckets.length = n ∧
      Filled (goesTo hash n) (l.foldl (fun obj p => obj.pushBack2 grow (bucketOf hash n p.1) p) h).buckets
        (l.reverse ++ done) := by
  induction l generalizing h done with
  | nil => exact ⟨hlen, hdone⟩
  | cons p l ih =>
    have hlt : bucketOf hash n p.1 < h.buckets.length := by
      rw [hlen]
      exact bucketOf_lt hash hn p.1
    have hb : h.buckets[bucketOf hash n p.1]? = some (h.buckets.getD (bucketOf hash n p.1) []) := by
      rw [List.getD_eq_getElem?_getD, List.getElem?_eq_getElem hlt]
      rfl
    have hpush : Filled (goesTo hash n) (h.pushBack2 grow (bucketOf hash n p.1) p).buckets (p :: done) := by
      rw [Hmap.buckets_pushBack2]
      exact hdone.push rfl hb
    rw [List.foldl_cons, List.reverse_cons, List.append_assoc]
    exact ih (by rw [Hmap.buckets_pushBack2, List.length_set, hlen]) hpush

theorem Binds.copy (hb : Binds hash h f) (room : ℕ) (grow : ℕ → ℕ) {n : ℕ} (hn : 0 < n) :
    Binds hash (h.copy room grow hash n) f := by
  have hempty : (({ Hmap.create room grow n with parent := h.parent } : Hmap S V)).buckets
      = List.replicate n [] := Hmap.buckets_create grow room n
  have hlen : (({ Hmap.create room grow n with parent := h.parent } : Hmap S V)).buckets.length = n := by
    rw [hempty, List.length_replicate]
  obtain ⟨hlen, hfilled⟩ := filled_foldl hash grow hn h.buckets.flatten hlen
    (by rw [hempty]; exact filled_replicate _ n)
  constructor
  · exact hlen.symm ▸ hn
  · have hlen' : (h.copy room grow hash n).buckets.length = n := hlen
    rw [hlen']
    refine hfilled.kept same_same hb.kept.holds ?_
    rw [List.append_nil]
    exact List.reverse_perm _

theorem Binds.resize (hb : Binds hash h f) (room : ℕ) (grow : ℕ → ℕ) {n : ℕ} (hn : 0 < n) :
    Binds hash (h.resize room grow hash n) f := (hb.copy room grow hn).congr rfl

/-! ## The parameters of a call -/

/-- The loop that puts each pair in place and tells the symbol its slot. It gives up at a symbol
    whose slot is of a pair it put there, with what is in place by then. -/
def freshLoop (slot : S → ℕ) (done : List (S × V)) : List (S × V) → Bool × List (S × V) × (S → ℕ)
  | [] => (true, done, slot)
  | (sym, val) :: args =>
      if slot sym < done.length ∧ done[slot sym]?.map Prod.fst = some sym then (false, done, slot)
      else freshLoop (Function.update slot sym done.length) (done ++ [(sym, val)]) args

/-- The pairs bound one by one. -/
def bound (f : S → Option V) (args : List (S × V)) : S → Option V :=
  args.foldl (fun f p => Function.update f p.1 (some p.2)) f

theorem bound_cons (f : S → Option V) (p : S × V) (args : List (S × V)) :
    bound f (p :: args) = bound (Function.update f p.1 (some p.2)) args := rfl

theorem bound_append (f : S → Option V) (l args : List (S × V)) :
    bound f (l ++ args) = bound (bound f l) args := List.foldl_append ..

/-- What is bound anyway does not matter before. -/
theorem bound_congr {f g : S → Option V} {args : List (S × V)}
    (h : ∀ k, (∀ p ∈ args, p.1 ≠ k) → f k = g k) : bound f args = bound g args := by
  induction args generalizing f g with
  | nil => exact funext fun k => h k (by simp)
  | cons p args ih =>
    rw [bound_cons, bound_cons]
    refine ih (fun k hk => ?_)
    by_cases hp : p.1 = k
    · rw [hp, Function.update_self, Function.update_self]
    · rw [Function.update_of_ne (Ne.symm hp), Function.update_of_ne (Ne.symm hp)]
      exact h k (List.forall_mem_cons.2 ⟨hp, hk⟩)

theorem bound_of_notMem {f : S → Option V} {args : List (S × V)} {k : S} (hk : ∀ p ∈ args, p.1 ≠ k) :
    bound f args k = f k := by
  induction args generalizing f with
  | nil => rfl
  | cons p args ih =>
    obtain ⟨hp, hrest⟩ := List.forall_mem_cons.1 hk
    rw [bound_cons, ih hrest, Function.update_of_ne (Ne.symm hp)]

/-- The symbols in place have their slots. -/
def InPlace (slot : S → ℕ) (done : List (S × V)) : Prop :=
  ∀ i p, done[i]? = some p → slot p.1 = i

omit [DecidableEq S] in
theorem InPlace.notMem {done : List (S × V)} (hin : InPlace slot done) {sym : S}
    (hnot : ¬ (slot sym < done.length ∧ done[slot sym]?.map Prod.fst = some sym)) :
    ∀ p ∈ done, p.1 ≠ sym := by
  rintro p hp rfl
  obtain ⟨i, hi⟩ := List.mem_iff_getElem?.1 hp
  have hslot := hin i p hi
  rw [hslot] at hnot
  exact hnot ⟨(List.getElem?_eq_some_iff.1 hi).1, by rw [hi]; rfl⟩

theorem InPlace.push {done : List (S × V)} (hin : InPlace slot done) {sym : S} {val : V}
    (hnew : ∀ p ∈ done, p.1 ≠ sym) :
    InPlace (Function.update slot sym done.length) (done ++ [(sym, val)]) := by
  intro i p hp
  rcases Nat.lt_or_ge i done.length with hi | hi
  · rw [List.getElem?_append_left hi] at hp
    rw [Function.update_of_ne (hnew p (List.mem_of_getElem? hp))]
    exact hin i p hp
  · rw [List.getElem?_append_right hi] at hp
    obtain ⟨hlt, hp⟩ := List.getElem?_eq_some_iff.1 hp
    have hi0 : i = done.length := by
      rw [List.length_singleton] at hlt
      omega
    subst hi0
    simp only [Nat.sub_self, List.getElem_cons_zero] at hp
    rw [← hp, Function.update_self]

/-- No key twice is in place, and all of the pairs are if it did not give up. -/
theorem freshLoop_spec {slot : S → ℕ} {done : List (S × V)} (args : List (S × V))
    (hin : InPlace slot done) (hdone : Holds same done (pairsOf (bound (fun _ => none) done))) :
    ∃ put rest, args = put ++ rest ∧ (freshLoop slot done args).2.1 = done ++ put ∧
      ((freshLoop slot done args).1 = true → rest = []) ∧
      Holds same (done ++ put) (pairsOf (bound (fun _ => none) (done ++ put))) := by
  induction args generalizing slot done with
  | nil => exact ⟨[], [], rfl, by rw [freshLoop, List.append_nil], fun _ => rfl, by rwa [List.append_nil]⟩
  | cons p args ih =>
    obtain ⟨sym, val⟩ := p
    rw [freshLoop]
    split_ifs with hslot
    · refine ⟨[], (sym, val) :: args, rfl, (List.append_nil _).symm, ?_, by rwa [List.append_nil]⟩
      exact fun h => absurd h (by simp)
    · have hnew := hin.notMem hslot
      have hnone : pairsOf (bound (fun _ => none) done) sym = none := by
        rw [pairsOf, bound_of_notMem hnew, Option.map_none]
      have hput := (hdone.put_new same_same hnone val).perm same_same
        (List.perm_append_singleton (sym, val) done).symm
      rw [put_pairsOf] at hput
      have hpush : Holds same (done ++ [(sym, val)])
          (pairsOf (bound (fun _ => none) (done ++ [(sym, val)]))) := by
        rw [bound_append]
        exact hput
      obtain ⟨put, rest, rfl, hloop, hall, hholds⟩ := ih (hin.push hnew) hpush
      refine ⟨(sym, val) :: put, rest, rfl, ?_, hall, ?_⟩
      · rw [hloop, List.append_assoc, List.singleton_append]
      · rw [List.append_assoc, List.singleton_append] at hholds
        exact hholds

theorem binds_single (hash : S → ℕ) (h : Hmap S V) {b : List (S × V)}
    (hb : Holds same b (pairsOf f)) : Binds hash { h with buckets := [b] } f := by
  refine ⟨Nat.one_pos, ?_, ?_⟩
  · rw [List.flatten_singleton]
    exact hb
  · intro j c hc p _
    have hj : j = 0 := by
      have hlt := (List.getElem?_eq_some_iff.1 hc).1
      rw [List.length_singleton] at hlt
      omega
    rw [hj]
    rfl

theorem Binds.eq_none (hb : Binds hash h f) (heq : h.buckets = [[]]) : f = fun _ => none := by
  have hholds := hb.kept.holds
  rw [heq, List.flatten_singleton] at hholds
  funext k
  have hk := congrFun (hholds.unique holds_nil_pairsOf) k
  rw [pairsOf, pairsOf, Option.map_none] at hk
  exact Option.map_eq_none_iff.1 hk

end Binds

end ChrysaLisp.Lookup
