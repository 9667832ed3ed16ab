import ChrysaLisp.Collections.Maps
import ChrysaLisp.Collections.Xset

set_option autoImplicit false

/-! # Runs of sets

The runs of `Collections/Maps.lean` with sets: an `Xset` is put through a run as a finite map whose
keys have nothing to them. With the maps' runs that is what maps and sets are for, and where they
are not that. -/

namespace ChrysaLisp.Collections

open FiniteMap Run

variable {O : Type}

inductive SetOp (O : Type)
  | newXset (num_buckets : ℕ) (cmp_fnc : O → O → Bool) (hash_fnc : O → ℤ)
  | find (set : ℕ) (key : O)
  | insert (set : ℕ) (key : O)
  | inserted (set : ℕ) (key : O)
  | intern (set : ℕ) (key : O)
  | erase (set : ℕ) (key : O)
  | resize (set num_buckets : ℕ)
  | copy (set : ℕ)
  | move (set : ℕ)
  | empty (set : ℕ)
  | each (set : ℕ)

inductive SetAnswer (O : Type)
  | done
  | value (key : O)
  | isNew (b : Bool)
  | keys (l : List O)

inductive SetExpected (O : Type)
  | done
  | value (key : O)
  | isNew (b : Bool)
  | keys (s : Set O)

/-- Which set an operation is on. -/
def SetOp.on : SetOp O → Option ℕ
  | .newXset _ _ _ => none
  | .find i _ | .insert i _ | .inserted i _ | .intern i _ | .erase i _ | .resize i _
  | .copy i | .move i | .empty i | .each i => some i

section Act

variable [DecidableEq O] (nil : O)

/-- A method of the set: the set after it, the set it comes back with if that is a new one, and its
    answer. -/
def Xset.act (m : Xset O) : SetOp O → Option (Xset O × Option (Xset O) × SetAnswer O)
  | .newXset _ _ _ => some (m, none, .done)
  | .find _ key => (m.find nil key).map (fun k => (m, none, .value k))
  | .insert _ key => (m.insert key).map (fun m' => (m', none, .done))
  | .inserted _ key => (m.inserted key).map (fun r => (r.1, none, .isNew r.2))
  | .intern _ key => (m.intern key).map (fun r => (r.1, none, .value r.2))
  | .erase _ key => (m.erase key).map (fun m' => (m', none, .done))
  | .resize _ n => (m.resize nil n).map (fun m' => (m', none, .done))
  | .copy _ => some (m, some m.copy, .done)
  | .move _ => some (m.move.1, some m.move.2, .done)
  | .empty _ => some (m.empty, none, .done)
  | .each _ => some (m, none, .keys m.each)

/-- An operation on the sets there are. -/
def performSet (sets : List (Xset O)) (op : SetOp O) : Option (List (Xset O) × SetAnswer O) :=
  match op with
  | .newXset n cmp_fnc hash_fnc => some (sets ++ [Xset.new n cmp_fnc hash_fnc], .done)
  | op => do
      let i ← op.on
      let m ← sets[i]?
      let r ← m.act nil op
      pure (sets.set i r.1 ++ r.2.1.toList, r.2.2)

/-- The answer of an operation, none if it throws. -/
def actSet (sets : List (Xset O)) (op : SetOp O) : List (Xset O) × Option (SetAnswer O) :=
  match performSet nil sets op with
  | some r => (r.1, some r.2)
  | none => (sets, none)

end Act

/-! ## Finite sets put through the run -/

/-- A finite set and the comparison of its keys. -/
structure IdealSet (O : Type) where
  same : O → O → Bool
  set : Map O Unit

/-- The key as it came first. -/
def IdealSet.key (m : IdealSet O) (k : O) : Option O := (m.set k).map Prod.fst

section Spec

variable (nil : O)

def IdealSet.act (m : IdealSet O) : SetOp O → IdealSet O × Option (IdealSet O) × SetExpected O
  | .newXset _ _ _ => (m, none, .done)
  | .find _ key => (m, none, .value ((m.key key).getD nil))
  | .insert _ key => ({ m with set := m.set.put m.same key () }, none, .done)
  | .inserted _ key => ({ m with set := m.set.put m.same key () }, none, .isNew (m.set key).isNone)
  | .intern _ key =>
      ({ m with set := m.set.put m.same key () }, none, .value ((m.key key).getD key))
  | .erase _ key => ({ m with set := m.set.drop m.same key }, none, .done)
  | .resize _ _ => (m, none, .done)
  | .copy _ => (m, some m, .done)
  | .move _ => ({ m with set := Map.empty }, some m, .done)
  | .empty _ => ({ m with set := Map.empty }, none, .done)
  | .each _ => (m, none, .keys {k | (k, ()) ∈ m.set.pairs})

def specSet (ideals : List (IdealSet O)) (op : SetOp O) : List (IdealSet O) × SetExpected O :=
  match op with
  | .newXset _ cmp_fnc _ => (ideals ++ [⟨cmp_fnc, Map.empty⟩], .done)
  | op =>
      match op.on.bind (fun i => ideals[i]?.map (fun m => (i, m.act nil op))) with
      | some (i, r) => (ideals.set i r.1 ++ r.2.1.toList, r.2.2)
      | none => (ideals, .done)

end Spec

/-- What a run was told is what a finite set says. -/
def ToldSet : Option (SetAnswer O) → SetExpected O → Prop
  | some .done, .done => True
  | some (.value k), .value k' => k = k'
  | some (.isNew b), .isNew b' => b = b'
  | some (.keys l), .keys s => l.Nodup ∧ ∀ k, k ∈ l ↔ k ∈ s
  | _, _ => False

/-- The bucket of the key is one of `num_buckets`, the same for keys that compare the same, and a
    set with `:nil` is not resized. -/
def Xset.Fits (nil : O) (m : Xset O) : SetOp O → Prop
  | .find _ key | .insert _ key | .inserted _ key | .intern _ key | .erase _ key => m.Keyed key
  | .resize _ n => m.Carried nil n
  | _ => True

/-- What a step must keep to, in the state it comes to: it is on a set there is, and fits it. -/
def FitsSet (nil : O) (sets : List (Xset O)) (op : SetOp O) : Prop :=
  match op with
  | .newXset _ cmp_fnc _ => Same cmp_fnc
  | op => ∃ i m, op.on = some i ∧ sets[i]? = some m ∧ m.Fits nil op

/-! ## The simulation -/

section Sim

variable [DecidableEq O] {nil : O}

/-- The set holds the finite set. -/
def StandsSet (m : Xset O) (I : IdealSet O) : Prop :=
  I.same = m.cmp_fnc ∧ Same m.cmp_fnc ∧ m.Is I.set

theorem set_agrees {m : Xset O} {I : IdealSet O} (h : StandsSet m I) (op : SetOp O)
    (hfits : m.Fits nil op) : ∃ m' that a, m.act nil op = some (m', that, a) ∧
      StandsSet m' (I.act nil op).1 ∧ Option.Rel StandsSet that (I.act nil op).2.1 ∧
      ToldSet (some a) (I.act nil op).2.2 := by
  obtain ⟨same, set⟩ := I
  obtain ⟨rfl, hsame, h⟩ := h
  cases op with
  | newXset _ _ _ => exact ⟨m, none, .done, rfl, ⟨rfl, hsame, h⟩, Option.Rel.none, trivial⟩
  | find i key =>
      refine ⟨m, none, .value (((set key).map Prod.fst).getD nil), ?_, ⟨rfl, hsame, h⟩,
        Option.Rel.none, rfl⟩
      simp only [Xset.act, h.find nil hfits, Option.map_some]
  | insert i key =>
      obtain ⟨m', hm', hcmp, his⟩ := h.insert hsame hfits
      refine ⟨m', none, .done, ?_, ⟨hcmp.symm, hcmp ▸ hsame, his⟩, Option.Rel.none, trivial⟩
      simp only [Xset.act, hm', Option.map_some]
  | inserted i key =>
      obtain ⟨m', hm', hcmp, his⟩ := h.inserted hsame hfits
      refine ⟨m', none, .isNew (set key).isNone, ?_, ⟨hcmp.symm, hcmp ▸ hsame, his⟩,
        Option.Rel.none, rfl⟩
      simp only [Xset.act, hm', Option.map_some]
  | intern i key =>
      obtain ⟨m', hm', hcmp, his⟩ := h.intern hsame hfits
      refine ⟨m', none, .value (((set key).map Prod.fst).getD key), ?_,
        ⟨hcmp.symm, hcmp ▸ hsame, his⟩, Option.Rel.none, rfl⟩
      simp only [Xset.act, hm', Option.map_some]
  | erase i key =>
      obtain ⟨m', hm', hcmp, his⟩ := h.erase hsame hfits
      refine ⟨m', none, .done, ?_, ⟨hcmp.symm, hcmp ▸ hsame, his⟩, Option.Rel.none, trivial⟩
      simp only [Xset.act, hm', Option.map_some]
  | resize i n =>
      obtain ⟨m', hm', hcmp, his⟩ := h.resize hsame hfits
      refine ⟨m', none, .done, ?_, ⟨hcmp.symm, hcmp ▸ hsame, his⟩, Option.Rel.none, trivial⟩
      simp only [Xset.act, hm', Option.map_some]
  | copy i =>
      exact ⟨m, some m.copy, .done, rfl, ⟨rfl, hsame, h⟩, Option.Rel.some ⟨rfl, hsame, h.copy⟩,
        trivial⟩
  | move i =>
      exact ⟨m.move.1, some m.move.2, .done, rfl, ⟨rfl, hsame, h.move.1⟩,
        Option.Rel.some ⟨rfl, hsame, h.move.2⟩, trivial⟩
  | empty i => exact ⟨m.empty, none, .done, rfl, ⟨rfl, hsame, h.empty⟩, Option.Rel.none, trivial⟩
  | each i =>
      exact ⟨m, none, .keys m.each, rfl, ⟨rfl, hsame, h⟩, Option.Rel.none, h.each hsame⟩

/-- An operation on some sets is one on the finite sets they hold. -/
theorem actSet_agrees {sets : List (Xset O)} {ideals : List (IdealSet O)}
    (h : List.Forall₂ StandsSet sets ideals) (op : SetOp O) (hfits : FitsSet nil sets op) :
    ToldSet (actSet nil sets op).2 (specSet nil ideals op).2 ∧
      List.Forall₂ StandsSet (actSet nil sets op).1 (specSet nil ideals op).1 := by
  have hon : op.on ≠ none → (∃ i m, op.on = some i ∧ sets[i]? = some m ∧ m.Fits nil op) →
      ToldSet (actSet nil sets op).2 (specSet nil ideals op).2 ∧
        List.Forall₂ StandsSet (actSet nil sets op).1 (specSet nil ideals op).1 := by
    rintro hne ⟨i, m, hi, hm, hfit⟩
    obtain ⟨I, hI, hstands⟩ := forall₂_get h hm
    obtain ⟨m', that, a, hact, hm', hthat, htold⟩ := set_agrees hstands op hfit
    have hperform : performSet nil sets op = some (sets.set i m' ++ that.toList, a) := by
      cases op with
      | newXset _ _ _ => exact absurd rfl hne
      | _ =>
          cases hi
          simp only [performSet, SetOp.on, Option.bind_eq_bind, Option.bind_some, hm, hact]
          rfl
    have hspec : specSet nil ideals op = (ideals.set i (I.act nil op).1 ++
        (I.act nil op).2.1.toList, (I.act nil op).2.2) := by
      cases op with
      | newXset _ _ _ => exact absurd rfl hne
      | _ =>
          cases hi
          simp only [specSet, SetOp.on, Option.bind_some, hI, Option.map_some]
    rw [actSet, hperform, hspec]
    exact ⟨htold, forall₂_append (forall₂_set h i hm') (forall₂_toList hthat)⟩
  cases op with
  | newXset n cmp_fnc hash_fnc =>
      exact ⟨trivial, forall₂_append h (List.Forall₂.cons
        ⟨rfl, hfits, Xset.is_new n cmp_fnc hash_fnc⟩ List.Forall₂.nil)⟩
  | _ => exact hon (fun he => by cases he) hfits

/-- A run that keeps to it is told what finite sets say. -/
theorem set_run {ops : List (SetOp O)}
    (hops : Each (fun sets op => (actSet nil sets op).1) (FitsSet nil) [] ops) :
    List.Forall₂ ToldSet (answers (actSet nil) [] ops) (answers (specSet nil) [] ops) :=
  answers_rel_of_sim (R := List.Forall₂ StandsSet) (C := FitsSet nil)
    (fun _ _ op h hfits => actSet_agrees h op hfits) List.Forall₂.nil hops

end Sim

/-! ## Maps and sets -/

/-- The maps of the four kinds, and the sets, put through any run of which each step keeps to what
    it must, are told what finite maps and finite sets are. -/
theorem maps_are_finite_maps [DecidableEq O] (L : Lisp O) (hL : L.Lawful) :
    (∀ es : List (Event O), Each (fun maps e => (act L maps e).1) (Fits L) [] es →
      List.Forall₂ Told (answers (act L) [] es) (answers (spec L) [] es)) ∧
    (∀ ops : List (SetOp O), Each (fun sets op => (actSet L.nil sets op).1) (FitsSet L.nil) [] ops →
      List.Forall₂ ToldSet (answers (actSet L.nil) [] ops) (answers (specSet L.nil) [] ops)) :=
  ⟨fun _ hes => map_run hL hes, fun _ hops => set_run hops⟩

/-- Symbols at the addresses, `:nil` the first. -/
def symbols : Lisp ℕ := ⟨0, fun _ => .sym, fun a b => decide (a = b), fun a => a⟩

theorem symbols_lawful : symbols.Lawful where
  same := Env.same_addr
  sym _ _ _ := decide_eq_true_iff

/-- An event of a run that finds no slot known. -/
def plain (op : Op ℕ) : Event ℕ := ⟨fun _ _ => 0, 0, op⟩

/-- A pair in an Xmap of two buckets, which is resized to one, and a key in an Xset. -/
theorem maps_are_finite_maps_resized :
    List.Forall₂ Told (answers (act symbols) [] [plain (.newXmap 2 symbols.eql symbols.hash),
        plain (.insert 0 1 5), plain (.resize 0 1), plain (.find 0 1)])
      (answers (spec symbols) [] [plain (.newXmap 2 symbols.eql symbols.hash),
        plain (.insert 0 1 5), plain (.resize 0 1), plain (.find 0 1)]) ∧
    List.Forall₂ ToldSet
      (answers (actSet 0) [] [.newXset 2 symbols.eql symbols.hash, .insert 0 1, .find 0 1])
      (answers (specSet 0) [] [.newXset 2 symbols.eql symbols.hash, .insert 0 1, .find 0 1]) := by
  refine ⟨(maps_are_finite_maps symbols symbols_lawful).1 _ ⟨symbols_lawful.same, ?_⟩,
    (maps_are_finite_maps symbols symbols_lawful).2 _ ⟨symbols_lawful.same, ?_⟩⟩
  · refine ⟨⟨0, _, rfl, rfl, ⟨1, by decide, by decide⟩⟩, ⟨0, _, rfl, rfl, ?_⟩,
      ⟨0, _, rfl, rfl, ⟨0, by decide, by decide⟩⟩, trivial⟩
    exact fun p hp => by revert p; decide
  · exact ⟨⟨0, _, rfl, rfl, ⟨1, by decide, by decide⟩⟩, ⟨0, _, rfl, rfl, ⟨1, by decide, by decide⟩⟩,
      trivial⟩

/-- Two pairs, the second of `:nil`, in an Xmap, which is resized. -/
def resizeNil : List (Event ℕ) := [
  plain (.newXmap 1 symbols.eql symbols.hash), plain (.insert 0 1 5), plain (.insert 0 2 0),
  plain (.resize 0 1), plain (.find 0 1)]

/-- The resize stops at the value `:nil`, and the pairs under it are lost. -/
theorem resize_loses : symbols.Lawful ∧
    ¬ List.Forall₂ Told (answers (act symbols) [] resizeNil) (answers (spec symbols) [] resizeNil) := by
  refine ⟨symbols_lawful, fun h => ?_⟩
  obtain ⟨_, hspec, htold⟩ := forall₂_get h (i := 4) (a := some (.value 0)) rfl
  have hwanted : (answers (spec symbols) [] resizeNil)[4]? = some (.value 5) := rfl
  rw [hwanted, Option.some_inj] at hspec
  subst hspec
  exact absurd (show 0 = 5 from htold) (by decide)

end ChrysaLisp.Collections
