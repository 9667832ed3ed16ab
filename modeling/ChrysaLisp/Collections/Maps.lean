import ChrysaLisp.Library.Run
import ChrysaLisp.Collections.Xmap
import ChrysaLisp.Collections.Emap

set_option autoImplicit false

/-! # Runs of maps

A run makes maps of the four kinds and calls their methods, each map by its place in the order they
came, a copy and what a move comes back with after those there are. What it is told is what `:find`,
`:update` and `:memoize` come back with and the pairs `:each` goes over.

The same run may be put to finite maps, one for each map, of the comparison the map is of. -/

namespace ChrysaLisp.Collections

open FiniteMap Run

variable {O : Type}

/-- A `(Map)`. -/
inductive AnyMap (O : Type)
  | xmap (m : Xmap O)
  | fmap (m : Fmap O)
  | lmap (m : Lmap O)
  | emap (m : Emap O)

/-- What a run does next. What a method is given to call is a function of what it is called with,
    that of `memoize` what it comes back with. -/
inductive Op (O : Type)
  | newXmap (num_buckets : ℕ) (cmp_fnc : O → O → Bool) (hash_fnc : O → ℤ)
  | newFmap (num_buckets : ℕ)
  | newLmap
  | newEmap (num_buckets : ℕ)
  | find (map : ℕ) (key : O)
  | insert (map : ℕ) (key val : O)
  | update (map : ℕ) (key : O) (fnc : O → O)
  | memoize (map : ℕ) (key val : O)
  | erase (map : ℕ) (key : O)
  | resize (map num_buckets : ℕ)
  | copy (map : ℕ)
  | move (map : ℕ)
  | empty (map : ℕ)
  | each (map : ℕ)

/-- An operation, the hints its searches find in the keys, and how often it may sleep. -/
structure Event (O : Type) where
  hints : Hints O
  naps : ℕ
  op : Op O

inductive Answer (O : Type)
  | done
  | value (val : O)
  | pairs (l : List (O × O))

/-! ## The maps -/

namespace AnyMap

def each : AnyMap O → List (O × O)
  | xmap m => m.each
  | fmap m => m.each
  | lmap m => m.each
  | emap m => m.each

variable [DecidableEq O] (L : Lisp O) (hints : Hints O)

def find (key : O) : AnyMap O → Option O
  | xmap m => m.find L.nil key
  | fmap m => m.find L hints key
  | lmap m => some (m.find L hints key)
  | emap m => m.find L hints key

def insert (key val : O) : AnyMap O → Option (AnyMap O)
  | xmap m => (m.insert key val).map xmap
  | fmap m => (m.insert L hints key val).map fmap
  | lmap m => some (lmap (m.insert L hints key val))
  | emap m => (m.insert L hints key val).map emap

def update (naps : ℕ) (key : O) (fnc : O → O) : AnyMap O → Option (AnyMap O × O)
  | xmap m => (m.update L.nil naps key fnc).map (Prod.map xmap id)
  | fmap m => (m.update L hints key fnc).map (Prod.map fmap id)
  | lmap m => some (Prod.map lmap id (m.update L hints key fnc))
  | emap m => (m.update L hints key fnc).map (Prod.map emap id)

def memoize (naps : ℕ) (key val : O) : AnyMap O → Option (AnyMap O × O)
  | xmap m => (m.memoize L.nil naps key val).map (Prod.map xmap id)
  | fmap m => (m.memoize L hints key val).map (Prod.map fmap id)
  | lmap m => (m.memoize L hints key val).map (Prod.map lmap id)
  | emap m => (m.memoize L hints key val).map (Prod.map emap id)

def erase (key : O) : AnyMap O → Option (AnyMap O)
  | xmap m => (m.erase key).map xmap
  | fmap m => (m.erase L hints key).map fmap
  | lmap m => some (lmap (m.erase L hints key))
  | emap m => (m.erase L hints key).map emap

def resize (num_buckets : ℕ) : AnyMap O → Option (AnyMap O)
  | xmap m => (m.resize L.nil num_buckets).map xmap
  | fmap m => (m.resize L hints num_buckets).map fmap
  | lmap m => some (lmap (m.resize num_buckets))
  | emap m => (m.resize L num_buckets).map emap

def copy : AnyMap O → Option (AnyMap O)
  | xmap m => some (xmap m.copy)
  | fmap m => some (fmap m.copy)
  | lmap m => some (lmap m.copy)
  | emap m => (m.copy L hints).map emap

def move : AnyMap O → Option (AnyMap O × AnyMap O)
  | xmap m => some (Prod.map xmap xmap m.move)
  | fmap m => some (Prod.map fmap fmap m.move)
  | lmap m => some (Prod.map lmap lmap m.move)
  | emap m => (m.move L hints).map (Prod.map emap emap)

def empty : AnyMap O → Option (AnyMap O)
  | xmap m => some (xmap m.empty)
  | fmap m => some (fmap m.empty)
  | lmap m => some (lmap m.empty)
  | emap m => m.empty.map emap

/-- A method of the map: the map after it, the map it comes back with if that is a new one, and its
    answer. -/
def act (e : Event O) (m : AnyMap O) : Option (AnyMap O × Option (AnyMap O) × Answer O) :=
  match e.op with
  | .find _ key => (m.find L e.hints key).map (fun val => (m, none, .value val))
  | .insert _ key val => (m.insert L e.hints key val).map (fun m' => (m', none, .done))
  | .update _ key fnc =>
      (m.update L e.hints e.naps key fnc).map (fun r => (r.1, none, .value r.2))
  | .memoize _ key val =>
      (m.memoize L e.hints e.naps key val).map (fun r => (r.1, none, .value r.2))
  | .erase _ key => (m.erase L e.hints key).map (fun m' => (m', none, .done))
  | .resize _ n => (m.resize L e.hints n).map (fun m' => (m', none, .done))
  | .copy _ => (m.copy L e.hints).map (fun that => (m, some that, .done))
  | .move _ => (m.move L e.hints).map (fun r => (r.1, some r.2, .done))
  | .empty _ => m.empty.map (fun m' => (m', none, .done))
  | .each _ => some (m, none, .pairs m.each)
  | _ => some (m, none, .done)

end AnyMap

/-- Which map an operation is on. -/
def Op.on : Op O → Option ℕ
  | .find i _ | .insert i _ _ | .update i _ _ | .memoize i _ _ | .erase i _ | .resize i _
  | .copy i | .move i | .empty i | .each i => some i
  | _ => none

section Act

variable [DecidableEq O] (L : Lisp O)

/-- An operation on the maps there are. -/
def perform (maps : List (AnyMap O)) (e : Event O) : Option (List (AnyMap O) × Answer O) :=
  match e.op with
  | .newXmap n cmp_fnc hash_fnc => some (maps ++ [.xmap (Xmap.new n cmp_fnc hash_fnc)], .done)
  | .newFmap n => some (maps ++ [.fmap (Fmap.new n)], .done)
  | .newLmap => some (maps ++ [.lmap Lmap.new], .done)
  | .newEmap n => (Emap.new n).map (fun m => (maps ++ [.emap m], .done))
  | op => do
      let i ← op.on
      let m ← maps[i]?
      let r ← m.act L e
      pure (maps.set i r.1 ++ r.2.1.toList, r.2.2)

/-- The answer of an operation, none if it throws or never comes back. -/
def act (maps : List (AnyMap O)) (e : Event O) : List (AnyMap O) × Option (Answer O) :=
  match perform L maps e with
  | some r => (r.1, some r.2)
  | none => (maps, none)

end Act

/-! ## Finite maps put through the run -/

/-- A finite map and the comparison of its keys. -/
structure Ideal (O : Type) where
  same : O → O → Bool
  map : Map O O

inductive Expected (O : Type)
  | done
  | value (val : O)
  | pairs (s : Set (O × O))

section Spec

variable [DecidableEq O] (L : Lisp O)

/-- The one map an operation is on, changed by it, the new one it makes, if it does, and what the
    finite map answers. -/
def Ideal.act (m : Ideal O) : Op O → Ideal O × Option (Ideal O) × Expected O
  | .find _ key => (m, none, .value ((m.map.find key).getD L.nil))
  | .insert _ key val => ({ m with map := m.map.put m.same key val }, none, .done)
  | .update _ key fnc =>
      let val := fnc ((m.map.find key).getD L.nil)
      ({ m with map := m.map.put m.same key val }, none, .value val)
  | .memoize _ key val =>
      ({ m with map := (m.map.find key).elim (m.map.put m.same key val) (fun _ => m.map) }, none,
        .value ((m.map.find key).getD val))
  | .erase _ key => ({ m with map := m.map.drop m.same key }, none, .done)
  | .copy _ => (m, some m, .done)
  | .move _ => ({ m with map := Map.empty }, some m, .done)
  | .empty _ => ({ m with map := Map.empty }, none, .done)
  | .each _ => (m, none, .pairs m.map.pairs)
  | _ => (m, none, .done)

def spec (ideals : List (Ideal O)) (e : Event O) : List (Ideal O) × Expected O :=
  match e.op with
  | .newXmap _ cmp_fnc _ => (ideals ++ [⟨cmp_fnc, Map.empty⟩], .done)
  | .newFmap _ | .newLmap => (ideals ++ [⟨L.eql, Map.empty⟩], .done)
  | .newEmap _ => (ideals ++ [⟨Env.addr, Map.empty⟩], .done)
  | op =>
      match op.on.bind (fun i => ideals[i]?.map (fun m => (i, m.act L op))) with
      | some (i, r) => (ideals.set i r.1 ++ r.2.1.toList, r.2.2)
      | none => (ideals, .done)

end Spec

/-- What a run was told is what a finite map says. -/
def Told : Option (Answer O) → Expected O → Prop
  | some .done, .done => True
  | some (.value v), .value w => v = w
  | some (.pairs l), .pairs s => l.Nodup ∧ ∀ p, p ∈ l ↔ p ∈ s
  | _, _ => False

/-! ## What a run must keep to -/

/-- The bucket of the key is one of `num_buckets`, the same for keys that compare the same. A key
    whose value is `:nil` is not updated or memoized, and a map with one is not resized. -/
def Xmap.Fits (nil : O) (m : Xmap O) : Op O → Prop
  | .find _ key | .insert _ key _ | .erase _ key => m.Keyed key
  | .update _ key _ | .memoize _ key _ => m.Keyed key ∧ m.Settled nil key
  | .resize _ n => m.Carried nil n
  | _ => True

def Fmap.Fits (L : Lisp O) (m : Fmap O) : Op O → Prop
  | .find _ key | .insert _ key _ | .erase _ key | .update _ key _ | .memoize _ key _ =>
      m.Keyed L key
  | .resize _ n => m.Carried L n
  | _ => True

/-- The keys are symbols, and one whose value is `:nil` is not memoized, but for `:nil`. -/
def Emap.Fits (L : Lisp O) (m : Emap O) : Op O → Prop
  | .find _ key | .insert _ key _ | .erase _ key | .update _ key _ => L.kind key = .sym
  | .memoize _ key val =>
      L.kind key = .sym ∧ ∀ p ∈ m.each, p.1 = key → p.2 = L.nil → val = L.nil
  | .resize _ n => 0 < n
  | _ => True

def AnyMap.Fits (L : Lisp O) (op : Op O) : AnyMap O → Prop
  | .xmap m => m.Fits L.nil op
  | .fmap m => m.Fits L op
  | .lmap _ => True
  | .emap m => m.Fits L op

/-- What a step must keep to, in the state it comes to: it is on a map there is, and fits it. -/
def Fits (L : Lisp O) (maps : List (AnyMap O)) (e : Event O) : Prop :=
  match e.op with
  | .newXmap _ cmp_fnc _ => Same cmp_fnc
  | .newFmap _ | .newLmap => True
  | .newEmap n => 0 < n
  | op => ∃ i m, op.on = some i ∧ maps[i]? = some m ∧ m.Fits L op

/-! ## The simulation -/

section Sim

variable [DecidableEq O] {L : Lisp O}

/-- The map holds the finite map. -/
def Stands (L : Lisp O) : AnyMap O → Ideal O → Prop
  | .xmap m, I => I.same = m.cmp_fnc ∧ Same m.cmp_fnc ∧ m.Is I.map
  | .fmap m, I => I.same = L.eql ∧ m.Is L I.map
  | .lmap m, I => I.same = L.eql ∧ m.Is L I.map
  | .emap m, I => I.same = Env.addr ∧ m.Is L I.map

/-- An operation on a map that holds a finite map is one on the finite map. -/
def Agrees (L : Lisp O) (m : AnyMap O) (I : Ideal O) (e : Event O) : Prop :=
  ∃ m' that a, m.act L e = some (m', that, a) ∧ Stands L m' (I.act L e.op).1 ∧
    Option.Rel (Stands L) that (I.act L e.op).2.1 ∧ Told (some a) (I.act L e.op).2.2

theorem xmap_agrees {m : Xmap O} {I : Ideal O} (h : Stands L (.xmap m) I) (e : Event O)
    (hfits : m.Fits L.nil e.op) : Agrees L (.xmap m) I e := by
  obtain ⟨same, map⟩ := I
  obtain ⟨rfl, hsame, h⟩ := h
  obtain ⟨hints, naps, op⟩ := e
  cases op with
  | newXmap _ _ _ | newFmap _ | newLmap | newEmap _ =>
      exact ⟨.xmap m, none, .done, rfl, ⟨rfl, hsame, h⟩, Option.Rel.none, trivial⟩
  | find i key =>
      refine ⟨.xmap m, none, .value ((map.find key).getD L.nil), ?_, ⟨rfl, hsame, h⟩,
        Option.Rel.none, rfl⟩
      simp only [AnyMap.act, AnyMap.find, h.find hfits, Option.map_some]
  | insert i key val =>
      obtain ⟨m', hm', hcmp, his⟩ := h.insert hsame hfits val
      refine ⟨.xmap m', none, .done, ?_, ⟨hcmp.symm, hcmp ▸ hsame, his⟩, Option.Rel.none, trivial⟩
      simp only [AnyMap.act, AnyMap.insert, hm', Option.map_some]
  | update i key fnc =>
      obtain ⟨m', hm', hcmp, his⟩ := h.update hsame hfits.1 hfits.2 naps fnc
      refine ⟨.xmap m', none, .value (fnc ((map.find key).getD L.nil)), ?_,
        ⟨hcmp.symm, hcmp ▸ hsame, his⟩, Option.Rel.none, rfl⟩
      simp only [AnyMap.act, AnyMap.update, hm', Option.map_some, Prod.map, id]
  | memoize i key val =>
      obtain ⟨m', hm', hcmp, his⟩ := h.memoize hsame hfits.1 hfits.2 naps val
      refine ⟨.xmap m', none, .value ((map.find key).getD val), ?_,
        ⟨hcmp.symm, hcmp ▸ hsame, his⟩, Option.Rel.none, rfl⟩
      simp only [AnyMap.act, AnyMap.memoize, hm', Option.map_some, Prod.map, id]
  | erase i key =>
      obtain ⟨m', hm', hcmp, his⟩ := h.erase hsame hfits
      refine ⟨.xmap m', none, .done, ?_, ⟨hcmp.symm, hcmp ▸ hsame, his⟩, Option.Rel.none, trivial⟩
      simp only [AnyMap.act, AnyMap.erase, hm', Option.map_some]
  | resize i n =>
      obtain ⟨m', hm', hcmp, his⟩ := h.resize hsame hfits
      refine ⟨.xmap m', none, .done, ?_, ⟨hcmp.symm, hcmp ▸ hsame, his⟩, Option.Rel.none, trivial⟩
      simp only [AnyMap.act, AnyMap.resize, hm', Option.map_some]
  | copy i =>
      exact ⟨.xmap m, some (.xmap m.copy), .done, rfl, ⟨rfl, hsame, h⟩,
        Option.Rel.some ⟨rfl, hsame, h.copy⟩, trivial⟩
  | move i =>
      exact ⟨.xmap m.move.1, some (.xmap m.move.2), .done, rfl, ⟨rfl, hsame, h.move.1⟩,
        Option.Rel.some ⟨rfl, hsame, h.move.2⟩, trivial⟩
  | empty i => exact ⟨.xmap m.empty, none, .done, rfl, ⟨rfl, hsame, h.empty⟩, Option.Rel.none, trivial⟩
  | each i =>
      exact ⟨.xmap m, none, .pairs m.each, rfl, ⟨rfl, hsame, h⟩, Option.Rel.none, h.each hsame⟩

theorem fmap_agrees (hL : L.Lawful) {m : Fmap O} {I : Ideal O} (h : Stands L (.fmap m) I)
    (e : Event O) (hfits : m.Fits L e.op) : Agrees L (.fmap m) I e := by
  obtain ⟨same, map⟩ := I
  obtain ⟨rfl, h⟩ := h
  obtain ⟨hints, naps, op⟩ := e
  cases op with
  | newXmap _ _ _ | newFmap _ | newLmap | newEmap _ =>
      exact ⟨.fmap m, none, .done, rfl, ⟨rfl, h⟩, Option.Rel.none, trivial⟩
  | find i key =>
      refine ⟨.fmap m, none, .value ((map.find key).getD L.nil), ?_, ⟨rfl, h⟩, Option.Rel.none, rfl⟩
      simp only [AnyMap.act, AnyMap.find, h.find hL hints hfits, Option.map_some]
  | insert i key val =>
      obtain ⟨m', hm', his⟩ := h.insert hL hints hfits val
      refine ⟨.fmap m', none, .done, ?_, ⟨rfl, his⟩, Option.Rel.none, trivial⟩
      simp only [AnyMap.act, AnyMap.insert, hm', Option.map_some]
  | update i key fnc =>
      obtain ⟨m', hm', his⟩ := h.update hL hints hfits fnc
      refine ⟨.fmap m', none, .value (fnc ((map.find key).getD L.nil)), ?_, ⟨rfl, his⟩,
        Option.Rel.none, rfl⟩
      simp only [AnyMap.act, AnyMap.update, hm', Option.map_some, Prod.map, id]
  | memoize i key val =>
      obtain ⟨m', hm', his⟩ := h.memoize hL hints hfits val
      refine ⟨.fmap m', none, .value ((map.find key).getD val), ?_, ⟨rfl, his⟩, Option.Rel.none, rfl⟩
      simp only [AnyMap.act, AnyMap.memoize, hm', Option.map_some, Prod.map, id]
  | erase i key =>
      obtain ⟨m', hm', his⟩ := h.erase hL hints hfits
      refine ⟨.fmap m', none, .done, ?_, ⟨rfl, his⟩, Option.Rel.none, trivial⟩
      simp only [AnyMap.act, AnyMap.erase, hm', Option.map_some]
  | resize i n =>
      obtain ⟨m', hm', his⟩ := h.resize hL hints hfits
      refine ⟨.fmap m', none, .done, ?_, ⟨rfl, his⟩, Option.Rel.none, trivial⟩
      simp only [AnyMap.act, AnyMap.resize, hm', Option.map_some]
  | copy i =>
      exact ⟨.fmap m, some (.fmap m.copy), .done, rfl, ⟨rfl, h⟩, Option.Rel.some ⟨rfl, h.copy⟩,
        trivial⟩
  | move i =>
      exact ⟨.fmap m.move.1, some (.fmap m.move.2), .done, rfl, ⟨rfl, h.move.1⟩,
        Option.Rel.some ⟨rfl, h.move.2⟩, trivial⟩
  | empty i => exact ⟨.fmap m.empty, none, .done, rfl, ⟨rfl, h.empty⟩, Option.Rel.none, trivial⟩
  | each i => exact ⟨.fmap m, none, .pairs m.each, rfl, ⟨rfl, h⟩, Option.Rel.none, h.each hL⟩

theorem lmap_agrees (hL : L.Lawful) {m : Lmap O} {I : Ideal O} (h : Stands L (.lmap m) I)
    (e : Event O) : Agrees L (.lmap m) I e := by
  obtain ⟨same, map⟩ := I
  obtain ⟨rfl, h⟩ := h
  obtain ⟨hints, naps, op⟩ := e
  cases op with
  | newXmap _ _ _ | newFmap _ | newLmap | newEmap _ =>
      exact ⟨.lmap m, none, .done, rfl, ⟨rfl, h⟩, Option.Rel.none, trivial⟩
  | find i key =>
      exact ⟨.lmap m, none, .value (m.find L hints key), rfl, ⟨rfl, h⟩, Option.Rel.none,
        h.find hL hints key⟩
  | insert i key val =>
      exact ⟨.lmap (m.insert L hints key val), none, .done, rfl, ⟨rfl, h.insert hL hints key val⟩,
        Option.Rel.none, trivial⟩
  | update i key fnc =>
      obtain ⟨hval, his⟩ := h.update hL hints key fnc
      exact ⟨.lmap (m.update L hints key fnc).1, none, .value (m.update L hints key fnc).2, rfl,
        ⟨rfl, his⟩, Option.Rel.none, hval⟩
  | memoize i key val =>
      obtain ⟨m', hm', his⟩ := h.memoize hL hints key val
      refine ⟨.lmap m', none, .value ((map.find key).getD val), ?_, ⟨rfl, his⟩, Option.Rel.none, rfl⟩
      simp only [AnyMap.act, AnyMap.memoize, hm', Option.map_some, Prod.map, id]
  | erase i key =>
      exact ⟨.lmap (m.erase L hints key), none, .done, rfl, ⟨rfl, h.erase hL hints key⟩,
        Option.Rel.none, trivial⟩
  | resize i n => exact ⟨.lmap m, none, .done, rfl, ⟨rfl, h⟩, Option.Rel.none, trivial⟩
  | copy i =>
      exact ⟨.lmap m, some (.lmap m.copy), .done, rfl, ⟨rfl, h⟩, Option.Rel.some ⟨rfl, h.copy⟩,
        trivial⟩
  | move i =>
      exact ⟨.lmap m.move.1, some (.lmap m.move.2), .done, rfl, ⟨rfl, h.move.1⟩,
        Option.Rel.some ⟨rfl, h.move.2⟩, trivial⟩
  | empty i =>
      exact ⟨.lmap m.empty, none, .done, rfl, ⟨rfl, Lmap.is_empty L m⟩, Option.Rel.none, trivial⟩
  | each i => exact ⟨.lmap m, none, .pairs m.each, rfl, ⟨rfl, h⟩, Option.Rel.none, h.each hL⟩

theorem emap_agrees {m : Emap O} {I : Ideal O} (h : Stands L (.emap m) I) (e : Event O)
    (hfits : m.Fits L e.op) : Agrees L (.emap m) I e := by
  obtain ⟨same, map⟩ := I
  obtain ⟨rfl, h⟩ := h
  obtain ⟨hints, naps, op⟩ := e
  cases op with
  | newXmap _ _ _ | newFmap _ | newLmap | newEmap _ =>
      exact ⟨.emap m, none, .done, rfl, ⟨rfl, h⟩, Option.Rel.none, trivial⟩
  | find i key =>
      refine ⟨.emap m, none, .value ((map.find key).getD L.nil), ?_, ⟨rfl, h⟩, Option.Rel.none, rfl⟩
      simp only [AnyMap.act, AnyMap.find, h.find hints hfits, Option.map_some]
  | insert i key val =>
      obtain ⟨m', hm', his⟩ := h.insert hints hfits val
      refine ⟨.emap m', none, .done, ?_, ⟨rfl, his⟩, Option.Rel.none, trivial⟩
      simp only [AnyMap.act, AnyMap.insert, hm', Option.map_some]
  | update i key fnc =>
      obtain ⟨m', hm', his⟩ := h.update hints hfits fnc
      refine ⟨.emap m', none, .value (fnc ((map.find key).getD L.nil)), ?_, ⟨rfl, his⟩,
        Option.Rel.none, rfl⟩
      simp only [AnyMap.act, AnyMap.update, hm', Option.map_some, Prod.map, id]
  | memoize i key val =>
      have hset : map.find key = some L.nil → val = L.nil := by
        intro hfind
        obtain ⟨p, hp, hnil⟩ := Option.map_eq_some_iff.1 hfind
        obtain ⟨hmem, hkey⟩ := h.look hp
        exact hfits.2 p hmem hkey hnil
      obtain ⟨m', hm', his⟩ := h.memoize hints hfits.1 hset
      refine ⟨.emap m', none, .value ((map.find key).getD val), ?_, ⟨rfl, his⟩, Option.Rel.none, rfl⟩
      simp only [AnyMap.act, AnyMap.memoize, hm', Option.map_some, Prod.map, id]
  | erase i key =>
      obtain ⟨m', hm', his⟩ := h.erase hints hfits
      refine ⟨.emap m', none, .done, ?_, ⟨rfl, his⟩, Option.Rel.none, trivial⟩
      simp only [AnyMap.act, AnyMap.erase, hm', Option.map_some]
  | resize i n =>
      obtain ⟨m', hm', his⟩ := h.resize hfits
      refine ⟨.emap m', none, .done, ?_, ⟨rfl, his⟩, Option.Rel.none, trivial⟩
      simp only [AnyMap.act, AnyMap.resize, hm', Option.map_some]
  | copy i =>
      obtain ⟨m', hm', his⟩ := h.copy hints
      refine ⟨.emap m, some (.emap m'), .done, ?_, ⟨rfl, h⟩, Option.Rel.some ⟨rfl, his⟩, trivial⟩
      simp only [AnyMap.act, AnyMap.copy, hm', Option.map_some]
  | move i =>
      obtain ⟨m₁, m₂, hm, his₁, his₂⟩ := h.move hints
      refine ⟨.emap m₁, some (.emap m₂), .done, ?_, ⟨rfl, his₁⟩, Option.Rel.some ⟨rfl, his₂⟩,
        trivial⟩
      simp only [AnyMap.act, AnyMap.move, hm, Option.map_some, Prod.map]
  | empty i =>
      obtain ⟨m', hm', his⟩ := h.empty
      refine ⟨.emap m', none, .done, ?_, ⟨rfl, his⟩, Option.Rel.none, trivial⟩
      simp only [AnyMap.act, AnyMap.empty, hm', Option.map_some]
  | each i => exact ⟨.emap m, none, .pairs m.each, rfl, ⟨rfl, h⟩, Option.Rel.none, h.each⟩

theorem agrees (hL : L.Lawful) {m : AnyMap O} {I : Ideal O} (h : Stands L m I) (e : Event O)
    (hfits : m.Fits L e.op) : Agrees L m I e := by
  cases m with
  | xmap m => exact xmap_agrees h e hfits
  | fmap m => exact fmap_agrees hL h e hfits
  | lmap m => exact lmap_agrees hL h e
  | emap m => exact emap_agrees h e hfits

/-- The map at a place and the finite map there. -/
theorem forall₂_get {α β : Type} {R : α → β → Prop} {l : List α} {l' : List β}
    (h : List.Forall₂ R l l') {i : ℕ} {a : α} (ha : l[i]? = some a) :
    ∃ b, l'[i]? = some b ∧ R a b := by
  induction h generalizing i with
  | nil => cases ha
  | cons hab _ ih =>
      cases i with
      | zero =>
          cases ha
          exact ⟨_, rfl, hab⟩
      | succ i => exact ih ha

theorem forall₂_set {α β : Type} {R : α → β → Prop} {l : List α} {l' : List β}
    (h : List.Forall₂ R l l') (i : ℕ) {a : α} {b : β} (hab : R a b) :
    List.Forall₂ R (l.set i a) (l'.set i b) := by
  induction h generalizing i with
  | nil => exact List.Forall₂.nil
  | cons hcd hrest ih =>
      cases i with
      | zero => exact List.Forall₂.cons hab hrest
      | succ i => exact List.Forall₂.cons hcd (ih i)

theorem forall₂_append {α β : Type} {R : α → β → Prop} {l k : List α} {l' k' : List β}
    (h : List.Forall₂ R l l') (hk : List.Forall₂ R k k') : List.Forall₂ R (l ++ k) (l' ++ k') := by
  induction h with
  | nil => exact hk
  | cons hab _ ih => exact List.Forall₂.cons hab ih

theorem forall₂_toList {α β : Type} {R : α → β → Prop} {a : Option α} {b : Option β}
    (h : Option.Rel R a b) : List.Forall₂ R a.toList b.toList := by
  cases h with
  | some hab => exact List.Forall₂.cons hab List.Forall₂.nil
  | none => exact List.Forall₂.nil

theorem perform_on {maps : List (AnyMap O)} {e : Event O} {i : ℕ} {m : AnyMap O}
    {r : AnyMap O × Option (AnyMap O) × Answer O} (hi : e.op.on = some i)
    (hm : maps[i]? = some m) (hr : m.act L e = some r) :
    perform L maps e = some (maps.set i r.1 ++ r.2.1.toList, r.2.2) := by
  obtain ⟨hints, naps, op⟩ := e
  cases op with
  | newXmap _ _ _ | newFmap _ | newLmap | newEmap _ => cases hi
  | _ =>
      cases hi
      simp only [perform, Op.on, Option.bind_eq_bind, Option.bind_some, hm, hr]
      rfl

theorem spec_on {ideals : List (Ideal O)} {e : Event O} {i : ℕ} {I : Ideal O}
    (hi : e.op.on = some i) (hI : ideals[i]? = some I) : spec L ideals e =
      (ideals.set i (I.act L e.op).1 ++ (I.act L e.op).2.1.toList, (I.act L e.op).2.2) := by
  obtain ⟨hints, naps, op⟩ := e
  cases op with
  | newXmap _ _ _ | newFmap _ | newLmap | newEmap _ => cases hi
  | _ =>
      cases hi
      simp only [spec, Op.on, Option.bind_some, hI, Option.map_some]

/-- An operation on some maps is one on the finite maps they hold. -/
theorem act_agrees (hL : L.Lawful) {maps : List (AnyMap O)} {ideals : List (Ideal O)}
    (h : List.Forall₂ (Stands L) maps ideals) (e : Event O) (hfits : Fits L maps e) :
    Told (act L maps e).2 (spec L ideals e).2 ∧
      List.Forall₂ (Stands L) (act L maps e).1 (spec L ideals e).1 := by
  have hon : (∃ i m, e.op.on = some i ∧ maps[i]? = some m ∧ m.Fits L e.op) →
      Told (act L maps e).2 (spec L ideals e).2 ∧
        List.Forall₂ (Stands L) (act L maps e).1 (spec L ideals e).1 := by
    rintro ⟨i, m, hi, hm, hfit⟩
    obtain ⟨I, hI, hstands⟩ := forall₂_get h hm
    obtain ⟨m', that, a, hact, hm', hthat, htold⟩ := agrees hL hstands e hfit
    rw [spec_on hi hI, act, perform_on hi hm hact]
    exact ⟨htold, forall₂_append (forall₂_set h i hm') (forall₂_toList hthat)⟩
  have hnew : ∀ {m : AnyMap O} {I : Ideal O}, Stands L m I →
      List.Forall₂ (Stands L) (maps ++ [m]) (ideals ++ [I]) := fun hs =>
    forall₂_append h (List.Forall₂.cons hs List.Forall₂.nil)
  obtain ⟨hints, naps, op⟩ := e
  cases op with
  | newXmap n cmp_fnc hash_fnc =>
      exact ⟨trivial, hnew ⟨rfl, hfits, Xmap.is_new n cmp_fnc hash_fnc⟩⟩
  | newFmap n => exact ⟨trivial, hnew ⟨rfl, Fmap.is_new L n⟩⟩
  | newLmap => exact ⟨trivial, hnew ⟨rfl, Lmap.is_new L⟩⟩
  | newEmap n =>
      obtain ⟨m, hm, his⟩ := Emap.is_new L (show 0 < n from hfits)
      simp only [act, perform, hm, Option.map_some]
      exact ⟨trivial, hnew ⟨rfl, his⟩⟩
  | _ => exact hon hfits

/-- A run that keeps to it is told what finite maps say. -/
theorem map_run (hL : L.Lawful) {es : List (Event O)}
    (hes : Each (fun maps e => (act L maps e).1) (Fits L) [] es) :
    List.Forall₂ Told (answers (act L) [] es) (answers (spec L) [] es) :=
  answers_rel_of_sim (R := List.Forall₂ (Stands L)) (C := Fits L)
    (fun _ _ e h hfits => act_agrees hL h e hfits) List.Forall₂.nil hes

end Sim

end ChrysaLisp.Collections
