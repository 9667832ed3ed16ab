import ChrysaLisp.Collections.Pmap

set_option autoImplicit false

/-! # Fmap and Lmap

`lib/collections/fmap.inc`, a list of pmaps, each key in the one `(% (hash key) num_buckets)`
picks, and `lib/collections/lmap.inc`, the one pmap. What a method is given to call is a function,
and what throws comes back with nothing.

An operation may search twice for one key, before and after it calls, so the hints are those of
the first search and of the second. -/

namespace ChrysaLisp.Collections

open FiniteMap

variable {O : Type}

/-- The hints an operation's searches are given. -/
abbrev Hints (O : Type) := ℕ → O → ℕ

/-! ## Fmap -/

structure Fmap (O : Type) where
  num_buckets : ℕ
  buckets : List (List O)

namespace Fmap

/-- `(Fmap num_buckets)` -/
def new (num_buckets : ℕ) : Fmap O := ⟨num_buckets, List.replicate num_buckets []⟩

/-- Which bucket `(elem-get buckets (% (hash key) num_buckets))` is. -/
def slot (L : Lisp O) (m : Fmap O) (key : O) : Option ℕ :=
  (mod (L.hash key) m.num_buckets).bind (elemIndex m.buckets.length)

/-- `:each`, as the pairs its lambda is called with. -/
def each (m : Fmap O) : List (O × O) := m.buckets.flatMap partition

def copy (m : Fmap O) : Fmap O := ⟨m.num_buckets, m.buckets⟩

def empty (m : Fmap O) : Fmap O := { m with buckets := m.buckets.map (fun _ => []) }

/-- `:move`: what is left and what comes back. -/
def move (m : Fmap O) : Fmap O × Fmap O :=
  let that := new m.num_buckets
  ({ m with buckets := that.buckets }, { that with buckets := m.buckets })

variable [DecidableEq O] (L : Lisp O) (hints : Hints O) (m : Fmap O) (key : O)

def find : Option O := do
  let j ← m.slot L key
  let p ← m.buckets[j]?
  pure (pfindValue L (hints 0) p key)

def insert (val : O) : Option (Fmap O) := do
  let j ← m.slot L key
  let p ← m.buckets[j]?
  pure { m with buckets := m.buckets.set j (pinsert L (hints 0) p key val) }

def update (fnc : O → O) : Option (Fmap O × O) := do
  let j ← m.slot L key
  let p ← m.buckets[j]?
  let val := fnc (pfindValue L (hints 0) p key)
  pure ({ m with buckets := m.buckets.set j (pinsert L (hints 1) p key val) }, val)

/-- `:memoize`, where a call of the lambda would come back with `val`. -/
def memoize (val : O) : Option (Fmap O × O) := do
  let j ← m.slot L key
  let p ← m.buckets[j]?
  match pfind L (hints 0) p key with
  | some i =>
      let v ← p[2 * i + 1]?
      pure (m, v)
  | none => pure ({ m with buckets := m.buckets.set j (pinsert L (hints 1) p key val) }, val)

def erase : Option (Fmap O) := do
  let j ← m.slot L key
  let p ← m.buckets[j]?
  pure { m with buckets := m.buckets.set j (perase L (hints 0) p key) }

/-- One pair of the old buckets goes in the new. -/
def carry (m : Fmap O) (p : O × O) : Option (Fmap O) := m.insert L hints p.1 p.2

def resize (num_buckets : ℕ) : Option (Fmap O) :=
  m.each.foldlM (carry L hints) (new num_buckets)

end Fmap

/-! ## Lmap -/

structure Lmap (O : Type) where
  bucket : List O

namespace Lmap

def new : Lmap O := ⟨[]⟩

def each (m : Lmap O) : List (O × O) := partition m.bucket

def copy (m : Lmap O) : Lmap O := ⟨m.bucket⟩

def empty (_ : Lmap O) : Lmap O := ⟨[]⟩

def move (m : Lmap O) : Lmap O × Lmap O := (m.empty, m.copy)

def resize (m : Lmap O) (_ : ℕ) : Lmap O := m

variable [DecidableEq O] (L : Lisp O) (hints : Hints O) (m : Lmap O) (key : O)

def find : O := pfindValue L (hints 0) m.bucket key

def insert (val : O) : Lmap O := ⟨pinsert L (hints 0) m.bucket key val⟩

def update (fnc : O → O) : Lmap O × O :=
  let val := fnc (pfindValue L (hints 0) m.bucket key)
  (⟨pinsert L (hints 1) m.bucket key val⟩, val)

def memoize (val : O) : Option (Lmap O × O) :=
  match pfind L (hints 0) m.bucket key with
  | some i => do
      let v ← m.bucket[2 * i + 1]?
      pure (m, v)
  | none => some (⟨pinsert L (hints 1) m.bucket key val⟩, val)

def erase : Lmap O := ⟨perase L (hints 0) m.bucket key⟩

end Lmap

/-! ## What an Fmap holds -/

namespace Fmap

/-- The bucket of a key, of so many. -/
def place (hash : O → ℤ) (n : ℕ) (key : O) : Option ℕ := (mod (hash key) n).bind (elemIndex n)

/-- The pairs of the buckets are the map's. -/
structure Rep (L : Lisp O) (m : Fmap O) (bs : List (List (O × O))) (abs : Map O O) : Prop where
  buckets : m.buckets = bs.map flat
  num : m.num_buckets = bs.length
  kept : Kept L.eql (place L.hash bs.length) bs abs

def Is (L : Lisp O) (m : Fmap O) (abs : Map O O) : Prop := ∃ bs, Rep L m bs abs

/-- The key has a bucket, and every key that compares the same has that one. -/
def Keyed (L : Lisp O) (m : Fmap O) (key : O) : Prop :=
  ∃ j, m.slot L key = some j ∧ ∀ p ∈ m.each, L.eql p.1 key → m.slot L p.1 = some j

/-- Every key that is there has a bucket of that many. -/
def Carried (L : Lisp O) (m : Fmap O) (num_buckets : ℕ) : Prop :=
  ∀ p ∈ m.each, (place L.hash num_buckets p.1).isSome

variable {L : Lisp O} {m : Fmap O} {bs : List (List (O × O))} {abs : Map O O} {key : O}

theorem Rep.slot (h : Rep L m bs abs) : m.slot L = place L.hash bs.length := by
  funext k
  rw [Fmap.slot, place, h.num, h.buckets, List.length_map]

theorem Rep.each (h : Rep L m bs abs) : m.each = bs.flatten := by
  rw [Fmap.each, h.buckets, List.flatMap_map]
  simp only [partition_flat, List.flatMap_id']

/-- The bucket an operation on the key picks. -/
theorem Rep.bucket (h : Rep L m bs abs) (hk : Keyed L m key) :
    ∃ j b, m.slot L key = some j ∧ m.buckets[j]? = some (flat b) ∧ bs[j]? = some b ∧
      Goes L.eql (place L.hash bs.length) bs key j := by
  obtain ⟨j, hj, hagree⟩ := hk
  have hplace : place L.hash bs.length key = some j := by rw [← h.slot]; exact hj
  have hlt : j < bs.length := by
    obtain ⟨i, -, hi⟩ := Option.bind_eq_some_iff.1 hplace
    exact elemIndex_lt hi
  refine ⟨j, bs[j], hj, ?_, List.getElem?_eq_getElem hlt, hplace, fun p hp hs => ?_⟩
  · rw [h.buckets, List.getElem?_map, List.getElem?_eq_getElem hlt, Option.map_some]
  · rw [← h.slot]
    exact hagree p (by rw [h.each]; exact hp) hs

/-- One bucket changed, and the map with it. -/
theorem Rep.set (h : Rep L m bs abs) {j : ℕ} {b : List (O × O)} {abs' : Map O O}
    (hkept : Kept L.eql (place L.hash bs.length) (bs.set j b) abs') :
    Is L { m with buckets := m.buckets.set j (flat b) } abs' :=
  ⟨bs.set j b, by rw [h.buckets, List.map_set], by rw [h.num, List.length_set],
    by rw [List.length_set]; exact hkept⟩

theorem is_new (L : Lisp O) (n : ℕ) : Is L (new n) Map.empty := by
  refine ⟨List.replicate n [], ?_, ?_, ?_, ?_⟩
  · rw [new, List.map_replicate, flat_nil]
  · rw [new, List.length_replicate]
  · rw [List.flatten_replicate_nil]
    exact Holds.nil
  · exact (filled_replicate _ n).placed

theorem Is.copy (h : Is L m abs) : Is L m.copy abs := h

theorem Is.empty (h : Is L m abs) : Is L m.empty Map.empty := by
  obtain ⟨bs, h⟩ := h
  obtain ⟨bs', hnew⟩ := is_new L m.num_buckets
  have hm : m.empty = new m.num_buckets := by
    rw [Fmap.empty, new, List.map_const', h.buckets, List.length_map, h.num]
  rw [hm]
  exact ⟨bs', hnew⟩

theorem Is.move (h : Is L m abs) : Is L m.move.1 Map.empty ∧ Is L m.move.2 abs :=
  ⟨is_new L m.num_buckets, h⟩

theorem Is.each (hL : L.Lawful) (h : Is L m abs) :
    m.each.Nodup ∧ ∀ p, p ∈ m.each ↔ p ∈ abs.pairs := by
  obtain ⟨bs, h⟩ := h
  rw [h.each]
  exact ⟨h.kept.holds.nodup hL.same, fun p => (h.kept.holds.mem_pairs hL.same p).symm⟩

variable [DecidableEq O] (hL : L.Lawful) (hints : Hints O)
include hL

theorem Is.find (h : Is L m abs) (hk : Keyed L m key) :
    m.find L hints key = some ((abs.find key).getD L.nil) := by
  obtain ⟨bs, h⟩ := h
  obtain ⟨j, b, hj, hm, hb, hgoes⟩ := h.bucket hk
  rw [Fmap.find, hj, Option.bind_eq_bind, Option.bind_some, hm, Option.bind_eq_bind,
    Option.bind_some, pfindValue_flat, Map.find,
    h.kept.look_found hgoes hb (found_pfind hL (hints 0) b key)]
  rfl

theorem Is.insert (h : Is L m abs) (hk : Keyed L m key) (val : O) :
    ∃ m', m.insert L hints key val = some m' ∧ Is L m' (abs.put L.eql key val) := by
  obtain ⟨bs, h⟩ := h
  obtain ⟨j, b, hj, hm, hb, hgoes⟩ := h.bucket hk
  refine ⟨{ m with buckets := m.buckets.set j (pinsert L (hints 0) (flat b) key val) }, ?_, ?_⟩
  · rw [Fmap.insert, hj, Option.bind_eq_bind, Option.bind_some, hm]
    rfl
  · rw [pinsert_flat]
    exact h.set (h.kept.put hL.same hgoes hb (found_pfind hL (hints 0) b key) val)

theorem Is.update (h : Is L m abs) (hk : Keyed L m key) (fnc : O → O) :
    ∃ m', m.update L hints key fnc = some (m', fnc ((abs.find key).getD L.nil)) ∧
      Is L m' (abs.put L.eql key (fnc ((abs.find key).getD L.nil))) := by
  obtain ⟨bs, h⟩ := h
  obtain ⟨j, b, hj, hm, hb, hgoes⟩ := h.bucket hk
  have hval : pfindValue L (hints 0) (flat b) key = (abs.find key).getD L.nil := by
    rw [pfindValue_flat, Map.find, h.kept.look_found hgoes hb (found_pfind hL (hints 0) b key)]
  rw [Fmap.update, hj, Option.bind_eq_bind, Option.bind_some, hm, Option.bind_eq_bind,
    Option.bind_some, hval]
  refine ⟨_, rfl, ?_⟩
  rw [pinsert_flat]
  exact h.set (h.kept.put hL.same hgoes hb (found_pfind hL (hints 1) b key) _)

theorem Is.memoize (h : Is L m abs) (hk : Keyed L m key) (val : O) :
    ∃ m', m.memoize L hints key val = some (m', (abs.find key).getD val) ∧
      Is L m' ((abs.find key).elim (abs.put L.eql key val) (fun _ => abs)) := by
  obtain ⟨bs, h⟩ := h
  obtain ⟨j, b, hj, hm, hb, hgoes⟩ := h.bucket hk
  have hfound := found_pfind hL (hints 0) b key
  have hlook := h.kept.look_found hgoes hb hfound
  rw [Fmap.memoize, hj, Option.bind_eq_bind, Option.bind_some, hm, Option.bind_eq_bind,
    Option.bind_some, Map.find, hlook]
  cases hr : pfind L (hints 0) (flat b) key with
  | none =>
      refine ⟨_, rfl, ?_⟩
      rw [pinsert_flat]
      exact h.set (h.kept.put hL.same hgoes hb (found_pfind hL (hints 1) b key) val)
  | some i =>
      rw [hr] at hfound
      obtain ⟨p, hp, -⟩ := hfound
      refine ⟨m, ?_, bs, ?_⟩
      · simp only [flat_val, hp, Option.map_some, Option.bind_some, Option.getD_some]
        rfl
      · simp only [hp, Option.bind_some, Option.map_some, Option.elim_some]
        exact h

theorem Is.erase (h : Is L m abs) (hk : Keyed L m key) :
    ∃ m', m.erase L hints key = some m' ∧ Is L m' (abs.drop L.eql key) := by
  obtain ⟨bs, h⟩ := h
  obtain ⟨j, b, hj, hm, hb, hgoes⟩ := h.bucket hk
  refine ⟨{ m with buckets := m.buckets.set j (perase L (hints 0) (flat b) key) }, ?_, ?_⟩
  · rw [Fmap.erase, hj, Option.bind_eq_bind, Option.bind_some, hm]
    rfl
  · rw [perase_flat hL]
    exact h.set (h.kept.drop hL.same hgoes hb (found_pfind hL (hints 0) b key))

omit hL in
theorem insert_at {j : ℕ} {b b' : List (O × O)} {val : O} (hj : m.slot L key = some j)
    (hb : m.buckets[j]? = some (flat b))
    (hput : putAt b key val (pfind L (hints 0) (flat b) key) = b') :
    m.insert L hints key val = some { m with buckets := m.buckets.set j (flat b') } := by
  rw [Fmap.insert, hj, Option.bind_eq_bind, Option.bind_some, hb, ← hput, ← pinsert_flat]
  rfl

/-- A pair of a key that compares to none there goes at the end of its bucket. -/
theorem carry_new {p : O × O} {j n : ℕ} {b : List (O × O)}
    (hm : m.buckets = bs.map flat ∧ m.num_buckets = bs.length ∧ bs.length = n)
    (hnew : ∀ q ∈ bs.flatten, ¬ L.eql q.1 p.1) (hj : place L.hash n p.1 = some j)
    (hb : bs[j]? = some b) : ∃ m', carry L hints m p = some m' ∧
      m'.buckets = (bs.set j (b ++ [p])).map flat ∧
      m'.num_buckets = (bs.set j (b ++ [p])).length ∧ (bs.set j (b ++ [p])).length = n := by
  obtain ⟨hbuckets, hnum, rfl⟩ := hm
  have hslot : m.slot L p.1 = some j := by
    rw [Fmap.slot, hnum, hbuckets, List.length_map]
    exact hj
  have hmb : m.buckets[j]? = some (flat b) := by
    rw [hbuckets, List.getElem?_map, hb, Option.map_some]
  -- nothing there compares the same, so the search finds nothing
  have hnone : pfind L (hints 0) (flat b) p.1 = none := by
    have hfound := found_pfind hL (hints 0) b p.1
    cases hr : pfind L (hints 0) (flat b) p.1 with
    | none => rfl
    | some i =>
        rw [hr] at hfound
        obtain ⟨q, hq, hs⟩ := hfound
        have hmem : q ∈ bs.flatten :=
          List.mem_flatten.2 ⟨b, List.mem_of_getElem? hb, List.mem_of_getElem? hq⟩
        exact absurd hs (hnew q hmem)
  refine ⟨_, insert_at hints hslot hmb rfl, ?_, ?_, List.length_set⟩
  · rw [hnone, hbuckets, List.map_set]
    rfl
  · rw [List.length_set]
    exact hnum

theorem Is.resize (h : Is L m abs) {n : ℕ} (hn : Carried L m n) :
    ∃ m', m.resize L hints n = some m' ∧ Is L m' abs := by
  obtain ⟨bs, h⟩ := h
  have hlen : (List.replicate n ([] : List (O × O))).length = n := List.length_replicate
  have hnew : (new n : Fmap O).buckets = (List.replicate n []).map flat := by
    rw [new, List.map_replicate, flat_nil]
  have hapart : m.each.Pairwise (fun p q => ¬ L.eql p.1 q.1) := by
    rw [h.each]
    exact h.kept.holds.apart
  have hplace : ∀ p ∈ m.each, ∃ j < (List.replicate n ([] : List (O × O))).length,
      place L.hash n p.1 = some j := by
    intro p hp
    obtain ⟨j, hj⟩ := Option.isSome_iff_exists.1 (hn p hp)
    obtain ⟨i, -, hi⟩ := Option.bind_eq_some_iff.1 hj
    exact ⟨j, by rw [hlen]; exact elemIndex_lt hi, hj⟩
  obtain ⟨m', bs', hfold, ⟨hbuckets, hnum, hn'⟩, -, hfilled⟩ := Filled.fold
    (R := fun (m : Fmap O) bs => m.buckets = bs.map flat ∧ m.num_buckets = bs.length ∧ bs.length = n)
    (fun _ _ _ _ _ hs hnew hj hb => carry_new hL hints hs hnew hj hb)
    ⟨hnew, hlen.symm, hlen⟩ (filled_replicate (place L.hash n) n) hapart (by simp) hplace
  refine ⟨m', hfold, bs', hbuckets, hnum, ?_⟩
  rw [hn']
  refine hfilled.kept hL.same h.kept.holds ?_
  rw [List.append_nil, ← h.each]
  exact List.reverse_perm _

end Fmap

/-! ## What an Lmap holds -/

namespace Lmap

def Is (L : Lisp O) (m : Lmap O) (abs : Map O O) : Prop :=
  ∃ b, m.bucket = flat b ∧ Kept L.eql (fun _ => some 0) [b] abs

variable {L : Lisp O} {m : Lmap O} {abs : Map O O}

theorem goes (L : Lisp O) (b : List (O × O)) (key : O) :
    Goes L.eql (fun _ => some 0) [b] key 0 := ⟨rfl, fun _ _ _ => rfl⟩

theorem is_new (L : Lisp O) : Is L new Map.empty := by
  refine ⟨[], rfl, Holds.nil, fun j b hb p hp => ?_⟩
  rw [List.mem_singleton.1 (List.mem_of_getElem? hb)] at hp
  exact absurd hp List.not_mem_nil

theorem Is.copy (h : Is L m abs) : Is L m.copy abs := h

theorem is_empty (L : Lisp O) (m : Lmap O) : Is L m.empty Map.empty := is_new L

theorem Is.move (h : Is L m abs) : Is L m.move.1 Map.empty ∧ Is L m.move.2 abs :=
  ⟨is_empty L m, h⟩

theorem Is.resize (h : Is L m abs) (n : ℕ) : Is L (m.resize n) abs := h

theorem Is.each (hL : L.Lawful) (h : Is L m abs) :
    m.each.Nodup ∧ ∀ p, p ∈ m.each ↔ p ∈ abs.pairs := by
  obtain ⟨b, hm, h⟩ := h
  have hb : m.each = [b].flatten := by
    rw [Lmap.each, hm, partition_flat, List.flatten_singleton]
  rw [hb]
  exact ⟨h.holds.nodup hL.same, fun p => (h.holds.mem_pairs hL.same p).symm⟩

variable [DecidableEq O] (hL : L.Lawful) (hints : Hints O)
include hL

theorem Is.find (h : Is L m abs) (key : O) :
    m.find L hints key = (abs.find key).getD L.nil := by
  obtain ⟨b, hm, h⟩ := h
  rw [Lmap.find, hm, pfindValue_flat, Map.find,
    h.look_found (goes L b key) rfl (found_pfind hL (hints 0) b key)]

theorem Is.insert (h : Is L m abs) (key val : O) :
    Is L (m.insert L hints key val) (abs.put L.eql key val) := by
  obtain ⟨b, hm, h⟩ := h
  rw [Lmap.insert, hm, pinsert_flat]
  exact ⟨_, rfl, h.put hL.same (goes L b key) rfl (found_pfind hL (hints 0) b key) val⟩

theorem Is.update (h : Is L m abs) (key : O) (fnc : O → O) :
    (m.update L hints key fnc).2 = fnc ((abs.find key).getD L.nil) ∧
      Is L (m.update L hints key fnc).1
        (abs.put L.eql key (fnc ((abs.find key).getD L.nil))) := by
  have hval : pfindValue L (hints 0) m.bucket key = (abs.find key).getD L.nil :=
    h.find hL hints key
  obtain ⟨b, hm, h⟩ := h
  simp only [Lmap.update, hval]
  refine ⟨trivial, _, ?_, h.put hL.same (goes L b key) rfl (found_pfind hL (hints 1) b key) _⟩
  rw [hm, pinsert_flat]

theorem Is.memoize (h : Is L m abs) (key val : O) :
    ∃ m', m.memoize L hints key val = some (m', (abs.find key).getD val) ∧
      Is L m' ((abs.find key).elim (abs.put L.eql key val) (fun _ => abs)) := by
  obtain ⟨b, hm, h⟩ := h
  have hfound := found_pfind hL (hints 0) b key
  rw [Lmap.memoize, hm, Map.find, h.look_found (goes L b key) rfl hfound]
  cases hr : pfind L (hints 0) (flat b) key with
  | none =>
      refine ⟨_, rfl, _, pinsert_flat _ _, ?_⟩
      exact h.put hL.same (goes L b key) rfl (found_pfind hL (hints 1) b key) val
  | some i =>
      rw [hr] at hfound
      obtain ⟨p, hp, -⟩ := hfound
      refine ⟨m, ?_, b, hm, ?_⟩
      · simp only [flat_val, hp, Option.map_some, Option.bind_some, Option.getD_some]
        rfl
      · simp only [hp, Option.bind_some, Option.map_some, Option.elim_some]
        exact h

theorem Is.erase (h : Is L m abs) (key : O) :
    Is L (m.erase L hints key) (abs.drop L.eql key) := by
  obtain ⟨b, hm, h⟩ := h
  rw [Lmap.erase, hm, perase_flat hL]
  exact ⟨_, rfl, h.drop hL.same (goes L b key) rfl (found_pfind hL (hints 0) b key)⟩

end Lmap

end ChrysaLisp.Collections
