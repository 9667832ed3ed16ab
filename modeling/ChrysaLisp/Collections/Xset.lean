import ChrysaLisp.Collections.Xmap

set_option autoImplicit false

/-! # Xset

`lib/collections/xset.inc`, a hash set of whatever comparison and hash it is given. It is a map
whose keys have nothing to them, so what it holds is told by the same lemmas. -/

namespace ChrysaLisp.Collections

open FiniteMap

variable {O : Type}

structure Xset (O : Type) where
  num_buckets : ℕ
  buckets : List (List O)
  cmp_fnc : O → O → Bool
  hash_fnc : O → ℤ

namespace Xset

/-- `(Xset num_buckets cmp_fnc hash_fnc)` -/
def new (num_buckets : ℕ) (cmp_fnc : O → O → Bool) (hash_fnc : O → ℤ) : Xset O :=
  ⟨num_buckets, List.replicate num_buckets [], cmp_fnc, hash_fnc⟩

/-- What `slot` binds: the list of keys, by its place in the buckets, and the key's place in it. -/
def slot (m : Xset O) (key : O) : Option (ℕ × Option ℕ) := do
  let r ← mod (m.hash_fnc key) m.num_buckets
  let kl ← elemIndex m.buckets.length r
  let keys ← m.buckets[kl]?
  pure (kl, keys.findIdx? (fun k => m.cmp_fnc k key))

/-- `:each`, as the keys its lambda is called with. -/
def each (m : Xset O) : List O := m.buckets.flatten

def copy (m : Xset O) : Xset O := { new m.num_buckets m.cmp_fnc m.hash_fnc with
  buckets := m.buckets }

def empty (m : Xset O) : Xset O := { m with buckets := m.buckets.map (fun _ => []) }

/-- `:move`: what is left and what comes back. -/
def move (m : Xset O) : Xset O × Xset O :=
  let that := new m.num_buckets m.cmp_fnc m.hash_fnc
  ({ m with buckets := that.buckets }, { that with buckets := m.buckets })

def insert (m : Xset O) (key : O) : Option (Xset O) := do
  let (kl, si) ← m.slot key
  match si with
  | some _ => pure m
  | none => pure { m with buckets := Xmap.pushTo m.buckets kl key }

/-- `:inserted`, and whether the key was not there. -/
def inserted (m : Xset O) (key : O) : Option (Xset O × Bool) := do
  let (kl, si) ← m.slot key
  match si with
  | some _ => pure (m, false)
  | none => pure ({ m with buckets := Xmap.pushTo m.buckets kl key }, true)

/-- `:intern`: the key that is there, if there is one, or this one. -/
def intern (m : Xset O) (key : O) : Option (Xset O × O) := do
  let (kl, si) ← m.slot key
  match si with
  | some si => do
      let keys ← m.buckets[kl]?
      let k ← keys[si]?
      pure (m, k)
  | none => pure ({ m with buckets := Xmap.pushTo m.buckets kl key }, key)

def erase (m : Xset O) (key : O) : Option (Xset O) := do
  let (kl, si) ← m.slot key
  match si with
  | some si => do
      let keys ← m.buckets[kl]?
      pure { m with buckets := m.buckets.set kl (swapOut keys si) }
  | none => pure m

def find (nil : O) (m : Xset O) (key : O) : Option O := do
  let (kl, si) ← m.slot key
  match si with
  | some si => do
      let keys ← m.buckets[kl]?
      keys[si]?
  | none => pure nil

/-- The `while` of `:resize` over one bucket, its end first. -/
def spill [DecidableEq O] (nil : O) (hash_fnc : O → ℤ) (num_buckets : ℕ)
    (new_buckets : List (List O)) : List O → Option (List (List O))
  | [] => some new_buckets
  | key :: old_bucket =>
      if key = nil then some new_buckets
      else do
        let r ← mod (hash_fnc key) num_buckets
        let i ← elemIndex new_buckets.length r
        spill nil hash_fnc num_buckets (Xmap.pushTo new_buckets i key) old_bucket

def resize [DecidableEq O] (nil : O) (m : Xset O) (num_buckets : ℕ) : Option (Xset O) := do
  let new_buckets ← m.buckets.foldlM
    (fun new_buckets b => spill nil m.hash_fnc num_buckets new_buckets b.reverse)
    (List.replicate num_buckets [])
  pure { m with num_buckets := num_buckets, buckets := new_buckets }

/-! ## What an Xset holds -/

/-- The keys of a bucket. -/
def keys (b : List (O × Unit)) : List O := b.map Prod.fst

structure Rep (m : Xset O) (bs : List (List (O × Unit))) (abs : Map O Unit) : Prop where
  buckets : m.buckets = bs.map keys
  num : m.num_buckets = bs.length
  kept : Kept m.cmp_fnc (Fmap.place m.hash_fnc bs.length) bs abs

def Is (m : Xset O) (abs : Map O Unit) : Prop := ∃ bs, Rep m bs abs

/-- The key has a bucket, and every key that compares the same has that one. -/
def Keyed (m : Xset O) (key : O) : Prop :=
  ∃ j, Fmap.place m.hash_fnc m.num_buckets key = some j ∧
    ∀ k ∈ m.each, m.cmp_fnc k key → Fmap.place m.hash_fnc m.num_buckets k = some j

/-- No key that is there is `:nil`, and each has a bucket of that many. -/
def Carried (nil : O) (m : Xset O) (num_buckets : ℕ) : Prop :=
  ∀ k ∈ m.each, k ≠ nil ∧ (Fmap.place m.hash_fnc num_buckets k).isSome

variable {m : Xset O} {bs : List (List (O × Unit))} {abs : Map O Unit} {key : O}

theorem Rep.each (h : Rep m bs abs) : m.each = bs.flatten.map Prod.fst := by
  rw [Xset.each, h.buckets, List.map_flatten]
  rfl

theorem place_lt {hash_fnc : O → ℤ} {n j : ℕ} (h : Fmap.place hash_fnc n key = some j) :
    j < n := by
  obtain ⟨i, -, hi⟩ := Option.bind_eq_some_iff.1 h
  exact elemIndex_lt hi

/-- The search of a bucket. -/
theorem found (m : Xset O) (b : List (O × Unit)) (key : O) :
    Found m.cmp_fnc b key ((keys b).findIdx? (fun k => m.cmp_fnc k key)) := by
  rw [keys, List.findIdx?_map]
  exact found_findIdx? (fun _ _ => rfl)

/-- What `slot` binds for a key, and its bucket. -/
theorem Rep.bucket (h : Rep m bs abs) (hk : Keyed m key) : ∃ j b, bs[j]? = some b ∧
    Goes m.cmp_fnc (Fmap.place m.hash_fnc bs.length) bs key j ∧
    m.slot key = some (j, (keys b).findIdx? (fun k => m.cmp_fnc k key)) ∧
    m.buckets[j]? = some (keys b) := by
  obtain ⟨j, hj, hagree⟩ := hk
  rw [h.num] at hj hagree
  obtain ⟨b, hb⟩ : ∃ b, bs[j]? = some b := ⟨_, List.getElem?_eq_getElem (place_lt hj)⟩
  have hm : m.buckets[j]? = some (keys b) := by
    rw [h.buckets, List.getElem?_map, hb, Option.map_some]
  refine ⟨j, _, hb, ⟨hj, fun p hp hs => hagree p.1 ?_ hs⟩, ?_, hm⟩
  · rw [h.each]
    exact List.mem_map_of_mem hp
  · obtain ⟨r, hr, hi⟩ := Option.bind_eq_some_iff.1 hj
    rw [slot, h.num, hr, Option.bind_eq_bind, Option.bind_some, h.buckets, List.length_map, hi,
      Option.bind_eq_bind, Option.bind_some, ← h.buckets, hm]
    rfl

/-- One bucket changed, and the set with it. -/
theorem Rep.set (h : Rep m bs abs) {j : ℕ} {b : List (O × Unit)} {abs' : Map O Unit}
    (hkept : Kept m.cmp_fnc (Fmap.place m.hash_fnc bs.length) (bs.set j b) abs') :
    Is { m with buckets := m.buckets.set j (keys b) } abs' :=
  ⟨bs.set j b, by rw [h.buckets, List.map_set], by rw [List.length_set]; exact h.num,
    by rw [List.length_set]; exact hkept⟩

theorem Rep.set_self (h : Rep m bs abs) {j : ℕ} {b : List (O × Unit)} {abs' : Map O Unit}
    (hb : bs[j]? = some b)
    (hkept : Kept m.cmp_fnc (Fmap.place m.hash_fnc bs.length) (bs.set j b) abs') : Is m abs' := by
  obtain ⟨hlt, rfl⟩ := List.getElem?_eq_some_iff.1 hb
  rw [List.set_getElem_self hlt] at hkept
  exact ⟨bs, h.buckets, h.num, hkept⟩

theorem is_new (n : ℕ) (cmp_fnc : O → O → Bool) (hash_fnc : O → ℤ) :
    Is (new n cmp_fnc hash_fnc) Map.empty := by
  refine ⟨List.replicate n [], ?_, List.length_replicate.symm, ?_, (filled_replicate _ n).placed⟩
  · rw [List.map_replicate]
    rfl
  · rw [List.flatten_replicate_nil]
    exact Holds.nil

theorem Is.copy (h : Is m abs) : Is m.copy abs := h

theorem Is.empty (h : Is m abs) : Is m.empty Map.empty := by
  obtain ⟨bs, h⟩ := h
  have hm : m.empty = new m.num_buckets m.cmp_fnc m.hash_fnc := by
    rw [Xset.empty, new, List.map_const', h.buckets, List.length_map, h.num]
  rw [hm]
  exact is_new _ _ _

theorem Is.move (h : Is m abs) : Is m.move.1 Map.empty ∧ Is m.move.2 abs := ⟨is_new _ _ _, h⟩

theorem Is.each (hsame : Same m.cmp_fnc) (h : Is m abs) :
    m.each.Nodup ∧ ∀ k, k ∈ m.each ↔ (k, ()) ∈ abs.pairs := by
  obtain ⟨bs, h⟩ := h
  rw [h.each]
  have hnodup : bs.flatten.Pairwise (fun p q => p.1 ≠ q.1) :=
    (List.nodup_iff_pairwise_ne.1 (h.kept.holds.nodup hsame)).imp
      (fun hpq he => hpq (Prod.ext he rfl))
  refine ⟨List.nodup_iff_pairwise_ne.2 (List.pairwise_map.2 hnodup), fun k => ?_⟩
  rw [h.kept.holds.mem_pairs hsame, List.mem_map]
  constructor
  · rintro ⟨p, hp, rfl⟩
    exact hp
  · exact fun hk => ⟨(k, ()), hk, rfl⟩

theorem Is.find (nil : O) (h : Is m abs) (hk : Keyed m key) :
    m.find nil key = some (((abs key).map Prod.fst).getD nil) := by
  obtain ⟨bs, h⟩ := h
  obtain ⟨j, b, hb, hgoes, hslot, hm⟩ := h.bucket hk
  have hfound := found m b key
  rw [Xset.find, hslot, Option.bind_eq_bind, Option.bind_some,
    h.kept.look_found hgoes hb hfound]
  cases hr : (keys b).findIdx? (fun k => m.cmp_fnc k key) with
  | none => rfl
  | some si =>
      rw [hr] at hfound
      obtain ⟨p, hp, -⟩ := hfound
      simp only [hm, keys, hp, Option.bind_eq_bind, Option.bind_some, List.getElem?_map,
        Option.map_some, Option.getD_some]

/-- A key that is there is not put again, and one that is not goes at the end. -/
theorem Rep.put (hsame : Same m.cmp_fnc) (h : Rep m bs abs) {j : ℕ} {b : List (O × Unit)}
    (hb : bs[j]? = some b)
    (hgoes : Goes m.cmp_fnc (Fmap.place m.hash_fnc bs.length) bs key j)
    (hm : m.buckets[j]? = some (keys b)) :
    match (keys b).findIdx? (fun k => m.cmp_fnc k key) with
    | some _ => Is m (abs.put m.cmp_fnc key ())
    | none => Is { m with buckets := Xmap.pushTo m.buckets j key } (abs.put m.cmp_fnc key ()) := by
  have hkept := h.kept.put hsame hgoes hb (found m b key) ()
  cases hr : (keys b).findIdx? (fun k => m.cmp_fnc k key) with
  | none =>
      rw [hr] at hkept
      have hset := h.set hkept
      rw [putAt, keys, List.map_append] at hset
      show Is { m with buckets := Xmap.pushTo m.buckets j key } _
      rw [Xmap.pushTo_eq_set hm]
      exact hset
  | some si =>
      rw [hr] at hkept
      have hb' : putAt b key () (some si) = b := List.modify_id si b
      rw [hb'] at hkept
      exact h.set_self hb hkept

theorem Is.insert (hsame : Same m.cmp_fnc) (h : Is m abs) (hk : Keyed m key) :
    ∃ m', m.insert key = some m' ∧ m'.cmp_fnc = m.cmp_fnc ∧ Is m' (abs.put m.cmp_fnc key ()) := by
  obtain ⟨bs, h⟩ := h
  obtain ⟨j, b, hb, hgoes, hslot, hm⟩ := h.bucket hk
  have hput := h.put hsame hb hgoes hm
  rw [Xset.insert, hslot, Option.bind_eq_bind, Option.bind_some]
  cases hr : (keys b).findIdx? (fun k => m.cmp_fnc k key) with
  | none =>
      rw [hr] at hput
      exact ⟨_, rfl, rfl, hput⟩
  | some si =>
      rw [hr] at hput
      exact ⟨m, rfl, rfl, hput⟩

theorem Is.inserted (hsame : Same m.cmp_fnc) (h : Is m abs) (hk : Keyed m key) :
    ∃ m', m.inserted key = some (m', (abs key).isNone) ∧ m'.cmp_fnc = m.cmp_fnc ∧
      Is m' (abs.put m.cmp_fnc key ()) := by
  obtain ⟨bs, h⟩ := h
  obtain ⟨j, b, hb, hgoes, hslot, hm⟩ := h.bucket hk
  have hput := h.put hsame hb hgoes hm
  have hfound := found m b key
  rw [Xset.inserted, hslot, Option.bind_eq_bind, Option.bind_some,
    h.kept.look_found hgoes hb hfound]
  cases hr : (keys b).findIdx? (fun k => m.cmp_fnc k key) with
  | none =>
      rw [hr] at hput
      exact ⟨_, rfl, rfl, hput⟩
  | some si =>
      rw [hr] at hput hfound
      obtain ⟨p, hp, -⟩ := hfound
      rw [Option.bind_some, hp]
      exact ⟨m, rfl, rfl, hput⟩

theorem Is.intern (hsame : Same m.cmp_fnc) (h : Is m abs) (hk : Keyed m key) :
    ∃ m', m.intern key = some (m', ((abs key).map Prod.fst).getD key) ∧
      m'.cmp_fnc = m.cmp_fnc ∧ Is m' (abs.put m.cmp_fnc key ()) := by
  obtain ⟨bs, h⟩ := h
  obtain ⟨j, b, hb, hgoes, hslot, hm⟩ := h.bucket hk
  have hput := h.put hsame hb hgoes hm
  have hfound := found m b key
  rw [Xset.intern, hslot, Option.bind_eq_bind, Option.bind_some,
    h.kept.look_found hgoes hb hfound]
  cases hr : (keys b).findIdx? (fun k => m.cmp_fnc k key) with
  | none =>
      rw [hr] at hput
      exact ⟨_, rfl, rfl, hput⟩
  | some si =>
      rw [hr] at hput hfound
      obtain ⟨p, hp, -⟩ := hfound
      refine ⟨m, ?_, rfl, hput⟩
      simp only [hm, keys, hp, Option.bind_eq_bind, Option.bind_some, List.getElem?_map,
        Option.map_some, Option.getD_some]
      rfl

theorem Is.erase (hsame : Same m.cmp_fnc) (h : Is m abs) (hk : Keyed m key) :
    ∃ m', m.erase key = some m' ∧ m'.cmp_fnc = m.cmp_fnc ∧ Is m' (abs.drop m.cmp_fnc key) := by
  obtain ⟨bs, h⟩ := h
  obtain ⟨j, b, hb, hgoes, hslot, hm⟩ := h.bucket hk
  have hkept := h.kept.drop hsame hgoes hb (found m b key)
  rw [Xset.erase, hslot, Option.bind_eq_bind, Option.bind_some]
  cases hr : (keys b).findIdx? (fun k => m.cmp_fnc k key) with
  | none =>
      rw [hr] at hkept
      exact ⟨m, rfl, rfl, h.set_self hb hkept⟩
  | some si =>
      rw [hr] at hkept
      simp only [hm, Option.bind_eq_bind, Option.bind_some]
      refine ⟨_, rfl, rfl, ?_⟩
      rw [keys, ← Xmap.map_swapOut]
      exact h.set hkept

/-! ## The resize -/

variable [DecidableEq O] {nil : O} {hash_fnc : O → ℤ} {n : ℕ} {done : List (O × Unit)}

/-- A bucket with no `:nil` for a key is all put in the new buckets. -/
theorem spill_all (l : List (O × Unit)) (hn : bs.length = n)
    (hfilled : Filled (Fmap.place hash_fnc n) bs done)
    (hl : ∀ p ∈ l, p.1 ≠ nil ∧ (Fmap.place hash_fnc n p.1).isSome) :
    ∃ bs', spill nil hash_fnc n (bs.map keys) (keys l) = some (bs'.map keys) ∧
      bs'.length = n ∧ Filled (Fmap.place hash_fnc n) bs' (l.reverse ++ done) := by
  induction l generalizing bs done with
  | nil => exact ⟨bs, rfl, hn, hfilled⟩
  | cons p l ih =>
      obtain ⟨hne, hsome⟩ := hl p List.mem_cons_self
      obtain ⟨j, hj⟩ := Option.isSome_iff_exists.1 hsome
      have hlt : j < bs.length := hn ▸ place_lt hj
      have hb : bs[j]? = some bs[j] := List.getElem?_eq_getElem hlt
      have hm : (bs.map keys)[j]? = some (keys bs[j]) := by
        rw [List.getElem?_map, hb, Option.map_some]
      obtain ⟨bs', hspill, hn', hfilled'⟩ := @ih (bs.set j (bs[j] ++ [p])) (p :: done)
        (by rw [List.length_set, hn]) (hfilled.push hj hb)
        (fun q hq => hl q (List.mem_cons_of_mem _ hq))
      refine ⟨bs', ?_, hn', by rw [List.reverse_cons, List.append_assoc]; exact hfilled'⟩
      obtain ⟨r, hr, hi⟩ := Option.bind_eq_some_iff.1 hj
      have hset : Xmap.pushTo (bs.map keys) j p.1 = (bs.set j (bs[j] ++ [p])).map keys := by
        rw [Xmap.pushTo_eq_set hm, List.map_set, keys, keys, List.map_append]
        rfl
      rw [keys, List.map_cons, spill, if_neg hne]
      simp only [hr, List.length_map, hn, hi, Option.bind_eq_bind, Option.bind_some, hset]
      exact hspill

theorem spill_buckets (old : List (List (O × Unit))) (hn : bs.length = n)
    (hfilled : Filled (Fmap.place hash_fnc n) bs done)
    (hold : ∀ p ∈ old.flatten, p.1 ≠ nil ∧ (Fmap.place hash_fnc n p.1).isSome) :
    ∃ bs' done', (old.map keys).foldlM
        (fun new_buckets b => spill nil hash_fnc n new_buckets b.reverse) (bs.map keys) =
          some (bs'.map keys) ∧
      bs'.length = n ∧ Filled (Fmap.place hash_fnc n) bs' done' ∧
      done'.Perm (old.flatten ++ done) := by
  induction old generalizing bs done with
  | nil => exact ⟨bs, done, rfl, hn, hfilled, List.Perm.refl _⟩
  | cons b old ih =>
      obtain ⟨bs₁, hspill, hn₁, hfilled₁⟩ := spill_all b.reverse hn hfilled (fun p hp =>
        hold p (List.mem_append_left _ (List.mem_reverse.1 hp)))
      rw [List.reverse_reverse] at hfilled₁
      obtain ⟨bs₂, done₂, hfold, hn₂, hfilled₂, hperm⟩ := ih hn₁ hfilled₁
        (fun p hp => hold p (List.mem_append_right _ hp))
      refine ⟨bs₂, done₂, ?_, hn₂, hfilled₂, hperm.trans ?_⟩
      · rw [keys, List.map_reverse] at hspill
        rw [List.map_cons, List.foldlM_cons, keys, hspill]
        exact hfold
      · rw [List.flatten_cons, ← List.append_assoc]
        exact List.perm_append_comm.append_right _

theorem Is.resize (hsame : Same m.cmp_fnc) (h : Is m abs) {n : ℕ} (hn : Carried nil m n) :
    ∃ m', m.resize nil n = some m' ∧ m'.cmp_fnc = m.cmp_fnc ∧ Is m' abs := by
  obtain ⟨bs, h⟩ := h
  have hcarried : ∀ p ∈ bs.flatten, p.1 ≠ nil ∧ (Fmap.place m.hash_fnc n p.1).isSome :=
    fun p hp => hn p.1 (by rw [h.each]; exact List.mem_map_of_mem hp)
  obtain ⟨bs', done', hfold, hn', hfilled, hperm⟩ := spill_buckets bs List.length_replicate
    (filled_replicate (Fmap.place m.hash_fnc n) n) hcarried
  have hnew : (List.replicate n []).map keys = List.replicate n ([] : List O) := by
    rw [List.map_replicate]
    rfl
  rw [hnew] at hfold
  rw [List.append_nil] at hperm
  refine ⟨{ m with num_buckets := n, buckets := bs'.map keys }, ?_, rfl, bs', rfl, hn'.symm, ?_⟩
  · rw [Xset.resize, h.buckets, hfold]
    rfl
  · rw [hn']
    exact hfilled.kept hsame h.kept.holds hperm

end Xset

end ChrysaLisp.Collections
