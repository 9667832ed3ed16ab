import ChrysaLisp.Collections.Fmap

set_option autoImplicit false

/-! # Xmap

`lib/collections/xmap.inc`, a hash map of whatever comparison and hash it is given. The buckets are
lists of keys and lists of values turn about.

A value that is `:nil` stands for one that is being worked out. `:update` and `:memoize` sleep
until it is there, so they are given how often they may, and come back with nothing if that was
not enough. `:resize` pops the pairs of a bucket until a value is `:nil`, which is what the end of
the bucket gives. -/

namespace ChrysaLisp.Collections

open FiniteMap

variable {O : Type}

structure Xmap (O : Type) where
  num_buckets : ℕ
  buckets : List (List O)
  cmp_fnc : O → O → Bool
  hash_fnc : O → ℤ

namespace Xmap

/-- `(Xmap num_buckets cmp_fnc hash_fnc)` -/
def new (num_buckets : ℕ) (cmp_fnc : O → O → Bool) (hash_fnc : O → ℤ) : Xmap O :=
  ⟨num_buckets, List.replicate (2 * num_buckets) [], cmp_fnc, hash_fnc⟩

/-- What `slot` binds: the list of keys, the list of values, by their places in the buckets, and
    the key's place in them. -/
structure Slot where
  kl : ℕ
  vl : ℕ
  si : Option ℕ

def slot (m : Xmap O) (key : O) : Option Slot := do
  let r ← mod (m.hash_fnc key) m.num_buckets
  let kl ← elemIndex m.buckets.length (r * 2)
  let vl ← elemIndex m.buckets.length (r * 2 + 1)
  let keys ← m.buckets[kl]?
  pure ⟨kl, vl, keys.findIdx? (fun k => m.cmp_fnc k key)⟩

/-- `(elem-set list idx elem)` -/
def elemSet (l : List O) (i : ℕ) (elem : O) : Option (List O) :=
  if i < l.length then some (l.set i elem) else none

/-- `(push list elem)` on one list of the buckets. -/
def pushTo (buckets : List (List O)) (i : ℕ) (elem : O) : List (List O) :=
  buckets.modify i (fun l => l ++ [elem])

/-- `:each`, as the pairs its lambda is called with. -/
def each (m : Xmap O) : List (O × O) := (partition m.buckets).flatMap (fun b => b.1.zip b.2)

def copy (m : Xmap O) : Xmap O := { new m.num_buckets m.cmp_fnc m.hash_fnc with
  buckets := m.buckets }

def empty (m : Xmap O) : Xmap O := { m with buckets := m.buckets.map (fun _ => []) }

/-- `:move`: what is left and what comes back. -/
def move (m : Xmap O) : Xmap O × Xmap O :=
  let that := new m.num_buckets m.cmp_fnc m.hash_fnc
  ({ m with buckets := that.buckets }, { that with buckets := m.buckets })

def insert (m : Xmap O) (key val : O) : Option (Xmap O) := do
  let s ← m.slot key
  match s.si with
  | some si =>
      let vl ← m.buckets[s.vl]?
      let vl ← elemSet vl si val
      pure { m with buckets := m.buckets.set s.vl vl }
  | none => pure { m with buckets := pushTo (pushTo m.buckets s.kl key) s.vl val }

def erase (m : Xmap O) (key : O) : Option (Xmap O) := do
  let s ← m.slot key
  match s.si with
  | some si =>
      let kl ← m.buckets[s.kl]?
      let vl ← m.buckets[s.vl]?
      pure { m with buckets := (m.buckets.set s.kl (swapOut kl si)).set s.vl (swapOut vl si) }
  | none => pure m

section Nil

variable [DecidableEq O] (nil : O)

def find (m : Xmap O) (key : O) : Option O := do
  let s ← m.slot key
  match s.si with
  | some si =>
      let vl ← m.buckets[s.vl]?
      vl[si]?
  | none => pure nil

/-- `(until (setq _kl (elem-get _vl _si)) (lisp_sleep 0))`, with so many sleeps. -/
def await (vl : List O) (si : ℕ) : ℕ → Option O
  | 0 => vl[si]?.bind (fun v => if v = nil then none else some v)
  | naps + 1 => vl[si]?.bind (fun v => if v = nil then await vl si naps else some v)

def update (naps : ℕ) (m : Xmap O) (key : O) (fnc : O → O) : Option (Xmap O × O) := do
  let s ← m.slot key
  let vl ← m.buckets[s.vl]?
  match s.si with
  | some si =>
      let val ← await nil vl si naps
      let vl ← elemSet vl si nil
      let vl ← elemSet vl si (fnc val)
      pure ({ m with buckets := m.buckets.set s.vl vl }, fnc val)
  | none =>
      let kl ← m.buckets[s.kl]?
      let vl ← elemSet (vl ++ [nil]) kl.length (fnc nil)
      pure ({ m with buckets := (pushTo m.buckets s.kl key).set s.vl vl }, fnc nil)

/-- `:memoize`, where a call of the lambda would come back with `val`. -/
def memoize (naps : ℕ) (m : Xmap O) (key val : O) : Option (Xmap O × O) := do
  let s ← m.slot key
  let vl ← m.buckets[s.vl]?
  match s.si with
  | some si =>
      let val ← await nil vl si naps
      pure (m, val)
  | none =>
      let kl ← m.buckets[s.kl]?
      let vl ← elemSet (vl ++ [nil]) kl.length val
      pure ({ m with buckets := (pushTo m.buckets s.kl key).set s.vl vl }, val)

/-- The `while` of `:resize` over one bucket, its lists with the end first. -/
def spill (hash_fnc : O → ℤ) (num_buckets : ℕ) (new_buckets : List (List O)) :
    List O → List O → Option (List (List O))
  | _, [] => some new_buckets
  | old_keys, val :: old_vals =>
      if val = nil then some new_buckets
      else do
        let key := old_keys.headD nil
        let r ← mod (hash_fnc key) num_buckets
        let ni ← elemIndex new_buckets.length (r * 2)
        let nj ← elemIndex new_buckets.length (r * 2 + 1)
        spill hash_fnc num_buckets (pushTo (pushTo new_buckets ni key) nj val) old_keys.tail old_vals

def resize (m : Xmap O) (num_buckets : ℕ) : Option (Xmap O) := do
  let new_buckets ← (partition m.buckets).foldlM
    (fun new_buckets b =>
      spill nil m.hash_fnc num_buckets new_buckets b.1.reverse b.2.reverse)
    (List.replicate (2 * num_buckets) [])
  pure { m with num_buckets := num_buckets, buckets := new_buckets }

end Nil

/-! ## What an Xmap holds -/

/-- The bucket of a key, of so many. -/
def place (hash_fnc : O → ℤ) (n : ℕ) (key : O) : Option ℕ :=
  (mod (hash_fnc key) n).bind (fun r => if 0 ≤ r then some r.toNat else none)

/-- The lists of the keys and the values of some buckets of pairs. -/
def lists (bs : List (List (O × O))) : List (List O) := flat (bs.map List.unzip)

structure Rep (m : Xmap O) (bs : List (List (O × O))) (abs : Map O O) : Prop where
  buckets : m.buckets = lists bs
  num : m.num_buckets = bs.length
  kept : Kept m.cmp_fnc (place m.hash_fnc bs.length) bs abs

def Is (m : Xmap O) (abs : Map O O) : Prop := ∃ bs, Rep m bs abs

/-- The key's hash is of no negative remainder, and every key that compares the same has its
    bucket. -/
def Keyed (m : Xmap O) (key : O) : Prop :=
  ∃ j, place m.hash_fnc m.num_buckets key = some j ∧
    ∀ p ∈ m.each, m.cmp_fnc p.1 key → place m.hash_fnc m.num_buckets p.1 = some j

theorem lists_key (bs : List (List (O × O))) (j : ℕ) :
    (lists bs)[2 * j]? = bs[j]?.map (List.map Prod.fst) := by
  rw [lists, flat_key, List.getElem?_map, Option.map_map]
  congr 1
  funext b
  exact List.unzip_fst

theorem lists_val (bs : List (List (O × O))) (j : ℕ) :
    (lists bs)[2 * j + 1]? = bs[j]?.map (List.map Prod.snd) := by
  rw [lists, flat_val, List.getElem?_map, Option.map_map]
  congr 1
  funext b
  exact List.unzip_snd

theorem length_lists (bs : List (List (O × O))) : (lists bs).length = 2 * bs.length := by
  rw [lists, length_flat, List.length_map]

theorem lists_set (bs : List (List (O × O))) (j : ℕ) (b : List (O × O)) :
    ((lists bs).set (2 * j) (b.map Prod.fst)).set (2 * j + 1) (b.map Prod.snd) =
      lists (bs.set j b) := by
  rw [lists, lists, ← List.unzip_fst, ← List.unzip_snd, flat_set, List.map_set]

/-- New values for a bucket, of the keys it has. -/
theorem lists_set_val {bs : List (List (O × O))} {j : ℕ} {b b' : List (O × O)}
    (hb : bs[j]? = some b) (hkeys : b'.map Prod.fst = b.map Prod.fst) :
    (lists bs).set (2 * j + 1) (b'.map Prod.snd) = lists (bs.set j b') := by
  have hself : (lists bs).set (2 * j) (b'.map Prod.fst) = lists bs := by
    have hj : (lists bs)[2 * j]? = some (b'.map Prod.fst) := by
      rw [lists_key, hb, Option.map_some, hkeys]
    obtain ⟨hlt, he⟩ := List.getElem?_eq_some_iff.1 hj
    rw [← he]
    exact List.set_getElem_self hlt
  rw [← lists_set, hself]

theorem pushTo_eq_set {buckets : List (List O)} {i : ℕ} {l : List O} (h : buckets[i]? = some l)
    (elem : O) : pushTo buckets i elem = buckets.set i (l ++ [elem]) := by
  rw [pushTo, List.modify_eq_set_getElem?, h]
  rfl

/-- A pair pushed to the lists of its bucket. -/
theorem lists_push {bs : List (List (O × O))} {j : ℕ} {b : List (O × O)} (hb : bs[j]? = some b)
    (p : O × O) : pushTo (pushTo (lists bs) (2 * j) p.1) (2 * j + 1) p.2 =
      lists (bs.set j (b ++ [p])) := by
  have hkey : (lists bs)[2 * j]? = some (b.map Prod.fst) := by rw [lists_key, hb, Option.map_some]
  have hval : (lists bs)[2 * j + 1]? = some (b.map Prod.snd) := by
    rw [lists_val, hb, Option.map_some]
  rw [pushTo_eq_set hkey, pushTo_eq_set (by rw [List.getElem?_set_ne (by omega)]; exact hval),
    ← lists_set, List.map_append, List.map_append]
  rfl

theorem place_eq_some {hash_fnc : O → ℤ} {n j : ℕ} {key : O} :
    place hash_fnc n key = some j ↔ mod (hash_fnc key) n = some (j : ℤ) := by
  rw [place, Option.bind_eq_some_iff]
  constructor
  · rintro ⟨r, hr, hj⟩
    split at hj
    · next h0 =>
        rw [Option.some_inj] at hj
        rw [hr, ← hj, Int.toNat_of_nonneg h0]
    · cases hj
  · intro h
    exact ⟨j, h, by simp⟩

theorem place_lt {hash_fnc : O → ℤ} {n j : ℕ} {key : O} (h : place hash_fnc n key = some j) :
    j < n := by
  rw [place_eq_some, mod] at h
  split at h
  · cases h
  · next h0 =>
      rw [Option.some_inj] at h
      have := Int.tmod_lt_of_pos (hash_fnc key) (b := n) (by omega)
      omega

/-- A bucket's two lists are where `slot` looks. -/
theorem elemIndex_twice {n j : ℕ} (h : j < n) : elemIndex (2 * n) ((j : ℤ) * 2) = some (2 * j) ∧
    elemIndex (2 * n) ((j : ℤ) * 2 + 1) = some (2 * j + 1) := by
  have hkl : 2 * j < 2 * n := by omega
  have hvl : 2 * j + 1 < 2 * n := by omega
  constructor
  · rw [← elemIndex_of_lt hkl]
    congr 1
    omega
  · rw [← elemIndex_of_lt hvl]
    congr 1
    omega

variable {m : Xmap O} {bs : List (List (O × O))} {abs : Map O O} {key : O}

theorem Rep.each (h : Rep m bs abs) : m.each = bs.flatten := by
  rw [Xmap.each, h.buckets, lists, partition_flat, List.flatMap_map]
  simp only [List.zip_unzip, List.flatMap_id']

/-- What `slot` binds for a key, and its bucket. -/
theorem Rep.bucket (h : Rep m bs abs) (hk : Keyed m key) : ∃ j b, bs[j]? = some b ∧
    Goes m.cmp_fnc (place m.hash_fnc bs.length) bs key j ∧
    m.slot key = some ⟨2 * j, 2 * j + 1, b.findIdx? (fun p => m.cmp_fnc p.1 key)⟩ ∧
    m.buckets[2 * j]? = some (b.map Prod.fst) ∧ m.buckets[2 * j + 1]? = some (b.map Prod.snd) := by
  obtain ⟨j, hj, hagree⟩ := hk
  rw [h.num] at hj hagree
  have hlt : j < bs.length := place_lt hj
  have hb : bs[j]? = some bs[j] := List.getElem?_eq_getElem hlt
  have hkeys : m.buckets[2 * j]? = some (bs[j].map Prod.fst) := by
    rw [h.buckets, lists_key, hb, Option.map_some]
  refine ⟨j, bs[j], hb, ⟨hj, fun p hp hs => hagree p (by rw [h.each]; exact hp) hs⟩, ?_, hkeys, ?_⟩
  · have hlen : m.buckets.length = 2 * bs.length := by rw [h.buckets, length_lists]
    rw [slot, h.num, place_eq_some.1 hj, Option.bind_eq_bind, Option.bind_some, hlen,
      (elemIndex_twice hlt).1, (elemIndex_twice hlt).2, Option.bind_eq_bind, Option.bind_some,
      Option.bind_eq_bind, Option.bind_some, hkeys, Option.bind_some, List.findIdx?_map]
    rfl
  · rw [h.buckets, lists_val, hb, Option.map_some]

/-- One bucket changed, and the map with it. -/
theorem Rep.set (h : Rep m bs abs) {j : ℕ} {b : List (O × O)} {abs' : Map O O}
    {buckets : List (List O)} (hbuckets : buckets = lists (bs.set j b))
    (hkept : Kept m.cmp_fnc (place m.hash_fnc bs.length) (bs.set j b) abs') :
    Is { m with buckets := buckets } abs' :=
  ⟨bs.set j b, hbuckets, by rw [List.length_set]; exact h.num,
    by rw [List.length_set]; exact hkept⟩

/-- The search of a bucket. -/
theorem found (m : Xmap O) (b : List (O × O)) (key : O) :
    Found m.cmp_fnc b key (b.findIdx? (fun p => m.cmp_fnc p.1 key)) :=
  found_findIdx? (fun _ _ => rfl)

theorem lists_replicate (n : ℕ) :
    List.replicate (2 * n) ([] : List O) = lists (List.replicate n []) := by
  induction n with
  | zero => rfl
  | succ n ih =>
      rw [Nat.mul_succ, List.replicate_succ', List.replicate_succ', ih, lists, lists,
        List.replicate_succ', List.map_append, flat_append, List.append_assoc]
      rfl

theorem is_new (n : ℕ) (cmp_fnc : O → O → Bool) (hash_fnc : O → ℤ) :
    Is (new n cmp_fnc hash_fnc) Map.empty := by
  refine ⟨List.replicate n [], lists_replicate n, List.length_replicate.symm, ?_,
    (filled_replicate _ n).placed⟩
  rw [List.flatten_replicate_nil]
  exact Holds.nil

theorem Is.copy (h : Is m abs) : Is m.copy abs := h

theorem Is.empty (h : Is m abs) : Is m.empty Map.empty := by
  obtain ⟨bs, h⟩ := h
  have hm : m.empty = new m.num_buckets m.cmp_fnc m.hash_fnc := by
    rw [Xmap.empty, new, List.map_const', h.buckets, length_lists, h.num]
  rw [hm]
  exact is_new _ _ _

theorem Is.move (h : Is m abs) : Is m.move.1 Map.empty ∧ Is m.move.2 abs := ⟨is_new _ _ _, h⟩

theorem Is.each (hsame : Same m.cmp_fnc) (h : Is m abs) :
    m.each.Nodup ∧ ∀ p, p ∈ m.each ↔ p ∈ abs.pairs := by
  obtain ⟨bs, h⟩ := h
  rw [h.each]
  exact ⟨h.kept.holds.nodup hsame, fun p => (h.kept.holds.mem_pairs hsame p).symm⟩

theorem map_swapOut {α β : Type} (f : α → β) (b : List α) (i : ℕ) :
    (swapOut b i).map f = swapOut (b.map f) i := by
  rw [swapOut, swapOut, List.getLast?_map]
  cases b.getLast? with
  | none => rfl
  | some q => rw [Option.elim_some, Option.map_some, Option.elim_some, List.map_dropLast,
      List.map_set]

/-- A new value in the list of the values. -/
theorem map_modify_val (b : List (O × O)) (i : ℕ) (val : O) :
    (b.modify i (fun p => (p.1, val))).map Prod.snd = (b.map Prod.snd).set i val ∧
      (b.modify i (fun p => (p.1, val))).map Prod.fst = b.map Prod.fst := by
  induction b generalizing i with
  | nil => simp
  | cons p b ih =>
      cases i with
      | zero => exact ⟨rfl, rfl⟩
      | succ i => exact ⟨congrArg (p.2 :: ·) (ih i).1, congrArg (p.1 :: ·) (ih i).2⟩

theorem Is.insert (hsame : Same m.cmp_fnc) (h : Is m abs) (hk : Keyed m key) (val : O) :
    ∃ m', m.insert key val = some m' ∧ m'.cmp_fnc = m.cmp_fnc ∧
      Is m' (abs.put m.cmp_fnc key val) := by
  obtain ⟨bs, h⟩ := h
  obtain ⟨j, b, hb, hgoes, hslot, hkl, hvl⟩ := h.bucket hk
  have hfound := found m b key
  have hkept := h.kept.put hsame hgoes hb hfound val
  rw [Xmap.insert, hslot, Option.bind_eq_bind, Option.bind_some]
  cases hr : b.findIdx? (fun p => m.cmp_fnc p.1 key) with
  | none =>
      rw [hr] at hkept
      refine ⟨_, rfl, rfl, h.set ?_ hkept⟩
      rw [h.buckets]
      exact lists_push hb (key, val)
  | some si =>
      rw [hr] at hkept hfound
      refine ⟨{ m with buckets := m.buckets.set (2 * j + 1) ((b.map Prod.snd).set si val) }, ?_,
        rfl, h.set ?_ hkept⟩
      · have hlt : si < (b.map Prod.snd).length := by
          rw [List.length_map]
          exact found_lt hfound
        simp only [hvl, elemSet, if_pos hlt, Option.bind_eq_bind, Option.bind_some]
        rfl
      · rw [h.buckets, ← (map_modify_val b si val).1]
        exact lists_set_val hb (map_modify_val b si val).2

theorem Is.erase (hsame : Same m.cmp_fnc) (h : Is m abs) (hk : Keyed m key) :
    ∃ m', m.erase key = some m' ∧ m'.cmp_fnc = m.cmp_fnc ∧ Is m' (abs.drop m.cmp_fnc key) := by
  obtain ⟨bs, h⟩ := h
  obtain ⟨j, b, hb, hgoes, hslot, hkl, hvl⟩ := h.bucket hk
  have hkept := h.kept.drop hsame hgoes hb (found m b key)
  rw [Xmap.erase, hslot, Option.bind_eq_bind, Option.bind_some]
  cases hr : b.findIdx? (fun p => m.cmp_fnc p.1 key) with
  | none =>
      rw [hr] at hkept
      have hset : bs.set j (dropAt b none) = bs := by
        obtain ⟨hlt, rfl⟩ := List.getElem?_eq_some_iff.1 hb
        exact List.set_getElem_self hlt
      rw [hset] at hkept
      exact ⟨m, rfl, rfl, bs, h.buckets, h.num, hkept⟩
  | some si =>
      rw [hr] at hkept
      simp only [hkl, hvl, Option.bind_eq_bind, Option.bind_some]
      refine ⟨_, rfl, rfl, h.set ?_ hkept⟩
      rw [h.buckets, ← map_swapOut, ← map_swapOut]
      exact lists_set bs j _

section Nil

variable [DecidableEq O] {nil : O}

omit [DecidableEq O] in
theorem Is.find (h : Is m abs) (hk : Keyed m key) :
    m.find nil key = some ((abs.find key).getD nil) := by
  obtain ⟨bs, h⟩ := h
  obtain ⟨j, b, hb, hgoes, hslot, hkl, hvl⟩ := h.bucket hk
  have hfound := found m b key
  rw [Xmap.find, hslot, Option.bind_eq_bind, Option.bind_some, Map.find,
    h.kept.look_found hgoes hb hfound]
  cases hr : b.findIdx? (fun p => m.cmp_fnc p.1 key) with
  | none => rfl
  | some si =>
      rw [hr] at hfound
      obtain ⟨p, hp, -⟩ := hfound
      simp only [hvl, hp, Option.bind_eq_bind, Option.bind_some, List.getElem?_map, Option.map_some,
        Option.getD_some]

/-- A value that is there is not waited for, and one that is `:nil` for ever. -/
theorem await_eq (vl : List O) (si naps : ℕ) : await nil vl si naps =
    vl[si]?.bind (fun v => if v = nil then none else some v) := by
  induction naps with
  | zero => rfl
  | succ naps ih =>
      rw [await, ih]
      cases vl[si]? with
      | none => rfl
      | some v =>
          rw [Option.bind_some, Option.bind_some]
          by_cases hv : v = nil
          · rw [if_pos hv, if_pos hv]
          · rw [if_neg hv, if_neg hv]

/-- The value of the key, if it has one, is not `:nil`. -/
def Settled (nil : O) (m : Xmap O) (key : O) : Prop :=
  ∀ p ∈ m.each, m.cmp_fnc p.1 key → p.2 ≠ nil

omit [DecidableEq O] in
/-- What `:update` and `:memoize` do for a key that is not there: both lists one longer. -/
theorem push_nil (nil key : O) {b : List (O × O)} {j : ℕ} (hb : bs[j]? = some b) (val : O) :
    elemSet (b.map Prod.snd ++ [nil]) (b.map Prod.fst).length val =
        some (b.map Prod.snd ++ [val]) ∧
      (pushTo (lists bs) (2 * j) key).set (2 * j + 1) (b.map Prod.snd ++ [val]) =
        lists (bs.set j (b ++ [(key, val)])) := by
  constructor
  · have hlen : (b.map Prod.fst).length = (b.map Prod.snd).length := by
      rw [List.length_map, List.length_map]
    rw [elemSet, if_pos (by simp), hlen, List.set_append_right _ _ le_rfl, Nat.sub_self]
    rfl
  · have hkey : (lists bs)[2 * j]? = some (b.map Prod.fst) := by
      rw [lists_key, hb, Option.map_some]
    rw [pushTo_eq_set hkey, ← lists_set, List.map_append, List.map_append]
    rfl

theorem Is.update (hsame : Same m.cmp_fnc) (h : Is m abs) (hk : Keyed m key)
    (hset : Settled nil m key) (naps : ℕ) (fnc : O → O) :
    ∃ m', m.update nil naps key fnc = some (m', fnc ((abs.find key).getD nil)) ∧
      m'.cmp_fnc = m.cmp_fnc ∧
      Is m' (abs.put m.cmp_fnc key (fnc ((abs.find key).getD nil))) := by
  obtain ⟨bs, h⟩ := h
  obtain ⟨j, b, hb, hgoes, hslot, hkl, hvl⟩ := h.bucket hk
  have hfound := found m b key
  have hlook := h.kept.look_found hgoes hb hfound
  have hkept := h.kept.put hsame hgoes hb hfound (fnc ((abs.find key).getD nil))
  rw [Xmap.update, hslot, Option.bind_eq_bind, Option.bind_some, hvl, Option.bind_eq_bind,
    Option.bind_some]
  cases hr : b.findIdx? (fun p => m.cmp_fnc p.1 key) with
  | none =>
      rw [hr] at hkept hlook
      have hval : (abs.find key).getD nil = nil := by
        rw [Map.find, hlook]
        rfl
      rw [hval] at hkept ⊢
      obtain ⟨helem, hlists⟩ := push_nil nil key hb (fnc nil)
      simp only [hkl, Option.bind_some, helem]
      refine ⟨_, rfl, rfl, h.set ?_ hkept⟩
      rw [h.buckets]
      exact hlists
  | some si =>
      rw [hr] at hkept hfound hlook
      obtain ⟨p, hp, hs⟩ := hfound
      have hval : (abs.find key).getD nil = p.2 := by
        rw [Map.find, hlook, Option.bind_some, hp]
        rfl
      have hne : p.2 ≠ nil := hset p (by
        rw [h.each]
        exact List.mem_flatten.2 ⟨b, List.mem_of_getElem? hb, List.mem_of_getElem? hp⟩) hs
      have hlt : si < (b.map Prod.snd).length := by
        rw [List.length_map]
        exact (List.getElem?_eq_some_iff.1 hp).1
      rw [hval] at hkept ⊢
      simp only [await_eq, List.getElem?_map, hp, Option.map_some, Option.bind_eq_bind,
        Option.bind_some, if_neg hne, elemSet, if_pos hlt, List.length_set, List.set_set]
      refine ⟨_, rfl, rfl, h.set ?_ hkept⟩
      rw [h.buckets, ← (map_modify_val b si (fnc p.2)).1]
      exact lists_set_val hb (map_modify_val b si (fnc p.2)).2

theorem Is.memoize (hsame : Same m.cmp_fnc) (h : Is m abs) (hk : Keyed m key)
    (hset : Settled nil m key) (naps : ℕ) (val : O) :
    ∃ m', m.memoize nil naps key val = some (m', (abs.find key).getD val) ∧
      m'.cmp_fnc = m.cmp_fnc ∧
      Is m' ((abs.find key).elim (abs.put m.cmp_fnc key val) (fun _ => abs)) := by
  obtain ⟨bs, h⟩ := h
  obtain ⟨j, b, hb, hgoes, hslot, hkl, hvl⟩ := h.bucket hk
  have hfound := found m b key
  have hlook := h.kept.look_found hgoes hb hfound
  have hkept := h.kept.put hsame hgoes hb hfound val
  rw [Xmap.memoize, hslot, Option.bind_eq_bind, Option.bind_some, hvl, Option.bind_eq_bind,
    Option.bind_some, Map.find, hlook]
  cases hr : b.findIdx? (fun p => m.cmp_fnc p.1 key) with
  | none =>
      rw [hr] at hkept
      obtain ⟨helem, hlists⟩ := push_nil nil key hb val
      simp only [hkl, Option.bind_some, helem]
      refine ⟨_, rfl, rfl, h.set ?_ hkept⟩
      rw [h.buckets]
      exact hlists
  | some si =>
      rw [hr] at hfound
      obtain ⟨p, hp, hs⟩ := hfound
      have hne : p.2 ≠ nil := hset p (by
        rw [h.each]
        exact List.mem_flatten.2 ⟨b, List.mem_of_getElem? hb, List.mem_of_getElem? hp⟩) hs
      simp only [await_eq, List.getElem?_map, hp, Option.map_some, Option.bind_eq_bind,
        Option.bind_some, if_neg hne, Option.getD_some, Option.elim_some]
      exact ⟨m, rfl, rfl, bs, h⟩

/-! ## The resize -/

/-- Every pair that is there has a value other than `:nil`, and a bucket of that many. -/
def Carried (nil : O) (m : Xmap O) (num_buckets : ℕ) : Prop :=
  ∀ p ∈ m.each, p.2 ≠ nil ∧ (place m.hash_fnc num_buckets p.1).isSome

variable {hash_fnc : O → ℤ} {n : ℕ} {done : List (O × O)}

/-- A bucket with no `:nil` for a value is all put in the new buckets. -/
theorem spill_all (l : List (O × O)) (hn : bs.length = n)
    (hfilled : Filled (place hash_fnc n) bs done)
    (hl : ∀ p ∈ l, p.2 ≠ nil ∧ (place hash_fnc n p.1).isSome) :
    ∃ bs', spill nil hash_fnc n (lists bs) (l.map Prod.fst) (l.map Prod.snd) = some (lists bs') ∧
      bs'.length = n ∧ Filled (place hash_fnc n) bs' (l.reverse ++ done) := by
  induction l generalizing bs done with
  | nil => exact ⟨bs, rfl, hn, hfilled⟩
  | cons p l ih =>
      obtain ⟨hne, hsome⟩ := hl p List.mem_cons_self
      obtain ⟨j, hj⟩ := Option.isSome_iff_exists.1 hsome
      have hlt : j < bs.length := hn ▸ place_lt hj
      have hb : bs[j]? = some bs[j] := List.getElem?_eq_getElem hlt
      obtain ⟨bs', hspill, hn', hfilled'⟩ := @ih (bs.set j (bs[j] ++ [p])) (p :: done)
        (by rw [List.length_set, hn]) (hfilled.push hj hb)
        (fun q hq => hl q (List.mem_cons_of_mem _ hq))
      refine ⟨bs', ?_, hn', by rw [List.reverse_cons, List.append_assoc]; exact hfilled'⟩
      have hmod : mod (hash_fnc p.1) n = some (j : ℤ) := place_eq_some.1 hj
      have hkey : (p.1 :: l.map Prod.fst).headD nil = p.1 := rfl
      rw [List.map_cons, List.map_cons, spill, if_neg hne]
      simp only [hkey, hmod, length_lists, (elemIndex_twice hlt).1, (elemIndex_twice hlt).2,
        Option.bind_eq_bind, Option.bind_some, lists_push hb, List.tail_cons]
      exact hspill

/-- All the buckets put in the new ones. -/
theorem spill_buckets (old : List (List (O × O))) (hn : bs.length = n)
    (hfilled : Filled (place hash_fnc n) bs done)
    (hold : ∀ p ∈ old.flatten, p.2 ≠ nil ∧ (place hash_fnc n p.1).isSome) :
    ∃ bs' done', (old.map List.unzip).foldlM
        (fun new_buckets b => spill nil hash_fnc n new_buckets b.1.reverse b.2.reverse)
        (lists bs) = some (lists bs') ∧
      bs'.length = n ∧ Filled (place hash_fnc n) bs' done' ∧ done'.Perm (old.flatten ++ done) := by
  induction old generalizing bs done with
  | nil => exact ⟨bs, done, rfl, hn, hfilled, List.Perm.refl _⟩
  | cons b old ih =>
      obtain ⟨bs₁, hspill, hn₁, hfilled₁⟩ := spill_all b.reverse hn hfilled (fun p hp =>
        hold p (List.mem_append_left _ (List.mem_reverse.1 hp)))
      rw [List.reverse_reverse] at hfilled₁
      obtain ⟨bs₂, done₂, hfold, hn₂, hfilled₂, hperm⟩ := ih hn₁ hfilled₁
        (fun p hp => hold p (List.mem_append_right _ hp))
      refine ⟨bs₂, done₂, ?_, hn₂, hfilled₂, hperm.trans ?_⟩
      · rw [List.map_cons, List.foldlM_cons, List.unzip_fst, List.unzip_snd, ← List.map_reverse,
          ← List.map_reverse, hspill]
        exact hfold
      · rw [List.flatten_cons, ← List.append_assoc]
        exact List.perm_append_comm.append_right _

theorem Is.resize (hsame : Same m.cmp_fnc) (h : Is m abs) {n : ℕ} (hn : Carried nil m n) :
    ∃ m', m.resize nil n = some m' ∧ m'.cmp_fnc = m.cmp_fnc ∧ Is m' abs := by
  obtain ⟨bs, h⟩ := h
  have hcarried : ∀ p ∈ bs.flatten, p.2 ≠ nil ∧ (place m.hash_fnc n p.1).isSome := by
    rw [← h.each]
    exact hn
  obtain ⟨bs', done', hfold, hn', hfilled, hperm⟩ := spill_buckets bs List.length_replicate
    (filled_replicate (place m.hash_fnc n) n) hcarried
  rw [← lists_replicate, List.append_nil] at *
  refine ⟨{ m with num_buckets := n, buckets := lists bs' }, ?_, rfl, bs', rfl, hn'.symm, ?_⟩
  · rw [Xmap.resize, h.buckets, lists, partition_flat, hfold]
    rfl
  · rw [hn']
    exact hfilled.kept hsame h.kept.holds hperm

end Nil

end Xmap

end ChrysaLisp.Collections
