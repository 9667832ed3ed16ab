import ChrysaLisp.Library.CountList
import ChrysaLisp.Lisp.Str
import Mathlib.Data.List.AList

set_option autoImplicit false

/-! # An entry of the path map

A path of a store is an `Entry`: the object it is, who has written it how many times (`Vv`), the
member that made the entry, the members known to have it, whether the path is deleted, and how many
members are to keep its blocks. This file is the entry, the counts of who has written a path, and
the line of text an entry is written as.

The counts are a list in the order of the members' ids, so two that say the same are the same.
Each operation on them is the one of `CountList`, which says what it does to the counts as a map
from members to numbers: `storeVvCmp` is the pointwise order of those maps, `storeVvMerge` their
least upper bound. -/

namespace ChrysaLisp

/-! ## The counts of who has written a path -/

/-- A vv, `((member count) ...)`. -/
abbrev Vv := List (Str × ℕ)

/-- `(store-vv-bump vv member)`: one more write by a member. -/
def storeVvBump (vv : Vv) (member : Str) : Vv :=
  let out := vv.map (fun p => if p.1 = member then (p.1, p.2 + 1) else p)
  let done := vv.any (fun p => p.1 = member)
  let out := if done then out else out ++ [(member, 1)]
  CountList.sortKeys out

/-- `(store-vv-count vv member)`. -/
def storeVvCount (vv : Vv) (member : Str) : ℕ :=
  ((vv.find? (fun p => p.1 = member)).map Prod.snd).getD 0

/-- What `store-vv-cmp` gives. -/
inductive VvOrder where
  | same
  | after
  | before
  | apart
  deriving DecidableEq, Repr

/-- `(store-vv-cmp a b)`: `a` against `b`. -/
def storeVvCmp (a b : Vv) : VvOrder :=
  let more := a.any (fun p => decide (storeVvCount b p.1 < p.2))
  let less := a.any (fun p => decide (p.2 < storeVvCount b p.1)) ||
    b.any (fun p => decide (storeVvCount a p.1 < p.2))
  if more && less then .apart
  else if more then .after
  else if less then .before
  else .same

/-- `(store-vv-merge a b)`: the most of each member's writes that either has. -/
def storeVvMerge (a b : Vv) : Vv :=
  let out := a.map (fun p => (p.1, max p.2 (storeVvCount b p.1)))
  let out := out ++ b.filter (fun p => !a.any (fun q => q.1 = p.1))
  CountList.sortKeys out

/-- `(store-vv-total vv)`. -/
def storeVvTotal (vv : Vv) : ℕ := vv.foldl (fun sum p => sum + p.2) 0

/-- In the order of the members' ids, each once, and none that has not written. -/
abbrev VvSound (vv : Vv) : Prop := CountList.Canonical vv

theorem storeVvCount_eq (vv : Vv) (m : Str) : storeVvCount vv m = CountList.count vv m := rfl

theorem storeVvBump_eq (vv : Vv) (m : Str) : storeVvBump vv m = CountList.bump vv m := by
  unfold storeVvBump CountList.bump CountList.bumped CountList.has
  by_cases h : vv.any (fun p => p.1 = m) = true
  · simp only [h, if_true, List.append_nil]
  · simp only [h, Bool.false_eq_true, if_false]

theorem storeVvMerge_eq (a b : Vv) : storeVvMerge a b = CountList.merge a b := rfl

theorem vvSound_bump {vv : Vv} (h : VvSound vv) (m : Str) : VvSound (storeVvBump vv m) := by
  rw [storeVvBump_eq]
  exact CountList.canonical_bump h m

theorem vvSound_merge {a b : Vv} (ha : VvSound a) (hb : VvSound b) : VvSound (storeVvMerge a b) :=
  CountList.canonical_merge ha hb

theorem storeVvCount_bump {vv : Vv} (h : VvSound vv) (m k : Str) :
    storeVvCount (storeVvBump vv m) k
      = if k = m then storeVvCount vv k + 1 else storeVvCount vv k := by
  rw [storeVvBump_eq]
  exact CountList.count_bump h m k

theorem storeVvCount_merge {a b : Vv} (ha : VvSound a) (hb : VvSound b) (k : Str) :
    storeVvCount (storeVvMerge a b) k = max (storeVvCount a k) (storeVvCount b k) :=
  CountList.count_merge ha hb k

/-- Two that say the same are the same. -/
theorem vv_ext {a b : Vv} (ha : VvSound a) (hb : VvSound b)
    (h : ∀ m, storeVvCount a m = storeVvCount b m) : a = b :=
  ha.ext hb h

/-! ## How two are to each other

`VvLe a b` is the pointwise order of the counts. `store-vv-cmp` says of two how they stand in it. -/

/-- `b` has as many or more of every member's writes. -/
def VvLe (a b : Vv) : Prop := ∀ m, storeVvCount a m ≤ storeVvCount b m

theorem VvLe.refl (a : Vv) : VvLe a a := fun _ => le_rfl

theorem VvLe.trans {a b c : Vv} (h : VvLe a b) (h' : VvLe b c) : VvLe a c :=
  fun m => (h m).trans (h' m)

theorem VvLe.antisymm {a b : Vv} (ha : VvSound a) (hb : VvSound b) (h : VvLe a b)
    (h' : VvLe b a) : a = b :=
  vv_ext ha hb (fun m => le_antisymm (h m) (h' m))

theorem any_count_lt_iff {a : Vv} (ha : VvSound a) (b : Vv) :
    a.any (fun p => decide (storeVvCount b p.1 < p.2)) = true ↔ ¬ VvLe a b := by
  unfold VvLe
  push Not
  rw [List.any_eq_true]
  constructor
  · rintro ⟨p, hp, hlt⟩
    refine ⟨p.1, ?_⟩
    rw [storeVvCount_eq a, CountList.count_of_mem ha.nodup hp]
    exact of_decide_eq_true hlt
  · rintro ⟨m, hlt⟩
    have hmem := CountList.mem_of_count_pos (lt_of_le_of_lt (Nat.zero_le _) hlt)
    exact ⟨_, hmem, decide_eq_true hlt⟩

theorem any_lt_count_imp {a : Vv} (ha : VvSound a) {b : Vv}
    (h : a.any (fun p => decide (p.2 < storeVvCount b p.1)) = true) : ¬ VvLe b a := by
  obtain ⟨p, hp, hlt⟩ := List.any_eq_true.1 h
  intro hle
  have hcount : storeVvCount a p.1 = p.2 := CountList.count_of_mem ha.nodup hp
  have := hle p.1
  have := of_decide_eq_true hlt
  omega

/-- `store-vv-cmp` decides the pointwise order both ways. -/
theorem storeVvCmp_eq {a b : Vv} (ha : VvSound a) (hb : VvSound b) [Decidable (VvLe a b)]
    [Decidable (VvLe b a)] :
    storeVvCmp a b
      = if VvLe a b then (if VvLe b a then .same else .before)
        else (if VvLe b a then .after else .apart) := by
  have hmore : a.any (fun p => decide (storeVvCount b p.1 < p.2)) = !decide (VvLe a b) := by
    rw [Bool.eq_iff_iff, any_count_lt_iff ha]
    simp
  have hless : (a.any (fun p => decide (p.2 < storeVvCount b p.1)) ||
      b.any (fun p => decide (storeVvCount a p.1 < p.2))) = !decide (VvLe b a) := by
    rw [Bool.eq_iff_iff, Bool.or_eq_true, any_count_lt_iff hb]
    have := @any_lt_count_imp a ha b
    simp only [Bool.not_eq_true', decide_eq_false_iff_not]
    exact ⟨fun h => h.elim this id, Or.inr⟩
  unfold storeVvCmp
  rw [hmore, hless]
  by_cases h1 : VvLe a b <;> by_cases h2 : VvLe b a <;> simp [h1, h2]

section Cmp

variable {a b : Vv} (ha : VvSound a) (hb : VvSound b)
include ha hb

theorem storeVvCmp_same_iff : storeVvCmp a b = .same ↔ a = b := by
  classical
  rw [storeVvCmp_eq ha hb]
  constructor
  · intro h
    by_cases h1 : VvLe a b <;> by_cases h2 : VvLe b a <;> simp [h1, h2] at h
    exact h1.antisymm ha hb h2
  · rintro rfl
    simp [VvLe.refl]

theorem storeVvCmp_after_iff : storeVvCmp a b = .after ↔ VvLe b a ∧ ¬ VvLe a b := by
  classical
  rw [storeVvCmp_eq ha hb]
  by_cases h1 : VvLe a b <;> by_cases h2 : VvLe b a <;> simp [h1, h2]

theorem storeVvCmp_before_iff : storeVvCmp a b = .before ↔ VvLe a b ∧ ¬ VvLe b a := by
  classical
  rw [storeVvCmp_eq ha hb]
  by_cases h1 : VvLe a b <;> by_cases h2 : VvLe b a <;> simp [h1, h2]

theorem storeVvCmp_apart_iff : storeVvCmp a b = .apart ↔ ¬ VvLe a b ∧ ¬ VvLe b a := by
  classical
  rw [storeVvCmp_eq ha hb]
  by_cases h1 : VvLe a b <;> by_cases h2 : VvLe b a <;> simp [h1, h2]

/-- The counts of both come after either, or are it. -/
theorem vvLe_merge_left : VvLe a (storeVvMerge a b) := fun m => by
  rw [storeVvCount_merge ha hb]
  exact le_max_left _ _

theorem vvLe_merge_right : VvLe b (storeVvMerge a b) := fun m => by
  rw [storeVvCount_merge ha hb]
  exact le_max_right _ _

/-- And are before anything else that does. -/
theorem merge_vvLe {c : Vv} (hac : VvLe a c) (hbc : VvLe b c) : VvLe (storeVvMerge a b) c :=
  fun m => by
    rw [storeVvCount_merge ha hb]
    exact max_le (hac m) (hbc m)

end Cmp

/-- One more write comes after what it was. -/
theorem storeVvCmp_bump {vv : Vv} (h : VvSound vv) (m : Str) :
    storeVvCmp (storeVvBump vv m) vv = .after := by
  rw [storeVvCmp_after_iff (vvSound_bump h m) h]
  constructor
  · intro k
    rw [storeVvCount_bump h]
    split <;> omega
  · intro hle
    have := hle m
    rw [storeVvCount_bump h, if_pos rfl] at this
    omega

/-! ## An entry -/

/-- `(path hash size vv writer seen deleted copies)`. -/
structure Entry where
  path : Str
  hash : Str
  bytes : ℕ
  vv : Vv
  writer : Str
  seen : List Str
  deleted : Bool
  copies : ℕ
  deriving DecidableEq

/-- `(store-vv-text vv)`. -/
def storeVvText (vv : Vv) : Str :=
  if vv = [] then asc "-"
  else join (vv.map (fun p => p.1 ++ asc ":" ++ strNum p.2)) (asc ",")

/-- `(store-entry-line entry)`. -/
def storeEntryLine (entry : Entry) : Str :=
  join [if entry.hash = [] then asc "-" else hexEncode entry.hash,
    strNum entry.bytes, storeVvText entry.vv, entry.writer,
    if entry.seen = [] then asc "-" else join entry.seen (asc ","),
    (if entry.deleted then asc "1" else asc "0") ++
      (if 0 < entry.copies then asc "/" ++ strNum entry.copies else []),
    entry.path] (asc " ")

/-- `+store_lf`. -/
def storeLf : Str := [10]

/-- `(store-text lines)`: each with its line feed. -/
def storeText (lines : List Str) : Str := (lines.map (· ++ storeLf)).flatten

/-! ## The path map -/

/-- The path map as it is held, an `Fmap` of the source: each path once. -/
abbrev PathMap := AList (fun _ : Str => Entry)

/-- The entries of a path map, in the order of the paths. -/
def PathMap.inOrder (map : PathMap) : List Entry :=
  (map.entries.map (·.2)).insertionSort (fun a b => a.path ≤ b.path)

end ChrysaLisp
