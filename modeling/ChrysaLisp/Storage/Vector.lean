import ChrysaLisp.Storage.Text
import Mathlib.Order.Lattice

set_option autoImplicit false

/-! # The lattice of version vectors

A version vector is canonical: in the order of the members' ids, each once, and none that has not
written; and its members are ids, which are system ids in hex. In the order of its counts, one at or
after another when it has as many or more of every member's writes, `store-vv-cmp` says how two stand
to each other, `store-vv-merge` is the join, and `store-vv-bump` goes strictly up. -/

namespace ChrysaLisp

/-- A canonical version vector. -/
structure VersionVector where
  vv : Vv
  sound : VvSound vv
  ids : ∀ p ∈ vv, IsId p.1

/-- A member, by its id. -/
structure MemberId where
  id : Str
  isId : IsId id

namespace VersionVector

theorem ext_vv {a b : VersionVector} (h : a.vv = b.vv) : a = b := by
  obtain ⟨va, _, _⟩ := a
  obtain ⟨vb, _, _⟩ := b
  cases h
  rfl

/-- `(store-vv-merge a b)` is canonical too. -/
def merge (a b : VersionVector) : VersionVector :=
  ⟨storeVvMerge a.vv b.vv, vvSound_merge a.sound b.sound, isId_merge a.ids b.ids⟩

/-- And so is `(store-vv-bump vv member)`. -/
def bump (a : VersionVector) (m : MemberId) : VersionVector :=
  ⟨storeVvBump a.vv m.id, vvSound_bump a.sound m.id, isId_bump a.ids m.isId⟩

/-- The order of the counts, with the merge as its join. -/
instance : SemilatticeSup VersionVector where
  le a b := VvLe a.vv b.vv
  le_refl a := VvLe.refl a.vv
  le_trans _ _ _ := VvLe.trans
  le_antisymm a b hab hba := ext_vv (hab.antisymm a.sound b.sound hba)
  sup := merge
  le_sup_left a b := vvLe_merge_left a.sound b.sound
  le_sup_right a b := vvLe_merge_right a.sound b.sound
  sup_le a b _ hac hbc := merge_vvLe a.sound b.sound hac hbc

/-- The vector of a path nobody has written is before all others. -/
instance : OrderBot VersionVector where
  bot := ⟨[], CountList.Canonical.nil, fun _ hp => absurd hp List.not_mem_nil⟩
  bot_le _ := fun _ => Nat.zero_le _

theorem cmp_same_iff (a b : VersionVector) : storeVvCmp a.vv b.vv = .same ↔ a = b :=
  (storeVvCmp_same_iff a.sound b.sound).trans ⟨ext_vv, fun h => congrArg vv h⟩

theorem cmp_after_iff (a b : VersionVector) : storeVvCmp a.vv b.vv = .after ↔ b < a :=
  storeVvCmp_after_iff a.sound b.sound

theorem cmp_before_iff (a b : VersionVector) : storeVvCmp a.vv b.vv = .before ↔ a < b :=
  storeVvCmp_before_iff a.sound b.sound

theorem cmp_apart_iff (a b : VersionVector) : storeVvCmp a.vv b.vv = .apart ↔ ¬ a ≤ b ∧ ¬ b ≤ a :=
  storeVvCmp_apart_iff a.sound b.sound

/-- `a` is `b`, or `store-vv-cmp` says it is after it. -/
def AtOrAfter (a b : VersionVector) : Prop :=
  storeVvCmp a.vv b.vv = .same ∨ storeVvCmp a.vv b.vv = .after

theorem atOrAfter_iff (a b : VersionVector) : AtOrAfter a b ↔ b ≤ a := by
  unfold AtOrAfter
  rw [cmp_same_iff, cmp_after_iff, le_iff_eq_or_lt, eq_comm]

/-- What `store-vv-cmp` says is a partial order, with two apart that are neither at or after the
other. -/
structure CmpIsOrder : Prop where
  refl : ∀ a, AtOrAfter a a
  antisymm : ∀ a b, AtOrAfter a b → AtOrAfter b a → a = b
  trans : ∀ a b c, AtOrAfter a b → AtOrAfter b c → AtOrAfter a c
  before : ∀ a b : VersionVector, storeVvCmp a.vv b.vv = .before ↔ storeVvCmp b.vv a.vv = .after
  apart : ∀ a b : VersionVector,
    storeVvCmp a.vv b.vv = .apart ↔ ¬ AtOrAfter a b ∧ ¬ AtOrAfter b a

/-- `store-vv-merge` is the least that is at or after both. -/
structure MergeIsJoin : Prop where
  left : ∀ a b, AtOrAfter (merge a b) a
  right : ∀ a b, AtOrAfter (merge a b) b
  least : ∀ a b c, AtOrAfter c a → AtOrAfter c b → AtOrAfter c (merge a b)
  comm : ∀ a b : VersionVector, storeVvMerge a.vv b.vv = storeVvMerge b.vv a.vv
  assoc : ∀ a b c : VersionVector,
    storeVvMerge (storeVvMerge a.vv b.vv) c.vv = storeVvMerge a.vv (storeVvMerge b.vv c.vv)
  idem : ∀ a : VersionVector, storeVvMerge a.vv a.vv = a.vv

theorem cmpIsOrder : CmpIsOrder where
  refl a := (atOrAfter_iff a a).2 le_rfl
  antisymm a b hab hba := le_antisymm ((atOrAfter_iff b a).1 hba) ((atOrAfter_iff a b).1 hab)
  trans a b c hab hbc :=
    (atOrAfter_iff a c).2 (((atOrAfter_iff b c).1 hbc).trans ((atOrAfter_iff a b).1 hab))
  before a b := by rw [cmp_before_iff, cmp_after_iff]
  apart a b := by rw [cmp_apart_iff, atOrAfter_iff, atOrAfter_iff, and_comm]

theorem mergeIsJoin : MergeIsJoin where
  left a b := (atOrAfter_iff (a ⊔ b) a).2 le_sup_left
  right a b := (atOrAfter_iff (a ⊔ b) b).2 le_sup_right
  least a b c hca hcb :=
    (atOrAfter_iff c (a ⊔ b)).2 (sup_le ((atOrAfter_iff c a).1 hca) ((atOrAfter_iff c b).1 hcb))
  comm a b := congrArg vv (sup_comm a b)
  assoc a b c := congrArg vv (sup_assoc a b c)
  idem a := congrArg vv (sup_idem a)

end VersionVector

end ChrysaLisp
