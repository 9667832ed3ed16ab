import ChrysaLisp.Library.Trails
import ChrysaLisp.Math.Polygon
import Mathlib.Data.List.Perm.Basic
import Mathlib.Data.List.Nodup
import Mathlib.Data.List.Range

set_option autoImplicit false

/-! # Lines joined into trails

The lines that are not used are each in the list of those that start where they do, but for the one that
was just taken off. So a trail is stuck only where no line is left, and of lines that balance it is closed
there. -/

namespace ChrysaLisp.Polygon

open Trails

section Walk

variable {segs : List Seg} {Q : Point → Prop} {w : Walk} {taken : Option ℕ} {i j : ℕ}

/-- The lines not used yet. -/
def unused (segs : List Seg) (w : Walk) : List ℕ := (List.range segs.length).filter fun i => !w.used i

theorem mem_unused : i ∈ unused segs w ↔ i < segs.length ∧ w.used i = false := by
  rw [unused, List.mem_filter, List.mem_range, Bool.not_eq_true']

theorem nodup_unused (segs : List Seg) (w : Walk) : (unused segs w).Nodup := List.nodup_range.filter _

/-- Each line that is not used is in its list, but one that may have been taken off. -/
structure Listed (segs : List Seg) (taken : Option ℕ) (w : Walk) : Prop where
  listed : ∀ i < segs.length, w.used i = false → taken ≠ some i → i ∈ w.starts (pointKey (segAt segs i).start)
  starts : ∀ key, ∀ j ∈ w.starts key, j < segs.length ∧ pointKey (segAt segs j).start = key

theorem mem_foldl_push {key : ℤ} (l : List ℕ) (starts : ℤ → List ℕ) :
    j ∈ l.foldl (Walk.push segs) starts key ↔
      (j ∈ l ∧ pointKey (segAt segs j).start = key) ∨ j ∈ starts key := by
  induction l generalizing starts with
  | nil =>
      rw [List.foldl_nil]
      exact ⟨Or.inr, fun h => h.resolve_left fun h' => List.not_mem_nil h'.1⟩
  | cons s l ih =>
      rw [List.foldl_cons, ih, Walk.push]
      by_cases hkey : key = pointKey (segAt segs s).start
      · rw [hkey, Function.update_self, List.mem_cons, List.mem_cons]
        constructor
        · rintro (⟨hmem, hj⟩ | rfl | hmem)
          · exact Or.inl ⟨Or.inr hmem, hj⟩
          · exact Or.inl ⟨Or.inl rfl, rfl⟩
          · exact Or.inr hmem
        · rintro (⟨rfl | hmem, hj⟩ | hmem)
          · exact Or.inr (Or.inl rfl)
          · exact Or.inl ⟨hmem, hj⟩
          · exact Or.inr (Or.inr hmem)
      · rw [Function.update_of_ne hkey, List.mem_cons]
        constructor
        · rintro (⟨hmem, hj⟩ | hmem)
          · exact Or.inl ⟨Or.inr hmem, hj⟩
          · exact Or.inr hmem
        · rintro (⟨rfl | hmem, hj⟩ | hmem)
          · exact absurd hj.symm hkey
          · exact Or.inl ⟨hmem, hj⟩
          · exact Or.inr hmem

theorem listed_new (segs : List Seg) : Listed segs none (Walk.new segs) where
  listed i hi _ _ := (mem_foldl_push _ _).mpr (Or.inl ⟨List.mem_range.mpr hi, rfl⟩)
  starts key j hj := by
    rcases (mem_foldl_push _ _).mp hj with ⟨hmem, hkey⟩ | hmem
    · exact ⟨List.mem_range.mp hmem, hkey⟩
    · exact absurd hmem List.not_mem_nil

/-- Lines that are not used stay, but for the one that is found. -/
theorem nextUnused_spec (used : ℕ → Bool) (l : List ℕ) :
    (∀ j ∈ (nextUnused used l).2, j ∈ l) ∧
    (∀ j, (nextUnused used l).1 = some j → j ∈ l ∧ used j = false) ∧
    ∀ j ∈ l, used j = false → (nextUnused used l).1 = some j ∨
      ((nextUnused used l).1 ≠ none ∧ j ∈ (nextUnused used l).2) := by
  induction l with
  | nil => exact ⟨fun j h => h, fun j h => absurd h (Option.some_ne_none j).symm,
      fun j h => absurd h List.not_mem_nil⟩
  | cons x l ih =>
      obtain ⟨hsub, hfound, hstay⟩ := ih
      rw [nextUnused]
      split_ifs with hx
      · refine ⟨fun j hj => List.mem_cons_of_mem x (hsub j hj), fun j hj => ?_, fun j hj hused => ?_⟩
        · exact ⟨List.mem_cons_of_mem x (hfound j hj).1, (hfound j hj).2⟩
        · rcases List.mem_cons.mp hj with rfl | hj
          · exact absurd hx (Bool.eq_false_iff.mp hused)
          · exact hstay j hj hused
      · refine ⟨fun j hj => List.mem_cons_of_mem x hj, fun j hj => ?_, fun j hj _ => ?_⟩
        · obtain rfl := Option.some.inj hj
          exact ⟨List.mem_cons_self, Bool.eq_false_iff.mpr hx⟩
        · rcases List.mem_cons.mp hj with rfl | hj
          · exact Or.inl rfl
          · exact Or.inr ⟨Option.some_ne_none x, hj⟩

/-- A line is used. -/
theorem unused_perm (hi : i < segs.length) (hused : w.used i = false) (starts : ℤ → List ℕ) :
    (unused segs w).Perm (i :: unused segs ⟨starts, Function.update w.used i true⟩) := by
  have hout : i ∉ unused segs ⟨starts, Function.update w.used i true⟩ := fun h => by
    have h' := (mem_unused.mp h).2
    rw [show (Walk.mk starts (Function.update w.used i true)).used i =
      true from Function.update_self _ _ _] at h'
    exact Bool.noConfusion h'
  refine (List.perm_ext_iff_of_nodup (nodup_unused _ _)
    (List.nodup_cons.mpr ⟨hout, nodup_unused _ _⟩)).mpr fun j => ?_
  rw [List.mem_cons, mem_unused, mem_unused]
  by_cases hj : j = i
  · rw [hj]
    exact ⟨fun _ => Or.inl rfl, fun _ => ⟨hi, hused⟩⟩
  · rw [show (Walk.mk starts (Function.update w.used i true)).used j =
      w.used j from Function.update_of_ne hj _ _]
    exact ⟨Or.inr, fun h => h.resolve_left hj⟩

/-- The lists when a line is used and the next is taken off. -/
theorem Listed.next (h : Listed segs (some i) w) :
    let used := Function.update w.used i true
    let key := pointKey (segAt segs i).stop
    let next := nextUnused used (w.starts key)
    Listed segs next.1 ⟨Function.update w.starts key next.2, used⟩ := by
  dsimp only
  obtain ⟨hsub, -, hstay⟩ :=
    nextUnused_spec (Function.update w.used i true) (w.starts (pointKey (segAt segs i).stop))
  refine ⟨fun j hj hused hnext => ?_, fun key j hj => ?_⟩
  · have hne : j ≠ i := by
      rintro rfl
      exact Bool.noConfusion ((Function.update_self j true w.used).symm.trans hused)
    have hold : w.used j = false := (Function.update_of_ne hne true w.used).symm.trans hused
    have hmem := h.listed j hj hold fun heq => hne (Option.some.inj heq).symm
    dsimp only
    by_cases hkey : pointKey (segAt segs j).start = pointKey (segAt segs i).stop
    · rw [hkey, Function.update_self]
      rw [hkey] at hmem
      exact ((hstay j hmem hused).resolve_left hnext).2
    · rw [Function.update_of_ne hkey]
      exact hmem
  · dsimp only at hj
    by_cases hkey : key = pointKey (segAt segs i).stop
    · rw [hkey, Function.update_self] at hj
      rw [hkey]
      exact h.starts _ j (hsub j hj)
    · rw [Function.update_of_ne hkey] at hj
      exact h.starts key j hj

variable (hkeys : ∀ p q, Q p → Q q → pointKey p = pointKey q → p = q)
  (hsegs : ∀ i < segs.length, Q (segAt segs i).start ∧ Q (segAt segs i).stop)
include hkeys hsegs

/-- A walk is a trail from its line of lines that were not used, and it ends where no line is left. There
are turns enough when there is one for each of these. -/
theorem walk_spec (n : ℕ) :
    ∀ {i : ℕ} {w : Walk}, Listed segs (some i) w → i < segs.length → w.used i = false →
    (unused segs w).length ≤ n →
    Listed segs none (walk segs n i w).2 ∧ i ∈ (walk segs n i w).1 ∧
    (unused segs w).Perm ((walk segs n i w).1 ++ unused segs (walk segs n i w).2) ∧
    ∃ b, IsTrail (fun i => (segAt segs i).start) (fun i => (segAt segs i).stop) (segAt segs i).start
      (walk segs n i w).1 b ∧ ∀ j ∈ unused segs (walk segs n i w).2, (segAt segs j).start ≠ b := by
  induction n with
  | zero =>
      intro i w _ hi hused hcount
      have hmem := mem_unused.mpr ⟨hi, hused⟩
      rw [List.eq_nil_of_length_eq_zero (Nat.le_zero.mp hcount)] at hmem
      exact absurd hmem List.not_mem_nil
  | succ n ih =>
      intro i w hlisted hi hused hcount
      have hnext := hlisted.next
      obtain ⟨-, hfound, hstay⟩ :=
        nextUnused_spec (Function.update w.used i true) (w.starts (pointKey (segAt segs i).stop))
      have hperm := unused_perm hi hused (Function.update w.starts (pointKey (segAt segs i).stop)
        (nextUnused (Function.update w.used i true) (w.starts (pointKey (segAt segs i).stop))).2)
      rw [walk]
      dsimp only at hnext ⊢
      cases hj : (nextUnused (Function.update w.used i true) (w.starts (pointKey (segAt segs i).stop))).1 with
      | none =>
          rw [hj] at hnext hstay
          refine ⟨hnext, List.mem_cons_self, hperm, (segAt segs i).stop, ⟨rfl, rfl⟩, fun j hmem hstart => ?_⟩
          obtain ⟨hlt, hun⟩ := mem_unused.mp hmem
          have hne : j ≠ i := by
            rintro rfl
            exact Bool.noConfusion ((Function.update_self j true w.used).symm.trans hun)
          have hold : w.used j = false := (Function.update_of_ne hne true w.used).symm.trans hun
          have hin := hlisted.listed j hlt hold fun heq => hne (Option.some.inj heq).symm
          rw [hstart] at hin
          rcases hstay j hin hun with heq | ⟨hsome, -⟩
          · exact (Option.some_ne_none j).symm heq
          · exact hsome rfl
      | some j =>
          rw [hj] at hnext
          obtain ⟨hmem, hun⟩ := hfound j hj
          obtain ⟨hlt, hkey⟩ := hlisted.starts _ j hmem
          have hmeet := hkeys _ _ (hsegs j hlt).1 (hsegs i hi).2 hkey
          have hlength := hperm.length_eq
          rw [List.length_cons] at hlength
          obtain ⟨hdone, -, hrest, b, htrail, hstuck⟩ := ih hnext hlt hun (by omega)
          refine ⟨hdone, List.mem_cons_self, hperm.trans (hrest.cons i), b, ⟨rfl, ?_⟩, hstuck⟩
          rw [hmeet] at htrail
          exact htrail

/-- Of lines that balance every trail is closed, and every line is in one. -/
theorem trailsFrom_spec (l : List ℕ) : ∀ {w : Walk}, Listed segs none w → (∀ i ∈ l, i < segs.length) →
    (∀ i ∈ unused segs w, i ∈ l) →
    balance (fun i => (segAt segs i).start) (fun i => (segAt segs i).stop) (unused segs w) = 0 →
    (trailsFrom segs l w).flatten.Perm (unused segs w) ∧
    ∀ trail ∈ trailsFrom segs l w, trail ≠ [] ∧
      ∃ p, IsTrail (fun i => (segAt segs i).start) (fun i => (segAt segs i).stop) p trail p := by
  induction l with
  | nil =>
      intro w _ _ hall _
      rw [List.eq_nil_iff_forall_not_mem.mpr fun i hi => List.not_mem_nil (hall i hi)]
      exact ⟨List.Perm.refl _, fun _ h => absurd h List.not_mem_nil⟩
  | cons s l ih =>
      intro w hlisted hlt hall hbalance
      have hlt' := fun i hi => hlt i (List.mem_cons_of_mem s hi)
      rw [trailsFrom]
      split_ifs with hused
      · refine ih hlisted hlt' (fun i hi => ?_) hbalance
        rcases List.mem_cons.mp (hall i hi) with rfl | hmem
        · exact absurd hused (Bool.eq_false_iff.mp (mem_unused.mp hi).2)
        · exact hmem
      · have hcount : (unused segs w).length ≤ segs.length :=
          (List.length_filter_le _ _).trans List.length_range.le
        obtain ⟨hdone, hhead, hperm, b, htrail, hstuck⟩ := walk_spec hkeys hsegs segs.length
          ⟨fun i hi hun _ => hlisted.listed i hi hun (Option.some_ne_none i).symm, hlisted.starts⟩
          (hlt s List.mem_cons_self) (Bool.eq_false_iff.mpr hused) hcount
        dsimp only
        rw [balance_perm hperm] at hbalance
        have hclosed := closed_of_stuck htrail hbalance hstuck
        rw [← hclosed] at htrail
        have hleft := hbalance
        rw [balance_append, htrail.balance_eq, sub_self, zero_add] at hleft
        have hnodup := hperm.nodup_iff.mp (nodup_unused segs w)
        have hall' : ∀ i ∈ unused segs (walk segs segs.length s w).2, i ∈ l := fun i hi => by
          rcases List.mem_cons.mp (hall i (hperm.symm.subset (List.mem_append_right _ hi))) with rfl | hmem
          · exact absurd rfl ((List.nodup_append.mp hnodup).2.2 i hhead i hi)
          · exact hmem
        obtain ⟨hflat, htrails⟩ := ih hdone hlt' hall' hleft
        refine ⟨?_, fun trail hmem => ?_⟩
        · rw [List.flatten_cons]
          exact (hflat.append_left _).trans hperm.symm
        · rcases List.mem_cons.mp hmem with rfl | hmem
          · exact ⟨List.ne_nil_of_mem hhead, _, htrail⟩
          · exact htrails trail hmem

end Walk

end ChrysaLisp.Polygon
