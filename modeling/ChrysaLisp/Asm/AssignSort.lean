import ChrysaLisp.Asm.Assign
import Mathlib.Data.List.Chain
import Mathlib.Data.List.Nodup
import Mathlib.Logic.Relation

set_option autoImplicit false

/-! # The order of copies

What `assign-topology-sort` leaves is what it was given, in an order in which no copy writes a register that
one after it uses. It gives up only if the registers go round: each copy it brings to the front uses what the
one it goes before writes, so what it has brought is a chain from the front on, and the next is none of
those. -/

namespace ChrysaLisp.Asm

/-- A copy has to be before another, which writes what it uses. -/
def Before (l : List Copy) (a b : Copy) : Prop := a ∈ l ∧ b ∈ l ∧ a ≠ b ∧ a.uses b.dst = true

/-- The registers copied form a cycle. -/
def Cyclic (l : List Copy) : Prop := ∃ a, Relation.TransGen (Before l) a a

variable {x r : Copy} {l others : List Copy}

theorem lastUse_some (h : lastUse x l = some (r, others)) : r.uses x.dst = true ∧ l.Perm (r :: others) := by
  induction l generalizing others with
  | nil => exact absurd h (by simp [lastUse])
  | cons c cs ih =>
      unfold lastUse at h
      cases hcs : lastUse x cs with
      | some found =>
          obtain ⟨r', others'⟩ := found
          rw [hcs] at h
          obtain ⟨rfl, rfl⟩ := Prod.mk.inj (Option.some.inj h)
          obtain ⟨huses, hperm⟩ := ih hcs
          exact ⟨huses, (hperm.cons c).trans (List.Perm.swap r' c others')⟩
      | none =>
          rw [hcs] at h
          simp only [Option.ite_none_right_eq_some, Option.some.injEq, Prod.mk.injEq] at h
          obtain ⟨huses, rfl, rfl⟩ := h
          exact ⟨huses, List.Perm.refl _⟩

theorem lastUse_none (h : lastUse x l = none) : ∀ c ∈ l, c.uses x.dst = false := by
  induction l with
  | nil => exact fun c hc => absurd hc List.not_mem_nil
  | cons c cs ih =>
      unfold lastUse at h
      cases hcs : lastUse x cs with
      | some found => simp [hcs] at h
      | none =>
          rw [hcs] at h
          simp only [reduceCtorEq, ite_eq_right_iff, imp_false, Bool.not_eq_true] at h
          exact List.forall_mem_cons.mpr ⟨h, ih hcs⟩

theorem lastUse_append_some (front : List Copy) (h : lastUse x l = some (r, others)) :
    lastUse x (front ++ l) = some (r, front ++ others) := by
  induction front with
  | nil => exact h
  | cons c front ih =>
      rw [List.cons_append, lastUse, ih]
      rfl

theorem lastUse_append_none {front : List Copy} (h : lastUse x l = none)
    (hsome : lastUse x (front ++ l) = some (r, others)) : r ∈ front := by
  obtain ⟨huses, hperm⟩ := lastUse_some hsome
  rcases List.mem_append.mp (hperm.mem_iff.mpr List.mem_cons_self) with hfront | hl
  · exact hfront
  · exact absurd huses (by rw [lastUse_none h r hl]; exact Bool.false_ne_true)

/-! ## The sort -/

theorem sortFrom_nil (n c : ℕ) : sortFrom n c [] = (c, []) := by
  cases n <;> rfl

theorem sortFrom_perm (n c : ℕ) (l : List Copy) : (sortFrom n c l).2.Perm l := by
  fun_induction sortFrom n c l with
  | case1 => exact List.Perm.refl _
  | case2 n c x y rest hc r others hlast ih =>
      exact ih.trans ((List.Perm.swap x r others).trans ((lastUse_some hlast).2.symm.cons x))
  | case3 n c x y rest hc hlast ih => exact ih.cons x
  | case4 => exact List.Perm.refl _

/-- With turns left, no copy writes what one after it uses. -/
theorem sortFrom_sorted {n c : ℕ} (l : List Copy) (hn : l.length - 1 + c ≤ n)
    (hleft : (sortFrom n c l).1 ≠ 0) :
    (sortFrom n c l).2.Pairwise (fun a b => b.uses a.dst = false) := by
  fun_induction sortFrom n c l with
  | case1 => exact absurd rfl hleft
  | case2 n c x y rest hc r others hlast ih =>
      have hlen := (lastUse_some hlast).2.length_eq
      refine ih ?_ hleft
      simp only [List.length_cons] at *
      omega
  | case3 n c x y rest hc hlast ih =>
      refine List.pairwise_cons.mpr ⟨fun b hb => ?_, ih ?_ hleft⟩
      · exact lastUse_none hlast b ((sortFrom_perm ..).mem_iff.mp hb)
      · simp only [List.length_cons] at *
        omega
  | case4 n c l hshort =>
      cases l with
      | nil => exact List.Pairwise.nil
      | cons x rest =>
          cases rest with
          | nil => exact List.pairwise_singleton _ x
          | cons y rest =>
              cases n with
              | zero =>
                  simp only [List.length_cons] at hn
                  omega
              | succ n => exact absurd rfl (hshort n x y rest rfl)

theorem transGen_of_isChain {α : Type*} {R : α → α → Prop} {x : α} {ss : List α}
    (h : List.IsChain R (x :: ss)) : ∀ r ∈ ss, Relation.TransGen R x r := by
  induction ss generalizing x with
  | nil => exact fun r hr => absurd hr List.not_mem_nil
  | cons s ss ih =>
      obtain ⟨hfirst, hrest⟩ := List.isChain_cons_cons.mp h
      exact List.forall_mem_cons.mpr
        ⟨Relation.TransGen.single hfirst, fun r hr => (ih hrest r hr).head hfirst⟩

/-- Where no registers go round, each turn takes one more off those that were never brought to the front. -/
theorem sortFrom_turns (hacyclic : ¬ Cyclic l) : ∀ (n c : ℕ) (x : Copy) (chain fresh : List Copy),
    (x :: (chain ++ fresh)).length - 1 + c ≤ n → (x :: (chain ++ fresh)).Nodup →
    (∀ a ∈ x :: (chain ++ fresh), a ∈ l) → List.IsChain (Before l) (x :: chain) →
    (sortFrom n c (x :: (chain ++ fresh))).1 = 0 → c ≤ fresh.length := by
  intro n
  induction n with
  | zero =>
      intro c x chain fresh hn
      omega
  | succ n ih =>
      intro c x chain fresh hn hnodup hmem hchain hzero
      by_cases hc : c = 0
      · exact hc ▸ Nat.zero_le _
      have hx := hmem x List.mem_cons_self
      cases hlast : lastUse x fresh with
      | some found =>
          obtain ⟨r, others⟩ := found
          obtain ⟨huses, hperm⟩ := lastUse_some hlast
          have hr : r ∈ chain ++ fresh :=
            List.mem_append_right _ (hperm.mem_iff.mpr List.mem_cons_self)
          have hall : (x :: (chain ++ fresh)).Perm (r :: (x :: chain ++ others)) :=
            (((hperm.append_left chain).trans List.perm_middle).cons x).trans (List.Perm.swap r x _)
          have hne : r ≠ x := fun hrx => (List.nodup_cons.mp hnodup).1 (hrx ▸ hr)
          have hbefore : Before l r x := ⟨hmem r (List.mem_cons_of_mem x hr), hx, hne, huses⟩
          have hstep : sortFrom (n + 1) c (x :: (chain ++ fresh))
              = sortFrom n (c - 1) (r :: (x :: chain ++ others)) := by
            have hnext := lastUse_append_some chain hlast
            cases htail : chain ++ fresh with
            | nil => exact absurd hr (htail ▸ List.not_mem_nil)
            | cons y rest =>
                rw [htail] at hnext
                rw [sortFrom, if_neg hc, hnext]
                rfl
          have hlen := hall.length_eq
          have hturns := ih (c - 1) r (x :: chain) others (by omega) (hall.nodup_iff.mp hnodup)
            (fun a ha => hmem a (hall.mem_iff.mpr ha)) (List.isChain_cons_cons.mpr ⟨hbefore, hchain⟩)
            (hstep ▸ hzero)
          have hfresh := hperm.length_eq
          rw [List.length_cons] at hfresh
          omega
      | none =>
          cases htail : chain ++ fresh with
          | nil =>
              rw [htail] at hzero
              exact absurd hzero hc
          | cons y rest =>
              have hnone : lastUse x (y :: rest) = none := by
                cases hsome : lastUse x (y :: rest) with
                | none => rfl
                | some found =>
                    obtain ⟨r, others⟩ := found
                    rw [← htail] at hsome
                    have hr := lastUse_append_none hlast hsome
                    have hin : r ∈ x :: (chain ++ fresh) :=
                      List.mem_cons_of_mem x (List.mem_append_left _ hr)
                    have hne : r ≠ x := fun hrx =>
                      (List.nodup_cons.mp hnodup).1 (hrx ▸ List.mem_append_left _ hr)
                    exact absurd ⟨x, (transGen_of_isChain hchain r hr).tail
                      ⟨hmem r hin, hx, hne, (lastUse_some hsome).1⟩⟩ hacyclic
              have hstep : (sortFrom (n + 1) c (x :: (chain ++ fresh))).1 = (sortFrom n c (y :: rest)).1 := by
                rw [htail, sortFrom, if_neg hc, hnone]
              rw [hstep] at hzero
              have hrest := (List.nodup_cons.mp hnodup).2
              have hsub : ∀ a ∈ chain ++ fresh, a ∈ l := fun a ha => hmem a (List.mem_cons_of_mem x ha)
              rw [List.length_cons] at hn
              cases chain with
              | cons s ss =>
                  obtain ⟨rfl, rfl⟩ := List.cons.inj htail
                  refine ih c s ss fresh ?_ hrest hsub (List.isChain_cons_cons.mp hchain).2 hzero
                  rw [List.cons_append, List.length_cons] at *
                  omega
              | nil =>
                  rw [List.nil_append] at htail hrest hsub hn
                  subst htail
                  refine (ih c y [] rest ?_ hrest hsub (List.isChain_singleton y) hzero).trans ?_
                  · rw [List.nil_append, List.length_cons] at *
                    omega
                  · exact Nat.le_succ _

theorem assignTopologySort_ok {sorted : List Copy} (h : assignTopologySort l = .ok sorted) :
    sorted.Perm l ∧ sorted.Pairwise (fun a b => b.uses a.dst = false) := by
  unfold assignTopologySort at h
  simp only at h
  split_ifs at h with hleft
  obtain rfl := Except.ok.inj h
  exact ⟨sortFrom_perm .., sortFrom_sorted l le_rfl hleft⟩

/-- It gives up on registers that go round, or on more copies than it has turns. -/
theorem assignTopologySort_error {e : Thrown} (hnodup : l.Nodup) (h : assignTopologySort l = .error e) :
    e = .cycle ∧ (Cyclic l ∨ 1000 < l.length) := by
  unfold assignTopologySort at h
  simp only at h
  split_ifs at h with hleft
  refine ⟨(Except.error.inj h).symm, or_iff_not_imp_left.mpr fun hacyclic => ?_⟩
  cases l with
  | nil =>
      rw [sortFrom_nil] at hleft
      exact absurd hleft (Nat.succ_ne_zero 999)
  | cons x fresh =>
      have hturns := sortFrom_turns hacyclic _ 1000 x [] fresh le_rfl hnodup (fun a ha => ha)
        (List.isChain_singleton x) hleft
      rw [List.length_cons]
      omega

end ChrysaLisp.Asm
