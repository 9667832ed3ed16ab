import Mathlib.Algebra.BigOperators.Group.List.Basic
import Mathlib.Algebra.Group.Pi.Basic
import Mathlib.Tactic.Abel

set_option autoImplicit false

/-! # Trails

A line goes from where it starts to where it stops. The balance of a list of lines has for each point how
many of them start there, less how many stop there, whatever the order they are in. A trail is lines that
each start where the one before stopped; it is balanced but at its two ends. So where what is left over of
balanced lines has none that goes on from the end of a trail, that end is the start of the trail. -/

namespace Trails

variable {P E : Type*}

/-- The lines lead from one point to another. -/
def IsTrail (start stop : E → P) : P → List E → P → Prop
  | a, [], b => a = b
  | a, e :: lines, b => start e = a ∧ IsTrail start stop (stop e) lines b

variable {start stop : E → P} {lines lines' : List E} {a b c : P}

theorem IsTrail.append (h : IsTrail start stop a lines b) (h' : IsTrail start stop b lines' c) :
    IsTrail start stop a (lines ++ lines') c := by
  induction lines generalizing a with
  | nil =>
      rw [show a = b from h]
      exact h'
  | cons e lines ih => exact ⟨h.1, ih h.2⟩

theorem IsTrail.split (h : IsTrail start stop a (lines ++ lines') c) :
    ∃ b, IsTrail start stop a lines b ∧ IsTrail start stop b lines' c := by
  induction lines generalizing a with
  | nil => exact ⟨a, rfl, h⟩
  | cons e lines ih =>
      obtain ⟨b, hfirst, hrest⟩ := ih h.2
      exact ⟨b, ⟨h.1, hfirst⟩, hrest⟩

/-- A closed trail may start at any of its lines. -/
theorem IsTrail.rotate (h : IsTrail start stop a (lines ++ lines') a) :
    ∃ b, IsTrail start stop b (lines' ++ lines) b := by
  obtain ⟨b, hfirst, hrest⟩ := h.split
  exact ⟨b, hrest.append hfirst⟩

/-! ## The balance -/

variable [DecidableEq P]

/-- One at the point, and nothing elsewhere. -/
def mark (p : P) : P → ℤ := Pi.single p 1

theorem mark_apply (p q : P) : mark p q = if q = p then 1 else 0 := by
  rw [mark, Pi.single_apply]

/-- How many of the lines start at each point, less how many stop there. -/
def balance (start stop : E → P) (lines : List E) : P → ℤ :=
  (lines.map fun e => mark (start e) - mark (stop e)).sum

theorem balance_nil : balance start stop [] = 0 := rfl

theorem balance_cons (e : E) (lines : List E) :
    balance start stop (e :: lines) = mark (start e) - mark (stop e) + balance start stop lines := by
  rw [balance, List.map_cons, List.sum_cons]
  rfl

theorem balance_append (lines lines' : List E) :
    balance start stop (lines ++ lines') = balance start stop lines + balance start stop lines' := by
  rw [balance, List.map_append, List.sum_append]
  rfl

theorem balance_perm (h : lines.Perm lines') : balance start stop lines = balance start stop lines' :=
  (h.map _).sum_eq

/-- One line is given other ends. -/
theorem balance_set {i : ℕ} {e : E} (h : lines[i]? = some e) (e' : E) :
    balance start stop (lines.set i e') =
      balance start stop lines + (mark (start e') - mark (stop e')) - (mark (start e) - mark (stop e)) := by
  induction lines generalizing i with
  | nil => exact absurd h (Option.some_ne_none e).symm
  | cons x lines ih =>
      cases i with
      | zero =>
          rw [List.getElem?_cons_zero, Option.some.injEq] at h
          rw [List.set_cons_zero, balance_cons, balance_cons, h]
          abel
      | succ i =>
          rw [List.getElem?_cons_succ] at h
          rw [List.set_cons_succ, balance_cons, balance_cons, ih h]
          abel

theorem balance_apply (lines : List E) (p : P) :
    balance start stop lines p =
      (lines.countP fun e => start e = p : ℕ) - (lines.countP fun e => stop e = p : ℕ) := by
  induction lines with
  | nil => rfl
  | cons e lines ih =>
      rw [balance_cons, Pi.add_apply, Pi.sub_apply, mark_apply, mark_apply, ih, List.countP_cons,
        List.countP_cons]
      have hstart : (p = start e) = (start e = p) := propext eq_comm
      have hstop : (p = stop e) = (stop e = p) := propext eq_comm
      simp only [hstart, hstop, decide_eq_true_eq]
      split_ifs <;> omega

/-- Balanced lines start at a point as often as they stop there. -/
theorem countP_of_balanced (h : balance start stop lines = 0) (p : P) :
    (lines.countP fun e => start e = p) = lines.countP fun e => stop e = p := by
  have hp := @balance_apply P E start stop _ lines p
  rw [h, Pi.zero_apply] at hp
  omega

theorem IsTrail.balance_eq (h : IsTrail start stop a lines b) :
    balance start stop lines = mark a - mark b := by
  induction lines generalizing a with
  | nil =>
      rw [show a = b from h, balance_nil, sub_self]
  | cons e lines ih =>
      rw [balance_cons, h.1, ih h.2]
      abel

/-- No line that is left goes on from the end: the trail has come back. -/
theorem closed_of_stuck {left : List E} (htrail : IsTrail start stop a lines b)
    (hleft : balance start stop (lines ++ left) = 0) (hstuck : ∀ e ∈ left, start e ≠ b) : a = b := by
  by_contra hne
  rw [balance_append, htrail.balance_eq] at hleft
  have hb := congrFun hleft b
  rw [Pi.add_apply, Pi.sub_apply, mark_apply, mark_apply, if_neg (Ne.symm hne), if_pos rfl, balance_apply,
    Pi.zero_apply] at hb
  have hnone : (left.countP fun e => start e = b) = 0 :=
    List.countP_eq_zero.mpr fun e he => by rw [decide_eq_true_eq]; exact hstuck e he
  omega

end Trails
