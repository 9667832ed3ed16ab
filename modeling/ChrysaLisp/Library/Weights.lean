import Mathlib.Algebra.BigOperators.Group.List.Basic
import Mathlib.Algebra.Order.Field.Rat
import Mathlib.Tactic.Linarith
import Mathlib.Tactic.Ring

set_option autoImplicit false

/-! # Counts by their place

A list of numbers, each taken with a power of one weight, that of its place (`weigh`): at 1 it is
how many there are, and at a half, of how many codes there are of each length, what part of all
codes they take up. What one place changes is told by itself (`weigh_set`). -/

namespace Weights

/-- The numbers of a list, each by a power of `x`. -/
def weigh (x : ℚ) : List ℤ → ℚ
  | [] => 0
  | c :: l => c + x * weigh x l

variable {x : ℚ} {l : List ℤ}

@[simp] theorem weigh_nil : weigh x [] = 0 := rfl

@[simp] theorem weigh_cons (c : ℤ) : weigh x (c :: l) = c + x * weigh x l := rfl

theorem weigh_replicate_zero (n : ℕ) : weigh x (List.replicate n 0) = 0 := by
  induction n with
  | zero => rfl
  | succ n ih => rw [List.replicate_succ, weigh_cons, ih, Int.cast_zero, mul_zero, add_zero]

/-- What a place changes. -/
theorem weigh_set {i : ℕ} (hi : i < l.length) (c : ℤ) :
    weigh x (l.set i c) = weigh x l + (c - l.getD i 0) * x ^ i := by
  induction l generalizing i with
  | nil => exact absurd hi (Nat.not_lt_zero i)
  | cons a l ih =>
      cases i with
      | zero =>
          rw [List.set_cons_zero, weigh_cons, weigh_cons, List.getD_cons_zero, pow_zero]
          ring
      | succ i =>
          rw [List.set_cons_succ, weigh_cons, weigh_cons, ih (Nat.lt_of_succ_lt_succ hi),
            List.getD_cons_succ, pow_succ]
          ring

/-- Where nothing is at the first places, it is what there is after them. -/
theorem weigh_drop {k : ℕ} (h : ∀ i < k, l.getD i 0 = 0) : weigh x l = x ^ k * weigh x (l.drop k) := by
  induction k generalizing l with
  | zero => rw [pow_zero, one_mul, List.drop_zero]
  | succ k ih =>
      cases l with
      | nil => rw [List.drop_nil, weigh_nil, mul_zero]
      | cons a l =>
          have ha : a = 0 := h 0 (Nat.succ_pos k)
          rw [weigh_cons, ih fun i hi => h (i + 1) (Nat.succ_lt_succ hi), ha, List.drop_succ_cons, pow_succ,
            Int.cast_zero]
          ring

theorem weigh_nonneg (hx : 0 ≤ x) (h : ∀ c ∈ l, 0 ≤ c) : 0 ≤ weigh x l := by
  induction l with
  | nil => exact le_rfl
  | cons a l ih =>
      have ha : (0 : ℚ) ≤ a := Int.cast_nonneg (h a List.mem_cons_self)
      have hl := mul_nonneg hx (ih fun c hc => h c (List.mem_cons_of_mem a hc))
      rw [weigh_cons]
      linarith

/-- None is more than all of them. -/
theorem getD_le_weigh (h : ∀ c ∈ l, 0 ≤ c) (k : ℕ) : (l.getD k 0 : ℚ) ≤ weigh 1 l := by
  induction l generalizing k with
  | nil => simp
  | cons a l ih =>
      have ha : (0 : ℚ) ≤ a := Int.cast_nonneg (h a List.mem_cons_self)
      have hl : ∀ c ∈ l, 0 ≤ c := fun c hc => h c (List.mem_cons_of_mem a hc)
      have hone := weigh_nonneg zero_le_one hl
      rw [weigh_cons, one_mul]
      cases k with
      | zero =>
          rw [List.getD_cons_zero]
          linarith
      | succ k =>
          have hk := ih hl k
          rw [List.getD_cons_succ]
          linarith

/-- A weight below 1 makes it no more. -/
theorem weigh_le_one (hx : 0 ≤ x) (hx1 : x ≤ 1) (h : ∀ c ∈ l, 0 ≤ c) : weigh x l ≤ weigh 1 l := by
  induction l with
  | nil => exact le_rfl
  | cons a l ih =>
      have hl : ∀ c ∈ l, 0 ≤ c := fun c hc => h c (List.mem_cons_of_mem a hc)
      have hone := weigh_nonneg zero_le_one hl
      have hle := mul_le_mul_of_nonneg_left (ih hl) hx
      have hless := mul_le_mul_of_nonneg_right hx1 hone
      rw [weigh_cons, weigh_cons]
      linarith

/-- At a half it is less by what is at the second place. -/
theorem weigh_half_le (h : ∀ c ∈ l, 0 ≤ c) : weigh (1 / 2) l + l.getD 1 0 / 2 ≤ weigh 1 l := by
  match l, h with
  | [], _ => simp
  | [a], _ => simp
  | a :: b :: l, h =>
      have hl : ∀ c ∈ l, 0 ≤ c := fun c hc => h c (List.mem_cons_of_mem a (List.mem_cons_of_mem b hc))
      have hle := weigh_le_one (x := 1 / 2) (by norm_num) (by norm_num) hl
      have hone := weigh_nonneg zero_le_one hl
      rw [List.getD_cons_succ, List.getD_cons_zero, weigh_cons, weigh_cons, weigh_cons, weigh_cons]
      linarith

/-- At a half, brought to the last place there is anything at, all but what is there is even. -/
theorem exists_two_mul_add {i : ℕ} (h : ∀ k, i < k → l.getD k 0 = 0) :
    ∃ z : ℤ, 2 ^ i * weigh (1 / 2) l = 2 * z + l.getD i 0 := by
  induction l generalizing i with
  | nil => exact ⟨0, by simp⟩
  | cons a l ih =>
      cases i with
      | zero =>
          refine ⟨0, ?_⟩
          have hrest : weigh (1 / 2) l = 0 := by
            rw [weigh_drop (k := l.length) fun i _ => h (i + 1) (Nat.succ_pos i), List.drop_length,
              weigh_nil, mul_zero]
          rw [weigh_cons, hrest, List.getD_cons_zero]
          simp
      | succ i =>
          obtain ⟨z, hz⟩ := ih fun k hk => h (k + 1) (Nat.succ_lt_succ hk)
          refine ⟨2 ^ i * a + z, ?_⟩
          have hpow : (2 : ℚ) ^ (i + 1) * (a + 1 / 2 * weigh (1 / 2) l) =
            2 * (2 ^ i * a) + 2 ^ i * weigh (1 / 2) l := by
            rw [pow_succ]
            ring
          rw [weigh_cons, hpow, hz, List.getD_cons_succ]
          push_cast
          ring

end Weights
