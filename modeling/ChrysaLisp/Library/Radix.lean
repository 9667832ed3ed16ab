import Mathlib.Algebra.BigOperators.NatAntidiagonal
import Mathlib.Algebra.Polynomial.Eval.Degree
import Mathlib.Algebra.Order.Ring.Int
import Mathlib.Data.List.GetD
import Mathlib.Tactic.LinearCombination
import Mathlib.Tactic.Linarith

set_option autoImplicit false

/-! # Numbers in digits

A list of whole numbers stands for a number in a base, the low digit first (`value`). Its parts need not be
digits: sums, differences and products of digits are not, and the carries that make digits of them again
change nothing of what the list stands for (`value_carry`).

The product of two lists is that of two polynomials, whose coefficients are what is added up for a place of
it (`value_mul`); and lists of digits compare as what they stand for does (`lt_of_length_lt`,
`value_lt_iff`). -/

namespace Radix

variable {b : ℤ}

/-- What a list stands for in a base, the low digit first. -/
def value (b : ℤ) : List ℤ → ℤ
  | [] => 0
  | d :: l => d + b * value b l

/-- Each part is a digit. -/
def Digits (b : ℤ) (l : List ℤ) : Prop := ∀ d ∈ l, 0 ≤ d ∧ d < b

@[simp] theorem value_nil : value b [] = 0 := rfl

@[simp] theorem value_cons (d : ℤ) (l : List ℤ) : value b (d :: l) = d + b * value b l := rfl

theorem value_append (l m : List ℤ) : value b (l ++ m) = value b l + b ^ l.length * value b m := by
  induction l with
  | nil => simp
  | cons d l ih =>
      rw [List.cons_append, value_cons, ih, value_cons, List.length_cons, pow_succ]
      ring

@[simp] theorem value_replicate_zero (n : ℕ) : value b (List.replicate n 0) = 0 := by
  induction n with
  | zero => rfl
  | succ n ih => rw [List.replicate_succ, value_cons, ih, mul_zero, add_zero]

/-- A part that is changed. -/
theorem value_set (l : List ℤ) (d : ℤ) {i : ℕ} (hi : i < l.length) :
    value b (l.set i d) = value b l + b ^ i * (d - l.getD i 0) := by
  induction l generalizing i with
  | nil => exact absurd hi (Nat.not_lt_zero _)
  | cons e l ih =>
    cases i with
    | zero =>
      rw [List.set_cons_zero, value_cons, value_cons, List.getD_cons_zero, pow_zero]
      ring
    | succ i =>
      rw [List.set_cons_succ, value_cons, value_cons, ih (Nat.lt_of_succ_lt_succ hi),
        List.getD_cons_succ, pow_succ']
      ring

theorem value_zipWith_add : ∀ (l m : List ℤ), l.length = m.length →
    value b (List.zipWith (· + ·) l m) = value b l + value b m
  | [], [], _ => by simp
  | d :: l, e :: m, h => by
      rw [List.zipWith_cons_cons, value_cons, value_zipWith_add l m (Nat.succ.inj h), value_cons, value_cons]
      ring

theorem value_zipWith_sub : ∀ (l m : List ℤ), l.length = m.length →
    value b (List.zipWith (· - ·) l m) = value b l - value b m
  | [], [], _ => by simp
  | d :: l, e :: m, h => by
      rw [List.zipWith_cons_cons, value_cons, value_zipWith_sub l m (Nat.succ.inj h), value_cons, value_cons]
      ring

theorem value_map_mul (k : ℤ) (l : List ℤ) : value b (l.map (· * k)) = value b l * k := by
  induction l with
  | nil => simp
  | cons d l ih =>
      rw [List.map_cons, value_cons, ih, value_cons]
      ring

/-! ## Digits -/

@[simp] theorem digits_nil : Digits b [] := fun _ h => absurd h List.not_mem_nil

@[simp] theorem digits_cons {d : ℤ} {l : List ℤ} : Digits b (d :: l) ↔ (0 ≤ d ∧ d < b) ∧ Digits b l :=
  List.forall_mem_cons

@[simp] theorem digits_append {l m : List ℤ} : Digits b (l ++ m) ↔ Digits b l ∧ Digits b m :=
  List.forall_mem_append

theorem digits_replicate_zero (hb : 0 < b) (n : ℕ) : Digits b (List.replicate n 0) :=
  fun d hd => by rw [List.eq_of_mem_replicate hd]; exact ⟨le_rfl, hb⟩

theorem Digits.sublist {l m : List ℤ} (h : Digits b m) (hl : ∀ d ∈ l, d ∈ m) : Digits b l :=
  fun d hd => h d (hl d hd)

theorem Digits.getD {l : List ℤ} (hb : 0 < b) (h : Digits b l) (i : ℕ) : 0 ≤ l.getD i 0 ∧ l.getD i 0 < b := by
  by_cases hi : i < l.length
  · rw [List.getD_eq_getElem l 0 hi]
    exact h _ (List.getElem_mem hi)
  · rw [List.getD_eq_default l 0 (by omega)]
    exact ⟨le_rfl, hb⟩

theorem Digits.value_nonneg {l : List ℤ} (hb : 0 < b) (h : Digits b l) : 0 ≤ value b l := by
  induction l with
  | nil => exact le_rfl
  | cons d l ih =>
      rw [digits_cons] at h
      have hrest := mul_nonneg hb.le (ih h.2)
      rw [value_cons]
      linarith [h.1.1]

theorem Digits.value_lt {l : List ℤ} (hb : 0 < b) (h : Digits b l) : value b l < b ^ l.length := by
  induction l with
  | nil => simp
  | cons d l ih =>
      rw [digits_cons] at h
      have hrest : b * (value b l + 1) ≤ b * b ^ l.length := mul_le_mul_of_nonneg_left (ih h.2) hb.le
      rw [value_cons, List.length_cons, pow_succ']
      linarith [h.1.2]

/-- So many digits are given by what they come to. -/
theorem Digits.eq_of_value (hb : 0 < b) : ∀ {l m : List ℤ}, Digits b l → Digits b m → l.length = m.length →
    value b l = value b m → l = m
  | [], [], _, _, _, _ => rfl
  | d :: l, e :: m, hl, hm, hlen, h => by
      rw [digits_cons] at hl hm
      rw [value_cons, value_cons] at h
      have hde : d = e := by
        have hmod := congrArg (· % b) h
        rwa [Int.add_mul_emod_self_left, Int.add_mul_emod_self_left, Int.emod_eq_of_lt hl.1.1 hl.1.2,
          Int.emod_eq_of_lt hm.1.1 hm.1.2] at hmod
      rw [hde] at h ⊢
      rw [Digits.eq_of_value hb hl.2 hm.2 (Nat.succ.inj hlen) (mul_left_cancel₀ hb.ne' (add_left_cancel h))]

/-- The top digit and what is under it. -/
theorem value_top (l : List ℤ) (t : ℤ) : value b (l ++ [t]) = value b l + b ^ l.length * t := by
  rw [value_append, value_cons, value_nil, mul_zero, add_zero]

/-- A number with more digits, the top of them not 0, is more. -/
theorem lt_of_length_lt (hb : 0 < b) {l m : List ℤ} {t : ℤ} (hl : Digits b l) (hm : Digits b (m ++ [t]))
    (ht : t ≠ 0) (h : l.length ≤ m.length) : value b l < value b (m ++ [t]) := by
  rw [digits_append, digits_cons] at hm
  have hpow : b ^ l.length ≤ b ^ m.length := pow_le_pow_right₀ hb h
  have hpos : 0 < b ^ m.length := pow_pos hb _
  have htop : b ^ m.length * 1 ≤ b ^ m.length * t :=
    mul_le_mul_of_nonneg_left (by have := hm.2.1.1; omega) hpos.le
  rw [value_top]
  linarith [hl.value_lt hb, hm.1.value_nonneg hb]

/-- Of two with as many digits, the one whose top is more is more. -/
theorem lt_of_top_lt (hb : 0 < b) {l m : List ℤ} {s t : ℤ} (hl : Digits b l) (hm : Digits b m)
    (h : l.length = m.length) (hst : s < t) : value b (l ++ [s]) < value b (m ++ [t]) := by
  have hpos : 0 < b ^ m.length := pow_pos hb _
  have htop : b ^ m.length * (s + 1) ≤ b ^ m.length * t := mul_le_mul_of_nonneg_left hst hpos.le
  have hlt := hl.value_lt hb
  rw [value_top, value_top, h] at *
  linarith [hm.value_nonneg hb]

/-! ## Carries -/

/-- The carries from the low end up, and what is over at the top. -/
def carry (b : ℤ) : ℤ → List ℤ → List ℤ × ℤ
  | c, [] => ([], c)
  | c, d :: l => ((d + c) % b :: (carry b ((d + c) / b) l).1, (carry b ((d + c) / b) l).2)

@[simp] theorem length_carry (c : ℤ) (l : List ℤ) : (carry b c l).1.length = l.length := by
  induction l generalizing c with
  | nil => rfl
  | cons d l ih => rw [carry, List.length_cons, List.length_cons, ih]

theorem digits_carry (hb : 0 < b) (c : ℤ) (l : List ℤ) : Digits b (carry b c l).1 := by
  induction l generalizing c with
  | nil => exact digits_nil
  | cons d l ih =>
      rw [carry, digits_cons]
      exact ⟨⟨Int.emod_nonneg _ hb.ne', Int.emod_lt_of_pos _ hb⟩, ih _⟩

/-- What is carried is kept. -/
theorem value_carry (c : ℤ) (l : List ℤ) :
    value b (carry b c l).1 + b ^ l.length * (carry b c l).2 = value b l + c := by
  induction l generalizing c with
  | nil => simp [carry]
  | cons d l ih =>
      have hdiv := Int.emod_add_mul_ediv (d + c) b
      have hrest := ih ((d + c) / b)
      rw [carry, value_cons, value_cons, List.length_cons, pow_succ']
      dsimp only
      linear_combination hdiv + b * hrest

/-- What is over is how often the power goes, and what is kept is what is left over it. -/
theorem carry_eq_div (hb : 0 < b) (c : ℤ) (l : List ℤ) :
    (carry b c l).2 = (value b l + c) / b ^ l.length ∧
      value b (carry b c l).1 = (value b l + c) % b ^ l.length := by
  have hdigits := digits_carry hb c l
  have hlt := hdigits.value_lt hb
  have hnonneg := hdigits.value_nonneg hb
  rw [length_carry] at hlt
  rw [← value_carry c l]
  have hpos : 0 < b ^ l.length := pow_pos hb _
  constructor
  · rw [Int.add_mul_ediv_left _ _ hpos.ne', Int.ediv_eq_zero_of_lt hnonneg hlt, zero_add]
  · rw [Int.add_mul_emod_self_left, Int.emod_eq_of_lt hnonneg hlt]

/-! ## Products -/

open Polynomial in
/-- The polynomial with the parts for its coefficients. -/
noncomputable def poly : List ℤ → ℤ[X]
  | [] => 0
  | d :: l => C d + X * poly l

theorem eval_poly (l : List ℤ) : (poly l).eval b = value b l := by
  induction l with
  | nil => simp [poly]
  | cons d l ih => simp [poly, ih]

theorem coeff_poly (l : List ℤ) (i : ℕ) : (poly l).coeff i = l.getD i 0 := by
  induction l generalizing i with
  | nil => simp [poly]
  | cons d l ih =>
      cases i with
      | zero => simp [poly]
      | succ i =>
          rw [poly, Polynomial.coeff_add, Polynomial.coeff_X_mul, ih, Polynomial.coeff_C_succ, zero_add,
            List.getD_cons_succ]

/-- What is added up for a place of a product. -/
def place (l m : List ℤ) (k : ℕ) : ℤ :=
  ∑ p ∈ Finset.HasAntidiagonal.antidiagonal k, l.getD p.1 0 * m.getD p.2 0

/-- No more is added up than there are parts for. -/
theorem place_eq_sum (l m : List ℤ) (k : ℕ) :
    place l m k = ((List.range (min k (l.length - 1) + 1 - (k + 1 - m.length))).map (fun t =>
      l.getD (k + 1 - m.length + t) 0 * m.getD (k - (k + 1 - m.length + t)) 0)).sum := by
  have hsum : ∀ (f : ℕ → ℤ) (n : ℕ), ((List.range n).map f).sum = ∑ i ∈ Finset.range n, f i := by
    intro f n
    induction n with
    | zero => rfl
    | succ n ih => rw [List.range_succ, List.map_append, List.sum_append, ih, Finset.sum_range_succ]; simp
  rw [hsum, ← Finset.sum_Ico_eq_sum_range (fun i => l.getD i 0 * m.getD (k - i) 0), place,
    Finset.Nat.sum_antidiagonal_eq_sum_range_succ_mk]
  symm
  refine Finset.sum_subset (fun i hi => ?_) (fun i hi hout => ?_)
  · rw [Finset.mem_Ico] at hi
    rw [Finset.mem_range]
    omega
  · rw [Finset.mem_range] at hi
    rw [Finset.mem_Ico] at hout
    by_cases hlow : i < l.length
    · rw [List.getD_eq_default m 0 (by omega), mul_zero]
    · rw [List.getD_eq_default l 0 (by omega), zero_mul]

theorem value_map_range (f : ℕ → ℤ) (n : ℕ) :
    value b ((List.range n).map f) = ∑ k ∈ Finset.range n, f k * b ^ k := by
  induction n with
  | zero => simp
  | succ n ih =>
      rw [List.range_succ, List.map_append, List.map_singleton, value_top, ih, Finset.sum_range_succ,
        List.length_map, List.length_range, mul_comm]

/-- **A product is what is added up for each place of it.** -/
theorem value_mul (l m : List ℤ) {n : ℕ} (hn : l.length + m.length ≤ n + 1) (hl : l ≠ []) (hm : m ≠ []) :
    value b ((List.range n).map (place l m)) = value b l * value b m := by
  have hcoeff : ∀ k, (poly l * poly m).coeff k = place l m k := by
    intro k
    rw [Polynomial.coeff_mul]
    exact Finset.sum_congr rfl fun p _ => by rw [coeff_poly, coeff_poly]
  have hzero : ∀ k, n ≤ k → place l m k = 0 := by
    intro k hk
    refine Finset.sum_eq_zero fun p hp => ?_
    have hsum := Finset.HasAntidiagonal.mem_antidiagonal.mp hp
    have hlpos := List.length_pos_iff.mpr hl
    have hmpos := List.length_pos_iff.mpr hm
    by_cases hlow : p.1 < l.length
    · rw [List.getD_eq_default m 0 (by omega), mul_zero]
    · rw [List.getD_eq_default l 0 (by omega), zero_mul]
  have hdeg : (poly l * poly m).natDegree < n := by
    have hpos : 0 < n := by
      have hlpos := List.length_pos_iff.mpr hl
      have hmpos := List.length_pos_iff.mpr hm
      omega
    by_contra hge
    have hne : poly l * poly m ≠ 0 := by
      intro h0
      rw [h0, Polynomial.natDegree_zero] at hge
      omega
    have hlead := Polynomial.leadingCoeff_ne_zero.mpr hne
    rw [Polynomial.leadingCoeff, hcoeff] at hlead
    exact hlead (hzero _ (not_lt.mp hge))
  rw [← eval_poly l, ← eval_poly m, ← Polynomial.eval_mul, Polynomial.eval_eq_sum_range' hdeg,
    value_map_range]
  exact Finset.sum_congr rfl fun k _ => by rw [hcoeff]

end Radix
