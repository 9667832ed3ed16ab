import Mathlib.Data.Nat.Bitwise
import Mathlib.Tactic.Common
import Mathlib.Tactic.Ring

set_option autoImplicit false

/-! # Fields of a word

A word is a number, and some bits of it that are next to each other are a field. Fields that are
added together where there is nothing of another are read back as they were. -/

namespace Fields

/-- The `n` bits of a word from bit `lo` on. -/
def field (w lo n : ℕ) : ℕ := w / 2 ^ lo % 2 ^ n

theorem field_lt (w lo n : ℕ) : field w lo n < 2 ^ n := Nat.mod_lt _ (Nat.two_pow_pos n)

theorem testBit_field (w lo n i : ℕ) :
    (field w lo n).testBit i = (decide (i < n) && w.testBit (i + lo)) := by
  rw [field, Nat.testBit_mod_two_pow, Nat.testBit_div_two_pow]

/-- A mask leaves a field where it is. -/
theorem land_mask (w lo n : ℕ) : w &&& ((2 ^ n - 1) * 2 ^ lo) = field w lo n * 2 ^ lo := by
  refine Nat.eq_of_testBit_eq fun i => ?_
  rw [Nat.testBit_and, Nat.testBit_mul_two_pow, Nat.testBit_mul_two_pow, Nat.testBit_two_pow_sub_one,
    testBit_field]
  by_cases hi : lo ≤ i
  · rw [Nat.sub_add_cancel hi]
    exact Bool.and_comm .. |>.trans (by rw [Bool.and_assoc])
  · rw [decide_eq_false hi, Bool.false_and, Bool.and_false, Bool.false_and]

/-- A number of `n` bits with its sign. -/
def signed (n w : ℕ) : ℤ := (w : ℤ).bmod (2 ^ n)

theorem signed_of_lt {n w : ℕ} (h : 2 * w < 2 ^ n) : signed n w = w :=
  Int.bmod_eq_of_le_mul_two (by omega) (by exact_mod_cast (by omega : w * 2 < 2 ^ n))

/-- What fits is what its bits are with their sign. -/
theorem signed_field {n : ℕ} (hn : n ≤ 64) (c : BitVec 64) (hle : -2 ^ n ≤ c.toInt * 2)
    (hlt : c.toInt * 2 < 2 ^ n) : signed n (field c.toNat 0 n) = c.toInt := by
  have hmod : ((field c.toNat 0 n : ℕ) : ℤ) = (c.toNat : ℤ) % ((2 ^ n : ℕ) : ℤ) := by
    rw [field, pow_zero, Nat.div_one, Int.natCast_emod]
  have hdvd : 2 ^ n ∣ 2 ^ 64 := Nat.pow_dvd_pow 2 hn
  rw [signed, hmod, Int.emod_bmod, ← Int.bmod_bmod_of_dvd hdvd, ← BitVec.toInt_eq_toNat_bmod]
  exact Int.bmod_eq_of_le_mul_two (by exact_mod_cast hle) (by exact_mod_cast hlt)

theorem bmod_mul_left (a : ℤ) {k n : ℕ} :
    ((2 ^ k : ℕ) * a).bmod (2 ^ (k + n)) = (2 ^ k : ℕ) * a.bmod (2 ^ n) := by
  have hk : (0 : ℤ) < ((2 ^ k : ℕ) : ℤ) := by exact_mod_cast Nat.two_pow_pos k
  have hpow : ((2 ^ (k + n) : ℕ) : ℤ) = (2 ^ k : ℕ) * (2 ^ n : ℕ) := by exact_mod_cast Nat.pow_add 2 k n
  have hsplit : ((2 ^ k : ℕ) : ℤ) * a =
      (2 ^ k : ℕ) * a.bmod (2 ^ n) + (2 ^ (k + n) : ℕ) * a.bdiv (2 ^ n) := by
    rw [hpow, Int.mul_assoc, ← Int.mul_add, Int.bmod_add_bdiv]
  have hle : -((2 ^ n : ℕ) : ℤ) ≤ a.bmod (2 ^ n) * 2 := by
    have := Int.le_bmod (x := a) (Nat.two_pow_pos n)
    omega
  have hlt : a.bmod (2 ^ n) * 2 < ((2 ^ n : ℕ) : ℤ) := by
    have := Int.bmod_lt (x := a) (Nat.two_pow_pos n)
    have := Nat.two_pow_pos n
    omega
  rw [hsplit, Int.add_mul_bmod_self_left]
  refine Int.bmod_eq_of_le_mul_two ?_ ?_
  · rw [hpow, Int.mul_assoc, ← Int.mul_neg]
    exact Int.mul_le_mul_of_nonneg_left hle hk.le
  · rw [hpow, Int.mul_assoc]
    exact Int.mul_lt_mul_of_pos_left hlt hk

/-- The low bits shifted up and down again have their sign. -/
theorem toInt_low (c : BitVec 64) {k n : ℕ} (hk : k + n = 64) :
    ((c <<< k).sshiftRight k).toInt = signed n (field c.toNat 0 n) := by
  have hlow : ((field c.toNat 0 n : ℕ) : ℤ) = (c.toNat : ℤ) % ((2 ^ n : ℕ) : ℤ) := by
    rw [field, pow_zero, Nat.div_one, Int.natCast_emod]
  have hshift : (c <<< k).toInt = (2 ^ k : ℕ) * (c.toNat : ℤ).bmod (2 ^ n) := by
    rw [← bmod_mul_left, hk, BitVec.toInt_eq_toNat_bmod, BitVec.toNat_shiftLeft, Nat.shiftLeft_eq,
      Int.natCast_emod, Int.emod_bmod, Int.natCast_mul, Int.mul_comm]
  have hpos : ((2 ^ k : ℕ) : ℤ) ≠ 0 := by exact_mod_cast (Nat.two_pow_pos k).ne'
  rw [BitVec.toInt_sshiftRight, Int.shiftRight_eq_div_pow, hshift, Int.mul_ediv_cancel_left _ hpos, signed,
    hlow, Int.emod_bmod]

/-- A number with its sign has the bits it had. -/
theorem toNat_ofInt_signed_mod {n : ℕ} (hn : n ≤ 64) (w : ℕ) :
    (BitVec.ofInt 64 (signed n w)).toNat % 2 ^ n = w % 2 ^ n := by
  have hdvd : ((2 ^ n : ℕ) : ℤ) ∣ ((2 ^ 64 : ℕ) : ℤ) := Int.natCast_dvd_natCast.2 (Nat.pow_dvd_pow 2 hn)
  have hpos : (0 : ℤ) < ((2 ^ 64 : ℕ) : ℤ) := by decide
  have hint : (((BitVec.ofInt 64 (signed n w)).toNat % 2 ^ n : ℕ) : ℤ) = ((w % 2 ^ n : ℕ) : ℤ) := by
    rw [Int.natCast_emod, BitVec.toNat_ofInt, Int.toNat_of_nonneg (Int.emod_nonneg _ hpos.ne'),
      Int.emod_emod_of_dvd _ hdvd, signed, Int.bmod_emod, Int.natCast_emod]
  exact_mod_cast hint

theorem signed_bounds {n : ℕ} (w : ℕ) : -2 ^ n ≤ signed n w * 2 ∧ signed n w * 2 < 2 ^ n := by
  have hle := Int.le_bmod (x := w) (Nat.two_pow_pos n)
  have hlt := Int.bmod_lt (x := w) (Nat.two_pow_pos n)
  have hpos := Nat.two_pow_pos n
  have hpow : ((2 ^ n : ℕ) : ℤ) = (2 : ℤ) ^ n := by exact_mod_cast rfl
  rw [signed, ← hpow]
  omega

theorem toNat_low_mod (c : BitVec 64) {k n : ℕ} (hk : k + n = 64) :
    ((c <<< k).sshiftRight k).toNat % 2 ^ n = c.toNat % 2 ^ n := by
  have heq : (c <<< k).sshiftRight k = BitVec.ofInt 64 (signed n (field c.toNat 0 n)) := by
    rw [← toInt_low c hk, BitVec.ofInt_toInt]
  rw [heq, toNat_ofInt_signed_mod (by omega), field, pow_zero, Nat.div_one, Nat.mod_mod]

theorem toNat_sshiftRight_mod (c : BitVec 64) {k n : ℕ} (hk : k + n = 64) :
    (c.sshiftRight k).toNat % 2 ^ n = c.toNat / 2 ^ k := by
  refine Nat.eq_of_testBit_eq fun i => ?_
  have hbit := BitVec.getLsbD_sshiftRight c k i
  rw [BitVec.getLsbD, BitVec.getLsbD] at hbit
  rw [Nat.testBit_mod_two_pow, Nat.testBit_div_two_pow, hbit]
  by_cases hi : i < n
  · rw [decide_eq_true hi, decide_eq_false (by omega : ¬ 64 ≤ i), if_pos (by omega), Nat.add_comm k]
    rfl
  · rw [decide_eq_false hi, Bool.false_and, BitVec.testBit_toNat, BitVec.getLsbD_of_ge c (i + k) (by omega)]

/-- A number with another above it. -/
theorem toNat_or_shiftLeft {a : BitVec 64} {k n : ℕ} (hk : k + n = 64) (ha : a.toNat < 2 ^ k)
    (x : BitVec 64) : (a ||| x <<< k).toNat = a.toNat + x.toNat % 2 ^ n * 2 ^ k := by
  have hpow : 2 ^ 64 = 2 ^ n * 2 ^ k := by rw [← Nat.pow_add, Nat.add_comm, hk]
  rw [BitVec.toNat_or, BitVec.toNat_shiftLeft, Nat.shiftLeft_eq, hpow, Nat.mul_mod_mul_right, Nat.or_comm,
    Nat.mul_comm, ← Nat.two_pow_add_eq_or_of_lt ha, Nat.add_comm]

theorem signed_cases {n w : ℕ} (h : w < 2 ^ n) :
    (2 * w < 2 ^ n ∧ signed n w = w) ∨ (2 ^ n ≤ 2 * w ∧ signed n w = w - (2 ^ n : ℕ)) := by
  by_cases hlt : 2 * w < 2 ^ n
  · exact Or.inl ⟨hlt, signed_of_lt hlt⟩
  · refine Or.inr ⟨by omega, ?_⟩
    have hsub : signed n w = (w - (2 ^ n : ℕ) : ℤ).bmod (2 ^ n) := (Int.sub_bmod_right ..).symm
    rw [hsub]
    exact Int.bmod_eq_of_le_mul_two (by omega) (by omega)

/-- The number with the first `n` bits given. -/
def ofBits (f : ℕ → Bool) : ℕ → ℕ
  | 0 => 0
  | n + 1 => 2 ^ n * (f n).toNat + ofBits f n

theorem ofBits_lt (f : ℕ → Bool) (n : ℕ) : ofBits f n < 2 ^ n := by
  induction n with
  | zero => exact Nat.one_pos
  | succ n ih =>
    have hle : 2 ^ n * (f n).toNat ≤ 2 ^ n := by
      have hmul := Nat.mul_le_mul_left (2 ^ n) (Bool.toNat_le (f n))
      rwa [Nat.mul_one] at hmul
    rw [ofBits, Nat.pow_succ]
    omega

theorem testBit_ofBits (f : ℕ → Bool) (n i : ℕ) :
    (ofBits f n).testBit i = (decide (i < n) && f i) := by
  induction n with
  | zero => rw [ofBits, Nat.zero_testBit, decide_eq_false (Nat.not_lt_zero i), Bool.false_and]
  | succ n ih =>
    rw [ofBits, Nat.testBit_two_pow_mul_add _ (ofBits_lt f n)]
    by_cases hi : i < n
    · rw [if_pos hi, ih, decide_eq_true hi, decide_eq_true (Nat.lt_succ_of_lt hi)]
    · rw [if_neg hi]
      rcases Nat.eq_or_lt_of_not_lt hi with rfl | hn
      · rw [Nat.sub_self, decide_eq_true (Nat.lt_succ_self i), Bool.true_and]
        cases f i <;> rfl
      · rw [decide_eq_false (by omega), Bool.false_and]
        refine Nat.testBit_eq_false_of_lt ?_
        exact lt_of_le_of_lt (Bool.toNat_le _) (Nat.one_lt_two_pow (by omega))

end Fields
