import ChrysaLisp.Math.BignumBytes
import ChrysaLisp.Math.BignumPow

set_option autoImplicit false

/-! # The arithmetic is exact

What each operation comes to is the number that the integers' own comes to, in limbs of 26 bits, nothing on
the way outside 63 bits (`bignum_exact`). `bn-addmod` and `bn-submod` take what they put together off the
modulus once at most, so they are for numbers that are less than it (`bnAddmod_not_less`); `bn-powmod`
multiplies numbers of as many limbs as the modulus has. -/

namespace ChrysaLisp.Bignum

open Radix Bytes

/-- What comes is a big number, and of this value. -/
def Comes (r : Option Nums) (v : ℤ) : Prop := ∃ n, r = some n ∧ Num n ∧ val n = v

/-- Of two numbers: the sum, the difference, and the product. -/
structure Exact (a b : Nums) : Prop where
  add : Comes (bnAdd a b) (val a + val b)
  sub : val b ≤ val a → Comes (bnSub a b) (val a - val b)
  mul : Comes (bnMul a b) (val a * val b)

/-- The same mod a number `m`, and powers. -/
structure ExactMod (a b e m : Nums) (md : Modulus) : Prop where
  mod : Comes (bnMod a md) (val a % val m)
  mulmod : Comes (bnMulmod a b md) (val a * val b % val m)
  addmod : val a < val m → val b < val m → Comes (bnAddmod a b md) ((val a + val b) % val m)
  submod : val a < val m → val b < val m → Comes (bnSubmod a b md) ((val a - val b) % val m)
  powmod : m.length ≤ 2048 → val e ≠ 0 ∨ val m ≠ 1 →
    Comes (bnPowmod a e md) (val a ^ (val e).toNat % val m)

/-- Bytes to a number and back, and a number to enough bytes and back. -/
structure ExactBytes (a : Nums) : Prop where
  bytes : ∀ data : Str, bnBytes (bnFromBytes data) data.length = some data
  number : ∀ len : ℕ, val a < 256 ^ len → ∃ data, bnBytes a len = some data ∧ bnFromBytes data = bnTrim a

theorem exact {a b : Nums} (ha : Num a) (hb : Num b) (hlen : a.length ≤ 2048) : Exact a b where
  add := bnAdd_spec ha hb
  sub hle := by
    obtain ⟨d, hd, hnum, -, hval⟩ := bnSub_spec ha hb hle
    exact ⟨d, hd, hnum, hval⟩
  mul := bnMul_spec ha hb hlen

theorem exactMod {a b e m : Nums} {md : Modulus} (ha : Num a) (hb : Num b) (he : Num e) (hm : Num m)
    (hlen : a.length ≤ 2048) (hmd : IsModulus md (val m)) (htrim : md.m = bnTrim m) :
    ExactMod a b e m md where
  mod := by
    obtain ⟨r, hr, hnum, -, hval⟩ := hmd.bnMod_spec ha
    exact ⟨r, hr, hnum, hval⟩
  mulmod := by
    obtain ⟨r, hr, hnum, -, hval⟩ := hmd.bnMulmod_spec ha hb hlen
    exact ⟨r, hr, hnum, hval⟩
  addmod ham hbm := by
    obtain ⟨r, hr, hnum, -, hval⟩ := hmd.bnAddmod_spec ha hb ham hbm
    exact ⟨r, hr, hnum, hval⟩
  submod ham hbm := by
    obtain ⟨r, hr, hnum, -, hval⟩ := hmd.bnSubmod_spec ha hb ham hbm
    exact ⟨r, hr, hnum, hval⟩
  powmod hlimbs hone := by
    have hle : md.m.length ≤ m.length := by
      rw [htrim]
      exact (bnTrim_spec hm).2.2.2
    exact hmd.bnPowmod_spec (hle.trans hlimbs) ha he hone

/-- Two numbers of one value, with no limb of 0 at the top, are one. -/
theorem eq_of_trimmed {a b : Nums} (ha : Num a) (hb : Num b) (hta : Trimmed a) (htb : Trimmed b)
    (h : val a = val b) : a = b := by
  have hlen : a.length = b.length := by
    rcases lt_trichotomy a.length b.length with hlt | heq | hgt
    · exact absurd h (ha.lt_of_length hb htb hlt).ne
    · exact heq
    · exact absurd h (hb.lt_of_length ha hta hgt).ne'
  exact Digits.eq_of_value base_pos ha.digits hb.digits hlen h

theorem exactBytes {a : Nums} (ha : Num a) : ExactBytes a where
  bytes data := by
    obtain ⟨hnum, -, hval⟩ := bnFromBytes_spec data
    have hback := toBytes_ofBytes data.reverse
    rw [List.length_reverse] at hback
    rw [bnBytes_spec hnum, hval, Int.toNat_natCast, hback, List.reverse_reverse]
  number len hlt := by
    refine ⟨_, bnBytes_spec ha len, ?_⟩
    obtain ⟨hnum, htrim, hval⟩ := bnFromBytes_spec (toBytes len (val a).toNat).reverse
    obtain ⟨hnumA, hvalA, htrimA, -⟩ := bnTrim_spec ha
    refine eq_of_trimmed hnum hnumA htrim htrimA ?_
    have hnat : (val a).toNat < 256 ^ len := by
      rw [Int.toNat_lt ha.val_nonneg]
      exact_mod_cast hlt
    rw [hval, hvalA, List.reverse_reverse, ofBytes_toBytes, Nat.mod_eq_of_lt hnat,
      Int.toNat_of_nonneg ha.val_nonneg]

/-- **Big number arithmetic is exact.** -/
theorem bignum_exact {a b e m : Nums} (ha : Num a) (hb : Num b) (he : Num e) (hm : Num m)
    (hlen : a.length ≤ 2048) (hne : val m ≠ 0) :
    Exact a b ∧ (∃ md, bnModulus m = some md ∧ ExactMod a b e m md) ∧ ExactBytes a := by
  obtain ⟨md, hmd, hmodulus, htrim⟩ := bnModulus_spec hm hne
  exact ⟨exact ha hb hlen, ⟨md, hmd, exactMod ha hb he hm hlen hmodulus htrim⟩, exactBytes ha⟩

/-- 2 limbs by 1, mod 7. -/
theorem bignum_exact_seven :
    Exact [3, 5] [4] ∧ (∃ md, bnModulus [7] = some md ∧ ExactMod [3, 5] [4] [2] [7] md) ∧
    ExactBytes [3, 5] :=
  bignum_exact ⟨by simp, by simp [base]⟩ ⟨by simp, by simp [base]⟩ ⟨by simp, by simp [base]⟩
    ⟨by simp, by simp [base]⟩ (by decide) (by decide +kernel)

/-- Of numbers that are not less than the modulus `bn-addmod` does not make the remainder. -/
theorem bnAddmod_not_less : ∃ md, bnModulus [3] = some md ∧ bnAddmod [5] [5] md = some [7] ∧
    ¬ Comes (bnAddmod [5] [5] md) ((val [5] + val [5]) % val [3]) := by
  have hmd : ∃ md, bnModulus [3] = some md ∧ bnAddmod [5] [5] md = some [7] :=
    ⟨⟨[3], [50331648], 24, 1⟩, by decide +kernel⟩
  obtain ⟨md, hmd, hadd⟩ := hmd
  refine ⟨md, hmd, hadd, ?_⟩
  intro hcomes
  obtain ⟨n, hn, -, hval⟩ := hcomes
  rw [hadd, Option.some_inj] at hn
  rw [← hn] at hval
  exact absurd hval (by decide +kernel)

end ChrysaLisp.Bignum
