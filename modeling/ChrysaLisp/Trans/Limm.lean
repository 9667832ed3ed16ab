import Mathlib.Algebra.Order.Ring.Nat
import Mathlib.Data.Nat.Factorization.Basic
import ChrysaLisp.Trans.Arm64Move

set_option autoImplicit false

/-! # Bitmask immediates

`arm64-limm`: a number that is one run of ones, rotated, in elements of one size is an immediate. What
it is decoded as is the number. -/

namespace ChrysaLisp.Trans.Arm64

open Fields

/-! ## Zeros and ones at an end -/

/-- As many shifts as there are bits leave nothing. -/
def ntzLoop : ℕ → Num → ℕ → ℕ
  | 0, _, n => n
  | fuel + 1, x, n => if x ≠ 0 then ntzLoop fuel (x <<< 1) (n - 1) else n

def ntz (x : Num) : ℕ := ntzLoop 64 x 64

def nto (x : Num) : ℕ := ntzLoop 64 (~~~x) 64

def nlzLoop : ℕ → Num → ℕ → ℕ
  | 0, _, n => n
  | fuel + 1, x, n => if 0 < x.toInt then nlzLoop fuel (x <<< 1) (n + 1) else n

def nlz (x : Num) : ℕ := if x = 0 then 64 else nlzLoop 64 x 0

def nlo (x : Num) : ℕ := nlz (~~~x)

/-! ## The immediate -/

def isMask (x : Num) : Prop := x ≠ 0 ∧ x &&& (x + 1) = 0

def isShiftedMask (x : Num) : Prop := x ≠ 0 ∧ isMask (x ||| (x - 1))

instance (x : Num) : Decidable (isMask x) := inferInstanceAs (Decidable (_ ∧ _))

instance (x : Num) : Decidable (isShiftedMask x) := inferInstanceAs (Decidable (_ ∧ _))

/-- The size halved while the halves are the same. -/
def sizeLoop (x : Num) : ℕ → ℕ → ℕ
  | 0, s => s
  | fuel + 1, s =>
      let s := s >>> 1
      let m := ((1 : Num) <<< s) - 1
      if x &&& m ≠ (x >>> s) &&& m then s * 2
      else if s ≤ 2 then s
      else sizeLoop x fuel s

/-- Where the run of ones of an element starts, and how long it is. -/
def onesOf (s : ℕ) (x : Num) : Option (ℕ × ℕ) :=
  let m := (-1 : Num) >>> (64 - s)
  let x := x &&& m
  if isShiftedMask x then
    let i := ntz x
    if 64 ≤ i then none else some (i, nto (x >>> i))
  else
    let x := x ||| ~~~m
    if isShiftedMask (~~~x) then
      let clo := nlo x
      some (64 - clo, clo + nto x - (64 - s))
    else none

def arm64Limm (x : Num) : Num :=
  if x = 0 ∨ x = -1 then -1
  else
    let s := sizeLoop x 6 64
    match onesOf s x with
    | none => -1
    | some (i, cto) =>
        if s ≤ i then -1
        else
          let _r := BitVec.ofNat 64 (s - i) &&& BitVec.ofNat 64 (s - 1)
          let _s := (~~~BitVec.ofNat 64 (s - 1)) <<< 1
          let _s := _s ||| BitVec.ofNat 64 (cto - 1)
          let n := ((_s >>> 6) &&& 1) ^^^ 1
          (n <<< 12) + (_r <<< 6) + (_s &&& 0x3f)

/-! ## What the loops count -/

@[simp] theorem getLsbD_num_zero (j : ℕ) : (0 : Num).getLsbD j = false := BitVec.getLsbD_zero

section Counts

variable {x : Num} {i h : ℕ}

theorem ntzLoop_eq (hbit : x.getLsbD i = true) (hlow : ∀ j < i, x.getLsbD j = false) {d f k : ℕ}
    (hd : k + d + i = 64) (hf : d ≤ f) : ntzLoop f (x <<< k) (64 - k) = i := by
  induction d generalizing f k with
  | zero =>
    have hzero : x <<< k = 0 := by
      refine BitVec.eq_of_getLsbD_eq fun j hj => ?_
      rw [BitVec.getLsbD_shiftLeft, getLsbD_num_zero]
      by_cases hk : j < k
      · simp [hk]
      · rw [hlow (j - k) (by omega), Bool.and_false]
    have hn : 64 - k = i := by omega
    cases f with
    | zero => rw [ntzLoop, hn]
    | succ f => rw [ntzLoop, hzero, if_neg (not_not.2 rfl), hn]
  | succ d ih =>
    obtain ⟨f, rfl⟩ : ∃ n, f = n + 1 := ⟨f - 1, by omega⟩
    have hne : x <<< k ≠ 0 := fun hzero => by
      have hb : (x <<< k).getLsbD (i + k) = true := by
        rw [BitVec.getLsbD_shiftLeft, Nat.add_sub_cancel, hbit, decide_eq_true (by omega),
          decide_eq_false (by omega)]
        rfl
      rw [hzero, getLsbD_num_zero] at hb
      exact absurd hb (by decide)
    rw [ntzLoop, if_pos hne, ← BitVec.shiftLeft_add, Nat.sub_sub]
    exact ih (by omega) (by omega)

/-- The first bit that is set. -/
theorem ntz_eq (hi : i < 64) (hbit : x.getLsbD i = true) (hlow : ∀ j < i, x.getLsbD j = false) :
    ntz x = i := by
  have hloop := ntzLoop_eq hbit hlow (d := 64 - i) (f := 64) (k := 0) (by omega) (by omega)
  rwa [BitVec.shiftLeft_zero] at hloop

/-- All of the bits are ones, or the first that is not is. -/
theorem nto_eq (hi : i < 64) (hbit : x.getLsbD i = false) (hlow : ∀ j < i, x.getLsbD j = true) :
    nto x = i := by
  refine ntz_eq hi ?_ fun j hj => ?_
  · rw [BitVec.getLsbD_not, hbit, decide_eq_true hi]
    rfl
  · rw [BitVec.getLsbD_not, hlow j hj, Bool.not_true, Bool.and_false]

theorem nlzLoop_eq (hh : h < 64) (hbit : x.getLsbD h = true) (hhigh : ∀ j, h < j → x.getLsbD j = false)
    {d f k : ℕ} (hd : k + d + h = 63) (hf : d ≤ f) : nlzLoop f (x <<< k) k = 63 - h := by
  have htop : ∀ k, (x <<< k).msb = (decide (k ≤ 63) && x.getLsbD (63 - k)) := by
    intro k
    rw [BitVec.msb_eq_getLsbD_last, BitVec.getLsbD_shiftLeft]
    by_cases hk : k ≤ 63
    · simp [hk, Nat.not_lt.2 hk]
    · simp [hk, Nat.lt_of_not_le hk]
  induction d generalizing f k with
  | zero =>
    have hneg : ¬ 0 < (x <<< k).toInt := by
      have hmsb : (x <<< k).msb = true := by
        rw [htop, show 63 - k = h by omega, hbit, decide_eq_true (by omega)]
        rfl
      have := BitVec.toInt_neg_of_msb_true hmsb
      omega
    have hn : k = 63 - h := by omega
    cases f with
    | zero => rw [nlzLoop, hn]
    | succ f => rw [nlzLoop, if_neg hneg, hn]
  | succ d ih =>
    obtain ⟨f, rfl⟩ : ∃ n, f = n + 1 := ⟨f - 1, by omega⟩
    have hpos : 0 < (x <<< k).toInt := by
      have hmsb : (x <<< k).msb = false := by
        rw [htop, hhigh (63 - k) (by omega), Bool.and_false]
      have hne : (x <<< k).toNat ≠ 0 := fun hzero => by
        have hb : (x <<< k).getLsbD (h + k) = true := by
          rw [BitVec.getLsbD_shiftLeft, Nat.add_sub_cancel, hbit, decide_eq_true (by omega),
            decide_eq_false (by omega)]
          rfl
        rw [BitVec.getLsbD, hzero, Nat.zero_testBit] at hb
        exact absurd hb (by decide)
      rw [BitVec.toInt_eq_toNat_of_msb hmsb]
      omega
    rw [nlzLoop, if_pos hpos, ← BitVec.shiftLeft_add]
    exact ih (by omega) (by omega)

/-- As many zeros as there are bits above the last that is set. -/
theorem nlz_eq (hh : h < 64) (hbit : x.getLsbD h = true) (hhigh : ∀ j, h < j → x.getLsbD j = false) :
    nlz x = 63 - h := by
  have hne : x ≠ 0 := fun hzero => by
    rw [hzero, getLsbD_num_zero] at hbit
    exact absurd hbit (by decide)
  have hloop := nlzLoop_eq hh hbit hhigh (d := 63 - h) (f := 64) (k := 0) (by omega) (by omega)
  rw [BitVec.shiftLeft_zero] at hloop
  rw [nlz, if_neg hne, hloop]

end Counts

/-! ## Runs of ones -/

/-- The bits from one to another are ones, and no other is. -/
def Ones (x : Num) (i n : ℕ) : Prop := ∀ j, x.getLsbD j = decide (i ≤ j ∧ j < n)

section Ones

variable {x : Num} {i n : ℕ}

theorem isMask_ones (h : isMask x) : ∃ n, 0 < n ∧ n ≤ 64 ∧ ∀ j, x.getLsbD j = decide (j < n) := by
  obtain ⟨hne, hand⟩ := h
  have hpos : x.toNat ≠ 0 := fun hzero => hne (BitVec.eq_of_toNat_eq hzero)
  have hlt := x.isLt
  obtain ⟨n, hn⟩ : ∃ n, x.toNat + 1 = 2 ^ n := by
    by_cases hall : x.toNat + 1 = 2 ^ 64
    · exact ⟨64, hall⟩
    · have hinc : (x + 1).toNat = x.toNat + 1 := by
        rw [BitVec.toNat_add, show (1 : Num).toNat = 1 from rfl]
        exact Nat.mod_eq_of_lt (by omega)
      have hzero : (x.toNat + 1) &&& (x.toNat + 1 - 1) = 0 := by
        have hand' := congrArg BitVec.toNat hand
        rw [BitVec.toNat_and, hinc] at hand'
        rw [Nat.add_sub_cancel, Nat.land_comm]
        exact hand'
      exact (Nat.and_sub_one_eq_zero_iff_isPowerOfTwo (Nat.succ_ne_zero _)).1 hzero
  have hn0 : 0 < n := by
    rcases Nat.eq_zero_or_pos n with rfl | hn0
    · omega
    · exact hn0
  have hn64 : n ≤ 64 := by
    by_contra hgt
    have hle : 2 ^ 65 ≤ 2 ^ n := Nat.pow_le_pow_right (by decide) (by omega)
    omega
  refine ⟨n, hn0, hn64, fun j => ?_⟩
  rw [BitVec.getLsbD, show x.toNat = 2 ^ n - 1 by omega, Nat.testBit_two_pow_sub_one]

/-- The one below the lowest one, and what is below it, are the other way in the number before. -/
theorem isShiftedMask_ones (h : isShiftedMask x) : ∃ i n, i < n ∧ n ≤ 64 ∧ Ones x i n := by
  obtain ⟨hne, hmask⟩ := h
  have hpos : x.toNat ≠ 0 := fun hzero => hne (BitVec.eq_of_toNat_eq hzero)
  obtain ⟨i, m, hodd, hx⟩ := Nat.exists_eq_two_pow_mul_odd hpos
  obtain ⟨q, rfl⟩ := hodd
  obtain ⟨n, -, hn64, hn⟩ := isMask_ones hmask
  have hlt := x.isLt
  have hx' : x.toNat = 2 ^ (i + 1) * q + 2 ^ i := by rw [hx]; ring
  have hdec : (x - 1).toNat = 2 ^ (i + 1) * q + (2 ^ i - 1) := by
    have hp := Nat.two_pow_pos i
    rw [BitVec.toNat_sub, show (1 : Num).toNat = 1 from rfl]
    omega
  have hbit : ∀ j, x.getLsbD j = if j < i + 1 then decide (i = j) else q.testBit (j - (i + 1)) := by
    intro j
    rw [BitVec.getLsbD, hx', Nat.testBit_two_pow_mul_add q (Nat.pow_lt_pow_right (by decide) (by omega)),
      Nat.testBit_two_pow]
  have hbit' : ∀ j, (x - 1).getLsbD j = if j < i + 1 then decide (j < i) else q.testBit (j - (i + 1)) := by
    intro j
    have hp : 2 ^ i - 1 < 2 ^ (i + 1) :=
      lt_of_le_of_lt (Nat.sub_le _ _) (Nat.pow_lt_pow_right (by decide) (by omega))
    rw [BitVec.getLsbD, hdec, Nat.testBit_two_pow_mul_add q hp, Nat.testBit_two_pow_sub_one]
  have hor : ∀ j, decide (j < n) = (x.getLsbD j || (x - 1).getLsbD j) := fun j => by
    rw [← hn j, BitVec.getLsbD_or]
  have hi : i < n := by
    have hori := hor i
    rw [hbit, if_pos (by omega), decide_eq_true rfl, Bool.true_or] at hori
    exact of_decide_eq_true hori
  refine ⟨i, n, hi, hn64, fun j => ?_⟩
  have horj := hor j
  rw [hbit, hbit'] at horj
  rw [hbit]
  by_cases hj : j < i + 1
  · rw [if_pos hj]
    congr 1
    exact propext ⟨fun h => by omega, fun h => by omega⟩
  · rw [if_neg hj, if_neg hj, Bool.or_self] at horj
    rw [if_neg hj, ← horj]
    congr 1
    exact propext ⟨fun h => by omega, fun h => h.2⟩

end Ones

/-! ## The size of an element -/

/-- What is in the first bits is there again and again. -/
def Periodic (x : Num) (s : ℕ) : Prop := ∀ j < 64, x.getLsbD j = x.getLsbD (j % s)

theorem and_low_eq {x y : Num} {s : ℕ} (hs : s < 64)
    (h : x &&& (((1 : Num) <<< s) - (1 : Num)) = y &&& (((1 : Num) <<< s) - (1 : Num))) {j : ℕ} (hj : j < s) :
    x.getLsbD j = y.getLsbD j := by
  have hmask : (((1 : Num) <<< s) - (1 : Num)).getLsbD j = true := by
    have hp : 2 ^ s < 2 ^ 64 := Nat.pow_lt_pow_right (by decide) hs
    have hpos := Nat.two_pow_pos s
    have hval : (((1 : Num) <<< s) - (1 : Num)).toNat = 2 ^ s - 1 := by
      rw [BitVec.toNat_sub, BitVec.toNat_shiftLeft, show (1 : Num).toNat = 1 from rfl, Nat.one_shiftLeft,
        Nat.mod_eq_of_lt hp]
      omega
    rw [BitVec.getLsbD, hval, Nat.testBit_two_pow_sub_one, decide_eq_true hj]
  have hb : (x &&& (((1 : Num) <<< s) - (1 : Num))).getLsbD j =
    (y &&& (((1 : Num) <<< s) - (1 : Num))).getLsbD j := by rw [h]
  rwa [BitVec.getLsbD_and, BitVec.getLsbD_and, hmask, Bool.and_true, Bool.and_true] at hb

theorem Periodic.half {x : Num} {s : ℕ} (h : Periodic x (2 * s)) (hs : 0 < s) (h64 : 2 * s ≤ 64)
    (heq : ∀ j < s, x.getLsbD j = x.getLsbD (j + s)) : Periodic x s := by
  intro j hj
  have ht : j % (2 * s) < 2 * s := Nat.mod_lt _ (by omega)
  have hmod : j % (2 * s) % s = j % s := Nat.mod_mod_of_dvd j (Nat.dvd_mul_left s 2)
  rw [h j hj, ← hmod]
  generalize j % (2 * s) = t at ht
  by_cases hts : t < s
  · rw [Nat.mod_eq_of_lt hts]
  · rw [Nat.mod_eq_sub_mod (by omega), Nat.mod_eq_of_lt (by omega), heq (t - s) (by omega),
      Nat.sub_add_cancel (by omega)]

theorem sizeLoop_spec (x : Num) {f e : ℕ} (hf : e ≤ f) (he : 2 ≤ e) (he6 : e ≤ 6)
    (h : Periodic x (2 ^ e)) :
    ∃ e', 1 ≤ e' ∧ e' ≤ 6 ∧ sizeLoop x f (2 ^ e) = 2 ^ e' ∧ Periodic x (2 ^ e') := by
  induction f generalizing e with
  | zero => omega
  | succ f ih =>
    obtain ⟨e, rfl⟩ : ∃ n, e = n + 1 := ⟨e - 1, by omega⟩
    have hshift : 2 ^ (e + 1) >>> 1 = 2 ^ e := by
      rw [Nat.shiftRight_eq_div_pow, pow_one, Nat.pow_succ]
      exact Nat.mul_div_cancel _ (by decide)
    have hpos := Nat.two_pow_pos e
    have h64 : 2 * 2 ^ e ≤ 64 := by
      rw [← Nat.pow_succ']
      exact Nat.pow_le_pow_right (by decide) he6
    rw [sizeLoop, hshift]
    by_cases hne : x &&& (((1 : Num) <<< 2 ^ e) - (1 : Num)) ≠ (x >>> 2 ^ e) &&&
      (((1 : Num) <<< 2 ^ e) - (1 : Num))
    · rw [if_pos hne]
      exact ⟨e + 1, by omega, he6, (Nat.pow_succ ..).symm, h⟩
    · rw [if_neg hne]
      have hhalf : Periodic x (2 ^ e) := by
        refine Periodic.half (by rwa [← Nat.pow_succ']) hpos h64 fun j hj => ?_
        rw [and_low_eq (by omega) (not_not.1 hne) hj, BitVec.getLsbD_ushiftRight, Nat.add_comm]
      by_cases hle : 2 ^ e ≤ 2
      · rw [if_pos hle]
        exact ⟨e, by omega, by omega, rfl, hhalf⟩
      · rw [if_neg hle]
        have he2 : 2 ≤ e := by
          by_contra hlt
          exact hle (Nat.pow_le_pow_right (by decide) (show e ≤ 1 by omega))
        exact ih (by omega) he2 (by omega) hhalf

/-! ## The ones of an element -/

/-- The bit of a run of ones rotated right. -/
def turned (s i cto t : ℕ) : Bool := decide ((t + (s - i) % s) % s ≤ cto - 1)

theorem turned_eq {s i cto t : ℕ} (hi : i < s) (ht : t < s) :
    turned s i cto t = decide ((if i ≤ t then t - i else t + s - i) ≤ cto - 1) := by
  have hrot : (t + (s - i) % s) % s = if i ≤ t then t - i else t + s - i := by
    rcases Nat.eq_zero_or_pos i with rfl | hpos
    · rw [Nat.sub_zero, Nat.mod_self, Nat.add_zero, Nat.mod_eq_of_lt ht, if_pos (Nat.zero_le t)]
      rfl
    · rw [Nat.mod_eq_of_lt (by omega : s - i < s)]
      by_cases hit : i ≤ t
      · rw [if_pos hit, Nat.mod_eq_sub_mod (by omega), Nat.mod_eq_of_lt (by omega)]
        omega
      · rw [if_neg hit, Nat.mod_eq_of_lt (by omega)]
        omega
  rw [turned, hrot]

theorem getLsbD_low {s j : ℕ} (hs : s ≤ 64) : ((-1 : Num) >>> (64 - s)).getLsbD j = decide (j < s) := by
  rw [BitVec.getLsbD_ushiftRight, show (-1 : Num) = BitVec.allOnes 64 from rfl, BitVec.getLsbD_allOnes]
  congr 1
  exact propext ⟨fun h => by omega, fun h => by omega⟩

theorem Ones.le {x : Num} {i n s : ℕ} (h : Ones x i n) (hin : i < n)
    (hx : ∀ j, x.getLsbD j = true → j < s) : n ≤ s := by
  have hlast := hx (n - 1) (by rw [h]; exact decide_eq_true (by omega))
  omega

theorem onesOf_spec {c : Num} {s i cto : ℕ} (hs : s ≤ 64) (hper : Periodic c s) (hone : c ≠ -1)
    (h : onesOf s c = some (i, cto)) (hi : i < s) :
    1 ≤ cto ∧ cto < s ∧ ∀ t < s, c.getLsbD t = turned s i cto t := by
  rw [onesOf] at h
  have hm : ∀ j, ((-1 : Num) >>> (64 - s)).getLsbD j = decide (j < s) := fun j => getLsbD_low hs
  generalize (-1 : Num) >>> (64 - s) = m at h hm
  have hx : ∀ j, (c &&& m).getLsbD j = (c.getLsbD j && decide (j < s)) := fun j => by
    rw [BitVec.getLsbD_and, hm]
  generalize c &&& m = x at h hx
  have hz : ∀ j, (~~~(x ||| ~~~m)).getLsbD j = (decide (j < s) && !c.getLsbD j) := fun j => by
    rw [BitVec.getLsbD_not, BitVec.getLsbD_or, hx, BitVec.getLsbD_not, hm]
    by_cases hj : j < s
    · rw [decide_eq_true hj, decide_eq_true (by omega : j < 64), Bool.and_true, Bool.not_true,
        Bool.and_false, Bool.or_false, Bool.true_and]
    · rw [decide_eq_false hj]
      by_cases hj' : j < 64
      · rw [decide_eq_true hj', Bool.and_false, Bool.not_false]
        rfl
      · rw [decide_eq_false hj', Bool.false_and, Bool.false_and]
  by_cases hsm : isShiftedMask x
  · obtain ⟨a, n, han, hn, hones⟩ := isShiftedMask_ones hsm
    have hns : n ≤ s := hones.le han fun j hj => by
      rw [hx, Bool.and_eq_true] at hj
      exact of_decide_eq_true hj.2
    have hct : ∀ t < s, c.getLsbD t = decide (a ≤ t ∧ t < n) := fun t ht => by
      rw [← hones t, hx, decide_eq_true ht, Bool.and_true]
    have hntz : ntz x = a := ntz_eq (by omega) (by rw [hones]; exact decide_eq_true (by omega))
      fun j hj => by rw [hones]; exact decide_eq_false (by omega)
    -- an element of nothing but ones is that number, which is left out
    have hlen : n - a < s := by
      by_contra hge
      refine hone (BitVec.eq_of_getLsbD_eq fun j hj => ?_)
      have hmod : j % s < s := Nat.mod_lt _ (by omega)
      rw [hper j hj, hct _ hmod, decide_eq_true (by omega), show (-1 : Num) = BitVec.allOnes 64 from rfl,
        BitVec.getLsbD_allOnes, decide_eq_true hj]
    have hnto : nto (x >>> a) = n - a := by
      refine nto_eq (by omega) ?_ fun j hj => ?_
      · rw [BitVec.getLsbD_ushiftRight, hones]
        exact decide_eq_false (by omega)
      · rw [BitVec.getLsbD_ushiftRight, hones]
        exact decide_eq_true (by omega)
    rw [if_pos hsm] at h
    dsimp only at h
    rw [hntz, if_neg (by omega), hnto] at h
    obtain ⟨rfl, rfl⟩ := Prod.mk.inj (Option.some.inj h)
    refine ⟨by omega, hlen, fun t ht => ?_⟩
    rw [hct t ht, turned_eq hi ht]
    congr 1
    refine propext ?_
    split_ifs <;> omega
  · rw [if_neg hsm] at h
    dsimp only at h
    by_cases hsm' : isShiftedMask (~~~(x ||| ~~~m))
    · obtain ⟨a, n, han, hn, hones⟩ := isShiftedMask_ones hsm'
      have hns : n ≤ s := hones.le han fun j hj => by
        rw [hz, Bool.and_eq_true] at hj
        exact of_decide_eq_true hj.1
      have hct : ∀ t < s, c.getLsbD t = !decide (a ≤ t ∧ t < n) := fun t ht => by
        rw [← hones t, hz, decide_eq_true ht, Bool.true_and, Bool.not_not]
      have hclo : nlo (x ||| ~~~m) = 64 - n := by
        have hnlz := nlz_eq (x := ~~~(x ||| ~~~m)) (h := n - 1) (by omega)
          (by rw [hones]; exact decide_eq_true (by omega))
          fun j hj => by rw [hones]; exact decide_eq_false (by omega)
        rw [nlo, hnlz]
        omega
      have hnto : nto (x ||| ~~~m) = a := ntz_eq (by omega)
        (by rw [hones]; exact decide_eq_true (by omega))
        fun j hj => by rw [hones]; exact decide_eq_false (by omega)
      rw [if_pos hsm', hclo, hnto] at h
      obtain ⟨rfl, rfl⟩ := Prod.mk.inj (Option.some.inj h)
      refine ⟨by omega, by omega, fun t ht => ?_⟩
      rw [hct t ht, turned_eq hi ht, ← decide_not]
      congr 1
      refine propext ?_
      split_ifs <;> omega
    · rw [if_neg hsm'] at h
      exact absurd h (by simp)

/-! ## What an immediate is decoded as -/

/-- The size of an element is in the bits above those of its length. -/
def sizeBits (s cto : ℕ) : Num := (~~~BitVec.ofNat 64 (s - 1)) <<< 1 ||| BitVec.ofNat 64 (cto - 1)

def encode (s i cto : ℕ) : Num :=
  ((((sizeBits s cto >>> 6) &&& 1) ^^^ 1) <<< 12) +
      ((BitVec.ofNat 64 (s - i) &&& BitVec.ofNat 64 (s - 1)) <<< 6) + (sizeBits s cto &&& 0x3f)

/-- The size and the length are read back. -/
theorem sizeBits_spec : ∀ e < 6, ∀ cto < 2 ^ (e + 1), 1 ≤ cto →
    let n := (((sizeBits (2 ^ (e + 1)) cto >>> 6) &&& 1) ^^^ 1).toNat
    let imms := (sizeBits (2 ^ (e + 1)) cto &&& 0x3f).toNat
    n < 2 ∧ imms < 64 ∧ Nat.log2 (n * 64 + (63 - imms)) = e + 1 ∧ imms % 2 ^ (e + 1) = cto - 1 := by
  decide +kernel

theorem limm_decode {e i cto : ℕ} (he : e < 6) (hi : i < 2 ^ (e + 1)) (hcto : cto < 2 ^ (e + 1))
    (hpos : 1 ≤ cto) :
    (encode (2 ^ (e + 1)) i cto).toNat < 2 ^ 13 ∧
      decodeBitMask (field (encode (2 ^ (e + 1)) i cto).toNat 12 1)
          (field (encode (2 ^ (e + 1)) i cto).toNat 6 6) (field (encode (2 ^ (e + 1)) i cto).toNat 0 6) =
        some (BitVec.ofNat 64
          (ofBits (fun j => turned (2 ^ (e + 1)) i cto (j % 2 ^ (e + 1))) 64)) := by
  obtain ⟨hn, himms, hlog, hlen⟩ := sizeBits_spec e he cto hcto hpos
  have hs : 2 ^ (e + 1) ≤ 64 := Nat.pow_le_pow_right (by decide : 0 < 2) (by omega : e + 1 ≤ 6)
  have himmr : (BitVec.ofNat 64 (2 ^ (e + 1) - i) &&& BitVec.ofNat 64 (2 ^ (e + 1) - 1)).toNat =
      (2 ^ (e + 1) - i) % 2 ^ (e + 1) := by
    rw [BitVec.toNat_and, BitVec.toNat_ofNat, BitVec.toNat_ofNat, Nat.mod_eq_of_lt (by omega),
      Nat.mod_eq_of_lt (by omega), Nat.and_two_pow_sub_one_eq_mod]
  have hr : (2 ^ (e + 1) - i) % 2 ^ (e + 1) < 64 := lt_of_lt_of_le (Nat.mod_lt _ (Nat.two_pow_pos _)) hs
  have hval : (encode (2 ^ (e + 1)) i cto).toNat =
      (((sizeBits (2 ^ (e + 1)) cto >>> 6) &&& 1) ^^^ 1).toNat * 2 ^ 12 +
        (2 ^ (e + 1) - i) % 2 ^ (e + 1) * 2 ^ 6 + (sizeBits (2 ^ (e + 1)) cto &&& 0x3f).toNat := by
    rw [encode, BitVec.toNat_add, BitVec.toNat_add, BitVec.toNat_shiftLeft, BitVec.toNat_shiftLeft, himmr,
      Nat.shiftLeft_eq, Nat.shiftLeft_eq]
    omega
  generalize (((sizeBits (2 ^ (e + 1)) cto >>> 6) &&& 1) ^^^ 1).toNat = n at hn hlog hval
  generalize (sizeBits (2 ^ (e + 1)) cto &&& 0x3f).toNat = imms at himms hlog hlen hval
  have hmod : (2 ^ (e + 1) - i) % 2 ^ (e + 1) % 2 ^ (e + 1) = (2 ^ (e + 1) - i) % 2 ^ (e + 1) :=
    Nat.mod_mod ..
  have hfields : field (encode (2 ^ (e + 1)) i cto).toNat 12 1 = n ∧
      field (encode (2 ^ (e + 1)) i cto).toNat 6 6 = (2 ^ (e + 1) - i) % 2 ^ (e + 1) ∧
      field (encode (2 ^ (e + 1)) i cto).toNat 0 6 = imms := by
    rw [hval]
    unfold field
    omega
  refine ⟨by rw [hval]; omega, ?_⟩
  rw [hfields.1, hfields.2.1, hfields.2.2, decodeBitMask, hlog, hlen, hmod, if_neg (by omega)]
  rfl

/-- The number an immediate is for is decoded from it. -/
theorem arm64Limm_spec (c : Num) (h : arm64Limm c ≠ -1) :
    (arm64Limm c).toNat < 2 ^ 13 ∧
      decodeBitMask (field (arm64Limm c).toNat 12 1) (field (arm64Limm c).toNat 6 6)
          (field (arm64Limm c).toNat 0 6) = some c := by
  rw [arm64Limm] at h ⊢
  by_cases hc : c = 0 ∨ c = -1
  · rw [if_pos hc] at h
    exact absurd rfl h
  rw [if_neg hc] at h ⊢
  have hstart : Periodic c (2 ^ 6) := fun j hj => congrArg c.getLsbD (Nat.mod_eq_of_lt hj).symm
  obtain ⟨e, he1, he6, hsize, hper⟩ := sizeLoop_spec c (f := 6) (by decide) (by decide) (by decide) hstart
  have hs : 2 ^ e ≤ 64 := Nat.pow_le_pow_right (by decide : 0 < 2) he6
  have hsize' : sizeLoop c 6 64 = 2 ^ e := hsize
  dsimp only at h ⊢
  rw [hsize'] at h ⊢
  cases hones : onesOf (2 ^ e) c with
  | none =>
    rw [hones] at h
    exact absurd rfl h
  | some p =>
    obtain ⟨i, cto⟩ := p
    rw [hones] at h
    dsimp only at h ⊢
    by_cases hi : 2 ^ e ≤ i
    · rw [if_pos hi] at h
      exact absurd rfl h
    rw [if_neg hi]
    obtain ⟨hpos, hcto, hbits⟩ := onesOf_spec hs hper (fun h1 => hc (Or.inr h1)) hones (by omega)
    obtain ⟨e, rfl⟩ : ∃ n, e = n + 1 := ⟨e - 1, by omega⟩
    obtain ⟨hlt, hdec⟩ := limm_decode (e := e) (i := i) (by omega) (by omega) hcto hpos
    refine ⟨hlt, hdec.trans (congrArg some (BitVec.eq_of_getLsbD_eq fun j hj => ?_))⟩
    rw [hper j hj, hbits _ (Nat.mod_lt _ (Nat.two_pow_pos _)), BitVec.getLsbD_ofNat, testBit_ofBits,
      decide_eq_true hj, Bool.true_and, Bool.true_and]

/-! ## Constants -/

/-- `emit-cpy-cr` -/
def emitCpyCr (c : Num) (r : ℕ) : List ℕ :=
  let i := arm64Limm c
  if i ≠ -1 then emitmInt (0xb2000000 + (i <<< 10) + ((31 : Num) <<< 5) + BitVec.ofNat 64 r)
  else arm64MovCr c r

/-- What it emits leaves the number in the register and changes nothing else. -/
theorem run_emitCpyCr (c : Num) {r : ℕ} (hr : r < 31) (st : State) :
    run (emitCpyCr c r) st = some (st.set r c) := by
  rw [emitCpyCr]
  by_cases h : arm64Limm c ≠ -1
  · obtain ⟨hlt, hdec⟩ := arm64Limm_spec c h
    rw [if_pos h]
    generalize arm64Limm c = i at hlt hdec
    have hword : emitmInt (0xb2000000 + (i <<< 10) + ((31 : Num) <<< 5) + BitVec.ofNat 64 r) =
        [0xb2000000 + i.toNat * 2 ^ 10 + 31 * 2 ^ 5 + r] := by
      have hrsp : ((31 : Num) <<< 5).toNat = 31 * 2 ^ 5 := rfl
      have hop : ((0xb2000000 : ℕ) : Num).toNat = 0xb2000000 := rfl
      rw [emitmInt, BitVec.toNat_add, BitVec.toNat_add, BitVec.toNat_add, BitVec.toNat_shiftLeft,
        BitVec.toNat_ofNat, Nat.shiftLeft_eq, hrsp, hop]
      congr 1
      omega
    have hd : decode (0xb2000000 + i.toNat * 2 ^ 10 + 31 * 2 ^ 5 + r) =
        some (.orrImm (field i.toNat 12 1) (field i.toNat 6 6) (field i.toNat 0 6) 31 r) := by
      have hfields : field (0xb2000000 + i.toNat * 2 ^ 10 + 31 * 2 ^ 5 + r) 23 9 = 0b101100100 ∧
          field (0xb2000000 + i.toNat * 2 ^ 10 + 31 * 2 ^ 5 + r) 22 1 = field i.toNat 12 1 ∧
          field (0xb2000000 + i.toNat * 2 ^ 10 + 31 * 2 ^ 5 + r) 16 6 = field i.toNat 6 6 ∧
          field (0xb2000000 + i.toNat * 2 ^ 10 + 31 * 2 ^ 5 + r) 10 6 = field i.toNat 0 6 ∧
          field (0xb2000000 + i.toNat * 2 ^ 10 + 31 * 2 ^ 5 + r) 5 5 = 31 ∧
          field (0xb2000000 + i.toNat * 2 ^ 10 + 31 * 2 ^ 5 + r) 0 5 = r := by
        unfold field
        omega
      obtain ⟨hop, hn, himmr, himms, hrn, hrd⟩ := hfields
      simp only [decode, hop, hn, himmr, himms, hrn, hrd, Nat.reduceEqDiff, if_true, if_false]
    rw [hword, run, hd, Option.bind_some, exec, hdec, Option.map_some, Option.bind_some, run, State.get0,
      if_pos rfl, show (0 : Num) ||| c = c from BitVec.zero_or]
  · rw [if_neg h]
    exact run_arm64MovCr c hr

end ChrysaLisp.Trans.Arm64
