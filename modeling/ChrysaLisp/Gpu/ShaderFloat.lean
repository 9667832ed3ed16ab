import ChrysaLisp.Library.Floats
import ChrysaLisp.Library.Fields
import ChrysaLisp.Gpu.Shader

set_option autoImplicit false

/-! # A real as a 32 bit float

`sh-real-to-float` rounds on the bits: half of the last place is added to the mantissa, a tie goes
down to the even one, a mantissa that has carried counts in the exponent, and the exponent is
clamped at both ends. The bits it comes to are those of the index of the real shifted
(`shRealToFloat_toNat`), and a shift of the index rounds to the nearest float. What it takes to 0 in
between, and an infinity that `sh-float-to-real` reads as the next exponent, is where it does not
(`rounded_back_iff`). -/

namespace ChrysaLisp.Shader

open Floats

/-! ## On the bits -/

theorem and_mask (w : BitVec 64) {m : BitVec 64} {n : ℕ} (hm : m.toNat = 2 ^ n - 1) :
    (w &&& m).toNat = w.toNat % 2 ^ n := by
  rw [BitVec.toNat_and, hm, Nat.and_two_pow_sub_one_eq_mod]

theorem or_shiftLeft {a b : BitVec 64} {k n : ℕ} (hk : k + n = 64) (ha : a.toNat < 2 ^ n)
    (hb : b.toNat < 2 ^ k) :
    ((a <<< k) ||| b).toNat = a.toNat * 2 ^ k + b.toNat := by
  rw [BitVec.or_comm, Fields.toNat_or_shiftLeft hk hb, Nat.mod_eq_of_lt ha, Nat.add_comm]

theorem sub_toInt {x : BitVec 64} {k : ℕ} (hx : x.toNat < 2 ^ 62) (hk : k < 2 ^ 62) :
    (x - BitVec.ofNat 64 k).toInt = x.toNat - k := by
  have hkn : (BitVec.ofNat 64 k).toNat = k := by
    rw [BitVec.toNat_ofNat, Nat.mod_eq_of_lt (by omega)]
  rw [BitVec.toInt_sub, BitVec.toInt_eq_toNat_of_lt (by omega), BitVec.toInt_eq_toNat_of_lt (by omega), hkn]
  exact Int.bmod_eq_of_le_mul_two (by omega) (by omega)

/-- The bits of a real below the sign. -/
def magnitude (w : BitVec 64) : ℕ := w.toNat % 2 ^ 63

/-- The mantissa rounded, before it is seen if it has carried. -/
def roundMant (w : BitVec 64) : BitVec 64 :=
  let m := ((w &&& 0xfffffffffffff) + 0x10000000) >>> 29
  if w &&& 0x1fffffff = 0x10000000 ∧ m &&& 1 = 1 then m - 1 else m

theorem roundMant_toNat (w : BitVec 64) : (roundMant w).toNat = shiftEven 29 (w.toNat % 2 ^ 52) := by
  have hf : (w &&& 0xfffffffffffff).toNat = w.toNat % 2 ^ 52 := and_mask w rfl
  have hm : (((w &&& 0xfffffffffffff) + 0x10000000) >>> 29).toNat = (w.toNat % 2 ^ 52 + 2 ^ 28) / 2 ^ 29 := by
    rw [BitVec.toNat_ushiftRight, Nat.shiftRight_eq_div_pow, BitVec.toNat_add, hf, Nat.mod_eq_of_lt]
    · rfl
    · have := Nat.mod_lt w.toNat (Nat.two_pow_pos 52)
      change w.toNat % 2 ^ 52 + 2 ^ 28 < 2 ^ 64
      omega
  have hlow : w &&& 0x1fffffff = 0x10000000 ↔ w.toNat % 2 ^ 29 = 2 ^ 28 := by
    rw [← BitVec.toNat_inj, and_mask (n := 29) w rfl]
    rfl
  have hodd : ∀ m : BitVec 64, m &&& 1 = 1 ↔ m.toNat % 2 = 1 := fun m => by
    rw [← BitVec.toNat_inj, and_mask (n := 1) m rfl]
    rfl
  unfold roundMant shiftEven
  simp only [hlow, hodd]
  generalize ((w &&& 0xfffffffffffff) + 0x10000000) >>> 29 = m at hm ⊢
  rw [hm]
  split
  · rw [BitVec.toNat_sub_of_le, hm]
    · change _ - 1 = _
      split <;> omega
    · rw [BitVec.le_def, hm]
      change 1 ≤ _
      omega
  · rw [hm]
    split <;> omega

/-- The bits below the sign of the float that a real of these bits is packed as. -/
def floatIndex (D : ℕ) : ℕ :=
  if D < 897 * 2 ^ 52 - 2 ^ 28 then 0 else min (255 * 2 ^ 23) (shiftEven 29 (D - 896 * 2 ^ 52))

theorem shiftEven_of_lt {f : ℕ} (h : f < 2 ^ 52) :
    shiftEven 29 f ≤ 2 ^ 23 ∧ (shiftEven 29 f = 2 ^ 23 ↔ 2 ^ 52 - 2 ^ 28 ≤ f) := by
  have hhigh := shiftEven_le 29 f
  have hfull : 2 ^ 23 - 1 < shiftEven 29 f ↔ _ := lt_shiftEven_iff (by decide)
  constructor <;> omega

/-- The clamps at both ends of the exponent. -/
theorem clamped {s e m : BitVec 64} (hs : s.toNat < 2) (hm : m.toNat < 2 ^ 23) :
    (if e.sle 0 then (0 : BitVec 64)
      else if (255 : BitVec 64).sle e then (s <<< 31) ||| 0x7f800000
      else (s <<< 31) ||| (e <<< 23) ||| m).toNat =
    if e.toInt ≤ 0 then 0
    else if 255 ≤ e.toInt then s.toNat * 2 ^ 31 + 255 * 2 ^ 23
    else s.toNat * 2 ^ 31 + (e.toInt.toNat * 2 ^ 23 + m.toNat) := by
  have hlow : e.sle 0 = true ↔ e.toInt ≤ 0 := BitVec.sle_iff_toInt_le
  have hhigh : (255 : BitVec 64).sle e = true ↔ 255 ≤ e.toInt := BitVec.sle_iff_toInt_le
  simp only [hlow, hhigh]
  split_ifs with h0 h255
  · rfl
  · exact or_shiftLeft (by omega : 31 + 33 = 64) (by omega) (by decide)
  · have he : e.toInt.toNat = e.toNat := by
      rw [BitVec.toInt_eq_toNat_cond] at h0 h255 ⊢
      split at h0 <;> omega
    have hlt : e.toNat < 255 := by omega
    have hor := or_shiftLeft (by omega : 23 + 41 = 64) (by omega : e.toNat < 2 ^ 41) hm
    rw [BitVec.or_assoc, or_shiftLeft (by omega : 31 + 33 = 64) (by omega) (by omega), hor, he]

/-- The exponent and the mantissa that come of the rounding are the index of it. -/
theorem index_of_parts {E f M m s D : ℕ} {t : ℤ} (hE : E < 2 ^ 11) (hf : f < 2 ^ 52) (hM : M ≤ 2 ^ 23)
    (hfull : M = 2 ^ 23 ↔ 2 ^ 52 - 2 ^ 28 ≤ f) (hm : m < 2 ^ 23)
    (hsum : t * 2 ^ 23 + m = ((E : ℕ) - 896) * 2 ^ 23 + (M : ℕ)) (hD : D = E * 2 ^ 52 + f)
    (hindex : 896 * 2 ^ 52 ≤ D → shiftEven 29 (D - 896 * 2 ^ 52) = (E - 896) * 2 ^ 23 + M) :
    (if t ≤ 0 then 0 else if 255 ≤ t then s * 2 ^ 31 + 255 * 2 ^ 23
      else s * 2 ^ 31 + (t.toNat * 2 ^ 23 + m)) =
      if floatIndex D = 0 then 0 else s * 2 ^ 31 + floatIndex D := by
  unfold floatIndex
  by_cases hlow : t ≤ 0
  · have hcases : E < 896 ∨ E = 896 ∧ M < 2 ^ 23 := by omega
    have hbelow : D < 897 * 2 ^ 52 - 2 ^ 28 := by omega
    rw [if_pos hlow, if_pos hbelow, if_pos rfl]
  · have hcases : 897 ≤ E ∨ E = 896 ∧ M = 2 ^ 23 := by omega
    have habove : ¬ D < 897 * 2 ^ 52 - 2 ^ 28 := by omega
    have hpos : 2 ^ 23 ≤ (E - 896) * 2 ^ 23 + M := by omega
    rw [if_neg hlow, if_neg habove, hindex (by omega)]
    by_cases hhigh : 255 ≤ t
    · have hmin : 255 * 2 ^ 23 ≤ (E - 896) * 2 ^ 23 + M := by omega
      rw [if_pos hhigh, min_eq_left hmin, if_neg (by decide)]
    · have hmin : (E - 896) * 2 ^ 23 + M < 255 * 2 ^ 23 := by omega
      have hindex : t.toNat * 2 ^ 23 + m = (E - 896) * 2 ^ 23 + M := by omega
      rw [if_neg hhigh, min_eq_right hmin.le, if_neg (by omega), hindex]

theorem shRealToFloat_toNat (w : BitVec 64) : (shRealToFloat w).toNat =
    if floatIndex (magnitude w) = 0 then 0 else w.toNat / 2 ^ 63 * 2 ^ 31 + floatIndex (magnitude w) := by
  have hE : ((w >>> 52) &&& 0x7ff).toNat = w.toNat / 2 ^ 52 % 2 ^ 11 := by
    rw [and_mask (n := 11) _ rfl, BitVec.toNat_ushiftRight, Nat.shiftRight_eq_div_pow]
  have he : (((w >>> 52) &&& 0x7ff) - 896).toInt = (w.toNat / 2 ^ 52 % 2 ^ 11 : ℕ) - 896 := by
    rw [← hE]
    exact sub_toInt (k := 896) (by omega) (by omega)
  have hM := roundMant_toNat w
  have hf := Nat.mod_lt w.toNat (Nat.two_pow_pos 52)
  obtain ⟨hle, hfull⟩ := shiftEven_of_lt hf
  have hs : (w >>> 63).toNat = w.toNat / 2 ^ 63 := by
    rw [BitVec.toNat_ushiftRight, Nat.shiftRight_eq_div_pow]
  have hD : magnitude w = w.toNat / 2 ^ 52 % 2 ^ 11 * 2 ^ 52 + w.toNat % 2 ^ 52 := by
    unfold magnitude
    omega
  have hw := w.isLt
  have hindex : 896 * 2 ^ 52 ≤ magnitude w → shiftEven 29 (magnitude w - 896 * 2 ^ 52) =
      (w.toNat / 2 ^ 52 % 2 ^ 11 - 896) * 2 ^ 23 + shiftEven 29 (w.toNat % 2 ^ 52) := by
    intro hge
    have hsplit : magnitude w - 896 * 2 ^ 52 =
        2 * ((w.toNat / 2 ^ 52 % 2 ^ 11 - 896) * 2 ^ 22) * 2 ^ 29 + w.toNat % 2 ^ 52 := by omega
    rw [hsplit, shiftEven_mul_add]
    omega
  obtain ⟨m, e, hdef, hm, hsum⟩ : ∃ m e : BitVec 64, (shRealToFloat w =
      if e.sle 0 then (0 : BitVec 64)
      else if (255 : BitVec 64).sle e then ((w >>> 63) <<< 31) ||| 0x7f800000
      else ((w >>> 63) <<< 31) ||| (e <<< 23) ||| m) ∧ m.toNat < 2 ^ 23 ∧
      e.toInt * 2 ^ 23 + m.toNat =
        ((w.toNat / 2 ^ 52 % 2 ^ 11 : ℕ) - 896) * 2 ^ 23 + (shiftEven 29 (w.toNat % 2 ^ 52) : ℕ) := by
    have hdef : shRealToFloat w =
        let p := if roundMant w = 0x800000 then ((0 : BitVec 64), ((w >>> 52) &&& 0x7ff) - 896 + 1)
          else (roundMant w, ((w >>> 52) &&& 0x7ff) - 896)
        if p.2.sle 0 then (0 : BitVec 64)
        else if (255 : BitVec 64).sle p.2 then ((w >>> 63) <<< 31) ||| 0x7f800000
        else ((w >>> 63) <<< 31) ||| (p.2 <<< 23) ||| p.1 := rfl
    by_cases hcarry : roundMant w = 0x800000
    · rw [if_pos hcarry] at hdef
      refine ⟨0, ((w >>> 52) &&& 0x7ff) - 896 + 1, hdef, by decide, ?_⟩
      rw [← hM, hcarry, BitVec.toInt_add, he, Int.bmod_eq_of_le_mul_two]
      · change (_ + 1) * _ + 0 = _ + (2 ^ 23 : ℤ)
        omega
      · change _ ≤ (_ + 1) * 2
        omega
      · change (_ + 1) * 2 < _
        omega
    · rw [if_neg hcarry] at hdef
      have hne : (roundMant w).toNat ≠ 2 ^ 23 := fun heq => hcarry (BitVec.eq_of_toNat_eq heq)
      refine ⟨roundMant w, ((w >>> 52) &&& 0x7ff) - 896, hdef, by omega, ?_⟩
      rw [he, hM]
  rw [hdef, clamped (by omega) hm, hs]
  have hlt := Nat.mod_lt (w.toNat / 2 ^ 52) (Nat.two_pow_pos 11)
  exact index_of_parts hlt hf hle hfull hm hsum hD hindex

theorem shFloatToReal_toNat {v : BitVec 64} {s i : ℕ} (hv : v.toNat = s * 2 ^ 31 + i) (hs : s < 2)
    (hi : i < 2 ^ 31) :
    (shFloatToReal v).toNat = if i < 2 ^ 23 then 0 else s * 2 ^ 63 + (i * 2 ^ 29 + 896 * 2 ^ 52) := by
  have he : ((v >>> 23) &&& 0xff).toNat = i / 2 ^ 23 := by
    rw [and_mask (n := 8) _ rfl, BitVec.toNat_ushiftRight, Nat.shiftRight_eq_div_pow, hv]
    omega
  have hsign : ((v >>> 31) &&& 1).toNat = s := by
    rw [and_mask (n := 1) _ rfl, BitVec.toNat_ushiftRight, Nat.shiftRight_eq_div_pow, hv]
    omega
  have hf : (v &&& 0x7fffff).toNat = i % 2 ^ 23 := by
    rw [and_mask (n := 23) _ rfl, hv]
    omega
  have hzero : (v >>> 23) &&& 0xff = 0 ↔ i < 2 ^ 23 := by
    rw [← BitVec.toNat_inj, he]
    change _ = 0 ↔ _
    omega
  unfold shFloatToReal
  simp only [hzero]
  split_ifs with h
  · rfl
  · have hexp : (((v >>> 23) &&& 0xff) + 896).toNat = i / 2 ^ 23 + 896 := by
      rw [BitVec.toNat_add, he]
      exact Nat.mod_eq_of_lt (by change _ + 896 < _; omega)
    have hlow : ((v &&& 0x7fffff) <<< 29).toNat = i % 2 ^ 23 * 2 ^ 29 := by
      rw [BitVec.toNat_shiftLeft, Nat.shiftLeft_eq, hf, Nat.mod_eq_of_lt (by omega)]
    have hmag := or_shiftLeft (by omega : 52 + 12 = 64)
      (by omega : (((v >>> 23) &&& 0xff) + 896).toNat < 2 ^ 12)
      (by omega : ((v &&& 0x7fffff) <<< 29).toNat < 2 ^ 52)
    rw [BitVec.or_assoc, or_shiftLeft (by omega : 63 + 1 = 64) (by omega) (by omega), hmag, hsign, hexp, hlow]
    omega

/-! ## There and back -/

/-- What comes back of a real that is packed as a float. -/
def back (w : BitVec 64) : BitVec 64 := shFloatToReal (shRealToFloat w)

theorem floatIndex_cases (D : ℕ) :
    D < 897 * 2 ^ 52 - 2 ^ 28 ∧ floatIndex D = 0 ∨
      897 * 2 ^ 52 - 2 ^ 28 ≤ D ∧ 2 ^ 23 ≤ floatIndex D ∧ floatIndex D ≤ 255 * 2 ^ 23 ∧
        (floatIndex D = 255 * 2 ^ 23 ↔ 1151 * 2 ^ 52 ≤ D + 2 ^ 28) := by
  unfold floatIndex
  by_cases hlow : D < 897 * 2 ^ 52 - 2 ^ 28
  · exact Or.inl ⟨hlow, if_pos hlow⟩
  · have hleast : 2 ^ 23 - 1 < shiftEven 29 (D - 896 * 2 ^ 52) ↔ _ := lt_shiftEven_iff (by decide)
    have hlast : 255 * 2 ^ 23 - 1 < shiftEven 29 (D - 896 * 2 ^ 52) ↔ _ := lt_shiftEven_iff (by decide)
    rw [if_neg hlow]
    refine Or.inr ⟨by omega, by omega, by omega, ?_⟩
    rw [min_eq_left_iff]
    omega

theorem toNat_back (w : BitVec 64) : (back w).toNat =
    if floatIndex (magnitude w) = 0 then 0
    else w.toNat / 2 ^ 63 * 2 ^ 63 + (floatIndex (magnitude w) * 2 ^ 29 + 896 * 2 ^ 52) := by
  have hfloat := shRealToFloat_toNat w
  have hs : w.toNat / 2 ^ 63 < 2 := by
    have := w.isLt
    omega
  rcases floatIndex_cases (magnitude w) with ⟨-, hzero⟩ | ⟨-, hleast, hlast, -⟩
  · rw [if_pos hzero] at hfloat ⊢
    rw [back, shFloatToReal_toNat (s := 0) (i := 0) hfloat (by decide) (by decide), if_pos (by decide)]
  · rw [if_neg (by omega)] at hfloat ⊢
    rw [back, shFloatToReal_toNat hfloat hs (by omega), if_neg (by omega)]

/-- A real that has come back is packed as it was. -/
theorem shRealToFloat_back (w : BitVec 64) : shRealToFloat (back w) = shRealToFloat w := by
  refine BitVec.eq_of_toNat_eq ?_
  have hback := toNat_back w
  have hw := w.isLt
  rw [shRealToFloat_toNat, shRealToFloat_toNat]
  rcases floatIndex_cases (magnitude w) with ⟨-, hzero⟩ | ⟨-, hleast, hlast, -⟩
  · rw [if_pos hzero] at hback
    rw [if_pos hzero, magnitude, hback, if_pos (by decide)]
  · rw [if_neg (by omega)] at hback
    have hmag : magnitude (back w) = floatIndex (magnitude w) * 2 ^ 29 + 896 * 2 ^ 52 := by
      rw [magnitude, hback]
      omega
    have hsign : (back w).toNat / 2 ^ 63 = w.toNat / 2 ^ 63 := by
      rw [hback]
      omega
    have hsame : floatIndex (magnitude (back w)) = floatIndex (magnitude w) := by
      rw [hmag]
      unfold floatIndex at hleast hlast ⊢
      generalize (if magnitude w < 897 * 2 ^ 52 - 2 ^ 28 then 0
        else min (255 * 2 ^ 23) (shiftEven 29 (magnitude w - 896 * 2 ^ 52))) = i at hleast hlast ⊢
      rw [if_neg (by omega), Nat.add_sub_cancel, shiftEven_mul, min_eq_right hlast]
    rw [hsame, hsign]

/-! ## The nearest float -/

/-- What a 32 bit float is worth by its bits below the sign, in units of the least real. Those of an
    infinity are worth what the next exponent would be. -/
def floatWorth : ℕ → ℕ := narrow 23 29 896

/-- The bits of an infinity below the sign, of a float and of a real. -/
def floatInfinity : ℕ := 255 * 2 ^ 23

def realInfinity : ℕ := 2047 * 2 ^ 52

/-- `r` is `w` rounded to the nearest 32 bit float, ties to even, where that is a normal one, and 0
    or the infinity beyond them. -/
def Rounded (w r : BitVec 64) : Prop :=
  ∃ i, Nearest floatWorth floatInfinity (worth 52 (magnitude w)) i ∧
    if i < 2 ^ 23 then magnitude r = 0
    else r.msb = w.msb ∧ if i = floatInfinity then magnitude r = realInfinity
      else worth 52 (magnitude r) = floatWorth i

/-- A real that is not rounded to an infinity, and not just below the least normal float. -/
def InRange (w : BitVec 64) : Prop :=
  magnitude w + 2 ^ 28 < 1151 * 2 ^ 52 ∧
    ¬ (897 * 2 ^ 52 - 2 ^ 29 ≤ magnitude w ∧ magnitude w < 897 * 2 ^ 52 - 2 ^ 28)

theorem floatWorth_strictMono : StrictMono floatWorth := narrow_strictMono 23 29 896

/-- Halfway from the last float with no leading bit to the least with one. -/
theorem real_halfway : 2 * worth 52 (897 * 2 ^ 52 - 2 ^ 29) = floatWorth (2 ^ 23 - 1) + floatWorth
    (2 ^ 23) := by
  have hhalf := worth_halfway 23 29 (by decide : 0 < 896)
  rwa [(by decide : 896 * 2 ^ (23 + 29) + (2 ^ (23 + 29) - 2 ^ 29) = 897 * 2 ^ 52 - 2 ^ 29)] at hhalf

/-- From the last of a real below the least normal float on, its bits rounded are the nearest float. -/
theorem nearest_floatIndex {D : ℕ} (h : 897 * 2 ^ 52 - 2 ^ 28 ≤ D) :
    Nearest floatWorth floatInfinity (worth 52 D) (floatIndex D) := by
  unfold floatIndex
  rw [if_neg (by omega)]
  rcases Nat.lt_or_ge D (897 * 2 ^ 52) with hlt | hge
  · have hleast : 2 ^ 23 - 1 < shiftEven 29 (D - 896 * 2 ^ 52) ↔ _ := lt_shiftEven_iff (by decide)
    have hover : shiftEven 29 (D - 896 * 2 ^ 52) ≤ 2 ^ 23 := (shiftEven_of_lt (by omega)).1
    have hindex : min (255 * 2 ^ 23) (shiftEven 29 (D - 896 * 2 ^ 52)) = 2 ^ 23 - 1 + 1 := by omega
    have hbelow : worth 52 D ≤ floatWorth (2 ^ 23) := by
      rw [floatWorth, ← worth_narrow (Nat.le_refl _)]
      exact (worth_strictMono 52).monotone hlt.le
    have habove : worth 52 (897 * 2 ^ 52 - 2 ^ 29) < worth 52 D := worth_strictMono 52 (by omega)
    have hhalf := real_halfway
    rw [hindex]
    refine nearest_right floatWorth_strictMono (by decide) hbelow (Or.inl ?_)
    change floatWorth (2 ^ 23 - 1) + floatWorth (2 ^ 23) < _
    omega
  · have hshift : Nearest (narrow 23 29 896) floatInfinity
      (worth (23 + 29) (D - 896 * 2 ^ 52 + 896 * 2 ^ (23 + 29)))
        (min floatInfinity (shiftEven 29 (D - 896 * 2 ^ 52))) := nearest_shiftEven (by omega)
    rwa [(by omega : D - 896 * 2 ^ 52 + 896 * 2 ^ (23 + 29) = D)] at hshift

/-- A finite real comes back right just where it is in range. -/
theorem rounded_back_iff (w : BitVec 64) : Rounded w (back w) ↔ InRange w := by
  have hback := toNat_back w
  have hw := w.isLt
  rcases floatIndex_cases (magnitude w) with ⟨hlow, hzero⟩ | ⟨hlow, hleast, hlast, hinf⟩
  · rw [if_pos hzero] at hback
    have hmag : magnitude (back w) = 0 := by rw [magnitude, hback, Nat.zero_mod]
    have hside : ∀ {i}, Nearest floatWorth floatInfinity (worth 52 (magnitude w)) i →
        (i ≤ 2 ^ 23 - 1 ↔ magnitude w < 897 * 2 ^ 52 - 2 ^ 29) := by
      intro i hi
      have hhalf : _ = _ + floatWorth (2 ^ 23 - 1 + 1) := real_halfway
      have hgrows : worth 52 (magnitude w) < worth 52 (897 * 2 ^ 52 - 2 ^ 29) ↔ _ :=
        (worth_strictMono 52).lt_iff_lt
      rw [hi.le_iff floatWorth_strictMono (by decide) (by decide), ← hhalf, ← hgrows]
      omega
    constructor
    · rintro ⟨i, hi, hright⟩
      refine ⟨by omega, ?_⟩
      rintro ⟨hge, -⟩
      have hnormal : ¬ i < 2 ^ 23 := by
        have := hside hi
        omega
      rw [if_neg hnormal, hmag, worth_zero] at hright
      have hpos : 0 < floatWorth i :=
        Nat.lt_of_le_of_lt (Nat.zero_le _) (floatWorth_strictMono (by omega : 0 < i))
      split at hright
      · exact absurd hright.2 (by decide)
      · omega
    · rintro ⟨-, hsliver⟩
      obtain ⟨i, hi⟩ := exists_nearest (x := worth 52 (magnitude w)) floatWorth_strictMono floatInfinity (by
        rw [floatWorth, narrow_zero]
        exact Nat.zero_le _)
      have := hside hi
      exact ⟨i, hi, by rw [if_pos (by omega)]; exact hmag⟩
  · rw [if_neg (by omega)] at hback
    have hnear := nearest_floatIndex hlow
    have hmag : magnitude (back w) = floatIndex (magnitude w) * 2 ^ 29 + 896 * 2 ^ 52 := by
      rw [magnitude, hback]
      omega
    constructor
    · rintro ⟨i, hi, hright⟩
      obtain rfl := hi.unique hnear floatWorth_strictMono
      refine ⟨?_, by omega⟩
      by_contra hover
      have hend : floatIndex (magnitude w) = floatInfinity := hinf.mpr (by omega)
      rw [if_neg (by omega), if_pos hend, hmag, hend] at hright
      exact absurd hright.2 (by decide)
    · rintro ⟨hunder, -⟩
      refine ⟨_, hnear, ?_⟩
      have hne : floatIndex (magnitude w) ≠ floatInfinity := fun heq => by
        have := hinf.mp heq
        omega
      rw [if_neg (by omega), if_neg hne]
      refine ⟨?_, ?_⟩
      · rw [BitVec.msb_eq_decide, BitVec.msb_eq_decide, hback]
        exact decide_eq_decide.mpr (by omega)
      · exact (congrArg (worth 52) hmag).trans (worth_narrow (k := 29) (b := 896) hleast)

end ChrysaLisp.Shader
