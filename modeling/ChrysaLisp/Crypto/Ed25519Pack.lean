import ChrysaLisp.Library.Bytes
import ChrysaLisp.Crypto.Ed25519Field

set_option autoImplicit false

/-! # A number of the field as bytes

Carried three times each part is of 16 bits, so the number is under 2 to the 256, which is twice the prime and
38: with the prime off twice, if it comes off, what is left is less than the prime. -/

namespace ChrysaLisp.Ed25519

open Bignum Radix Bytes

/-! ## The prime off -/

/-- A number less another, and whether it is under 0. -/
theorem offLoop_spec : ∀ {u p : Nums} {b : ℤ}, Digits 65536 u → Digits 65536 p →
    u.length = p.length → u ≠ [] →
    0 ≤ b → b ≤ 1 → ∃ l t, offLoop b (u.zip p) = some (l ++ [t], t / 65536 % 2) ∧ l.length + 1 = u.length ∧
      Digits 65536 l ∧ -65536 ≤ t ∧ t < 65536 ∧ fval (l ++ [t]) = fval u - fval p - b
  | [u], [p], b, hu, hp, _, _, hb0, hb1 => by
      have hu := (digits_cons.mp hu).1
      have hp := (digits_cons.mp hp).1
      refine ⟨[], u - p - b, ?_, rfl, digits_nil, by omega, by omega, ?_⟩
      · rw [List.zip_cons_cons, List.zip_nil_right, offLoop, word_eq (by omega) (by omega),
          Option.bind_eq_bind, Option.bind_some, word_eq (by omega) (by omega)]
        rfl
      · simp only [fval, List.nil_append, value_cons, value_nil, mul_zero, add_zero]
  | u :: u' :: us, p :: p' :: ps, b, hu, hp, hlen, _, hb0, hb1 => by
      obtain ⟨hu0, hus⟩ := digits_cons.mp hu
      obtain ⟨hp0, hps⟩ := digits_cons.mp hp
      obtain ⟨l, t, hloop, hlenl, hdigits, hlo, hhi, hval⟩ :=
        offLoop_spec (b := (u - p - b) / 65536 % 2) hus hps
        (Nat.succ.inj hlen) (List.cons_ne_nil _ _) (by omega) (by omega)
      refine ⟨(u - p - b) % 65536 :: l, t, ?_, by rw [List.length_cons, List.length_cons, hlenl],
        digits_cons.mpr ⟨⟨by omega, by omega⟩, hdigits⟩, hlo, hhi, ?_⟩
      · rw [List.zip_cons_cons, List.zip_cons_cons, offLoop, word_eq (by omega) (by omega),
          Option.bind_eq_bind, Option.bind_some, word_eq (by omega) (by omega), Option.bind_some,
            ← List.zip_cons_cons, hloop]
        · rfl
        · exact fun h => List.cons_ne_nil _ _ h
      · have hl : fval ((u - p - b) % 65536 :: l ++ [t]) =
          (u - p - b) % 65536 + 65536 * fval (l ++ [t]) := rfl
        have hu : fval (u :: u' :: us) = u + 65536 * fval (u' :: us) := rfl
        have hp : fval (p :: p' :: ps) = p + 65536 * fval (p' :: ps) := rfl
        have hborrow : (u - p - b) % 65536 = u - p - b + 65536 * ((u - p - b) / 65536 % 2) := by omega
        rw [hl, hval, hu, hp]
        linear_combination hborrow

theorem fval_edPrime : fval edPrime = prime := by decide +kernel

/-- The prime comes off where there is as much. -/
theorem takeOff_spec {u : Nums} (hlen : u.length = 16) (hu : Digits 65536 u) :
    ∃ r, takeOff u = some r ∧ r.length = 16 ∧ Digits 65536 r ∧
      fval r = if prime ≤ fval u then fval u - prime else fval u := by
  have hp : Digits 65536 edPrime := by
    unfold Digits
    decide +kernel
  obtain ⟨l, t, hloop, hlenl, hdigits, hlo, hhi, hval⟩ := offLoop_spec (b := 0) hu hp (by rw [hlen]; rfl)
    (List.ne_nil_of_length_pos (by rw [hlen]; decide)) le_rfl (by norm_num)
  rw [fval_edPrime, sub_zero, fval, value_top] at hval
  have hlt := hdigits.value_lt (by norm_num)
  have hnonneg := hdigits.value_nonneg (by norm_num)
  have hl15 : l.length = 15 := by omega
  rw [hl15] at hval hlt
  rw [takeOff, hloop, Option.bind_eq_bind, Option.bind_some]
  dsimp only
  by_cases ht : 0 ≤ t
  · have hborrow : t / 65536 % 2 = 0 := by omega
    have hmore : 0 ≤ (65536 : ℤ) ^ 15 * t := mul_nonneg (by norm_num) ht
    refine ⟨l ++ [t], by rw [if_pos hborrow]; rfl, by rw [List.length_append, hl15]; rfl,
      digits_append.mpr ⟨hdigits, digits_cons.mpr ⟨⟨ht, hhi⟩, digits_nil⟩⟩, ?_⟩
    rw [if_pos (by omega), fval, value_top, hl15, hval]
  · have hborrow : ¬t / 65536 % 2 = 0 := by omega
    have hless : (65536 : ℤ) ^ 15 * t ≤ 65536 ^ 15 * (-1) :=
      mul_le_mul_of_nonneg_left (by omega) (by norm_num)
    refine ⟨u, by rw [if_neg hborrow]; rfl, hlen, hu, ?_⟩
    rw [if_neg (by omega)]

/-! ## The bytes -/

/-- Two bytes of each part are the number. -/
theorem ofBytes_parts {u : Nums} (hu : Digits 65536 u) :
    (u.flatMap fun d => [Fin.ofNat 256 (d % 256).toNat, Fin.ofNat 256 (d / 256 % 256).toNat]).length
      = 2 * u.length ∧
    (ofBytes (u.flatMap fun d =>
      [Fin.ofNat 256 (d % 256).toNat, Fin.ofNat 256 (d / 256 % 256).toNat]) : ℤ) = fval u := by
  induction u with
  | nil => exact ⟨rfl, rfl⟩
  | cons d u ih =>
    obtain ⟨⟨h0, h1⟩, hu⟩ := digits_cons.mp hu
    obtain ⟨hlen, hval⟩ := ih hu
    have hlow : ((Fin.ofNat 256 (d % 256).toNat).val : ℤ) = d % 256 := by
      rw [Fin.val_ofNat]
      omega
    have hhigh : ((Fin.ofNat 256 (d / 256 % 256).toNat).val : ℤ) = d / 256 := by
      rw [Fin.val_ofNat]
      omega
    rw [List.flatMap_cons]
    refine ⟨?_, ?_⟩
    · rw [List.length_append, hlen, List.length_cons]
      simp only [List.length_cons, List.length_nil]
      omega
    have hcons : fval (d :: u) = d + 65536 * fval u := rfl
    rw [List.cons_append, List.cons_append, List.nil_append, ofBytes_cons, ofBytes_cons]
    push_cast
    rw [hval, hlow, hhigh, hcons]
    omega

/-- **`ed-pack` gives the value below the prime.** -/
theorem edPack_spec {n : Nums} (hn : Within (2 ^ 26) n) :
    ∃ s, edPack n = some s ∧ s.length = 32 ∧ (ofBytes s : ℤ) = fval n % prime := by
  have hcopy : numsAdd n edZero = some n := by
    have hzip : List.zipWith (· + ·) n edZero = n := by
      refine List.ext_getElem (by rw [List.length_zipWith, hn.length]; rfl) fun i h₁ h₂ => ?_
      simp only [List.getElem_zipWith, edZero, List.getElem_replicate, add_zero]
    rw [numsAdd, if_pos ⟨List.ne_nil_of_length_pos (by rw [hn.length]; decide), by rw [hn.length]; rfl⟩, hzip]
    exact mapM_word fun d hd => by
      have hd := hn.bound d hd
      omega
  obtain ⟨a, ha, hcarried, hval1⟩ := edCar_once ⟨hn.length, fun d hd => by
    have hd := hn.bound d hd
    omega⟩
  obtain ⟨b, hb, htight, hval2⟩ := edCar_twice (by norm_num) (by norm_num) hcarried
  obtain ⟨c, hc, hlenC, hdigits, hval3⟩ := edCar_thrice htight
  obtain ⟨d, hd, hlenD, hdigitsD, hvalD⟩ := takeOff_spec hlenC hdigits
  obtain ⟨e, he, hlenE, hdigitsE, hvalE⟩ := takeOff_spec hlenD hdigitsD
  obtain ⟨hlenS, hvalS⟩ := ofBytes_parts hdigitsE
  refine ⟨_, ?_, by rw [hlenS, hlenE], ?_⟩
  · rw [edPack, hcopy]
    simp only [Option.bind_eq_bind, Option.bind_some, ha, hb, hc, hd, he, Option.pure_def]
  · have hmod : fval n % prime = fval c % prime := (hval3.trans (hval2.trans hval1)).symm
    have hlt := hdigits.value_lt (by norm_num)
    have hnonneg := hdigits.value_nonneg (by norm_num)
    rw [hlenC] at hlt
    norm_num at hlt
    have hfval : fval c = value 65536 c := rfl
    have htwice : fval e = fval c - prime * 2 ∨ fval e = fval c - prime ∨ fval e = fval c := by
      split_ifs at hvalD hvalE <;> omega
    have hbelow : 0 ≤ fval e ∧ fval e < prime := by
      unfold prime at *
      split_ifs at hvalD hvalE <;> omega
    rw [hvalS, hmod, ← Int.emod_eq_of_lt hbelow.1 hbelow.2]
    rcases htwice with h | h | h
    · rw [h, Int.sub_mul_emod_self_left]
    · rw [h, Int.sub_emod_right]
    · rw [h]

end ChrysaLisp.Ed25519
