import ChrysaLisp.Math.BignumReduce
import Mathlib.Data.Int.ModEq

set_option autoImplicit false

/-! # A power mod a number

From the top bit of the exponent down, a square a bit and a product where it is set. What there is after a
turn is the power that the bits so far are, mod the modulus (`powLoop_spec`). An exponent of 0 has no bits,
so there what comes is 1, and of a modulus of 1 too. -/

namespace ChrysaLisp.Bignum

open Radix

/-! ## Bits -/

theorem val_drop {a : Nums} (ha : Digits base a) {n : ℕ} (hn : n ≤ a.length) :
    val a / base ^ n = val (a.drop n) := by
  have hsum := val_append (a.take n) (a.drop n)
  have hlow : Digits base (a.take n) := ha.sublist fun d hd => List.mem_of_mem_take hd
  have hlt : val (a.take n) < base ^ n := by
    have hlt := hlow.value_lt base_pos
    rwa [List.length_take, Nat.min_eq_left hn] at hlt
  have hnonneg : 0 ≤ val (a.take n) := hlow.value_nonneg base_pos
  rw [List.take_append_drop, List.length_take, Nat.min_eq_left hn] at hsum
  rw [hsum, Int.add_mul_ediv_left _ _ (pow_pos base_pos n).ne', Int.ediv_eq_zero_of_lt hnonneg hlt, zero_add]

/-- **A bit of the limbs is one of the number.** -/
theorem bnBit_spec {e : Nums} (he : Num e) (i : ℕ) : bnBit e i = val e / 2 ^ i % 2 := by
  have hsplit : (2 : ℤ) ^ i = base ^ (i / 26) * 2 ^ (i % 26) := by
    have hbase : base = 2 ^ 26 := rfl
    rw [hbase, ← pow_mul, ← pow_add, Nat.div_add_mod]
  have hpos : 0 < base ^ (i / 26) := pow_pos base_pos _
  unfold bnBit
  dsimp only
  by_cases hlimb : i / 26 < e.length
  · have hcons := List.drop_eq_getElem_cons hlimb
    have hlow : i % 26 < 26 := Nat.mod_lt _ (by decide)
    have hbase : base = 2 ^ (i % 26) * (2 * 2 ^ (25 - i % 26)) := by
      rw [← pow_succ', ← pow_add, show i % 26 + (25 - i % 26 + 1) = 26 by omega]
      rfl
    rw [if_pos hlimb, hsplit, ← Int.ediv_ediv_of_nonneg hpos.le, val_drop he.digits hlimb.le, hcons,
      List.getD_eq_getElem e 0 hlimb]
    show e[i / 26] / 2 ^ (i % 26) % 2 = (e[i / 26] + base * val (e.drop (i / 26 + 1))) / 2 ^ (i % 26) % 2
    rw [hbase, mul_assoc, Int.add_mul_ediv_left _ _ (by positivity), mul_assoc, Int.add_mul_emod_self_left]
  · have hle : e.length ≤ i / 26 := not_lt.mp hlimb
    have hlt : val e < 2 ^ i := by
      have hpow : base ^ e.length ≤ base ^ (i / 26) := pow_le_pow_right₀ base_pos hle
      have hone : (1 : ℤ) ≤ 2 ^ (i % 26) := one_le_pow₀ (by norm_num)
      have hmul : base ^ (i / 26) * 1 ≤ base ^ (i / 26) * 2 ^ (i % 26) :=
        mul_le_mul_of_nonneg_left hone hpos.le
      rw [hsplit]
      linarith [he.val_lt]
    rw [if_neg hlimb, Int.ediv_eq_zero_of_lt he.val_nonneg hlt]
    rfl

theorem topLoop_spec (n : ℕ) : ∀ (top : ℤ) (k : ℕ), 0 ≤ top → top < 2 ^ n →
    ∃ j, topLoop (n + 1) top k = some (k + j) ∧ top < 2 ^ j ∧ (top = 0 ↔ j = 0) := by
  induction n with
  | zero =>
      intro top k h0 hlt
      have hz : top = 0 := by
        rw [pow_zero] at hlt
        omega
      subst hz
      exact ⟨0, rfl, by norm_num, by simp⟩
  | succ n ih =>
      intro top k h0 hlt
      rw [topLoop]
      by_cases hpos : 0 < top
      · rw [pow_succ] at hlt
        obtain ⟨j, hj, hltj, -⟩ := ih (top / 2) (k + 1) (by omega) (by omega)
        refine ⟨j + 1, ?_, ?_, by omega⟩
        · rw [if_pos hpos, hj]
          congr 1
          omega
        · rw [pow_succ]
          omega
      · have hz : top = 0 := by omega
        subst hz
        exact ⟨0, rfl, by norm_num, by simp⟩

/-- A number is less than so many bits are, and has none only if it is 0. -/
theorem bnBits_spec {e : Nums} (he : Num e) :
    ∃ n, bnBits e = some n ∧ val e < 2 ^ n ∧ (val e = 0 ↔ n = 0) := by
  obtain ⟨hnum, hval, htrim, -⟩ := bnTrim_spec he
  unfold bnBits
  rw [← hval]
  generalize bnTrim e = x at *
  obtain ⟨l, t, rfl, ht⟩ := htrim
  have hdig := digits_append.mp hnum.digits
  have htop := (digits_cons.mp hdig.2).1
  have hv : val (l ++ [t]) = val l + base ^ l.length * t := value_top l t
  have hl : val l < base ^ l.length := hdig.1.value_lt base_pos
  have hl0 : 0 ≤ val l := hdig.1.value_nonneg base_pos
  have hpl : 0 < base ^ l.length := pow_pos base_pos _
  obtain ⟨j, hj, hltj, hj0⟩ := topLoop_spec 63 _ 0 htop.1 (lt_trans htop.2 (by unfold base; norm_num))
  refine ⟨l.length * 26 + j, ?_, ?_, ?_⟩
  · have hlast : (l ++ [t]).getLast? = some t := by simp
    dsimp only
    rw [hlast, Option.bind_eq_bind, Option.bind_some]
    show (topLoop 64 t 0).bind _ = _
    rw [hj, Option.bind_some, Nat.zero_add, List.length_append, List.length_singleton, Nat.add_sub_cancel]
    rfl
  · have hsplit : (2 : ℤ) ^ (l.length * 26 + j) = base ^ l.length * 2 ^ j := by
      have hbase : base = 2 ^ 26 := rfl
      rw [hbase, ← pow_mul, ← pow_add, mul_comm]
    have hle : base ^ l.length * (t + 1) ≤ base ^ l.length * 2 ^ j := mul_le_mul_of_nonneg_left hltj hpl.le
    rw [hsplit, hv]
    linarith
  · constructor
    · intro h0
      have hmul : 0 ≤ base ^ l.length * t := mul_nonneg hpl.le htop.1
      have ht0 : t = 0 := by
        by_contra hne
        have hle : base ^ l.length * 1 ≤ base ^ l.length * t := mul_le_mul_of_nonneg_left (by omega) hpl.le
        linarith
      have hnil : l = [] := ht.resolve_left (fun hne => hne ht0)
      rw [hnil, hj0.mp ht0]
      rfl
    · intro hn
      have hnil : l = [] := List.length_eq_zero_iff.mp (by omega)
      have ht0 : t = 0 := hj0.mpr (by omega)
      rw [hnil, ht0]
      rfl

/-! ## Powers -/

variable {md : Modulus} {m : ℤ}

/-- What is less than the modulus has no more limbs. -/
theorem IsModulus.length_le (h : IsModulus md m) {r : Nums} (hr : Num r) (htrim : Trimmed r)
    (hlt : val r < m) :
    r.length ≤ md.m.length := by
  by_contra hlen
  have hmore := h.num.lt_of_length hr htrim (not_le.mp hlen)
  rw [h.val_eq] at hmore
  omega

/-- **The power the bits so far are**, a bit more of them a turn. -/
theorem IsModulus.powLoop_spec (h : IsModulus md m) (hlen : md.m.length ≤ 2048) {a e : Nums} (ha : Num a)
    (he : Num e) (i : ℕ) : ∀ {out : Nums}, Num out → Trimmed out → out.length ≤ 2048 →
    val out ≡ val a ^ (val e / 2 ^ i).toNat [ZMOD m] →
    ∃ r, powLoop a e md i out = some r ∧ Num r ∧ val r ≡ val a ^ (val e).toNat [ZMOD m] ∧
      (0 < i → val r < m) ∧ (i = 0 → r = out) := by
  induction i with
  | zero =>
      intro out hout _ _ hpow
      rw [pow_zero, Int.ediv_one] at hpow
      exact ⟨out, rfl, hout, hpow, fun h => absurd h (by decide), fun _ => rfl⟩
  | succ i ih =>
      intro out hout htrim hlenOut hpow
      obtain ⟨s, hs, hnumS, htrimS, hvalS⟩ := h.bnMulmod_spec hout hout hlenOut
      have hltS : val s < m := by
        rw [hvalS]
        exact Int.emod_lt_of_pos _ h.pos
      have hlenS : s.length ≤ 2048 := (h.length_le hnumS htrimS hltS).trans hlen
      have hbit := bnBit_spec he i
      have hq0 : 0 ≤ val e / 2 ^ (i + 1) := Int.ediv_nonneg he.val_nonneg (by positivity)
      have hhalf : val e / 2 ^ (i + 1) = val e / 2 ^ i / 2 := by
        rw [pow_succ, ← Int.ediv_ediv_of_nonneg (by positivity)]
      have hsquare : val s ≡ val a ^ (2 * (val e / 2 ^ (i + 1)).toNat) [ZMOD m] := by
        rw [hvalS, two_mul, pow_add]
        exact (Int.mod_modEq _ _).trans (hpow.mul hpow)
      -- what the bit adds to the exponent
      have hstep : ∃ out', powBit a e md i s = some out' ∧ Num out' ∧ Trimmed out' ∧ val out' < m ∧
          val out' ≡ val a ^ (val e / 2 ^ i).toNat [ZMOD m] := by
        unfold powBit
        by_cases hone : bnBit e i = 1
        · obtain ⟨p, hp, hnumP, htrimP, hvalP⟩ := h.bnMulmod_spec hnumS ha hlenS
          have hexp : (val e / 2 ^ i).toNat = 2 * (val e / 2 ^ (i + 1)).toNat + 1 := by omega
          refine ⟨p, by rw [if_pos hone, hp], hnumP, htrimP, ?_, ?_⟩
          · rw [hvalP]
            exact Int.emod_lt_of_pos _ h.pos
          · rw [hvalP, hexp, pow_succ]
            exact (Int.mod_modEq _ _).trans (hsquare.mul_right _)
        · have hexp : (val e / 2 ^ i).toNat = 2 * (val e / 2 ^ (i + 1)).toNat := by omega
          refine ⟨s, by rw [if_neg hone], hnumS, htrimS, hltS, ?_⟩
          rw [hexp]
          exact hsquare
      obtain ⟨out', hout', hnumO, htrimO, hltO, hpowO⟩ := hstep
      obtain ⟨r, hr, hnumR, hpowR, hltR, hsame⟩ :=
        ih hnumO htrimO ((h.length_le hnumO htrimO hltO).trans hlen) hpowO
      refine ⟨r, ?_, hnumR, hpowR, fun _ => ?_, fun h0 => by omega⟩
      · rw [powLoop, hs, Option.bind_eq_bind, Option.bind_some]
        show (powBit a e md i s).bind _ = _
        rw [hout', Option.bind_some, hr]
      · by_cases hi : 0 < i
        · exact hltR hi
        · rw [hsame (by omega)]
          exact hltO

/-- **`bn-powmod` is the power, mod the modulus**, but for an exponent of 0 and a modulus of 1. -/
theorem IsModulus.bnPowmod_spec (h : IsModulus md m) (hlen : md.m.length ≤ 2048) {a e : Nums} (ha : Num a)
    (he : Num e) (hone : val e ≠ 0 ∨ m ≠ 1) :
    ∃ r, bnPowmod a e md = some r ∧ Num r ∧ val r = val a ^ (val e).toNat % m := by
  obtain ⟨n, hn, hlt, hn0⟩ := bnBits_spec he
  obtain ⟨a', ha', hnumA, htrimA, hvalA⟩ := h.bnMod_spec ha
  have hnum1 : Num [1] := ⟨by simp, by simp [base]⟩
  have hstart : val [1] ≡ val a' ^ (val e / 2 ^ n).toNat [ZMOD m] := by
    have hval1 : val [1] = 1 := by decide +kernel
    rw [Int.ediv_eq_zero_of_lt he.val_nonneg hlt, hval1, Int.toNat_zero, pow_zero]
  obtain ⟨r, hr, hnumR, hpow, hltR, hsame⟩ :=
    h.powLoop_spec hlen hnumA he n hnum1 ⟨[], 1, rfl, .inr rfl⟩ (by simp) hstart
  have hpowA : val r ≡ val a ^ (val e).toNat [ZMOD m] := by
    refine hpow.trans (Int.ModEq.pow _ ?_)
    rw [hvalA]
    exact Int.mod_modEq _ _
  have hltM : val r < m := by
    by_cases hzero : val e = 0
    · rw [hsame (hn0.mp hzero)]
      have hm1 : m ≠ 1 := hone.resolve_left (fun hne => hne hzero)
      have hpos := h.pos
      show 1 + base * 0 < m
      omega
    · exact hltR (Nat.pos_of_ne_zero fun h0 => hzero (hn0.mpr h0))
  refine ⟨r, ?_, hnumR, ?_⟩
  · have hfrom : bnFromNum 1 = some [1] := by decide +kernel
    unfold bnPowmod
    rw [hfrom, Option.bind_eq_bind, Option.bind_some, hn]
    show (bnMod a md).bind _ = _
    rw [ha']
    exact hr
  · rw [← hpowA, Int.emod_eq_of_lt hnumR.val_nonneg hltM]

end ChrysaLisp.Bignum
