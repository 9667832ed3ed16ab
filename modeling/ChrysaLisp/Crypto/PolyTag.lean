import ChrysaLisp.Crypto.Poly1305
import ChrysaLisp.Library.Bits
import Mathlib.Algebra.BigOperators.Ring.Finset
import Mathlib.Data.Nat.ModEq

set_option autoImplicit false

/-! # The tag is the one there is to be

Between blocks each part of `h` but the second is of 26 bits, and that one not much above
(`Limbs.Carried`), and with that no product or sum of a block comes near 64 bits. A block is then a step
of the sum, in the numbers below the prime (`polyBlock_spec`); a message cut in any way comes to the sum of
its whole blocks, with what is left of it (`Ctx.Holds`); and the last carry, the one subtraction of the
prime and the four words make of that the tag (`poly1305_eq`). -/

namespace ChrysaLisp.Poly1305

open Bytes Checked

/-! ## Shifts and masks -/

theorem and_mask (n : ℕ) : n &&& mask = n % 2 ^ 26 := Nat.and_two_pow_sub_one_eq_mod n 26

theorem and_word32 (n : ℕ) : n &&& 0xffffffff = n % 2 ^ 32 := Nat.and_two_pow_sub_one_eq_mod n 32

/-- 128 bits, cut, are what they were. -/
theorem cut_spec {lo hi : ℕ} (hlo : lo < 2 ^ 64) (hhi : hi < 2 ^ 64) :
    (Limbs.cut lo hi).value = lo + 2 ^ 64 * hi ∧ (Limbs.cut lo hi).x0 < 2 ^ 26 ∧
      (Limbs.cut lo hi).x1 < 2 ^ 26 ∧ (Limbs.cut lo hi).x2 < 2 ^ 26 ∧ (Limbs.cut lo hi).x3 < 2 ^ 26 ∧
      (Limbs.cut lo hi).x4 < 2 ^ 24 := by
  have hshift : (hi <<< 12) % word = (hi % 2 ^ 52) <<< 12 := by
    rw [Nat.shiftLeft_eq, Nat.shiftLeft_eq, ← Nat.mul_mod_mul_right]
    rfl
  have hor : (lo >>> 52) ||| ((hi <<< 12) % word) = lo / 2 ^ 52 + 2 ^ 12 * (hi % 2 ^ 52) := by
    have hlow : lo >>> 52 < 2 ^ 12 := by
      rw [Nat.shiftRight_eq_div_pow]
      omega
    rw [hshift, Nat.or_comm, Bits.or_shiftLeft _ hlow, Nat.shiftRight_eq_div_pow]
  unfold Limbs.value Limbs.cut
  simp only
  rw [hor]
  simp only [and_mask, Nat.shiftRight_eq_div_pow]
  refine ⟨?_, ?_, ?_, ?_, ?_, ?_⟩
  all_goals omega

/-- What a block's two halves are, of what is at the head of the data. -/
theorem getLong_halves {data : Str} (h : 16 ≤ data.length) :
    getLong data 0 + 2 ^ 64 * getLong data 8 = ofBytes (data.take 16) := by
  have hsplit : data.take 16 = data.take 8 ++ (data.drop 8).take 8 := List.take_add (i := 8) (j := 8)
  have hlen : (data.take 8).length = 8 := by
    rw [List.length_take]
    omega
  rw [hsplit, ofBytes_append, hlen]
  rfl

theorem getLong_lt (s : Str) (at' : ℕ) : getLong s at' < 2 ^ 64 := by
  have hlen : ((s.drop at').take 8).length ≤ 8 := List.length_take_le 8 _
  exact (ofBytes_lt _).trans_le (Nat.pow_le_pow_right (by decide) hlen)

/-! ## A block -/

/-- Of `h` between blocks. -/
structure Limbs.Carried (x : Limbs) : Prop where
  x0 : x.x0 < 2 ^ 26
  x1 : x.x1 < 2 ^ 26 + 2 ^ 25
  x2 : x.x2 < 2 ^ 26
  x3 : x.x3 < 2 ^ 26
  x4 : x.x4 < 2 ^ 26

/-- Of `h` and a block, and of `r`. -/
structure Limbs.Below (b : ℕ) (x : Limbs) : Prop where
  x0 : x.x0 < b
  x1 : x.x1 < b
  x2 : x.x2 < b
  x3 : x.x3 < b
  x4 : x.x4 < b

/-- The state of a key. -/
structure State.Keyed (r : ℕ) (st : State) : Prop where
  h : st.h.Carried
  value : st.r.value = r
  r : st.r.Below (2 ^ 26)
  s1 : st.s1 = st.r.x1 * 5
  s2 : st.s2 = st.r.x2 * 5
  s3 : st.s3 = st.r.x3 * 5
  s4 : st.s4 = st.r.x4 * 5

theorem addBlock_spec {h : Limbs} (hh : h.Carried) (data : Str) {top : ℕ} (htop : top ≤ 1) :
    ∃ h', addBlock h data top = some h' ∧ h'.Below (2 ^ 28) ∧
      h'.value = h.value + (getLong data 0 + 2 ^ 64 * getLong data 8) + top * 2 ^ 128 := by
  obtain ⟨hvalue, hx0, hx1, hx2, hx3, hx4⟩ := cut_spec (getLong_lt data 0) (getLong_lt data 8)
  obtain ⟨h0, h1, h2, h3, h4⟩ := hh
  rw [← hvalue]
  unfold addBlock
  generalize Limbs.cut (getLong data 0) (getLong data 8) = m at *
  have hshift : top <<< 24 = top * 2 ^ 24 := Nat.shiftLeft_eq top 24
  refine ⟨⟨h.x0 + m.x0, h.x1 + m.x1, h.x2 + m.x2, h.x3 + m.x3, h.x4 + m.x4 + top <<< 24⟩, ?_, ?_, ?_⟩
  · have hfit0 : fit word (h.x0 + m.x0) = some (h.x0 + m.x0) := fit_of_lt (by unfold word; omega)
    have hfit1 : fit word (h.x1 + m.x1) = some (h.x1 + m.x1) := fit_of_lt (by unfold word; omega)
    have hfit2 : fit word (h.x2 + m.x2) = some (h.x2 + m.x2) := fit_of_lt (by unfold word; omega)
    have hfit3 : fit word (h.x3 + m.x3) = some (h.x3 + m.x3) := fit_of_lt (by unfold word; omega)
    have hfit4 : fit word (h.x4 + m.x4) = some (h.x4 + m.x4) := fit_of_lt (by unfold word; omega)
    have hfit5 : fit word (h.x4 + m.x4 + top <<< 24) = some (h.x4 + m.x4 + top <<< 24) :=
      fit_of_lt (by unfold word; omega)
    simp [hfit0, hfit1, hfit2, hfit3, hfit4, hfit5]
  · constructor
    all_goals simp only
    all_goals omega
  · unfold Limbs.value
    simp only
    omega

/-- What comes back in at the bottom, of `h` times `r`: what would go above 130 bits. -/
def above (h r : Limbs) : ℕ :=
  (h.x1 * r.x4 + h.x2 * r.x3 + h.x3 * r.x2 + h.x4 * r.x1)
    + 2 ^ 26 * (h.x2 * r.x4 + h.x3 * r.x3 + h.x4 * r.x2)
    + 2 ^ 52 * (h.x3 * r.x4 + h.x4 * r.x3) + 2 ^ 78 * (h.x4 * r.x4)

theorem mulBlock_spec {st : State} {r : ℕ} (hst : st.Keyed r) {h : Limbs} (hh : h.Below (2 ^ 28)) :
    ∃ d, mulBlock st h = some d ∧ d.Below (2 ^ 60) ∧
      h.value * r = d.value + prime * above h st.r := by
  obtain ⟨-, hr, hrb, hs1, hs2, hs3, hs4⟩ := hst
  obtain ⟨hh0, hh1, hh2, hh3, hh4⟩ := hh
  obtain ⟨hr0, hr1, hr2, hr3, hr4⟩ := hrb
  -- each of the five is of five products of such numbers
  have hdot : ∀ l : List (ℕ × ℕ), l.length = 5 → (∀ p ∈ l, p.1 ≤ 2 ^ 28 ∧ p.2 ≤ 2 ^ 29) →
      ∃ d, dot word 0 l = some d ∧ d < 2 ^ 60 ∧ d = dotSum l := by
    intro l hlen hl
    have hle := dotSum_le hl
    rw [hlen] at hle
    have hlt : dotSum l < 2 ^ 60 := hle.trans_lt (by decide)
    have heq : dot word 0 l = some (0 + dotSum l) :=
      dot_eq l 0 (by rw [Nat.zero_add]; exact hlt.trans (by decide))
    rw [Nat.zero_add] at heq
    exact ⟨_, heq, hlt, rfl⟩
  obtain ⟨d0, hdot0, hlt0, hd0⟩ := hdot
    [(h.x0, st.r.x0), (h.x1, st.s4), (h.x2, st.s3), (h.x3, st.s2), (h.x4, st.s1)] rfl
    (by simp only [List.forall_mem_cons]; simp; omega)
  obtain ⟨d1, hdot1, hlt1, hd1⟩ := hdot
    [(h.x0, st.r.x1), (h.x1, st.r.x0), (h.x2, st.s4), (h.x3, st.s3), (h.x4, st.s2)] rfl
    (by simp only [List.forall_mem_cons]; simp; omega)
  obtain ⟨d2, hdot2, hlt2, hd2⟩ := hdot
    [(h.x0, st.r.x2), (h.x1, st.r.x1), (h.x2, st.r.x0), (h.x3, st.s4), (h.x4, st.s3)] rfl
    (by simp only [List.forall_mem_cons]; simp; omega)
  obtain ⟨d3, hdot3, hlt3, hd3⟩ := hdot
    [(h.x0, st.r.x3), (h.x1, st.r.x2), (h.x2, st.r.x1), (h.x3, st.r.x0), (h.x4, st.s4)] rfl
    (by simp only [List.forall_mem_cons]; simp; omega)
  obtain ⟨d4, hdot4, hlt4, hd4⟩ := hdot
    [(h.x0, st.r.x4), (h.x1, st.r.x3), (h.x2, st.r.x2), (h.x3, st.r.x1), (h.x4, st.r.x0)] rfl
    (by simp only [List.forall_mem_cons]; simp; omega)
  refine ⟨⟨d0, d1, d2, d3, d4⟩, ?_, ⟨hlt0, hlt1, hlt2, hlt3, hlt4⟩, ?_⟩
  · unfold mulBlock
    simp only [hdot0, hdot1, hdot2, hdot3, hdot4, Option.bind_eq_bind, Option.bind_some]
    rfl
  · have hprime : prime + 5 = 2 ^ 130 := by decide
    rw [← hr]
    unfold Limbs.value above
    simp only [hd0, hd1, hd2, hd3, hd4, dotSum_cons, dotSum_nil, hs1, hs2, hs3, hs4]
    zify at hprime ⊢
    have hp : (prime : ℤ) = 2 ^ 130 - 5 := by omega
    rw [hp]
    ring

theorem carryBlock_spec {d : Limbs} (hd : d.Below (2 ^ 60)) :
    ∃ h t, carryBlock d = some h ∧ h.Carried ∧ d.value = h.value + prime * t := by
  obtain ⟨h0, h1, h2, h3, h4⟩ := hd
  unfold carryBlock
  simp only [and_mask, Nat.shiftRight_eq_div_pow, Nat.shiftLeft_eq]
  obtain ⟨c0, hc0⟩ : ∃ c, c = d.x0 / 2 ^ 26 := ⟨_, rfl⟩
  have hfit1 : fit word (d.x1 + d.x0 / 2 ^ 26) = some (d.x1 + d.x0 / 2 ^ 26) :=
    fit_of_lt (by unfold word; omega)
  obtain ⟨d1, hd1⟩ : ∃ d1, d1 = d.x1 + d.x0 / 2 ^ 26 := ⟨_, rfl⟩
  rw [hfit1]
  simp only [Option.bind_eq_bind, Option.bind_some, ← hd1]
  have hfit2 : fit word (d.x2 + d1 / 2 ^ 26) = some (d.x2 + d1 / 2 ^ 26) :=
    fit_of_lt (by unfold word; omega)
  obtain ⟨d2, hd2⟩ : ∃ d2, d2 = d.x2 + d1 / 2 ^ 26 := ⟨_, rfl⟩
  rw [hfit2]
  simp only [Option.bind_some, ← hd2]
  have hfit3 : fit word (d.x3 + d2 / 2 ^ 26) = some (d.x3 + d2 / 2 ^ 26) :=
    fit_of_lt (by unfold word; omega)
  obtain ⟨d3, hd3⟩ : ∃ d3, d3 = d.x3 + d2 / 2 ^ 26 := ⟨_, rfl⟩
  rw [hfit3]
  simp only [Option.bind_some, ← hd3]
  have hfit4 : fit word (d.x4 + d3 / 2 ^ 26) = some (d.x4 + d3 / 2 ^ 26) :=
    fit_of_lt (by unfold word; omega)
  obtain ⟨d4, hd4⟩ : ∃ d4, d4 = d.x4 + d3 / 2 ^ 26 := ⟨_, rfl⟩
  rw [hfit4]
  simp only [Option.bind_some, ← hd4]
  -- what is above the last is some 35 bits
  obtain ⟨t, ht⟩ : ∃ t, t = d4 / 2 ^ 26 := ⟨_, rfl⟩
  have htlt : t < 2 ^ 35 := by omega
  have hfive : t * 2 ^ 2 % word + t = 5 * t := by
    unfold word
    omega
  have hfit5 : fit word (t * 2 ^ 2 % word + t) = some (5 * t) := by
    rw [hfive]
    exact fit_of_lt (by unfold word; omega)
  rw [← ht, hfit5]
  simp only [Option.bind_some]
  have hfit6 : fit word (d.x0 % 2 ^ 26 + 5 * t) = some (d.x0 % 2 ^ 26 + 5 * t) :=
    fit_of_lt (by unfold word; omega)
  obtain ⟨e0, he0⟩ : ∃ e0, e0 = d.x0 % 2 ^ 26 + 5 * t := ⟨_, rfl⟩
  rw [hfit6]
  simp only [Option.bind_some, ← he0]
  have hfit7 : fit word (d1 % 2 ^ 26 + e0 / 2 ^ 26) = some (d1 % 2 ^ 26 + e0 / 2 ^ 26) :=
    fit_of_lt (by unfold word; omega)
  rw [hfit7]
  refine ⟨⟨e0 % 2 ^ 26, d1 % 2 ^ 26 + e0 / 2 ^ 26, d2 % 2 ^ 26, d3 % 2 ^ 26, d4 % 2 ^ 26⟩, t, rfl, ?_, ?_⟩
  · constructor
    all_goals simp only
    all_goals omega
  · unfold Limbs.value prime
    simp only
    omega

/-- A block is a step of the sum, in the numbers below the prime. -/
theorem polyBlock_spec {st : State} {r : ℕ} (hst : st.Keyed r) (data : Str) {top : ℕ} (htop : top ≤ 1) :
    ∃ st', polyBlock st data top = some st' ∧ st'.Keyed r ∧
      st'.h.value ≡ (st.h.value + (getLong data 0 + 2 ^ 64 * getLong data 8) + top * 2 ^ 128) * r
        [MOD prime] := by
  obtain ⟨h, hadd, hbelow, hvalue⟩ := addBlock_spec hst.h data htop
  obtain ⟨d, hmul, hdbelow, hproduct⟩ := mulBlock_spec hst hbelow
  obtain ⟨h', t, hcarry, hcarried, hsum⟩ := carryBlock_spec hdbelow
  refine ⟨{ st with h := h' }, ?_, { hst with h := hcarried }, ?_⟩
  · unfold polyBlock
    simp only [hadd, hmul, hcarry, Option.bind_eq_bind, Option.bind_some]
    rfl
  · rw [← hvalue, hproduct, hsum]
    have hzero : prime * t + prime * above h st.r ≡ 0 [MOD prime] := by
      rw [← Nat.mul_add]
      exact (Nat.modEq_zero_iff_dvd).mpr (Nat.dvd_mul_right _ _)
    have hadd := (Nat.ModEq.refl (n := prime) h'.value).add hzero
    rw [Nat.add_zero, ← Nat.add_assoc] at hadd
    exact hadd.symm

/-! ## The blocks of a message -/

/-- The sum after `k` blocks. -/
def polySum (r : ℕ) (m : Str) (k : ℕ) : ℕ := ∑ i ∈ Finset.range k, blockValue (block m i) * r ^ (k - i)

theorem polySum_succ (r : ℕ) (m : Str) (k : ℕ) :
    polySum r m (k + 1) = (polySum r m k + blockValue (block m k)) * r := by
  unfold polySum
  rw [Finset.sum_range_succ, Nat.add_mul, Finset.sum_mul]
  congr 1
  · refine Finset.sum_congr rfl (fun i hi => ?_)
    rw [Nat.succ_sub (Finset.mem_range.mp hi).le, pow_succ, mul_assoc]
  · rw [Nat.add_sub_cancel_left, pow_one]

/-- Whole blocks are the same whatever comes after. -/
theorem polySum_append (r : ℕ) {m : Str} (d : Str) {k : ℕ} (h : 16 * k ≤ m.length) :
    polySum r (m ++ d) k = polySum r m k := by
  refine Finset.sum_congr rfl (fun i hi => ?_)
  have hi := Finset.mem_range.mp hi
  have hblock : block (m ++ d) i = block m i := by
    unfold block
    rw [List.drop_append_of_le_length (by omega), List.take_append_of_le_length]
    rw [List.length_drop]
    omega
  rw [hblock]

/-- A whole block, at the head of what is left of the message. -/
theorem blockValue_whole {m : Str} {k : ℕ} (h : 16 * (k + 1) ≤ m.length) :
    blockValue (block m k) = getLong (m.drop (16 * k)) 0 + 2 ^ 64 * getLong (m.drop (16 * k)) 8
      + 1 * 2 ^ 128 := by
  have hdata : 16 ≤ (m.drop (16 * k)).length := by
    rw [List.length_drop]
    omega
  have hlen : (block m k).length = 16 := by
    unfold block
    rw [List.length_take]
    omega
  unfold blockValue
  rw [hlen, getLong_halves hdata, one_mul]
  rfl

/-- Whole blocks, from the `k`-th on. -/
theorem polyLoop_spec {r : ℕ} (m : Str) (count : ℕ) : ∀ {st : State} {k : ℕ}, st.Keyed r →
    st.h.value ≡ polySum r m k [MOD prime] → 16 * (k + count) ≤ m.length →
    ∃ st', polyLoop 1 count st (m.drop (16 * k)) = some st' ∧ st'.Keyed r ∧
      st'.h.value ≡ polySum r m (k + count) [MOD prime] := by
  induction count with
  | zero =>
      intro st k hst hsum _
      exact ⟨st, rfl, hst, hsum⟩
  | succ count ih =>
      intro st k hst hsum hlen
      obtain ⟨st', hblock, hst', hstep⟩ := polyBlock_spec hst (m.drop (16 * k)) le_rfl
      have hnext : st'.h.value ≡ polySum r m (k + 1) [MOD prime] := by
        rw [polySum_succ, blockValue_whole (by omega)]
        refine hstep.trans (Nat.ModEq.mul_right r ?_)
        rw [Nat.add_assoc]
        exact hsum.add_right _
      obtain ⟨st'', hloop, hst'', hlast⟩ := ih hst' hnext (by omega)
      refine ⟨st'', ?_, hst'', ?_⟩
      · rw [polyLoop, hblock]
        simp only [Option.bind_eq_bind, Option.bind_some]
        rwa [List.drop_drop, Nat.mul_succ] at *
      · rwa [Nat.add_right_comm] at hlast

/-- The blocks of one call and then those of another. -/
theorem polyLoop_add (top a b : ℕ) : ∀ (st : State) (data : Str), polyLoop top (a + b) st data =
    (polyLoop top a st data).bind (fun st => polyLoop top b st (data.drop (a * 16))) := by
  induction a with
  | zero => simp [polyLoop]
  | succ a ih =>
      intro st data
      rw [Nat.succ_add, polyLoop, polyLoop]
      cases polyBlock st data top with
      | none => rfl
      | some st' =>
          simp only [Option.bind_eq_bind, Option.bind_some]
          rw [ih, List.drop_drop, Nat.succ_mul, Nat.add_comm 16]

/-- So many blocks at a time come to the same. -/
theorem addLoop_eq (data : Str) (blocks : ℕ) : ∀ (at' : ℕ) (st : State),
    at' + blocks * 16 ≤ data.length → addLoop data blocks at' st = polyLoop 1 blocks st (data.drop at') := by
  induction blocks using Nat.strong_induction_on with
  | _ blocks ih =>
      intro at' st hlen
      rw [addLoop]
      split_ifs with hpos
      · have hslice : 0 < polySlice := by decide
        have hfits : at' + (min blocks polySlice) <<< 4 ≤ data.length := by
          rw [Nat.shiftLeft_eq]
          omega
        have hsum : min blocks polySlice + (blocks - min blocks polySlice) = blocks := by omega
        have hall := polyLoop_add 1 (min blocks polySlice) (blocks - min blocks polySlice) st (data.drop at')
        rw [hsum] at hall
        have hblocks : polyBlocks st data at' (min blocks polySlice) 1
            = polyLoop 1 (min blocks polySlice) st (data.drop at') := if_pos hfits
        show (polyBlocks st data at' (min blocks polySlice) 1).bind _ = _
        rw [hall, hblocks]
        refine congrArg _ (funext fun st' => ?_)
        rw [ih _ (by omega) _ st' (by omega), List.drop_drop]
      · obtain rfl : blocks = 0 := by omega
        rfl

/-! ## A message in parts -/

/-- The tag of a key has `m` in it. -/
structure Ctx.Holds (key m : Str) (ctx : Ctx) : Prop where
  state : ctx.state.Keyed (clamp key)
  sum : ctx.state.h.value ≡ polySum (clamp key) m (m.length / 16) [MOD prime]
  pending : ctx.pending = m.drop (16 * (m.length / 16))
  pad : ctx.pad = key.drop 16

/-- The bits of two numbers, one above the other, that are in a mask. -/
theorem and_halves {a a' : ℕ} (b b' : ℕ) (ha : a < 2 ^ 64) (ha' : a' < 2 ^ 64) :
    (a + 2 ^ 64 * b) &&& (a' + 2 ^ 64 * b') = (a &&& a') + 2 ^ 64 * (b &&& b') := by
  have hand : a &&& a' < 2 ^ 64 := Nat.and_lt_two_pow a ha'
  refine Nat.eq_of_testBit_eq (fun j => ?_)
  rw [Nat.testBit_and, Nat.add_comm a, Nat.add_comm a', Nat.add_comm (a &&& a'),
    Nat.testBit_two_pow_mul_add _ ha, Nat.testBit_two_pow_mul_add _ ha',
    Nat.testBit_two_pow_mul_add _ hand]
  split_ifs
  · rw [Nat.testBit_and]
  · rw [Nat.testBit_and]

theorem carried_zero : (⟨0, 0, 0, 0, 0⟩ : Limbs).Carried := by
  constructor
  all_goals decide

theorem polyStart_spec {key : Str} (hkey : key.length = 32) :
    ∃ ctx, polyStart key = some ctx ∧ ctx.Holds key [] := by
  have hclamp : clamp key = (getLong key 0 &&& 0x0ffffffc0fffffff)
      + 2 ^ 64 * (getLong key 8 &&& 0x0ffffffc0ffffffc) := by
    unfold clamp
    rw [← getLong_halves (by omega), ← and_halves _ _ (getLong_lt key 0) (by decide)]
    rfl
  have hlo : getLong key 0 &&& 0x0ffffffc0fffffff < 2 ^ 64 := Nat.and_lt_two_pow _ (by decide)
  have hhi : getLong key 8 &&& 0x0ffffffc0ffffffc < 2 ^ 64 := Nat.and_lt_two_pow _ (by decide)
  obtain ⟨hvalue, hx0, hx1, hx2, hx3, hx4⟩ := cut_spec hlo hhi
  rw [← hclamp] at hvalue
  have htake : (key.drop 16).take 16 = key.drop 16 :=
    List.take_of_length_le (by rw [List.length_drop]; omega)
  unfold polyStart
  rw [if_pos hkey]
  refine ⟨_, rfl, ⟨carried_zero, hvalue,
    ⟨hx0, hx1, hx2, hx3, hx4.trans (by decide)⟩, rfl, rfl, rfl, rfl⟩, ?_, rfl, htake⟩
  rfl

/-- A part more. -/
theorem polyAdd_spec {key m : Str} {ctx : Ctx} (hctx : ctx.Holds key m) (data : Str) :
    ∃ ctx', polyAdd ctx data = some ctx' ∧ ctx'.Holds key (m ++ data) := by
  have hdata : (if ctx.pending ≠ [] then ctx.pending ++ data else data)
      = (m ++ data).drop (16 * (m.length / 16)) := by
    rw [List.drop_append_of_le_length (by omega), ← hctx.pending]
    split_ifs with hpending
    · rfl
    · rw [not_not.mp hpending, List.nil_append]
  have hlen : ((m ++ data).drop (16 * (m.length / 16))).length
      = (m ++ data).length - 16 * (m.length / 16) := List.length_drop
  have hall : (m ++ data).length = m.length + data.length := List.length_append
  have hblocks : m.length / 16 + ((m ++ data).drop (16 * (m.length / 16))).length / 16
      = (m ++ data).length / 16 := by
    rw [hlen]
    omega
  have hsum : ctx.state.h.value ≡ polySum (clamp key) (m ++ data) (m.length / 16) [MOD prime] := by
    rw [polySum_append _ _ (by omega)]
    exact hctx.sum
  obtain ⟨st, hloop, hst, hlast⟩ := polyLoop_spec (m ++ data)
    (((m ++ data).drop (16 * (m.length / 16))).length / 16) hctx.state hsum (by rw [hblocks]; omega)
  have hadd : addLoop ((m ++ data).drop (16 * (m.length / 16)))
      (((m ++ data).drop (16 * (m.length / 16))).length / 16) 0 ctx.state = some st := by
    rw [addLoop_eq _ _ _ _ (by omega), List.drop_zero]
    exact hloop
  refine ⟨⟨st, ((m ++ data).drop (16 * (m.length / 16))).drop
    (((m ++ data).drop (16 * (m.length / 16))).length / 16 * 16), ctx.pad⟩, ?_, hst, ?_, ?_, hctx.pad⟩
  · unfold polyAdd
    simp only [hdata, hadd, Option.bind_eq_bind, Option.bind_some]
    rfl
  · rw [hblocks] at hlast
    exact hlast
  · rw [List.drop_drop, ← hblocks, Nat.mul_add, Nat.mul_comm _ 16]

theorem polyAdds_spec {key : Str} (parts : List Str) : ∀ {m : Str} {ctx : Ctx}, ctx.Holds key m →
    ∃ ctx', polyAdds ctx parts = some ctx' ∧ ctx'.Holds key (m ++ parts.flatten) := by
  induction parts with
  | nil =>
      intro m ctx hctx
      refine ⟨ctx, rfl, ?_⟩
      rwa [List.flatten_nil, List.append_nil]
  | cons data rest ih =>
      intro m ctx hctx
      obtain ⟨ctx', hadd, hctx'⟩ := polyAdd_spec hctx data
      obtain ⟨ctx'', hadds, hctx''⟩ := ih hctx'
      refine ⟨ctx'', ?_, ?_⟩
      · rw [polyAdds, hadd]
        exact hadds
      · rwa [List.flatten_cons, ← List.append_assoc]

/-! ## The end -/

/-- What is left of the message is its last block, where there is any. -/
theorem lastBlock_spec {key m : Str} {ctx : Ctx} (hctx : ctx.Holds key m) :
    ∃ st, lastBlock ctx = some st ∧ st.h.Carried ∧
      st.h.value ≡ polySum (clamp key) m (blockCount m) [MOD prime] := by
  have hlen : ctx.pending.length = m.length - 16 * (m.length / 16) := by
    rw [hctx.pending, List.length_drop]
  unfold lastBlock blockCount
  split_ifs with hpending
  · have hpos : 0 < ctx.pending.length := List.length_pos_iff.mpr hpending
    obtain ⟨data, hdata⟩ :
        ∃ data, data = ctx.pending ++ [1] ++ zeros.take (15 - ctx.pending.length) := ⟨_, rfl⟩
    have hdatalen : data.length = 16 := by
      rw [hdata, List.length_append, List.length_append, List.length_take]
      simp only [zeros, List.length_replicate, List.length_cons, List.length_nil]
      omega
    have hvalue : getLong data 0 + 2 ^ 64 * getLong data 8 = blockValue ctx.pending := by
      rw [getLong_halves hdatalen.ge, List.take_of_length_le hdatalen.le, hdata]
      unfold zeros blockValue
      rw [List.take_replicate, List.append_assoc, ofBytes_append, List.singleton_append, ofBytes_cons,
        ofBytes_replicate_zero]
      simp
    obtain ⟨st, hblock, hst, hstep⟩ := polyBlock_spec hctx.state data (Nat.zero_le 1)
    refine ⟨st, ?_, hst.h, ?_⟩
    · rw [← hdata, polyBlocks, if_pos (by rw [hdatalen]; decide), List.drop_zero, polyLoop, hblock]
      rfl
    · have hcount : (m.length + 15) / 16 = m.length / 16 + 1 := by omega
      have hlast : block m (m.length / 16) = ctx.pending := by
        rw [hctx.pending]
        exact List.take_of_length_le (by rw [List.length_drop]; omega)
      rw [hcount, polySum_succ, hlast, ← hvalue]
      refine hstep.trans (Nat.ModEq.mul_right _ ?_)
      rw [Nat.zero_mul, Nat.add_zero]
      exact hctx.sum.add_right _
  · rw [not_not.mp hpending, List.length_nil] at hlen
    have hcount : (m.length + 15) / 16 = m.length / 16 := by omega
    rw [hcount]
    exact ⟨ctx.state, rfl, hctx.state.h, hctx.sum⟩

/-- After the last carry each part is of 26 bits: where one came in at the bottom, the second has become
    small. -/
theorem settle_spec {h : Limbs} (hh : h.Carried) :
    (settle h).Below (2 ^ 26) ∧ (settle h).value ≡ h.value [MOD prime] := by
  obtain ⟨h0, h1, h2, h3, h4⟩ := hh
  unfold settle
  simp only [and_mask, Nat.shiftRight_eq_div_pow]
  obtain ⟨c1, hc1⟩ : ∃ c, c = h.x1 / 2 ^ 26 := ⟨_, rfl⟩
  obtain ⟨c2, hc2⟩ : ∃ c, c = (h.x2 + c1) / 2 ^ 26 := ⟨_, rfl⟩
  obtain ⟨c3, hc3⟩ : ∃ c, c = (h.x3 + c2) / 2 ^ 26 := ⟨_, rfl⟩
  obtain ⟨c4, hc4⟩ : ∃ c, c = (h.x4 + c3) / 2 ^ 26 := ⟨_, rfl⟩
  obtain ⟨c0, hc0⟩ : ∃ c, c = (h.x0 + c4 * 5) / 2 ^ 26 := ⟨_, rfl⟩
  rw [← hc1, ← hc2, ← hc3, ← hc4, ← hc0]
  have hsmall : c4 = 0 ∨ c4 = 1 ∧ h.x1 % 2 ^ 26 < 2 ^ 25 := by omega
  refine ⟨?_, ?_⟩
  · constructor
    all_goals simp only
    all_goals omega
  · have hvalue : h.value = (⟨(h.x0 + c4 * 5) % 2 ^ 26, h.x1 % 2 ^ 26 + c0, (h.x2 + c1) % 2 ^ 26,
        (h.x3 + c2) % 2 ^ 26, (h.x4 + c3) % 2 ^ 26⟩ : Limbs).value + prime * c4 := by
      unfold Limbs.value prime
      simp only
      omega
    rw [hvalue]
    exact ((Nat.ModEq.refl _).add (Nat.modEq_zero_iff_dvd.mpr (Nat.dvd_mul_right prime c4))).symm

/-- Less the prime once is less it as often as it goes. -/
theorem lessPrime_spec {h : Limbs} (hh : h.Below (2 ^ 26)) :
    (lessPrime h).Below (2 ^ 26) ∧ (lessPrime h).value = h.value % prime := by
  obtain ⟨h0, h1, h2, h3, h4⟩ := hh
  have hlt : h.value < 2 * prime := by
    unfold Limbs.value prime
    omega
  have hmod : h.value % prime = if prime ≤ h.value then h.value - prime else h.value := by
    split_ifs with hle
    · rw [Nat.mod_eq_sub_mod hle, Nat.mod_eq_of_lt (by omega)]
    · exact Nat.mod_eq_of_lt (by omega)
  rw [hmod]
  unfold lessPrime
  simp only [and_mask, Nat.shiftRight_eq_div_pow]
  obtain ⟨c0, hc0⟩ : ∃ c, c = (h.x0 + 5) / 2 ^ 26 := ⟨_, rfl⟩
  obtain ⟨c1, hc1⟩ : ∃ c, c = (h.x1 + c0) / 2 ^ 26 := ⟨_, rfl⟩
  obtain ⟨c2, hc2⟩ : ∃ c, c = (h.x2 + c1) / 2 ^ 26 := ⟨_, rfl⟩
  obtain ⟨c3, hc3⟩ : ∃ c, c = (h.x3 + c2) / 2 ^ 26 := ⟨_, rfl⟩
  rw [← hc0, ← hc1, ← hc2, ← hc3]
  -- the number and 5, in parts: it is `2 ^ 130` or more where the last part is `2 ^ 26`
  have hsum : h.value + 5 = (h.x0 + 5) % 2 ^ 26 + 2 ^ 26 * ((h.x1 + c0) % 2 ^ 26)
      + 2 ^ 52 * ((h.x2 + c1) % 2 ^ 26) + 2 ^ 78 * ((h.x3 + c2) % 2 ^ 26) + 2 ^ 104 * (h.x4 + c3) := by
    unfold Limbs.value
    omega
  have hge : prime ≤ h.value ↔ (0 : ℤ) ≤ (h.x4 + c3 : ℕ) - 2 ^ 26 := by
    unfold prime
    omega
  split_ifs with hg hle hle
  · refine ⟨?_, ?_⟩
    · constructor
      all_goals simp only
      all_goals omega
    · have htop : (((h.x4 + c3 : ℕ) : ℤ) - 2 ^ 26).toNat = h.x4 + c3 - 2 ^ 26 := by omega
      rw [htop]
      unfold Limbs.value at hsum ⊢
      unfold prime
      simp only
      omega
  · exact absurd (hge.mpr hg) hle
  · exact absurd (hge.mp hle) hg
  · exact ⟨⟨h0, h1, h2, h3, h4⟩, rfl⟩

/-- The words of a number, less what is above 32 bits of each. -/
def wordsValue : List ℕ → ℕ
  | [] => 0
  | w :: ws => w % 2 ^ 32 + 2 ^ 32 * wordsValue ws

theorem words_spec {h : Limbs} (hh : h.Below (2 ^ 26)) : wordsValue (words h) = h.value % 2 ^ 128 := by
  obtain ⟨h0, h1, h2, h3, h4⟩ := hh
  have hor0 : h.x0 ||| (h.x1 <<< 26) = h.x0 + 2 ^ 26 * h.x1 := by
    rw [Nat.or_comm, Bits.or_shiftLeft _ h0]
  have hor1 : (h.x1 >>> 6) ||| (h.x2 <<< 20) = h.x1 / 2 ^ 6 + 2 ^ 20 * h.x2 := by
    rw [Nat.shiftRight_eq_div_pow, Nat.or_comm, Bits.or_shiftLeft _ (by omega)]
  have hor2 : (h.x2 >>> 12) ||| (h.x3 <<< 14) = h.x2 / 2 ^ 12 + 2 ^ 14 * h.x3 := by
    rw [Nat.shiftRight_eq_div_pow, Nat.or_comm, Bits.or_shiftLeft _ (by omega)]
  have hor3 : (h.x3 >>> 18) ||| (h.x4 <<< 8) = h.x3 / 2 ^ 18 + 2 ^ 8 * h.x4 := by
    rw [Nat.shiftRight_eq_div_pow, Nat.or_comm, Bits.or_shiftLeft _ (by omega)]
  unfold words
  simp only [wordsValue, hor0, hor1, hor2, hor3]
  unfold Limbs.value
  omega

/-- The four sums, each with what is over from the one before, are the one sum. -/
theorem addPad_eq {pad : Str} (ws : List ℕ) : ∀ {i carry : ℕ}, pad.length = 4 * (i + ws.length) →
    addPad pad ws i carry
      = toBytes (4 * ws.length) (wordsValue ws + ofBytes (pad.drop (4 * i)) + carry / 2 ^ 32) := by
  induction ws with
  | nil =>
      intro i carry _
      rfl
  | cons w ws ih =>
      intro i carry hlen
      rw [List.length_cons] at hlen
      have hsplit : pad.drop (4 * i) = (pad.drop (i * 4)).take 4 ++ pad.drop (4 * (i + 1)) := by
        have hdrop : pad.drop (4 * (i + 1)) = (pad.drop (i * 4)).drop 4 := by
          rw [List.drop_drop]
          congr 1
          omega
        rw [hdrop, List.take_append_drop, Nat.mul_comm]
      have hfour : ((pad.drop (i * 4)).take 4).length = 4 := by
        rw [List.length_take, List.length_drop]
        omega
      have hpad : ofBytes (pad.drop (4 * i))
          = getUint pad (i * 4) + 2 ^ 32 * ofBytes (pad.drop (4 * (i + 1))) := by
        rw [hsplit, ofBytes_append, hfour]
        rfl
      unfold addPad
      simp only [and_word32, Nat.shiftRight_eq_div_pow]
      obtain ⟨sum, hsum⟩ : ∃ sum, sum = w % 2 ^ 32 + getUint pad (i * 4) + carry / 2 ^ 32 := ⟨_, rfl⟩
      have hwhole : wordsValue (w :: ws) + ofBytes (pad.drop (4 * i)) + carry / 2 ^ 32
          = sum + 2 ^ 32 * (wordsValue ws + ofBytes (pad.drop (4 * (i + 1)))) := by
        rw [wordsValue, hpad]
        omega
      have hlow : toBytes 4 (sum % 2 ^ 32)
          = toBytes 4 (sum + 2 ^ 32 * (wordsValue ws + ofBytes (pad.drop (4 * (i + 1))))) := by
        rw [← toBytes_mod 4 (sum + _)]
        congr 1
        omega
      have hhigh : wordsValue ws + ofBytes (pad.drop (4 * (i + 1))) + sum / 2 ^ 32
          = (sum + 2 ^ 32 * (wordsValue ws + ofBytes (pad.drop (4 * (i + 1))))) / 256 ^ 4 := by
        omega
      have hcount : 4 * (w :: ws).length = 4 + 4 * ws.length := by
        rw [List.length_cons]
        omega
      rw [← hsum, ih (by omega), hwhole, hlow, hhigh, toBytes_append, hcount]

theorem polyEnd_spec {key m : Str} (hkey : key.length = 32) {ctx : Ctx} (hctx : ctx.Holds key m) :
    polyEnd ctx = some (polyTag key m) := by
  obtain ⟨st, hlast, hcarried, hsum⟩ := lastBlock_spec hctx
  obtain ⟨hsettled, hsettle⟩ := settle_spec hcarried
  obtain ⟨hless, hvalue⟩ := lessPrime_spec hsettled
  have hsum : (lessPrime (settle st.h)).value = polySum (clamp key) m (blockCount m) % prime := by
    rw [hvalue]
    exact hsettle.trans hsum
  have hlen : ctx.pad.length = 4 * (0 + (words (lessPrime (settle st.h))).length) := by
    rw [hctx.pad, List.length_drop, hkey]
    rfl
  unfold polyEnd
  rw [hlast]
  simp only [Option.bind_eq_bind, Option.bind_some]
  rw [addPad_eq _ hlen, words_spec hless, hsum, hctx.pad]
  -- what is over 128 bits is let go, before the key is added or after
  have hmod : ∀ a b : ℕ, toBytes 16 (a % 2 ^ 128 + b) = toBytes 16 ((a + b) % 2 ^ 128) := by
    intro a b
    rw [← toBytes_mod 16 (a % 2 ^ 128 + b), ← toBytes_mod 16 ((a + b) % 2 ^ 128)]
    congr 1
    omega
  exact congrArg some (hmod _ _)

/-- However a message is cut, the tag of it is the one there is to be. -/
theorem poly1305_eq (key : Str) (hkey : key.length = 32) (parts : List Str) :
    poly1305 key parts = some (polyTag key parts.flatten) := by
  obtain ⟨ctx, hstart, hctx⟩ := polyStart_spec hkey
  obtain ⟨ctx', hadds, hctx'⟩ := polyAdds_spec parts hctx
  rw [List.nil_append] at hctx'
  unfold poly1305
  simp only [hstart, hadds, Option.bind_eq_bind, Option.bind_some]
  exact polyEnd_spec hkey hctx'

/-- A message in two parts, cut at no block. -/
theorem poly1305_eq_parts :
    poly1305 (List.replicate 32 255) [asc "Cryptographic Forum", asc " Research Group"]
    = some (polyTag (List.replicate 32 255)
        [asc "Cryptographic Forum", asc " Research Group"].flatten) :=
  poly1305_eq (List.replicate 32 255) (by decide) _

end ChrysaLisp.Poly1305
