import ChrysaLisp.Library.Checked
import ChrysaLisp.Library.Jacobian
import ChrysaLisp.Math.BignumPow
import ChrysaLisp.Crypto.Ecdsa
import Mathlib.Algebra.Field.ZMod

set_option autoImplicit false

/-! # The points add up

The big numbers of a point's coordinates are numbers of the field (`Res`), and what is worked out of them is
what the formulas of the field work out (`ecDbl_spec`, `ecAdd_spec`). So the loop of `ecdsa-verify` has, after
the bits above the i-th, a form of so much of u1 G + u2 Q as these bits are (`jointLoop_spec`). -/

namespace ChrysaLisp.Ecdsa

open Bignum Checked Jacobian

/-! ## Numbers of the field -/

section Res

variable {p : ℕ} {md : Modulus}

/-- A big number less than the prime, for what it is in the field. -/
structure Res (p : ℕ) (a : Nums) (v : ZMod p) : Prop where
  num : Num a
  length_le : a.length ≤ 2048
  lt : val a < p
  cast : (val a : ZMod p) = v

theorem eq_zero_of_bnZero {a : Nums} (ha : Num a) : bnZero a = true ↔ val a = 0 := by
  have hall : bnZero a = true ↔ ∀ d ∈ a, d = 0 := by simp [bnZero]
  rw [hall]
  constructor
  · intro h
    rw [List.eq_replicate_of_mem h]
    exact val_zeros _
  · intro h d hd
    have hval : val a = val (bnZeros a.length) := by rw [h, val_zeros]
    have heq := Radix.Digits.eq_of_value base_pos ha.digits (Radix.digits_replicate_zero base_pos a.length)
      (length_zeros _).symm hval
    rw [heq] at hd
    exact List.eq_of_mem_replicate hd

theorem Res.bnZero_iff {a : Nums} {v : ZMod p} (h : Res p a v) : bnZero a = true ↔ v = 0 := by
  rw [eq_zero_of_bnZero h.num, ← h.cast, ZMod.intCast_zmod_eq_zero_iff_dvd]
  constructor
  · intro h0
    rw [h0]
    exact dvd_zero _
  · intro hdvd
    rw [← Int.emod_eq_of_lt h.num.val_nonneg h.lt]
    exact Int.emod_eq_zero_of_dvd hdvd

variable (h : IsModulus md p) (hlen : md.m.length ≤ 2048)
include h hlen

/-- What is worked out mod the prime is the field's. -/
theorem res_of_mod {r : Nums} {w : ℤ} {v : ZMod p} (hr : Num r ∧ Trimmed r ∧ val r = w % p)
    (hw : (w : ZMod p) = v) : Res p r v := by
  obtain ⟨hnum, htrim, hval⟩ := hr
  have hlt : val r < p := by
    rw [hval]
    exact Int.emod_lt_of_pos _ h.pos
  refine ⟨hnum, (h.length_le hnum htrim hlt).trans hlen, hlt, ?_⟩
  rw [hval, ← hw, ZMod.intCast_mod]

theorem Res.mul {a b : Nums} {v w : ZMod p} (ha : Res p a v) (hb : Res p b w) :
    ∃ r, bnMulmod a b md = some r ∧ Res p r (v * w) := by
  obtain ⟨r, hr, hspec⟩ := h.bnMulmod_spec ha.num hb.num ha.length_le
  refine ⟨r, hr, res_of_mod h hlen hspec ?_⟩
  rw [Int.cast_mul, ha.cast, hb.cast]

theorem Res.add {a b : Nums} {v w : ZMod p} (ha : Res p a v) (hb : Res p b w) :
    ∃ r, bnAddmod a b md = some r ∧ Res p r (v + w) := by
  obtain ⟨r, hr, hspec⟩ := h.bnAddmod_spec ha.num hb.num ha.lt hb.lt
  refine ⟨r, hr, res_of_mod h hlen hspec ?_⟩
  rw [Int.cast_add, ha.cast, hb.cast]

theorem Res.sub {a b : Nums} {v w : ZMod p} (ha : Res p a v) (hb : Res p b w) :
    ∃ r, bnSubmod a b md = some r ∧ Res p r (v - w) := by
  obtain ⟨r, hr, hspec⟩ := h.bnSubmod_spec ha.num hb.num ha.lt hb.lt
  refine ⟨r, hr, res_of_mod h hlen hspec ?_⟩
  rw [Int.cast_sub, ha.cast, hb.cast]

theorem Res.small {a : Nums} {v w : ZMod p} (ha : Res p a v) {k : ℤ} (hk : 0 ≤ k ∧ k ≤ 8)
    (hw : (k : ZMod p) = w) :
    ∃ r, ecSmall a k md = some r ∧ Res p r (v * w) := by
  have hsmall : Small (a.map (· * k)) := by
    intro d hd
    obtain ⟨c, hc, rfl⟩ := List.mem_map.mp hd
    obtain ⟨hc0, hc1⟩ := ha.num.digits c hc
    have hlo : 0 ≤ c * k := mul_nonneg hc0 hk.1
    have hhi : c * k ≤ base * 8 := mul_le_mul hc1.le hk.2 hk.1 base_pos.le
    unfold base at hhi
    unfold most
    omega
  have hval : val (a.map (· * k)) = val a * k := Radix.value_map_mul k a
  have hne : a.map (· * k) ≠ [] := by simpa using ha.num.ne_nil
  obtain ⟨n, hn, hnum, hvaln, -⟩ := bnNorm_spec 0 hne (fun d hd => absurd hd List.not_mem_nil) hsmall
    (by rw [List.drop_zero, hval]; exact mul_nonneg ha.num.val_nonneg hk.1)
  obtain ⟨r, hr, hspec⟩ := h.bnMod_spec hnum
  refine ⟨r, ?_, res_of_mod h hlen hspec ?_⟩
  · rw [ecSmall, numsScale, if_pos ha.num.ne_nil, hsmall.word, Option.bind_eq_bind, Option.bind_some, hn,
      Option.bind_some, hr]
  · rw [hvaln, hval, Int.cast_mul, ha.cast, hw]

end Res

/-! ## Points -/

/-- The triples of big numbers and of the field's. -/
def ResPt (p : ℕ) : Pt → Option (ZMod p × ZMod p × ZMod p) → Prop :=
  Option.Rel fun a v => Res p a.1 v.1 ∧ Res p a.2.1 v.2.1 ∧ Res p a.2.2 v.2.2

/-- Big numbers that are a Jacobian form of a point. -/
def Form (p : ℕ) [Fact p.Prime] {b : ZMod p} (pt : Pt) (P : (curve b).Point) : Prop :=
  ∃ t, ResPt p pt t ∧ IsForm t P

section Points

variable {p : ℕ} [Fact p.Prime] {md : Modulus} (h : IsModulus md p) (hlen : md.m.length ≤ 2048)
include h hlen

/-- **`ec-dbl` is what the formula comes to in the field.** -/
theorem ecDbl_spec {pt : Pt} {t : Option (ZMod p × ZMod p × ZMod p)} (ht : ResPt p pt t) :
    ∃ r, ecDbl pt md = some r ∧ ResPt p r (dbl t) := by
  cases ht with
  | none => exact ⟨none, rfl, .none⟩
  | @some a v hav =>
    obtain ⟨x, y, z⟩ := a
    obtain ⟨vx, vy, vz⟩ := v
    obtain ⟨hx, hy, hz⟩ := hav
    dsimp only at hx hy hz
    rw [ecDbl, dbl]
    by_cases hy0 : vy = 0
    · rw [if_pos (hy.bnZero_iff.mpr hy0), if_pos hy0]
      exact ⟨none, rfl, .none⟩
    · rw [if_neg (mt hy.bnZero_iff.mp hy0), if_neg hy0]
      refine exists_bind (Res.mul h hlen hz hz) fun delta hdelta => ?_
      refine exists_bind (Res.mul h hlen hy hy) fun gamma hgamma => ?_
      refine exists_bind (Res.mul h hlen hx hgamma) fun beta hbeta => ?_
      refine exists_bind (Res.sub h hlen hx hdelta) fun down hdown => ?_
      refine exists_bind (Res.add h hlen hx hdelta) fun up hup => ?_
      refine exists_bind (Res.mul h hlen hdown hup) fun both hboth => ?_
      refine exists_bind (Res.small h hlen hboth (by decide) (Int.cast_ofNat 3)) fun alpha halpha => ?_
      refine exists_bind (Res.mul h hlen halpha halpha) fun square hsquare => ?_
      refine exists_bind (Res.small h hlen hbeta (by decide) (Int.cast_ofNat 8)) fun beta8 hbeta8 => ?_
      refine exists_bind (Res.sub h hlen hsquare hbeta8) fun x3 hx3 => ?_
      refine exists_bind (Res.add h hlen hy hz) fun yz hyz => ?_
      refine exists_bind (Res.mul h hlen hyz hyz) fun yzyz hyzyz => ?_
      refine exists_bind (Res.sub h hlen hyzyz hgamma) fun less hless => ?_
      refine exists_bind (Res.sub h hlen hless hdelta) fun z3 hz3 => ?_
      refine exists_bind (Res.small h hlen hbeta (by decide) (Int.cast_ofNat 4)) fun beta4 hbeta4 => ?_
      refine exists_bind (Res.sub h hlen hbeta4 hx3) fun far hfar => ?_
      refine exists_bind (Res.mul h hlen halpha hfar) fun rise hrise => ?_
      refine exists_bind (Res.mul h hlen hgamma hgamma) fun gamma2 hgamma2 => ?_
      refine exists_bind (Res.small h hlen hgamma2 (by decide) (Int.cast_ofNat 8)) fun gamma8 hgamma8 => ?_
      refine exists_bind (Res.sub h hlen hrise hgamma8) fun y3 hy3 => ?_
      exact ⟨_, rfl, .some ⟨hx3, hy3, hz3⟩⟩

/-- **`ec-add` is what the formula comes to in the field**, the case it is of among them. -/
theorem ecAdd_spec {p1 p2 : Pt} {t1 t2 : Option (ZMod p × ZMod p × ZMod p)} (ht1 : ResPt p p1 t1)
    (ht2 : ResPt p p2 t2) : ∃ r, ecAdd p1 p2 md = some r ∧ ResPt p r (add t1 t2) := by
  cases ht1 with
  | none => exact ⟨p2, by rw [ecAdd], by rw [add]; exact ht2⟩
  | @some a1 v1 hav1 =>
    cases ht2 with
    | none => exact ⟨some a1, by rw [ecAdd], by rw [add]; exact .some hav1⟩
    | @some a2 v2 hav2 =>
      have ht1 : ResPt p (some a1) (some v1) := .some hav1
      obtain ⟨x1, y1, z1⟩ := a1
      obtain ⟨x2, y2, z2⟩ := a2
      obtain ⟨vx1, vy1, vz1⟩ := v1
      obtain ⟨vx2, vy2, vz2⟩ := v2
      obtain ⟨hx1, hy1, hz1⟩ := hav1
      obtain ⟨hx2, hy2, hz2⟩ := hav2
      dsimp only at hx1 hy1 hz1 hx2 hy2 hz2
      rw [ecAdd, add]
      refine exists_bind (Res.mul h hlen hz1 hz1) fun zz1 hzz1 => ?_
      refine exists_bind (Res.mul h hlen hz2 hz2) fun zz2 hzz2 => ?_
      refine exists_bind (Res.mul h hlen hx1 hzz2) fun u1 hu1 => ?_
      refine exists_bind (Res.mul h hlen hx2 hzz1) fun u2 hu2 => ?_
      refine exists_bind (Res.mul h hlen hz2 hzz2) fun zzz2 hzzz2 => ?_
      refine exists_bind (Res.mul h hlen hy1 hzzz2) fun s1 hs1 => ?_
      refine exists_bind (Res.mul h hlen hz1 hzz1) fun zzz1 hzzz1 => ?_
      refine exists_bind (Res.mul h hlen hy2 hzzz1) fun s2 hs2 => ?_
      refine exists_bind (Res.sub h hlen hu2 hu1) fun dx hdx => ?_
      refine exists_bind (Res.sub h hlen hs2 hs1) fun dy hdy => ?_
      refine exists_bind (Res.small h hlen hdy (by decide) (Int.cast_ofNat 2)) fun r hr => ?_
      by_cases hdx0 : vx2 * (vz1 * vz1) - vx1 * (vz2 * vz2) = 0
      · rw [if_neg (by rw [hdx.bnZero_iff.mpr hdx0]; decide), if_neg (not_not.mpr hdx0)]
        by_cases hr0 : (vy2 * (vz1 * (vz1 * vz1)) - vy1 * (vz2 * (vz2 * vz2))) * 2 = 0
        · rw [if_pos (hr.bnZero_iff.mpr hr0), if_pos hr0]
          exact ecDbl_spec h hlen ht1
        · rw [if_neg (mt hr.bnZero_iff.mp hr0), if_neg hr0]
          exact ⟨none, rfl, .none⟩
      · rw [if_pos (by rw [Bool.eq_false_iff.mpr (mt hdx.bnZero_iff.mp hdx0)]; rfl), if_pos hdx0]
        refine exists_bind (Res.small h hlen hdx (by decide) (Int.cast_ofNat 2)) fun dx2 hdx2 => ?_
        refine exists_bind (Res.mul h hlen hdx2 hdx2) fun i hi => ?_
        refine exists_bind (Res.mul h hlen hdx hi) fun j hj => ?_
        refine exists_bind (Res.mul h hlen hu1 hi) fun v hv => ?_
        refine exists_bind (Res.mul h hlen hr hr) fun rr hrr => ?_
        refine exists_bind (Res.sub h hlen hrr hj) fun left hleft => ?_
        refine exists_bind (Res.small h hlen hv (by decide) (Int.cast_ofNat 2)) fun v2 hv2 => ?_
        refine exists_bind (Res.sub h hlen hleft hv2) fun x3 hx3 => ?_
        refine exists_bind (Res.sub h hlen hv hx3) fun far hfar => ?_
        refine exists_bind (Res.mul h hlen hr hfar) fun rise hrise => ?_
        refine exists_bind (Res.mul h hlen hs1 hj) fun sj hsj => ?_
        refine exists_bind (Res.small h hlen hsj (by decide) (Int.cast_ofNat 2)) fun sj2 hsj2 => ?_
        refine exists_bind (Res.sub h hlen hrise hsj2) fun y3 hy3 => ?_
        refine exists_bind (Res.add h hlen hz1 hz2) fun sum hsum => ?_
        refine exists_bind (Res.mul h hlen hsum hsum) fun square hsquare => ?_
        refine exists_bind (Res.sub h hlen hsquare hzz1) fun less1 hless1 => ?_
        refine exists_bind (Res.sub h hlen hless1 hzz2) fun less2 hless2 => ?_
        refine exists_bind (Res.mul h hlen hless2 hdx) fun z3 hz3 => ?_
        exact ⟨_, rfl, .some ⟨hx3, hy3, hz3⟩⟩

/-! ## The group -/

variable {b : ZMod p} (hdisc : WeierstrassCurve.Δ (curve b) ≠ 0)
include hdisc

theorem Form.dbl {pt : Pt} {P : (curve b).Point} (hP : Form p pt P) :
    ∃ r, ecDbl pt md = some r ∧ Form p r (P + P) := by
  obtain ⟨t, hres, hform⟩ := hP
  obtain ⟨r, hr, hresr⟩ := ecDbl_spec h hlen hres
  exact ⟨r, hr, _, hresr, hform.dbl (two_ne_zero_of_disc hdisc)⟩

theorem Form.add {p1 p2 : Pt} {P Q : (curve b).Point} (hP : Form p p1 P) (hQ : Form p p2 Q) :
    ∃ r, ecAdd p1 p2 md = some r ∧ Form p r (P + Q) := by
  obtain ⟨t1, hres1, hform1⟩ := hP
  obtain ⟨t2, hres2, hform2⟩ := hQ
  obtain ⟨r, hr, hresr⟩ := ecAdd_spec h hlen hres1 hres2
  exact ⟨r, hr, _, hresr, hform1.add (two_ne_zero_of_disc hdisc) hform2⟩

variable {u1 u2 : Nums} (hu1 : Num u1) (hu2 : Num u2) {g q gq : Pt} {G Q : (curve b).Point} (hg : Form p g G)
  (hq : Form p q Q) (hgq : Form p gq (G + Q))
include hu1 hu2 hg hq hgq

theorem jointBit_spec (i : ℕ) {acc : Pt} {R : (curve b).Point} (hacc : Form p acc R) :
    ∃ r, jointBit u1 u2 g q gq md i acc = some r ∧
      Form p r (R + ((val u1 / 2 ^ i % 2) • G + (val u2 / 2 ^ i % 2) • Q)) := by
  rw [jointBit, bnBit_spec hu1, bnBit_spec hu2]
  have hbit (v : ℤ) : v % 2 ≠ 1 → v % 2 = 0 := fun hne => by omega
  by_cases h1 : val u1 / 2 ^ i % 2 = 1
  · by_cases h2 : val u2 / 2 ^ i % 2 = 1
    · rw [if_pos ⟨h1, h2⟩, h1, h2, one_zsmul, one_zsmul]
      exact Form.add h hlen hdisc hacc hgq
    · rw [if_neg (fun hb => h2 hb.2), if_pos h1, h1, hbit _ h2, one_zsmul, zero_zsmul, add_zero]
      exact Form.add h hlen hdisc hacc hg
  · rw [if_neg (fun hb => h1 hb.1), if_neg h1, hbit _ h1, zero_zsmul, zero_add]
    by_cases h2 : val u2 / 2 ^ i % 2 = 1
    · rw [if_pos h2, h2, one_zsmul]
      exact Form.add h hlen hdisc hacc hq
    · rw [if_neg h2, hbit _ h2, zero_zsmul, add_zero]
      exact ⟨acc, rfl, hacc⟩

/-- **So much of u1 G + u2 Q as the bits so far are**, a bit of each more a turn. -/
theorem jointLoop_spec (i : ℕ) : ∀ {acc : Pt}, Form p acc ((val u1 / 2 ^ i) • G + (val u2 / 2 ^ i) • Q) →
    ∃ r, jointLoop u1 u2 g q gq md i acc = some r ∧ Form p r (val u1 • G + val u2 • Q) := by
  induction i with
  | zero =>
      intro acc hacc
      rw [pow_zero, Int.ediv_one, Int.ediv_one] at hacc
      exact ⟨acc, rfl, hacc⟩
  | succ i ih =>
      intro acc hacc
      have hhalf (v : ℤ) : v / 2 ^ i = 2 * (v / 2 ^ (i + 1)) + v / 2 ^ i % 2 := by
        rw [pow_succ, ← Int.ediv_ediv_of_nonneg (by positivity), Int.mul_ediv_add_emod]
      obtain ⟨twice, htwice, hform⟩ := Form.dbl h hlen hdisc hacc
      obtain ⟨more, hmore, hforms⟩ := jointBit_spec h hlen hdisc hu1 hu2 hg hq hgq i hform
      rw [joint_step G Q _ _ (hhalf _) (hhalf _)] at hforms
      obtain ⟨r, hr, hformr⟩ := ih hforms
      refine ⟨r, ?_, hformr⟩
      rw [jointLoop, htwice, Option.bind_eq_bind, Option.bind_some]
      show (jointBit u1 u2 g q gq md i twice).bind _ = _
      rw [hmore, Option.bind_some, hr]

omit hgq in
theorem joint_spec : ∃ r, joint u1 u2 g q md = some r ∧ Form p r (val u1 • G + val u2 • Q) := by
  obtain ⟨gq, egq, hgq⟩ := Form.add h hlen hdisc hg hq
  obtain ⟨n1, e1, hlt1, -⟩ := bnBits_spec hu1
  obtain ⟨n2, e2, hlt2, -⟩ := bnBits_spec hu2
  have hzero {v : ℤ} {n : ℕ} (hv : 0 ≤ v) (hlt : v < 2 ^ n) (hle : n ≤ max n1 n2) : v / 2 ^ max n1 n2 = 0 :=
    Int.ediv_eq_zero_of_lt hv (hlt.trans_le (pow_le_pow_right₀ (by norm_num) hle))
  have hstart : Form p none ((val u1 / 2 ^ max n1 n2) • G + (val u2 / 2 ^ max n1 n2) • Q) := by
    rw [hzero hu1.val_nonneg hlt1 (le_max_left _ _), hzero hu2.val_nonneg hlt2 (le_max_right _ _), zero_zsmul,
      zero_zsmul, add_zero]
    exact ⟨none, .none, rfl⟩
  obtain ⟨r, hr, hform⟩ := jointLoop_spec h hlen hdisc hu1 hu2 hg hq hgq _ hstart
  refine ⟨r, ?_, hform⟩
  rw [joint, egq, e1, e2]
  exact hr

end Points

instance fact_prime_seven : Fact (Nat.Prime 7) := ⟨by decide⟩

/-- **The points add up**: of any Jacobian forms of two points `ec-add` gives one of their sum, equal or
opposite or at infinity, `ec-dbl` one of twice a point, and u1 G + u2 Q is what the joint loop ends with. -/
theorem point_arithmetic {p : ℕ} [Fact p.Prime] {b : ZMod p} (hdisc : WeierstrassCurve.Δ (curve b) ≠ 0)
    {m : Nums} (hm : Num m) (hval : val m = p) (hlen : m.length ≤ 2048) :
    ∃ md, bnModulus m = some md ∧
      ∀ (p1 p2 : Pt) (P Q : (curve b).Point), Form p p1 P → Form p p2 Q →
        (∃ r, ecAdd p1 p2 md = some r ∧ Form p r (P + Q)) ∧
        (∃ r, ecDbl p1 md = some r ∧ Form p r (P + P)) ∧
        ∀ u1 u2, Num u1 → Num u2 →
          ∃ r, joint u1 u2 p1 p2 md = some r ∧ Form p r (val u1 • P + val u2 • Q) := by
  have hne : val m ≠ 0 := by
    rw [hval]
    exact Int.natCast_ne_zero.mpr (NeZero.ne p)
  obtain ⟨md, hmd, hmod, htrim⟩ := bnModulus_spec hm hne
  rw [hval] at hmod
  have hlenM : md.m.length ≤ 2048 := by
    rw [htrim]
    exact (bnTrim_spec hm).2.2.2.trans hlen
  refine ⟨md, hmd, fun p1 p2 P Q hP hQ => ⟨?_, ?_, fun u1 u2 hu1 hu2 => ?_⟩⟩
  · exact Form.add hmod hlenM hdisc hP hQ
  · exact Form.dbl hmod hlenM hdisc hP
  · exact joint_spec hmod hlenM hdisc hu1 hu2 hP hQ

/-- A point of `y² = x³ - 3x + 1` mod 7 and its negative, with a `z` of 2 and of 1. -/
theorem point_arithmetic_seven :
    ∃ G Q : (curve (1 : ZMod 7)).Point, G + Q = 0 ∧ ∃ md, bnModulus [7] = some md ∧
    ∃ r, joint [5] [3] (some ([0], [1], [2])) (some ([0], [6], [1])) md = some r ∧
      Form 7 r (val [5] • G + val [3] • Q) := by
  have hdisc : WeierstrassCurve.Δ (curve (1 : ZMod 7)) ≠ 0 := by decide
  have hnum (d : ℤ) (hd : 0 ≤ d ∧ d < base) : Num [d] := ⟨by simp, by simpa using hd⟩
  have hres (d : ℤ) (hd : 0 ≤ d ∧ d < 7) : Res 7 [d] (d : ZMod 7) := by
    have hval : val [d] = d := by simp [val]
    exact ⟨hnum d ⟨hd.1, hd.2.trans (by decide)⟩, by simp, by rw [hval]; exact hd.2, by rw [hval]⟩
  have hG : (curve (1 : ZMod 7)).Nonsingular 0 1 := by
    rw [WeierstrassCurve.Affine.nonsingular_iff, WeierstrassCurve.Affine.equation_iff]
    decide
  have hQ : (curve (1 : ZMod 7)).Nonsingular 0 6 := by
    rw [WeierstrassCurve.Affine.nonsingular_iff, WeierstrassCurve.Affine.equation_iff]
    decide
  have hform1 : Form 7 (some ([0], [1], [2])) (.some 0 1 hG : (curve (1 : ZMod 7)).Point) :=
    ⟨some (_, _, _), .some ⟨hres 0 (by decide), hres 1 (by decide), hres 2 (by decide)⟩,
      isForm_some (by decide) (by decide) (by decide)⟩
  have hform2 : Form 7 (some ([0], [6], [1])) (.some 0 6 hQ : (curve (1 : ZMod 7)).Point) :=
    ⟨some (_, _, _), .some ⟨hres 0 (by decide), hres 6 (by decide), hres 1 (by decide)⟩,
      isForm_some (by decide) (by decide) (by decide)⟩
  obtain ⟨md, hmd, hall⟩ := point_arithmetic hdisc (hnum 7 (by decide)) rfl (by decide)
  refine ⟨_, _, ?_, md, hmd, (hall _ _ _ _ hform1 hform2).2.2 _ _ (hnum 5 (by decide)) (hnum 3 (by decide))⟩
  exact WeierstrassCurve.Affine.Point.add_of_Y_eq rfl (by decide)

end ChrysaLisp.Ecdsa
