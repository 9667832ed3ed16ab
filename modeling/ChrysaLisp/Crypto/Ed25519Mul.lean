import ChrysaLisp.Crypto.Ed25519Field

set_option autoImplicit false

/-! # The product of two numbers of the field

Of parts of 26 bits each of the 31 sums is of 16 products of 52 bits at the most, and so of 56, and with 38
times another added of 62: the two ways of multiplying keep within the 63 bits. -/

namespace ChrysaLisp.Ed25519

open Bignum Radix

/-! ## The sums -/

/-- No part is more, either way. -/
def Bound (M : ℤ) (a : Nums) : Prop := ∀ d ∈ a, -M ≤ d ∧ d ≤ M

theorem Bound.mono {M N : ℤ} (hMN : M ≤ N) {a : Nums} (ha : Bound M a) : Bound N a :=
  fun d hd => ⟨by have := (ha d hd).1; omega, (ha d hd).2.trans hMN⟩

theorem bound_cons {M d : ℤ} {a : Nums} : Bound M (d :: a) ↔ (-M ≤ d ∧ d ≤ M) ∧ Bound M a :=
    List.forall_mem_cons

theorem mul_bound {A d e : ℤ} (hd : -A ≤ d ∧ d ≤ A) (he : -A ≤ e ∧ e ≤ A) :
    -(A * A) ≤ d * e ∧ d * e ≤ A * A := by
  have habs : |d * e| ≤ A * A := by
    rw [abs_mul]
    exact mul_le_mul (abs_le.mpr hd) (abs_le.mpr he) (abs_nonneg e) ((abs_nonneg d).trans (abs_le.mpr hd))
  exact abs_le.mp habs

section Sums

variable {A : ℤ} (hA : A * A ≤ 2 ^ 61)
include hA

/-- A row adds a part times a number. -/
theorem mulRow_spec {ai : ℤ} (hai : -A ≤ ai ∧ ai ≤ A) {b : Nums} (hb : Bound A b) : ∀ {M : ℤ} {acc : Nums},
    Bound M acc → 0 ≤ M → M + A * A ≤ 2 ^ 62 → b.length ≤ acc.length →
    ∃ r, mulRow ai b acc = some r ∧ r.length = acc.length ∧ Bound (M + A * A) r ∧
      fval r = fval acc + ai * fval b := by
  have hAA : 0 ≤ A * A := mul_self_nonneg A
  induction b with
  | nil =>
      intro M acc hacc _ _ _
      exact ⟨acc, rfl, rfl, hacc.mono (by omega), by rw [fval, fval, value_nil, mul_zero, add_zero]⟩
  | cons d b ih =>
      intro M acc hacc hM hle hlen
      obtain ⟨hd, hb⟩ := bound_cons.mp hb
      cases acc with
      | nil => exact absurd hlen (Nat.not_succ_le_zero _)
      | cons x acc =>
        obtain ⟨hx, hacc⟩ := bound_cons.mp hacc
        have hprod := mul_bound hai hd
        obtain ⟨r, hr, hlenr, hbound, hval⟩ := ih hb hacc hM hle (Nat.le_of_succ_le_succ hlen)
        refine ⟨(x + ai * d) :: r, ?_, by rw [List.length_cons, hlenr, List.length_cons],
          bound_cons.mpr ⟨⟨by omega, by omega⟩, hbound⟩, ?_⟩
        · rw [mulRow, word_eq (by omega) (by omega), Option.bind_eq_bind, Option.bind_some,
            word_eq (by omega) (by omega), Option.bind_some, hr]
          rfl
        · have hr : fval ((x + ai * d) :: r) = x + ai * d + 65536 * fval r := rfl
          have hx : fval (x :: acc) = x + 65536 * fval acc := rfl
          have hd : fval (d :: b) = d + 65536 * fval b := rfl
          rw [hr, hval, hx, hd]
          ring

/-- The rows are the product. -/
theorem mulRows_spec {b : Nums} (hb : Bound A b) (hpos : 0 < b.length) {a : Nums} : Bound A a →
    ∀ {M : ℤ} {acc : Nums}, Bound M acc → 0 ≤ M → M + a.length * (A * A) ≤ 2 ^ 62 →
      a.length + b.length ≤ acc.length + 1 →
    ∃ r, mulRows a b acc = some r ∧ r.length = acc.length ∧ Bound (M + a.length * (A * A)) r ∧
      fval r = fval acc + fval a * fval b := by
  have hAA : 0 ≤ A * A := mul_self_nonneg A
  induction a with
  | nil =>
      intro _ M acc hacc _ _ _
      exact ⟨acc, rfl, rfl, by simpa using hacc, by rw [fval, fval, value_nil, zero_mul, add_zero]⟩
  | cons ai a ih =>
      intro ha M acc hacc hM hle hlen
      obtain ⟨hai, ha⟩ := bound_cons.mp ha
      have hsplit : M + ((ai :: a).length : ℤ) * (A * A) = M + A * A + a.length * (A * A) := by
        rw [List.length_cons, Nat.cast_succ]
        ring
      have hmore : 0 ≤ (a.length : ℤ) * (A * A) := mul_nonneg (Int.natCast_nonneg _) hAA
      rw [hsplit] at hle ⊢
      rw [List.length_cons] at hlen
      obtain ⟨row, hrow, hlenRow, hboundRow, hvalRow⟩ :=
        mulRow_spec hA hai hb hacc hM (by omega) (by omega)
      cases row with
      | nil =>
        rw [List.length_nil] at hlenRow
        omega
      | cons x row =>
        obtain ⟨hx, hboundRow⟩ := bound_cons.mp hboundRow
        rw [List.length_cons] at hlenRow
        obtain ⟨r, hr, hlenr, hbound, hval⟩ := ih ha hboundRow (by omega) hle (by omega)
        refine ⟨x :: r, ?_, by rw [List.length_cons, hlenr, hlenRow],
          bound_cons.mpr ⟨⟨by omega, by omega⟩, hbound⟩, ?_⟩
        · rw [mulRows, hrow, Option.bind_eq_bind, Option.bind_some]
          dsimp only
          rw [hr]
          rfl
        · have hx : fval (x :: row) = x + 65536 * fval row := rfl
          have hr : fval (x :: r) = x + 65536 * fval r := rfl
          have ha : fval (ai :: a) = ai + 65536 * fval a := rfl
          rw [hr, hval, ha]
          linear_combination hvalRow - hx

end Sums

/-- The top comes in 38 times. -/
theorem fold38_spec {M : ℤ} (hM : 39 * M ≤ 2 ^ 62) :
    ∀ {l m : Nums}, Bound M l → Bound M m → l.length = m.length →
    ∃ r, (l.zip m).mapM fold38 = some r ∧ r.length = l.length ∧ Bound (39 * M) r ∧
      fval r = fval l + 38 * fval m
  | [], [], _, _, _ => ⟨[], rfl, rfl, fun d hd => absurd hd List.not_mem_nil, rfl⟩
  | x :: l, y :: m, hl, hm, hlen => by
      obtain ⟨hx, hl⟩ := bound_cons.mp hl
      obtain ⟨hy, hm⟩ := bound_cons.mp hm
      obtain ⟨r, hr, hlenr, hbound, hval⟩ := fold38_spec hM hl hm (Nat.succ.inj hlen)
      refine ⟨(x + 38 * y) :: r, ?_, by rw [List.length_cons, hlenr, List.length_cons],
        bound_cons.mpr ⟨⟨by omega, by omega⟩, hbound⟩, ?_⟩
      · have hfold : fold38 (x, y) = some (x + 38 * y) := by
          rw [fold38]
          dsimp only
          rw [word_eq (by omega) (by omega), Option.bind_eq_bind, Option.bind_some,
            word_eq (by omega) (by omega)]
        rw [List.zip_cons_cons, List.mapM_cons, hfold, Option.bind_eq_bind, Option.bind_some, hr]
        rfl
      · have hr : fval ((x + 38 * y) :: r) = x + 38 * y + 65536 * fval r := rfl
        have hx : fval (x :: l) = x + 65536 * fval l := rfl
        have hy : fval (y :: m) = y + 65536 * fval m := rfl
        rw [hr, hval, hx, hy]
        ring

/-! ## The product -/

/-- The sums with the top of them in are the product. -/
theorem products_spec {a b : Nums} (ha : Within (2 ^ 26) a) (hb : Within (2 ^ 26) b) :
    ∃ r, products a b = some r ∧ Within (2 ^ 62) r ∧ fval r ≡ fval a * fval b [ZMOD prime] := by
  have hzeros : Bound 0 (List.replicate 31 (0 : ℤ)) := fun d hd => by
    rw [List.eq_of_mem_replicate hd]
    decide
  have hrows := mulRows_spec (by norm_num : (2 : ℤ) ^ 26 * 2 ^ 26 ≤ 2 ^ 61) hb.bound
    (by rw [hb.length]; decide)
    ha.bound hzeros le_rfl (by rw [ha.length]; norm_num) (by rw [ha.length, hb.length]; decide)
  obtain ⟨acc, hacc, hlen, hbound, hval⟩ := hrows
  rw [List.length_replicate] at hlen
  rw [ha.length] at hbound
  have htakeA : a.take 16 = a := List.take_of_length_le ha.length.le
  have htakeB : b.take 16 = b := List.take_of_length_le hb.length.le
  have hmem (l : Nums) (hl : ∀ d ∈ l, d ∈ acc) : Bound (2 ^ 56) l := fun d hd => by
    have hd := hbound d (hl d hd)
    norm_num at hd
    omega
  -- the sums are the low 15, the one in the middle and the top 15
  have hmid : acc.drop 15 = acc.getD 15 0 :: acc.drop 16 := by
    rw [List.drop_eq_getElem_cons (by omega), List.getD_eq_getElem acc 0 (by omega)]
  have hsplit : fval acc = fval (acc.take 15) + 65536 ^ 15 *
    (acc.getD 15 0 + 65536 * fval (acc.drop 16)) := by
    have happ := value_append (b := 65536) (acc.take 15) (acc.drop 15)
    rw [List.take_append_drop, List.length_take, hlen, hmid] at happ
    exact happ
  obtain ⟨low, hlow, hlenLow, hboundLow, hvalLow⟩ := fold38_spec (M := 2 ^ 56) (by norm_num)
    (hmem (acc.take 15) fun d hd => List.mem_of_mem_take hd)
      (hmem (acc.drop 16) fun d hd => List.mem_of_mem_drop hd)
    (by rw [List.length_take, List.length_drop, hlen]; decide)
  rw [List.length_take, hlen] at hlenLow
  have hmidBound := hmem [acc.getD 15 0] fun d hd => by
    rw [List.mem_singleton.mp hd, List.getD_eq_getElem acc 0 (by omega)]
    exact List.getElem_mem _
  refine ⟨low ++ [acc.getD 15 0], ?_, ⟨by rw [List.length_append, hlenLow]; rfl, fun d hd => ?_⟩, ?_⟩
  · rw [products, htakeA, htakeB, hacc, Option.bind_eq_bind, Option.bind_some, hlow]
    rfl
  · rcases List.mem_append.mp hd with hd | hd
    · have hd := hboundLow d hd
      omega
    · have hd := hmidBound d hd
      omega
  · have hr : fval (low ++ [acc.getD 15 0]) = fval low + 65536 ^ 15 * acc.getD 15 0 := by
      rw [fval, value_append, hlenLow, value_cons, value_nil, mul_zero, add_zero]
      rfl
    have hzero : fval (List.replicate 31 0) = 0 := value_replicate_zero 31
    refine (Int.modEq_iff_dvd).mpr ⟨2 * fval (acc.drop 16), ?_⟩
    rw [hzero, zero_add] at hval
    rw [← hval, hr, hvalLow, hsplit, prime]
    ring

/-- What has been carried twice. -/
theorem carried_products {a b : Nums} (ha : Within (2 ^ 26) a) (hb : Within (2 ^ 26) b) :
    ∃ sums once r, products a b = some sums ∧ sums.length = 16 ∧ edCar sums = some once ∧ once.length = 16 ∧
      edCar once = some r ∧ Carried 38 r ∧ fval r ≡ fval a * fval b [ZMOD prime] := by
  obtain ⟨sums, hsums, hwithin, hval⟩ := products_spec ha hb
  obtain ⟨once, honce, hcarried, hval1⟩ := edCar_once hwithin
  obtain ⟨r, hr, htight, hval2⟩ := edCar_twice (by norm_num) (by norm_num) hcarried
  exact ⟨sums, once, r, hsums, hwithin.length, honce, hcarried.length, hr, htight,
    hval2.trans (hval1.trans hval)⟩

/-- **Both ways of multiplying give the product**, whichever of the inputs the output is. -/
theorem edMul_spec {o a b : ℕ} {h : Store} (ho : (h o).length = 16) (ha : Within (2 ^ 26) (h a))
    (hb : Within (2 ^ 26) (h b)) : ∃ r, edMul o a b h = some (Function.update h o r) ∧
      edMulRef o a b h = some (Function.update h o r) ∧ Carried 38 r ∧
        fval r ≡ fval (h a) * fval (h b) [ZMOD prime] := by
  obtain ⟨sums, once, r, hsums, hlen, honce, hlen1, hr, htight, hval⟩ := carried_products ha hb
  have hguard : ¬((h o).length < 16 ∨ (h a).length < 16 ∨ (h b).length < 16) := by
    rw [ho, ha.length, hb.length]
    decide
  have hdrop : (h o).drop 16 = [] := List.drop_of_length_le ho.le
  refine ⟨r, ?_, ?_, htight, hval⟩
  · rw [edMul, if_neg hguard, hsums, hdrop]
    simp only [Option.bind_eq_bind, Option.bind_some, honce, hr, List.append_nil, Option.pure_def]
  · rw [edMulRef, if_neg hguard, hsums, hdrop]
    simp only [Option.bind_eq_bind, Option.bind_some, Function.update_self, List.append_nil, honce, hr,
      Function.update_idem, Option.pure_def]

end ChrysaLisp.Ed25519
