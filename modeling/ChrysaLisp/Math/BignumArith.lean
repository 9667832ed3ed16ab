import ChrysaLisp.Math.BignumLimbs
import Mathlib.Data.Nat.Bitwise

set_option autoImplicit false

/-! # Sums, differences, products and moves of big numbers

Each comes to what the whole numbers do (`bnAdd_spec`, `bnSub_spec`, `bnMul_spec`, `bnShl_spec`,
`bnShr_spec`). A limb of a product before the carries is a dot of no more products than the shorter of the
two has limbs, so with 2048 of them it stays within 63 bits (`mulLimb_eq`). -/

namespace ChrysaLisp.Bignum

open Radix

/-! ## Sums and differences -/

theorem forall_zipWith {f : ℤ → ℤ → ℤ} {P : ℤ → Prop} : ∀ {l m : List ℤ},
    (∀ x ∈ l, ∀ y ∈ m, P (f x y)) → ∀ v ∈ List.zipWith f l m, P v
  | [], _, _ => by simp
  | _ :: _, [], _ => by simp
  | x :: l, y :: m, h => by
      rw [List.zipWith_cons_cons, List.forall_mem_cons]
      exact ⟨h x List.mem_cons_self y List.mem_cons_self,
        forall_zipWith fun x hx y hy => h x (List.mem_cons_of_mem _ hx) y (List.mem_cons_of_mem _ hy)⟩

theorem bnAdd_spec {a b : Nums} (ha : Num a) (hb : Num b) :
    ∃ s, bnAdd a b = some s ∧ Num s ∧ val s = val a + val b := by
  obtain ⟨hna, hva⟩ := bnPad_spec ha (max a.length b.length)
  obtain ⟨hnb, hvb⟩ := bnPad_spec hb (max a.length b.length)
  have hla := length_bnPad (le_max_left a.length b.length)
  have hlb := length_bnPad (le_max_right a.length b.length)
  unfold bnAdd numsAdd
  dsimp only
  generalize bnPad a (max a.length b.length) = x at *
  generalize bnPad b (max a.length b.length) = y at *
  have hsmall : Small (List.zipWith (· + ·) x y) := forall_zipWith fun d hd e he => by
    have hd := hna.digits d hd
    have he := hnb.digits e he
    unfold base at hd he
    unfold most
    omega
  have hval : val (List.zipWith (· + ·) x y) = val a + val b := by
    rw [← hva, ← hvb]
    exact value_zipWith_add x y (hla.trans hlb.symm)
  have hne : List.zipWith (· + ·) x y ≠ [] := by
    have hx := List.length_pos_iff.mpr hna.ne_nil
    rw [← List.length_pos_iff, List.length_zipWith]
    omega
  obtain ⟨s, hs, hnum, hvs, -⟩ := bnNorm_spec 0 hne digits_nil hsmall
    (by rw [List.drop_zero, hval]; exact add_nonneg ha.val_nonneg hb.val_nonneg)
  refine ⟨s, ?_, hnum, hvs.trans hval⟩
  rw [if_pos ⟨hna.ne_nil, (hla.trans hlb.symm).le⟩, hsmall.word]
  exact hs

theorem bnSub_spec {a b : Nums} (ha : Num a) (hb : Num b) (h : val b ≤ val a) :
    ∃ d, bnSub a b = some d ∧ Num d ∧ Trimmed d ∧ val d = val a - val b := by
  obtain ⟨hna, hva⟩ := bnPad_spec ha (max a.length b.length)
  obtain ⟨hnb, hvb⟩ := bnPad_spec hb (max a.length b.length)
  have hla := length_bnPad (le_max_left a.length b.length)
  have hlb := length_bnPad (le_max_right a.length b.length)
  unfold bnSub numsSub
  dsimp only
  generalize bnPad a (max a.length b.length) = x at *
  generalize bnPad b (max a.length b.length) = y at *
  have hsmall : Small (List.zipWith (· - ·) x y) := forall_zipWith fun d hd e he => by
    have hd := hna.digits d hd
    have he := hnb.digits e he
    unfold base at hd he
    unfold most
    omega
  have hval : val (List.zipWith (· - ·) x y) = val a - val b := by
    rw [← hva, ← hvb]
    exact value_zipWith_sub x y (hla.trans hlb.symm)
  have hne : List.zipWith (· - ·) x y ≠ [] := by
    have hx := List.length_pos_iff.mpr hna.ne_nil
    rw [← List.length_pos_iff, List.length_zipWith]
    omega
  obtain ⟨s, hs, hnum, hvs, -⟩ := bnNorm_spec 0 hne digits_nil hsmall
    (by rw [List.drop_zero, hval]; exact sub_nonneg.mpr h)
  obtain ⟨hnt, hvt, htrim, -⟩ := bnTrim_spec hnum
  refine ⟨bnTrim s, ?_, hnt, htrim, hvt.trans (hvs.trans hval)⟩
  rw [if_pos ⟨hna.ne_nil, (hla.trans hlb.symm).le⟩, hsmall.word, Option.bind_eq_bind, Option.bind_some, hs]
  rfl

/-! ## Products -/

/-- Products of two limbs, added up, where there are no more than 2048 of them. -/
theorem dotOnto_eq {l : List (ℤ × ℤ)} (h : ∀ p ∈ l, (0 ≤ p.1 ∧ p.1 < base) ∧ 0 ≤ p.2 ∧ p.2 < base) :
    ∀ (acc : ℤ), 0 ≤ acc → acc + l.length * (2 ^ 26 - 1) ^ 2 ≤ most →
    dotOnto acc l = some (acc + (l.map (fun p => p.1 * p.2)).sum) ∧
    0 ≤ (l.map (fun p => p.1 * p.2)).sum ∧ acc + (l.map (fun p => p.1 * p.2)).sum ≤ most := by
  induction l with
  | nil =>
      intro acc hacc hmost
      have hle : acc ≤ most := by simpa using hmost
      simp [dotOnto, hle]
  | cons p l ih =>
      intro acc hacc hmost
      obtain ⟨x, y⟩ := p
      obtain ⟨⟨hx, hxb⟩, hy, hyb⟩ := h (x, y) List.mem_cons_self
      have hxy : 0 ≤ x * y := mul_nonneg hx hy
      have hprod : x * y ≤ (2 ^ 26 - 1) * (2 ^ 26 - 1) := by
        unfold base at hxb hyb
        exact mul_le_mul (by omega) (by omega) hy (by norm_num)
      have hlen : ((List.length ((x, y) :: l) : ℕ) : ℤ) = l.length + 1 := by simp
      rw [hlen] at hmost
      have hrest0 : (0 : ℤ) ≤ l.length * (2 ^ 26 - 1) ^ 2 :=
        mul_nonneg (Int.natCast_nonneg _) (sq_nonneg _)
      have hmostEq : most < 2 ^ 63 := by decide +kernel
      have hterm : word (x * y) = some (x * y) := word_eq (by omega) (by omega)
      have hsum : word (acc + x * y) = some (acc + x * y) := by
        refine word_eq (by omega) ?_
        have : acc + x * y ≤ most := by linarith
        omega
      obtain ⟨hdot, hnonneg, hle⟩ := ih (fun p hp => h p (List.mem_cons_of_mem _ hp))
        (acc + x * y) (by omega) (by linarith)
      rw [dotOnto, hterm, Option.bind_eq_bind, Option.bind_some, hsum, Option.bind_some, hdot, List.map_cons,
        List.sum_cons]
      dsimp only
      refine ⟨?_, by linarith, by linarith⟩
      rw [add_assoc]

/-- The two parts a limb of a product is the dot of, one of them turned round, pair the limbs that come to
its place. -/
theorem zip_slices (a b : Nums) {k : ℕ} (hk : k + 1 < a.length + b.length) (ha : a ≠ []) (hb : b ≠ []) :
    ((a.take (min k (a.length - 1) + 1)).drop (k + 1 - b.length)).zip
      ((b.reverse.take (b.length - 1 + min k (a.length - 1) + 1 - k)).drop
        (b.length - 1 + (k + 1 - b.length) - k))
    = (List.range (min k (a.length - 1) + 1 - (k + 1 - b.length))).map (fun t =>
        (a.getD (k + 1 - b.length + t) 0, b.getD (k - (k + 1 - b.length + t)) 0)) := by
  have hapos := List.length_pos_iff.mpr ha
  have hbpos := List.length_pos_iff.mpr hb
  refine List.ext_getElem ?_ fun t ht ht' => ?_
  · simp only [List.length_zip, List.length_drop, List.length_take, List.length_reverse, List.length_map,
      List.length_range]
    omega
  · simp only [List.length_map, List.length_range] at ht'
    have hi : k + 1 - b.length + t < a.length := by omega
    have hj : k - (k + 1 - b.length + t) < b.length := by omega
    rw [List.getElem_map, List.getElem_range, List.getD_eq_getElem a 0 hi, List.getD_eq_getElem b 0 hj,
      List.getElem_zip, List.getElem_drop, List.getElem_take, List.getElem_drop, List.getElem_take,
      List.getElem_reverse]
    congr 2
    omega

/-- **A limb of a product before the carries** is what is added up for its place, and stays within 63
bits. -/
theorem mulLimb_eq {a b : Nums} (ha : Num a) (hb : Num b) (hlen : a.length ≤ 2048) {k : ℕ}
    (hk : k < a.length + b.length - 1) :
    mulLimb a b.reverse k = some (place a b k) ∧ 0 ≤ place a b k ∧ place a b k ≤ most := by
  have hapos := List.length_pos_iff.mpr ha.ne_nil
  have hbpos := List.length_pos_iff.mpr hb.ne_nil
  have hzip := zip_slices a b (k := k) (by omega) ha.ne_nil hb.ne_nil
  have hpairs : ∀ p ∈ (List.range (min k (a.length - 1) + 1 - (k + 1 - b.length))).map (fun t =>
      (a.getD (k + 1 - b.length + t) 0, b.getD (k - (k + 1 - b.length + t)) 0)),
      (0 ≤ p.1 ∧ p.1 < base) ∧ 0 ≤ p.2 ∧ p.2 < base := by
    intro p hp
    obtain ⟨t, -, rfl⟩ := List.mem_map.mp hp
    exact ⟨ha.digits.getD base_pos _, hb.digits.getD base_pos _⟩
  have hcount : ((List.range (min k (a.length - 1) + 1 - (k + 1 - b.length))).map (fun t =>
      (a.getD (k + 1 - b.length + t) 0, b.getD (k - (k + 1 - b.length + t)) 0))).length ≤ 2048 := by
    rw [List.length_map, List.length_range]
    omega
  obtain ⟨hdot, hnonneg, hle⟩ := dotOnto_eq hpairs 0 le_rfl (by
    unfold most
    rw [zero_add]
    exact mul_le_mul_of_nonneg_right (by exact_mod_cast hcount) (sq_nonneg _))
  rw [List.map_map] at hdot hnonneg hle
  have hplace := place_eq_sum a b k
  have hsame : ((fun p : ℤ × ℤ => p.1 * p.2) ∘ fun t : ℕ =>
      (a.getD (k + 1 - b.length + t) 0, b.getD (k - (k + 1 - b.length + t)) 0))
      = fun t => a.getD (k + 1 - b.length + t) 0 * b.getD (k - (k + 1 - b.length + t)) 0 := rfl
  rw [hsame, ← hplace] at hdot hnonneg hle
  rw [zero_add] at hdot hle
  refine ⟨?_, hnonneg, hle⟩
  unfold mulLimb numsDot
  rw [List.length_reverse]
  have htake : ((b.length : ℤ) - 1 - k + (min k (a.length - 1) : ℕ) + 1).toNat
      = b.length - 1 + min k (a.length - 1) + 1 - k := by omega
  have hdrop : ((b.length : ℤ) - 1 - k + (k + 1 - b.length : ℕ)).toNat
      = b.length - 1 + (k + 1 - b.length) - k := by omega
  dsimp only
  rw [htake, hdrop, hzip, if_pos, hdot]
  refine ⟨?_, ?_⟩
  · rw [← List.length_pos_iff, List.length_drop, List.length_take]
    omega
  · rw [List.length_drop, List.length_take, List.length_drop, List.length_take, List.length_reverse]
    omega

theorem bnMul_spec {a b : Nums} (ha : Num a) (hb : Num b) (hlen : a.length ≤ 2048) :
    ∃ p, bnMul a b = some p ∧ Num p ∧ val p = val a * val b := by
  have hapos := List.length_pos_iff.mpr ha.ne_nil
  have hbpos := List.length_pos_iff.mpr hb.ne_nil
  have hlimb : ∀ k ∈ List.range (a.length + b.length - 1), mulLimb a b.reverse k = some (place a b k) :=
    fun k hk => (mulLimb_eq ha hb hlen (List.mem_range.mp hk)).1
  have hmapM : (List.range (a.length + b.length - 1)).mapM (mulLimb a b.reverse)
      = some ((List.range (a.length + b.length - 1)).map (place a b)) := by
    generalize List.range (a.length + b.length - 1) = ks at hlimb
    induction ks with
    | nil => rfl
    | cons k ks ih =>
        rw [List.mapM_cons, hlimb k List.mem_cons_self, ih fun k hk => hlimb k (List.mem_cons_of_mem _ hk)]
        rfl
  have hval : val ((List.range (a.length + b.length - 1)).map (place a b) ++ [0]) = val a * val b := by
    rw [val_append]
    have hprod := value_mul (b := base) a b (n := a.length + b.length - 1) (by omega) ha.ne_nil hb.ne_nil
    have hzero : val [0] = 0 := rfl
    rw [hzero, mul_zero, add_zero]
    exact hprod
  have hsmall : Small ((List.range (a.length + b.length - 1)).map (place a b) ++ [0]) := by
    intro d hd
    rw [List.mem_append] at hd
    have hmost : 0 ≤ most := by decide +kernel
    cases hd with
    | inl hd =>
        obtain ⟨k, hk, rfl⟩ := List.mem_map.mp hd
        have hbound := (mulLimb_eq ha hb hlen (List.mem_range.mp hk)).2
        exact ⟨by linarith, hbound.2⟩
    | inr hd =>
        rw [List.mem_singleton.mp hd]
        exact ⟨by linarith, hmost⟩
  obtain ⟨p, hp, hnum, hvp, -⟩ := bnNorm_spec 0 (by simp) digits_nil hsmall
    (by rw [List.drop_zero, hval]; exact mul_nonneg ha.val_nonneg hb.val_nonneg)
  refine ⟨p, ?_, hnum, hvp.trans hval⟩
  unfold bnMul
  rw [hmapM]
  exact hp

/-! ## Moves -/

theorem bnShl_spec {a : Nums} (ha : Num a) {s : ℕ} (hs : s ≤ 26) :
    ∃ l, bnShl a s = some l ∧ Num l ∧ val l = val a * 2 ^ s ∧
      (val a * 2 ^ s < base ^ a.length → l.length = a.length) := by
  unfold bnShl
  by_cases h0 : s = 0
  · subst h0
    exact ⟨a, rfl, ha, by simp, fun _ => rfl⟩
  · have hpow : (2 : ℤ) ^ s ≤ 2 ^ 26 := pow_le_pow_right₀ (by norm_num) hs
    have hpos : (0 : ℤ) < 2 ^ s := by positivity
    have hval : val (a.map (· * 2 ^ s)) = val a * 2 ^ s := value_map_mul _ a
    have hsmall : Small (a.map (· * 2 ^ s)) := by
      intro v hv
      obtain ⟨d, hd, rfl⟩ := List.mem_map.mp hv
      have hdigit := ha.digits d hd
      have hnonneg : 0 ≤ d * 2 ^ s := mul_nonneg hdigit.1 hpos.le
      have hle : d * 2 ^ s ≤ 2 ^ 26 * 2 ^ 26 := by
        have hd26 : d ≤ 2 ^ 26 := hdigit.2.le
        exact mul_le_mul hd26 hpow hpos.le (by norm_num)
      have hmost : (2 : ℤ) ^ 26 * 2 ^ 26 ≤ most := by decide +kernel
      exact ⟨by linarith [show (0 : ℤ) ≤ most by decide +kernel], by linarith⟩
    obtain ⟨l, hl, hnum, hvl, hroom⟩ := bnNorm_spec (a := a.map (· * 2 ^ s)) 0
      (by simpa using ha.ne_nil) digits_nil hsmall
      (by rw [List.drop_zero, hval]; exact mul_nonneg ha.val_nonneg hpos.le)
    rw [hval, List.length_map] at hroom
    refine ⟨l, ?_, hnum, hvl.trans hval, hroom⟩
    unfold numsScale
    rw [if_neg h0, if_pos ha.ne_nil, hsmall.word]
    exact hl

/-- What falls from the next limb is what is left over of all that is above. -/
theorem headD_emod {l : Nums} {s : ℕ} (hs : s ≤ 26) : l.headD 0 % 2 ^ s = val l % 2 ^ s := by
  cases l with
  | nil => rfl
  | cons d l =>
      have hbase : base = 2 ^ s * 2 ^ (26 - s) := by
        rw [← pow_add, Nat.add_sub_cancel' hs]
        rfl
      show d % 2 ^ s = (d + base * val l) % 2 ^ s
      rw [hbase, mul_assoc, Int.add_mul_emod_self_left]

theorem shrLimb_eq {d e : ℤ} (hd : 0 ≤ d ∧ d < base) (he : 0 ≤ e) {s : ℕ} (hs : s ≤ 26) :
    ((d.toNat >>> s ||| (e.toNat &&& (2 ^ s - 1)) <<< (26 - s) : ℕ) : ℤ)
      = d / 2 ^ s + 2 ^ (26 - s) * (e % 2 ^ s) := by
  obtain ⟨n, rfl⟩ := Int.eq_ofNat_of_zero_le hd.1
  obtain ⟨m, rfl⟩ := Int.eq_ofNat_of_zero_le he
  have hn : n < 2 ^ 26 := by
    have h := hd.2
    unfold base at h
    exact_mod_cast h
  have hlt : n / 2 ^ s < 2 ^ (26 - s) := by
    apply Nat.div_lt_of_lt_mul
    rwa [← pow_add, Nat.add_sub_cancel' hs]
  rw [Int.toNat_natCast, Int.toNat_natCast, Nat.shiftRight_eq_div_pow,
    Nat.and_two_pow_sub_one_eq_mod, Nat.or_comm, ← Nat.shiftLeft_add_eq_or_of_lt hlt, Nat.shiftLeft_eq]
  push_cast
  ring

theorem shrLimbs_spec {s : ℕ} (hs : s ≤ 26) : ∀ {a : Nums}, Digits base a →
    Digits base (shrLimbs s a) ∧ val (shrLimbs s a) = val a / 2 ^ s ∧ (shrLimbs s a).length = a.length
  | [], _ => ⟨digits_nil, (Int.zero_ediv _).symm, rfl⟩
  | d :: l, h => by
      rw [digits_cons] at h
      obtain ⟨hdigits, hval, hlen⟩ := shrLimbs_spec hs h.2
      have hpos : (0 : ℤ) < 2 ^ s := by positivity
      have hpos' : (0 : ℤ) < 2 ^ (26 - s) := by positivity
      have hbase : base = 2 ^ s * 2 ^ (26 - s) := by
        rw [← pow_add, Nat.add_sub_cancel' hs]
        rfl
      have hhead : 0 ≤ l.headD 0 := by
        cases l with
        | nil => exact le_rfl
        | cons e l => exact (h.2 e List.mem_cons_self).1
      have hmod := Int.emod_lt_of_pos (val l) hpos
      have hmod0 := Int.emod_nonneg (val l) hpos.ne'
      have hdiv := Int.emod_add_mul_ediv (val l) (2 ^ s)
      have hquot : d / 2 ^ s < 2 ^ (26 - s) := by
        apply Int.ediv_lt_of_lt_mul hpos
        rw [mul_comm, ← hbase]
        exact h.1.2
      have hlimb := shrLimb_eq h.1 hhead hs
      rw [headD_emod hs] at hlimb
      rw [shrLimbs, digits_cons, hlimb]
      refine ⟨⟨⟨?_, ?_⟩, hdigits⟩, ?_, by rw [List.length_cons, List.length_cons, hlen]⟩
      · exact add_nonneg (Int.ediv_nonneg h.1.1 hpos.le) (mul_nonneg hpos'.le hmod0)
      · have hle : 2 ^ (26 - s) * (val l % 2 ^ s + 1) ≤ 2 ^ (26 - s) * 2 ^ s :=
          mul_le_mul_of_nonneg_left (by omega) hpos'.le
        rw [hbase]
        linarith
      · show d / 2 ^ s + 2 ^ (26 - s) * (val l % 2 ^ s) + base * val (shrLimbs s l) =
          (d + base * val l) / 2 ^ s
        rw [hval, hbase, mul_assoc, mul_assoc, Int.add_mul_ediv_left _ _ hpos.ne']
        linear_combination 2 ^ (26 - s) * hdiv

theorem bnShr_spec {a : Nums} (ha : Num a) (htrim : Trimmed a) {s : ℕ} (hs : s ≤ 26) :
    Num (bnShr a s) ∧ Trimmed (bnShr a s) ∧ val (bnShr a s) = val a / 2 ^ s := by
  unfold bnShr
  by_cases h0 : s = 0
  · subst h0
    exact ⟨ha, htrim, by simp⟩
  · obtain ⟨hdigits, hval, hlen⟩ := shrLimbs_spec hs ha.digits
    have hne : shrLimbs s a ≠ [] := by
      rw [← List.length_pos_iff, hlen]
      exact List.length_pos_iff.mpr ha.ne_nil
    obtain ⟨hnum, hv, ht, -⟩ := bnTrim_spec ⟨hne, hdigits⟩
    rw [if_neg h0]
    exact ⟨hnum, ht, hv.trans hval⟩

end ChrysaLisp.Bignum
