import ChrysaLisp.Math.BignumArith

set_option autoImplicit false

/-! # A number mod another

The top two limbs of a number over the top limb of the modulus and 1, which is never less than half the
base: a digit so worked out is never too big, as what is under the top limb of the modulus is less than the
1, and never 0, as the top limb of the number is not. So what is left is not under 0 and is less than
there was, and as often as that is done it comes to an end (`digitLoop_spec`). -/

namespace ChrysaLisp.Bignum

open Radix

/-! ## A modulus -/

/-- A number with the top bit of its top limb set. -/
structure Up (up l : Nums) (t : ℤ) : Prop where
  num : Num up
  eq : up = l ++ [t]
  top : 2 ^ 25 ≤ t

theorem Up.lt {up l : Nums} {t : ℤ} (h : Up up l t) : t < base := by
  have hdigits := h.num.digits
  rw [h.eq, digits_append, digits_cons] at hdigits
  exact hdigits.2.1.2

theorem Up.low {up l : Nums} {t : ℤ} (h : Up up l t) : Digits base l := by
  have hdigits := h.num.digits
  rw [h.eq, digits_append] at hdigits
  exact hdigits.1

theorem Up.val_pos {up l : Nums} {t : ℤ} (h : Up up l t) : 0 < val up := by
  have hl : 0 ≤ val l := h.low.value_nonneg base_pos
  have hpos : 0 < base ^ l.length * t := mul_pos (pow_pos base_pos _) (by have := h.top; omega)
  have hval : val up = val l + base ^ l.length * t := by
    rw [h.eq]
    exact value_top l t
  omega

/-- A modulus is the number, and the number moved up till its top bit is set. -/
structure IsModulus (md : Modulus) (m : ℤ) : Prop where
  num : Num md.m
  trimmed : Trimmed md.m
  val_eq : val md.m = m
  pos : 0 < m
  shift_le : md.shift ≤ 26
  up : ∃ l t, Up md.up l t
  val_up : val md.up = m * 2 ^ md.shift

theorem shiftLoop_spec (n : ℕ) : ∀ (top : ℤ) (s : ℕ), top < 2 ^ 26 → 2 ^ 25 ≤ top * 2 ^ n →
    ∃ i, shiftLoop (n + 1) top s = some (s + i) ∧ 2 ^ 25 ≤ top * 2 ^ i ∧ top * 2 ^ i < 2 ^ 26 := by
  induction n with
  | zero =>
      intro top s hlt hle
      rw [pow_zero, mul_one] at hle
      refine ⟨0, ?_, by simpa using hle, by simpa using hlt⟩
      rw [shiftLoop, if_neg (not_lt.mpr hle), Nat.add_zero]
  | succ n ih =>
      intro top s hlt hle
      rw [shiftLoop]
      by_cases htop : top < 2 ^ 25
      · rw [pow_succ' 2 n] at hle
        obtain ⟨i, hi, hge, hlt⟩ := ih (top * 2) (s + 1) (by omega)
          (by rw [mul_assoc]; exact hle)
        refine ⟨i + 1, ?_, ?_, ?_⟩
        · rw [if_pos htop, hi]
          congr 1
          omega
        · rw [pow_succ' 2 i, ← mul_assoc]
          exact hge
        · rw [pow_succ' 2 i, ← mul_assoc]
          exact hlt
      · refine ⟨0, ?_, by simpa using htop, by simpa using hlt⟩
        rw [if_neg htop, Nat.add_zero]

theorem bnModulus_spec {m : Nums} (hm : Num m) (hne : val m ≠ 0) :
    ∃ md, bnModulus m = some md ∧ IsModulus md (val m) ∧ md.m = bnTrim m := by
  obtain ⟨hnum, hval, htrim, -⟩ := bnTrim_spec hm
  unfold bnModulus
  rw [← hval] at hne ⊢
  generalize bnTrim m = x at *
  obtain ⟨l, t, rfl, ht⟩ := htrim
  have hdigits := digits_append.mp hnum.digits
  have htop := (digits_cons.mp hdigits.2).1
  have hvx : val (l ++ [t]) = val l + base ^ l.length * t := value_top l t
  have hlow := hdigits.1.value_lt base_pos
  have ht1 : 1 ≤ t := by
    have ht0 : t ≠ 0 := by
      cases ht with
      | inl ht => exact ht
      | inr hl =>
          intro h0
          rw [hl, h0] at hne
          exact hne rfl
    omega
  have ht26 : t < 2 ^ 26 := htop.2
  have hpl : 0 < base ^ l.length := pow_pos base_pos _
  obtain ⟨s, hs, hge, hlt⟩ := shiftLoop_spec 63 _ 0 ht26 (by omega)
  have hs26 : s < 26 := by
    have hpow : (2 : ℤ) ^ s < 2 ^ 26 := by
      have hle : 1 * (2 : ℤ) ^ s ≤ t * 2 ^ s := mul_le_mul_of_nonneg_right ht1 (by positivity)
      linarith
    exact (pow_lt_pow_iff_right₀ (by norm_num)).mp hpow
  -- there is room for it below the base's next power, so that it has as many limbs
  have hroom : val (l ++ [t]) * 2 ^ s < base ^ (l ++ [t]).length := by
    have hsplit : (2 : ℤ) ^ 26 = 2 ^ (26 - s) * 2 ^ s := by
      rw [← pow_add, Nat.sub_add_cancel hs26.le]
    have hpos : (0 : ℤ) < 2 ^ s := by positivity
    have hquot : t + 1 ≤ 2 ^ (26 - s) := by
      rw [hsplit] at hlt
      exact lt_of_mul_lt_mul_right hlt hpos.le
    have hup : val (l ++ [t]) < base ^ l.length * (t + 1) := by
      rw [hvx]
      have : val l < base ^ l.length := hlow
      linarith
    calc val (l ++ [t]) * 2 ^ s < base ^ l.length * (t + 1) * 2 ^ s := mul_lt_mul_of_pos_right hup hpos
      _ = base ^ l.length * ((t + 1) * 2 ^ s) := by ring
      _ ≤ base ^ l.length * (2 ^ (26 - s) * 2 ^ s) :=
          mul_le_mul_of_nonneg_left (mul_le_mul_of_nonneg_right hquot hpos.le) hpl.le
      _ = base ^ (l ++ [t]).length := by
          rw [← hsplit, List.length_append, List.length_singleton, pow_succ]
          rfl
  obtain ⟨up, hup, hnumUp, hvalUp, hlen⟩ := bnShl_spec hnum hs26.le
  have hlenUp := hlen hroom
  refine ⟨⟨l ++ [t], up, s, (l ++ [t]).length⟩, ?_,
    ⟨hnum, ⟨l, t, rfl, ht⟩, rfl, ?_, hs26.le, ?_, hvalUp⟩, rfl⟩
  · have hlast : (l ++ [t]).getLast? = some t := by simp
    dsimp only
    rw [hlast, Option.bind_eq_bind, Option.bind_some]
    show (shiftLoop 64 t 0).bind _ = _
    rw [hs, Option.bind_some, Nat.zero_add]
    show (bnShl (l ++ [t]) s).bind _ = _
    rw [hup]
    rfl
  · have hge := hnum.val_nonneg
    omega
  · obtain ⟨l', t', hup'⟩ : ∃ l' t', up = l' ++ [t'] := by
      cases List.eq_nil_or_concat up with
      | inl h => exact absurd h hnumUp.ne_nil
      | inr h => simpa using h
    refine ⟨l', t', hnumUp, hup', ?_⟩
    have hdig := hnumUp.digits
    rw [hup', digits_append] at hdig
    have hlow' := hdig.1.value_lt base_pos
    have hlen' : l'.length = l.length := by
      rw [hup', List.length_append, List.length_append] at hlenUp
      simpa using hlenUp
    have hv' : val up = val l' + base ^ l'.length * t' := by
      rw [hup']
      exact value_top l' t'
    by_contra hsmall
    have hle : base ^ l.length * (t' + 1) ≤ base ^ l.length * 2 ^ 25 :=
      mul_le_mul_of_nonneg_left (by omega) hpl.le
    have hge' : base ^ l.length * 2 ^ 25 ≤ base ^ l.length * (t * 2 ^ s) :=
      mul_le_mul_of_nonneg_left hge hpl.le
    have hl0 : 0 ≤ val l * 2 ^ s := mul_nonneg (hdigits.1.value_nonneg base_pos) (by positivity)
    rw [hlen'] at hv' hlow'
    rw [hv', hvx] at hvalUp
    have hval' : val l' < base ^ l.length := hlow'
    linarith

/-! ## A digit of the quotient -/

theorem zipWith_sub_zeros (l : List ℤ) : List.zipWith (· - ·) l (bnZeros l.length) = l := by
  induction l with
  | nil => rfl
  | cons d l ih =>
      show (d - 0) :: List.zipWith (· - ·) l (bnZeros l.length) = d :: l
      rw [ih, sub_zero]

/-- What is worked out of the top two limbs is a digit that is not too big, and not 0. -/
theorem digit_bounds {t y z : ℤ} (ht : 2 ^ 25 ≤ t) (htb : t < base) (hy : 0 ≤ y ∧ y < base)
    (hz : 0 < z ∧ z < base) :
    let q := (z * base + y) / (t + 1)
    1 ≤ q ∧ q ≤ 2 ^ 27 ∧ (t + 1) * q ≤ z * base + y := by
  have hpos : 0 < t + 1 := by omega
  have hzb : base * 1 ≤ z * base := by
    rw [mul_comm z]
    exact mul_le_mul_of_nonneg_left hz.1 base_pos.le
  refine ⟨?_, ?_, Int.mul_ediv_self_le hpos.ne'⟩
  · rw [Int.le_ediv_iff_mul_le hpos]
    omega
  · have hle : z * base + y < 2 ^ 27 * (t + 1) + (t + 1) := by
      unfold base at *
      omega
    have hlt : (z * base + y) / (t + 1) < 2 ^ 27 + 1 :=
      Int.ediv_lt_of_lt_mul hpos (by linarith)
    omega

/-- A number longer than the modulus ends in two limbs, with as many under them as are under the top limb of
the modulus, and more under those. -/
theorem split_long {up l x : Nums} {t : ℤ} (hup : Up up l t) (htrim : Trimmed x)
    (hlen : up.length < x.length) : ∃ lo w y z, x = lo ++ (w ++ [y, z]) ∧ z ≠ 0 ∧ w.length = l.length := by
  obtain ⟨v, z, rfl, hz⟩ := htrim
  have hk : up.length = l.length + 1 := by
    rw [hup.eq, List.length_append, List.length_singleton]
  rw [List.length_append, List.length_singleton, hk] at hlen
  have hv : v ≠ [] := by
    rw [← List.length_pos_iff]
    omega
  obtain ⟨v', y, rfl⟩ : ∃ v' y, v = v' ++ [y] := by
    cases List.eq_nil_or_concat v with
    | inl h => exact absurd h hv
    | inr h => simpa using h
  rw [List.length_append, List.length_singleton] at hlen
  refine ⟨v'.take (v'.length - l.length), v'.drop (v'.length - l.length), y, z, ?_, hz.resolve_right hv, ?_⟩
  · rw [← List.append_assoc, List.take_append_drop, List.append_assoc]
    rfl
  · rw [List.length_drop]
    omega

/-- **One turn takes a multiple of the modulus away**, and not nothing. -/
theorem digit_step {up l x : Nums} {t : ℤ} (hup : Up up l t) (hx : Num x) (htrim : Trimmed x)
    (hlen : up.length < x.length) : ∃ x' q, (∀ turns, digitLoop up (t + 1) (turns + 1) x
      = digitLoop up (t + 1) turns x') ∧ Num x' ∧ Trimmed x' ∧ val x' < val x ∧
        val x = val x' + val up * q := by
  obtain ⟨lo, w, y, z, rfl, hz0, hw⟩ := split_long hup htrim hlen
  have hk : up.length = l.length + 1 := by
    rw [hup.eq, List.length_append, List.length_singleton]
  have hdig := digits_append.mp hx.digits
  have hdig' := digits_append.mp hdig.2
  have hyz := digits_cons.mp hdig'.2
  have hz := (digits_cons.mp hyz.2).1
  obtain ⟨hq1, hq27, hqv⟩ := digit_bounds hup.top hup.lt hyz.1 ⟨by omega, hz.2⟩
  -- the limbs the digit is taken from, and how far up the modulus is moved
  have htotal : (lo ++ (w ++ [y, z])).length = lo.length + l.length + 2 := by
    simp [hw]
    omega
  have hgetz : (lo ++ (w ++ [y, z])).getD ((lo ++ (w ++ [y, z])).length - 1) 0 = z := by
    rw [htotal, ← List.append_assoc, List.getD_append_right _ _ _ _ (by simp [hw])]
    rw [List.length_append, hw, show lo.length + l.length + 2 - 1 - (lo.length + l.length) = 1 by omega]
    rfl
  have hgety : (lo ++ (w ++ [y, z])).getD ((lo ++ (w ++ [y, z])).length - 1 - 1) 0 = y := by
    rw [htotal, ← List.append_assoc, List.getD_append_right _ _ _ _ (by simp [hw])]
    rw [List.length_append, hw, show lo.length + l.length + 2 - 1 - 1 - (lo.length + l.length) = 0 by omega]
    rfl
  have hoff : (lo ++ (w ++ [y, z])).length - 1 - up.length = lo.length := by
    rw [htotal, hk]
    omega
  have hrest : (lo ++ (w ++ [y, z])).length - lo.length - up.length = 1 := by
    rw [htotal, hk]
    omega
  generalize hq : (z * base + y) / (t + 1) = q at hq1 hq27 hqv
  -- the multiple of the modulus, in parts that are no limbs, and what is left of the limbs above `lo`
  have hpartB : ∀ v ∈ up.map (· * q), 0 ≤ v ∧ v ≤ 2 ^ 53 := by
    intro v hv
    obtain ⟨u, hu, rfl⟩ := List.mem_map.mp hv
    have hdigit := hup.num.digits u hu
    have hle : u * q ≤ 2 ^ 26 * 2 ^ 27 := mul_le_mul hdigit.2.le hq27 (by omega) (by norm_num)
    exact ⟨mul_nonneg hdigit.1 (by omega), by linarith⟩
  have hpart : numsScale up q = some (up.map (· * q)) := by
    unfold numsScale
    rw [if_pos hup.num.ne_nil,
      mapM_word fun v hv => ⟨by linarith [(hpartB v hv).1], by linarith [(hpartB v hv).2]⟩]
  have hlenHi : (w ++ [y, z]).length = (up.map (· * q) ++ bnZeros 1).length := by
    simp [hw, hk]
  have hzip : List.zipWith (· - ·) (lo ++ (w ++ [y, z])) (bnZeros lo.length ++ up.map (· * q) ++ bnZeros 1)
      = lo ++ List.zipWith (· - ·) (w ++ [y, z]) (up.map (· * q) ++ bnZeros 1) := by
    rw [List.append_assoc, List.zipWith_append (by simp), zipWith_sub_zeros]
  have hsmallHi : Small (List.zipWith (· - ·) (w ++ [y, z]) (up.map (· * q) ++ bnZeros 1)) :=
    forall_zipWith fun d hd e he => by
      have hd := hdig.2 d hd
      have he : 0 ≤ e ∧ e ≤ 2 ^ 53 := by
        rw [List.mem_append] at he
        cases he with
        | inl he => exact hpartB e he
        | inr he =>
            rw [List.eq_of_mem_replicate he]
            norm_num
      unfold base at hd
      unfold most
      omega
  have hsub : numsSub (lo ++ (w ++ [y, z])) (bnZeros lo.length ++ up.map (· * q) ++ bnZeros 1)
      = some (lo ++ List.zipWith (· - ·) (w ++ [y, z]) (up.map (· * q) ++ bnZeros 1)) := by
    unfold numsSub
    rw [if_pos ⟨hx.ne_nil, by rw [htotal]; simp [hk]; omega⟩, hzip]
    refine mapM_word fun v hv => ?_
    rw [List.mem_append] at hv
    cases hv with
    | inl hv =>
        have hd := hdig.1 v hv
        unfold base at hd
        omega
    | inr hv =>
        have hd := hsmallHi v hv
        unfold most at hd
        omega
  have hvalHi : val (List.zipWith (· - ·) (w ++ [y, z]) (up.map (· * q) ++ bnZeros 1))
      = val (w ++ [y, z]) - val up * q := by
    have hscaled : val (up.map (· * q) ++ bnZeros 1) = val up * q := by
      rw [val_append, val_zeros, mul_zero, add_zero]
      exact value_map_mul q up
    rw [← hscaled]
    exact value_zipWith_sub _ _ hlenHi
  have hnonneg : 0 ≤ val (w ++ [y, z]) - val up * q := by
    have hw0 : 0 ≤ val w := hdig'.1.value_nonneg base_pos
    have hhi : val (w ++ [y, z]) = val w + base ^ l.length * (z * base + y) := by
      rw [val_append, hw]
      show val w + base ^ l.length * (y + base * (z + base * 0)) = _
      ring
    have hupv : val up = val l + base ^ l.length * t := by
      rw [hup.eq]
      exact value_top l t
    have hl : val l < base ^ l.length := hup.low.value_lt base_pos
    have hpl : 0 < base ^ l.length := pow_pos base_pos _
    have hle1 : val up * q ≤ base ^ l.length * (t + 1) * q :=
      mul_le_mul_of_nonneg_right (by rw [hupv]; linarith) (by omega)
    have hle2 : base ^ l.length * ((t + 1) * q) ≤ base ^ l.length * (z * base + y) :=
      mul_le_mul_of_nonneg_left hqv hpl.le
    rw [hhi]
    linarith [mul_assoc (base ^ l.length) (t + 1) q]
  have hneX : lo ++ List.zipWith (· - ·) (w ++ [y, z]) (up.map (· * q) ++ bnZeros 1) ≠ [] := by
    rw [← List.length_pos_iff, List.length_append, List.length_zipWith, ← hlenHi]
    simp
  obtain ⟨n, hn, hnum, hvn, -⟩ := bnNorm_spec lo.length hneX
    (by rw [List.take_left']; exacts [hdig.1, rfl]) (by rw [List.drop_left']; exacts [hsmallHi, rfl])
    (by rw [List.drop_left' rfl, hvalHi]; exact hnonneg)
  obtain ⟨hnumT, hvT, htrimT, -⟩ := bnTrim_spec hnum
  have hvalX : val (bnTrim n) = val (lo ++ (w ++ [y, z])) - val up * (base ^ lo.length * q) := by
    rw [hvT, hvn, val_append, hvalHi, val_append lo]
    ring
  refine ⟨bnTrim n, base ^ lo.length * q, fun turns => ?_, hnumT, htrimT, ?_, by rw [hvalX]; ring⟩
  · have hword : word (z * base) = some (z * base) := by
      have hz26 := hz
      unfold base at hz26 ⊢
      exact word_eq (by omega) (by omega)
    have hword' : word (z * base + y) = some (z * base + y) := by
      have hz26 := hz
      have hy26 := hyz.1
      unfold base at hz26 hy26 ⊢
      exact word_eq (by omega) (by omega)
    rw [digitLoop, if_pos hlen]
    dsimp only
    rw [hgetz, hgety, hoff, hrest, hword, Option.bind_eq_bind, Option.bind_some]
    show (word (z * base + y)).bind _ = _
    rw [hword', Option.bind_some, hq]
    show (numsScale up q).bind _ = _
    rw [hpart, Option.bind_some]
    show (numsSub _ _).bind _ = _
    rw [hsub, Option.bind_some]
    show (bnNorm _ _).bind _ = _
    rw [hn, Option.bind_some]
  · have hpos : 0 < val up * (base ^ lo.length * q) :=
      mul_pos hup.val_pos (mul_pos (pow_pos base_pos _) (by omega))
    omega

/-! ## What is left -/

/-- The turns there may be are more than what is left, and each turn takes something away. -/
theorem digitLoop_spec {up l : Nums} {t : ℤ} (hup : Up up l t) (turns : ℕ) : ∀ {x : Nums}, Num x → Trimmed x →
    val x < turns → ∃ r, digitLoop up (t + 1) turns x = some r ∧ Num r ∧ Trimmed r ∧
      ∃ q, val x = val r + val up * q := by
  induction turns with
  | zero =>
      intro x hx _ hlt
      exact absurd hlt (not_lt.mpr hx.val_nonneg)
  | succ turns ih =>
      intro x hx htrim hlt
      by_cases hlen : up.length < x.length
      · obtain ⟨x', q, hstep, hx', htrim', hless, hval⟩ := digit_step hup hx htrim hlen
        obtain ⟨r, hr, hnum, htrimR, q', hval'⟩ := ih hx' htrim' (by push_cast at hlt; omega)
        refine ⟨r, ?_, hnum, htrimR, q + q', ?_⟩
        · rw [hstep, hr]
        · rw [hval, hval']
          ring
      · refine ⟨x, ?_, hx, htrim, 0, by ring⟩
        rw [digitLoop, if_neg hlen]

theorem lessLoop_spec {up : Nums} (hup : Num up) (hpos : 0 < val up) (turns : ℕ) : ∀ {x : Nums}, Num x →
    Trimmed x → val x < turns → ∃ r, lessLoop up turns x = some r ∧ Num r ∧ Trimmed r ∧ val r < val up ∧
      ∃ q, val x = val r + val up * q := by
  induction turns with
  | zero =>
      intro x hx _ hlt
      exact absurd hlt (not_lt.mpr hx.val_nonneg)
  | succ turns ih =>
      intro x hx htrim hlt
      rw [lessLoop]
      by_cases hle : val up ≤ val x
      · obtain ⟨d, hd, hnumD, htrimD, hvalD⟩ := bnSub_spec hx hup hle
        obtain ⟨r, hr, hnum, htrimR, hltR, q, hval⟩ := ih hnumD htrimD (by push_cast at hlt; omega)
        refine ⟨r, ?_, hnum, htrimR, hltR, q + 1, ?_⟩
        · rw [if_pos ((bnCmp_spec hx hup).mpr hle), hd]
          exact hr
        · linear_combination hval - hvalD
      · refine ⟨x, ?_, hx, htrim, not_le.mp hle, 0, by ring⟩
        rw [if_neg (fun h => hle ((bnCmp_spec hx hup).mp h))]

theorem lt_turnsOf {x : Nums} (hx : Num x) : val x < turnsOf x := by
  have hfold : ∀ l : List ℤ, l.foldr (fun d n => d + base * n) 0 = value base l := by
    intro l
    induction l with
    | nil => rfl
    | cons d l ih => rw [List.foldr_cons, ih, value_cons]
  have hnonneg := hx.val_nonneg
  unfold turnsOf
  rw [hfold]
  show val x < ((val x).toNat + 1 : ℕ)
  push_cast
  rw [Int.toNat_of_nonneg hnonneg]
  omega

theorem bnReduce_spec {up l x : Nums} {t : ℤ} (hup : Up up l t) (hx : Num x) :
    ∃ r, bnReduce x up = some r ∧ Num r ∧ Trimmed r ∧ val r = val x % val up := by
  obtain ⟨hnum, hval, htrim, -⟩ := bnTrim_spec hx
  obtain ⟨y, hy, hnumY, htrimY, q, hvalY⟩ := digitLoop_spec hup _ hnum htrim (lt_turnsOf hnum)
  obtain ⟨r, hr, hnumR, htrimR, hlt, q', hvalR⟩ :=
    lessLoop_spec hup.num hup.val_pos _ hnumY htrimY (lt_turnsOf hnumY)
  have hlast : up.getLast? = some t := by
    rw [hup.eq]
    simp
  refine ⟨r, ?_, hnumR, htrimR, ?_⟩
  · unfold bnReduce
    rw [hlast, Option.bind_eq_bind, Option.bind_some]
    show (digitLoop up (t + 1) _ (bnTrim x)).bind _ = _
    rw [hy, Option.bind_some, hr]
  · have hsum : val x = val r + val up * (q + q') := by
      rw [← hval, hvalY, hvalR]
      ring
    rw [hsum, Int.add_mul_emod_self_left, Int.emod_eq_of_lt hnumR.val_nonneg hlt]

/-! ## Mod -/

variable {md : Modulus} {m : ℤ}

/-- **`bn-mod` is what is left over the modulus.** -/
theorem IsModulus.bnMod_spec (h : IsModulus md m) {x : Nums} (hx : Num x) :
    ∃ r, bnMod x md = some r ∧ Num r ∧ Trimmed r ∧ val r = val x % m := by
  obtain ⟨l, t, hup⟩ := h.up
  obtain ⟨y, hy, hnumY, hvalY, -⟩ := bnShl_spec hx h.shift_le
  obtain ⟨r, hr, hnumR, htrimR, hvalR⟩ := bnReduce_spec hup hnumY
  obtain ⟨hnumS, htrimS, hvalS⟩ := bnShr_spec hnumR htrimR h.shift_le
  have hpos : (0 : ℤ) < 2 ^ md.shift := by positivity
  refine ⟨bnShr r md.shift, ?_, hnumS, htrimS, ?_⟩
  · unfold bnMod
    rw [hy, Option.bind_eq_bind, Option.bind_some]
    show (bnReduce y md.up).bind _ = _
    rw [hr]
    rfl
  · rw [hvalS, hvalR, hvalY, h.val_up, mul_comm (val x), mul_comm m, Int.mul_emod_mul_of_pos _ _ hpos,
      Int.mul_ediv_cancel_left _ hpos.ne']

theorem IsModulus.bnMulmod_spec (h : IsModulus md m) {a b : Nums} (ha : Num a) (hb : Num b)
    (hlen : a.length ≤ 2048) :
    ∃ r, bnMulmod a b md = some r ∧ Num r ∧ Trimmed r ∧ val r = val a * val b % m := by
  obtain ⟨p, hp, hnumP, hvalP⟩ := bnMul_spec ha hb hlen
  obtain ⟨r, hr, hnum, htrim, hval⟩ := h.bnMod_spec hnumP
  refine ⟨r, ?_, hnum, htrim, by rw [hval, hvalP]⟩
  unfold bnMulmod
  rw [hp]
  exact hr

/-- A sum mod the modulus, of two numbers that are less than it. -/
theorem IsModulus.bnAddmod_spec (h : IsModulus md m) {a b : Nums} (ha : Num a) (hb : Num b)
    (ham : val a < m) (hbm : val b < m) :
    ∃ r, bnAddmod a b md = some r ∧ Num r ∧ Trimmed r ∧ val r = (val a + val b) % m := by
  obtain ⟨s, hs, hnumS, hvalS⟩ := bnAdd_spec ha hb
  have ha0 := ha.val_nonneg
  have hb0 := hb.val_nonneg
  unfold bnAddmod
  rw [hs, Option.bind_eq_bind, Option.bind_some]
  by_cases hle : m ≤ val s
  · have hcmp : 0 ≤ bnCmp s md.m := (bnCmp_spec hnumS h.num).mpr (by rw [h.val_eq]; exact hle)
    obtain ⟨d, hd, hnum, htrim, hval⟩ := bnSub_spec hnumS h.num (by rw [h.val_eq]; exact hle)
    refine ⟨d, ?_, hnum, htrim, ?_⟩
    · rw [if_pos hcmp, hd]
    · rw [hval, h.val_eq, hvalS, ← Int.sub_emod_right, Int.emod_eq_of_lt (by omega) (by omega)]
  · have hcmp : ¬ 0 ≤ bnCmp s md.m := by
      rw [bnCmp_spec hnumS h.num, h.val_eq]
      exact hle
    obtain ⟨hnum, hval, htrim, -⟩ := bnTrim_spec hnumS
    refine ⟨bnTrim s, ?_, hnum, htrim, ?_⟩
    · rw [if_neg hcmp]
      rfl
    · rw [hval, hvalS, Int.emod_eq_of_lt (by omega) (by omega)]

/-- A difference mod the modulus, of two numbers that are less than it. -/
theorem IsModulus.bnSubmod_spec (h : IsModulus md m) {a b : Nums} (ha : Num a) (hb : Num b)
    (ham : val a < m) (hbm : val b < m) :
    ∃ r, bnSubmod a b md = some r ∧ Num r ∧ Trimmed r ∧ val r = (val a - val b) % m := by
  have ha0 := ha.val_nonneg
  have hb0 := hb.val_nonneg
  unfold bnSubmod
  by_cases hle : val b ≤ val a
  · obtain ⟨d, hd, hnum, htrim, hval⟩ := bnSub_spec ha hb hle
    refine ⟨d, ?_, hnum, htrim, ?_⟩
    · rw [if_pos ((bnCmp_spec ha hb).mpr hle), hd]
    · rw [hval, Int.emod_eq_of_lt (by omega) (by omega)]
  · obtain ⟨s, hs, hnumS, hvalS⟩ := bnAdd_spec ha h.num
    rw [h.val_eq] at hvalS
    obtain ⟨d, hd, hnum, htrim, hval⟩ := bnSub_spec hnumS hb (by omega)
    refine ⟨d, ?_, hnum, htrim, ?_⟩
    · rw [if_neg (fun hc => hle ((bnCmp_spec ha hb).mp hc)), hs]
      exact hd
    · rw [hval, hvalS, ← Int.add_emod_right, Int.emod_eq_of_lt (by omega) (by omega)]
      ring

end ChrysaLisp.Bignum
