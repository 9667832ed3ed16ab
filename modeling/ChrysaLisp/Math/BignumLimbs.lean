import ChrysaLisp.Library.Radix
import ChrysaLisp.Math.Bignum

set_option autoImplicit false

/-! # Limbs put right

What a `nums` stands for (`val`), and that `bn-trim`, `bn-norm`, `bn-pad` and `bn-cmp` keep or compare it.
The parts `bn-norm` is given are no more, either way, than a product of 2048 limbs comes to (`most`), so a
part and the carry into it are within 63 bits. -/

namespace ChrysaLisp.Bignum

open Radix

/-- What limbs stand for. -/
def val (a : Nums) : ℤ := value base a

/-- A big number: one limb at least, each of 26 bits. -/
structure Num (a : Nums) : Prop where
  ne_nil : a ≠ []
  digits : Digits base a

/-- The top limb is not 0, or the only one. -/
def Trimmed (a : Nums) : Prop := ∃ l t, a = l ++ [t] ∧ (t ≠ 0 ∨ l = [])

theorem base_pos : 0 < base := by decide

theorem Num.val_nonneg {a : Nums} (h : Num a) : 0 ≤ val a := h.digits.value_nonneg base_pos

theorem Num.val_lt {a : Nums} (h : Num a) : val a < base ^ a.length := h.digits.value_lt base_pos

theorem val_append (l m : Nums) : val (l ++ m) = val l + base ^ l.length * val m := value_append l m

@[simp] theorem val_zeros (n : ℕ) : val (bnZeros n) = 0 := value_replicate_zero n

@[simp] theorem length_zeros (n : ℕ) : (bnZeros n).length = n := List.length_replicate

/-! ## Without limbs of 0 at the top -/

theorem bnTrim_append_zero (a : Nums) (h : a ≠ []) : bnTrim (a ++ [0]) = bnTrim a := by
  unfold bnTrim
  rw [List.rdropWhile_concat, if_pos (by simp), List.take_append_of_le_length (List.length_pos_iff.mpr h)]

theorem bnTrim_append_ne (a : Nums) {t : ℤ} (h : t ≠ 0) : bnTrim (a ++ [t]) = a ++ [t] := by
  unfold bnTrim
  rw [List.rdropWhile_concat, if_neg (by simpa using h)]
  cases a <;> rfl

theorem bnTrim_singleton (t : ℤ) : bnTrim [t] = [t] := by
  by_cases h : t = 0
  · rw [h]
    rfl
  · exact bnTrim_append_ne [] h

/-- **`bn-trim` keeps what a number is**, and leaves a top limb that is not 0. -/
theorem bnTrim_spec {a : Nums} (h : Num a) :
    Num (bnTrim a) ∧ val (bnTrim a) = val a ∧ Trimmed (bnTrim a) ∧ (bnTrim a).length ≤ a.length := by
  obtain ⟨hne, hdigits⟩ := h
  induction a using List.reverseRecOn with
  | nil => exact absurd rfl hne
  | append_singleton l t ih =>
      by_cases hl : l = []
      · subst hl
        rw [List.nil_append, bnTrim_singleton]
        exact ⟨⟨hne, hdigits⟩, rfl, ⟨[], t, rfl, .inr rfl⟩, le_rfl⟩
      · by_cases ht : t = 0
        · subst ht
          obtain ⟨hnum, hval, htrim, hlen⟩ := ih hl (digits_append.mp hdigits).1
          have hkept : val (l ++ [0]) = val l := by
            rw [val_append]
            simp [val]
          rw [bnTrim_append_zero l hl, hkept]
          refine ⟨hnum, hval, htrim, hlen.trans ?_⟩
          simp
        · rw [bnTrim_append_ne l ht]
          exact ⟨⟨hne, hdigits⟩, rfl, ⟨l, t, rfl, .inl ht⟩, le_rfl⟩

theorem bnTrim_of_trimmed {a : Nums} (h : Trimmed a) : bnTrim a = a := by
  obtain ⟨l, t, rfl, ht⟩ := h
  cases ht with
  | inl ht => exact bnTrim_append_ne l ht
  | inr hl =>
      subst hl
      exact bnTrim_singleton t

/-! ## Within 63 bits -/

theorem word_eq {v : ℤ} (h : -2 ^ 63 ≤ v) (hlt : v < 2 ^ 63) : word v = some v := if_pos ⟨h, hlt⟩

theorem mapM_word {l : List ℤ} (h : ∀ v ∈ l, -2 ^ 63 ≤ v ∧ v < 2 ^ 63) : l.mapM word = some l := by
  induction l with
  | nil => rfl
  | cons v l ih =>
      have hv := h v List.mem_cons_self
      rw [List.mapM_cons, word_eq hv.1 hv.2, ih (fun w hw => h w (List.mem_cons_of_mem _ hw))]
      rfl

/-- What 2048 products of two limbs come to, at most. -/
def most : ℤ := 2048 * (2 ^ 26 - 1) ^ 2

/-- Parts that are no more than that, either way. -/
def Small (l : List ℤ) : Prop := ∀ d ∈ l, -most ≤ d ∧ d ≤ most

theorem small_cons {d : ℤ} {l : List ℤ} : Small (d :: l) ↔ (-most ≤ d ∧ d ≤ most) ∧ Small l :=
  List.forall_mem_cons

theorem Small.word {l : List ℤ} (h : Small l) : l.mapM word = some l := by
  refine mapM_word fun v hv => ?_
  have hbound := h v hv
  unfold most at hbound
  omega

/-- The loop of `bn-norm` is the carries, and its own carry no more than 37 bits. -/
theorem normLoop_eq {l : List ℤ} (h : Small l) : ∀ {c : ℤ}, -2 ^ 37 ≤ c → c ≤ 2 ^ 37 →
    normLoop c l = some (carry base c l) ∧ -2 ^ 37 ≤ (carry base c l).2 ∧ (carry base c l).2 ≤ 2 ^ 37 := by
  induction l with
  | nil => exact fun hc hc' => ⟨rfl, hc, hc'⟩
  | cons d l ih =>
      intro c hc hc'
      rw [small_cons] at h
      have hd := h.1
      unfold most at hd
      have hword : word (d + c) = some (d + c) := word_eq (by omega) (by omega)
      have hlow : -2 ^ 37 ≤ (d + c) / base := by
        unfold base
        omega
      have hhigh : (d + c) / base ≤ 2 ^ 37 := by
        unfold base
        omega
      obtain ⟨hloop, hcarry⟩ := ih h.2 hlow hhigh
      rw [normLoop, hword, Option.bind_eq_bind, Option.bind_some, hloop]
      exact ⟨rfl, hcarry⟩

/-- New limbs are digits that come to the carry. -/
theorem overLoop_spec (turns : ℕ) : ∀ {c : ℤ}, 0 ≤ c → c < base ^ turns →
    ∃ l, overLoop (turns + 1) c = some l ∧ Digits base l ∧ val l = c ∧ (c = 0 → l = []) := by
  induction turns with
  | zero =>
      intro c hc hlt
      have h0 : c = 0 := by
        rw [pow_zero] at hlt
        omega
      refine ⟨[], ?_, digits_nil, h0.symm, fun _ => rfl⟩
      rw [overLoop, if_neg (by omega)]
  | succ turns ih =>
      intro c hc hlt
      rw [overLoop]
      by_cases hpos : 0 < c
      · have hdiv : c / base < base ^ turns := by
          rw [pow_succ] at hlt
          exact Int.ediv_lt_of_lt_mul base_pos hlt
        obtain ⟨l, hl, hdigits, hval, -⟩ := ih (Int.ediv_nonneg hc base_pos.le) hdiv
        refine ⟨c % base :: l, ?_, ?_, ?_, fun h0 => by omega⟩
        · rw [if_pos hpos, hl]
          rfl
        · rw [digits_cons]
          exact ⟨⟨Int.emod_nonneg _ base_pos.ne', Int.emod_lt_of_pos _ base_pos⟩, hdigits⟩
        · show c % base + base * val l = c
          rw [hval]
          exact Int.emod_add_mul_ediv c base
      · have h0 : c = 0 := by omega
        rw [if_neg hpos]
        exact ⟨[], rfl, digits_nil, h0.symm, fun _ => rfl⟩

/-- **`bn-norm` keeps what is stood for**, where the parts it puts right are small and come to a number
that is not under 0; and it adds no limbs where they have room for it. -/
theorem bnNorm_spec {a : Nums} (from' : ℕ) (hne : a ≠ []) (hlow : Digits base (a.take from'))
    (hsmall : Small (a.drop from')) (hnonneg : 0 ≤ val (a.drop from')) :
    ∃ n, bnNorm a from' = some n ∧ Num n ∧ val n = val a ∧
      (val a < base ^ a.length → n.length = a.length) := by
  obtain ⟨hloop, -, hc⟩ := normLoop_eq hsmall (c := 0) (by decide) (by decide)
  have hdigits := digits_carry base_pos 0 (a.drop from')
  have hvalue := value_carry (b := base) 0 (a.drop from')
  have hlen := length_carry (b := base) 0 (a.drop from')
  have hlt := hdigits.value_lt base_pos
  have hsum := List.take_append_drop from' a
  unfold bnNorm
  rw [hloop, Option.bind_eq_bind, Option.bind_some]
  generalize carry base 0 (a.drop from') = r at *
  obtain ⟨l, c⟩ := r
  dsimp only at *
  rw [hlen] at hlt
  have hpow : 0 < base ^ (a.drop from').length := pow_pos base_pos _
  have hc0 : 0 ≤ c := by
    by_contra hneg
    have hmul : base ^ (a.drop from').length * c ≤ base ^ (a.drop from').length * (-1) :=
      mul_le_mul_of_nonneg_left (by omega) hpow.le
    have hval0 : 0 ≤ value base (a.drop from') := hnonneg
    linarith
  obtain ⟨over', hover, hoverDigits, hoverVal, hover0⟩ :=
    overLoop_spec 63 hc0 (lt_of_le_of_lt hc (by decide +kernel))
  have hval : val (a.take from' ++ l ++ over') = val a := by
    have hl : val l + base ^ (a.drop from').length * c = val (a.drop from') := by
      have := hvalue
      rw [add_zero] at this
      exact this
    rw [List.append_assoc, val_append, val_append, hoverVal, hlen, hl, ← val_append, hsum]
  refine ⟨a.take from' ++ l ++ over', ?_, ⟨?_, ?_⟩, hval, ?_⟩
  · rw [if_neg (not_lt.mpr hc0), hover]
    rfl
  · intro hnil
    simp only [List.append_eq_nil_iff] at hnil
    obtain ⟨⟨htake, hl⟩, -⟩ := hnil
    rw [hl, List.length_nil] at hlen
    apply hne
    rw [← hsum, htake, List.length_eq_zero_iff.mp hlen.symm]
    rfl
  · rw [digits_append, digits_append]
    exact ⟨⟨hlow, hdigits⟩, hoverDigits⟩
  · intro hroom
    have hlens : (a.take from').length + (a.drop from').length = a.length := by
      rw [← List.length_append, hsum]
    have hc1 : c = 0 := by
      by_contra hne0
      have htake : 0 ≤ val (a.take from' ++ l) :=
        Digits.value_nonneg base_pos (digits_append.mpr ⟨hlow, hdigits⟩)
      have htop : base ^ a.length * 1 ≤ base ^ a.length * c :=
        mul_le_mul_of_nonneg_left (by omega) (pow_pos base_pos _).le
      rw [← hval, val_append, hoverVal, List.length_append, hlen, hlens] at hroom
      linarith
    rw [hover0 hc1, List.append_nil, List.length_append, hlen, hlens]

/-! ## As many limbs, and which is more -/

theorem length_bnPad {a : Nums} {n : ℕ} (h : a.length ≤ n) : (bnPad a n).length = n := by
  unfold bnPad
  by_cases hlt : a.length < n
  · rw [if_pos hlt, List.length_append, length_zeros]
    omega
  · rw [if_neg hlt]
    omega

theorem bnPad_spec {a : Nums} (h : Num a) (n : ℕ) : Num (bnPad a n) ∧ val (bnPad a n) = val a := by
  unfold bnPad
  by_cases hlt : a.length < n
  · rw [if_pos hlt, val_append, val_zeros, mul_zero, add_zero]
    exact ⟨⟨by simp [h.ne_nil], digits_append.mpr ⟨h.digits, digits_replicate_zero base_pos _⟩⟩, rfl⟩
  · rw [if_neg hlt]
    exact ⟨h, rfl⟩

/-- Limbs from the top down compare as what they stand for does. -/
theorem cmpTop_spec : ∀ {l m : List ℤ}, Digits base l → Digits base m → l.length = m.length →
    (0 ≤ cmpTop l m ↔ val m.reverse ≤ val l.reverse)
  | [], [], _, _, _ => by simp [cmpTop]
  | x :: l, y :: m, hl, hm, h => by
      rw [digits_cons] at hl hm
      have hlen : l.length = m.length := Nat.succ.inj h
      have hl' : Digits base l.reverse := hl.2.sublist (fun d hd => List.mem_reverse.mp hd)
      have hm' : Digits base m.reverse := hm.2.sublist (fun d hd => List.mem_reverse.mp hd)
      have hlen' : l.reverse.length = m.reverse.length := by simpa using hlen
      rw [cmpTop, List.reverse_cons, List.reverse_cons]
      by_cases hxy : x < y
      · have hlt := lt_of_top_lt base_pos hl' hm' hlen' hxy
        rw [if_pos hxy]
        exact ⟨fun h => absurd h (by decide), fun h => absurd h (not_le.mpr hlt)⟩
      · rw [if_neg hxy]
        by_cases hyx : y < x
        · have hlt := lt_of_top_lt base_pos hm' hl' hlen'.symm hyx
          rw [if_pos hyx]
          exact ⟨fun _ => hlt.le, fun _ => by decide⟩
        · have heq : x = y := by omega
          rw [if_neg hyx, cmpTop_spec hl.2 hm.2 hlen, val_append, val_append, hlen', heq]
          exact (add_le_add_iff_right _).symm

theorem Num.lt_of_length {a b : Nums} (ha : Num a) (hb : Num b) (htop : Trimmed b)
    (h : a.length < b.length) : val a < val b := by
  obtain ⟨l, t, rfl, ht⟩ := htop
  have hpos := List.length_pos_iff.mpr ha.ne_nil
  rw [List.length_append, List.length_singleton] at h
  refine lt_of_length_lt base_pos ha.digits hb.digits (ht.resolve_right ?_) (by omega)
  intro hl
  rw [hl, List.length_nil] at h
  omega

/-- **`bn-cmp` compares what two numbers are.** -/
theorem bnCmp_spec {a b : Nums} (ha : Num a) (hb : Num b) : 0 ≤ bnCmp a b ↔ val b ≤ val a := by
  obtain ⟨hna, hva, hta, -⟩ := bnTrim_spec ha
  obtain ⟨hnb, hvb, htb, -⟩ := bnTrim_spec hb
  unfold bnCmp
  rw [← hva, ← hvb]
  dsimp only
  generalize bnTrim a = x at *
  generalize bnTrim b = y at *
  by_cases hlt : x.length < y.length
  · rw [if_pos hlt]
    exact ⟨fun h => absurd h (by decide), fun h => absurd h (not_le.mpr (hna.lt_of_length hnb htb hlt))⟩
  · rw [if_neg hlt]
    by_cases hgt : y.length < x.length
    · rw [if_pos hgt]
      exact ⟨fun _ => (hnb.lt_of_length hna hta hgt).le, fun _ => by decide⟩
    · have hlen : x.reverse.length = y.reverse.length := by
        rw [List.length_reverse, List.length_reverse]
        omega
      rw [if_neg hgt, cmpTop_spec (hna.digits.sublist fun d hd => List.mem_reverse.mp hd)
        (hnb.digits.sublist fun d hd => List.mem_reverse.mp hd) hlen, List.reverse_reverse,
          List.reverse_reverse]

end ChrysaLisp.Bignum
