import ChrysaLisp.Library.Weights
import ChrysaLisp.Streams.HuffmanTree

set_option autoImplicit false

/-! # The limit on the lengths of a Huffman code

How many codes there are of each length takes up the whole of the code before the limit is looked at
and after it (`Full`): two of the longest made one shorter, and a shorter one made two of one
longer, take up what they did. While there is one that is too long there is a shorter one to be
found, as there are no more symbols than codes of the limit, and the longest come in pairs. What is
given out by such counts is a code that takes up the whole too, and the more often a symbol is the
shorter its code. -/

namespace ChrysaLisp.HuffmanLengths

open Bounded Weights

/-! ## Counts -/

/-- The counts of a code of `n` symbols, none of them of no length at all, that leaves nothing of
    the code over. -/
structure Full (n : ℕ) (counts : List ℤ) : Prop where
  nonneg : ∀ k, 0 ≤ counts.getD k 0
  root : counts.getD 0 0 = 0
  all : weigh 1 counts = n
  whole : weigh (1 / 2) counts = 1

variable {n i limit : ℕ} {counts : List ℤ}

theorem forall_mem_nonneg (h : ∀ k, 0 ≤ counts.getD k 0) : ∀ c ∈ counts, 0 ≤ c := by
  intro c hc
  obtain ⟨k, hk, rfl⟩ := List.getElem_of_mem hc
  have hck := h k
  rwa [List.getD_eq_getElem _ _ hk] at hck

theorem change_comes (hi : i < counts.length) (d : ℤ) :
    Comes (change counts i d) fun out => out.length = counts.length ∧
      (∀ k, out.getD k 0 = counts.getD k 0 + if k = i then d else 0) ∧
      ∀ x, weigh x out = weigh x counts + d * x ^ i := by
  unfold change
  rw [elem_getD 0 hi, ok_bind, put_of_lt hi]
  refine ⟨_, rfl, List.length_set, ?_, ?_⟩
  · intro k
    rw [getD_set counts i k _ 0 hi]
    split_ifs with hk
    · rw [hk]
    · rw [add_zero]
  · intro x
    rw [weigh_set hi]
    push_cast
    ring

/-! ## How many there are of each depth -/

theorem countDepths_comes (ds : List ℕ) {most : ℕ} (hds : ∀ d ∈ ds, 1 ≤ d ∧ d < counts.length)
    (hmost : most < counts.length) (hnonneg : ∀ k, 0 ≤ counts.getD k 0) (hroot : counts.getD 0 0 = 0)
    (hover : ∀ k, most < k → counts.getD k 0 = 0) :
    Comes (countDepths ds (counts, most)) fun r => r.1.length = counts.length ∧ r.2 < counts.length ∧
      (∀ k, 0 ≤ r.1.getD k 0) ∧ r.1.getD 0 0 = 0 ∧ (∀ k, r.2 < k → r.1.getD k 0 = 0) ∧
      ∀ x, weigh x r.1 = weigh x counts + (ds.map fun d => x ^ d).sum := by
  induction ds generalizing counts most with
  | nil => exact ⟨_, rfl, rfl, hmost, hnonneg, hroot, hover, fun x => by simp⟩
  | cons d ds ih =>
      obtain ⟨hd1, hdlen⟩ := hds d List.mem_cons_self
      have hget := fun k => getD_set counts d k (counts.getD d 0 + 1) 0 hdlen
      unfold countDepths
      rw [elem_getD 0 hdlen, ok_bind, put_of_lt hdlen, ok_bind]
      have hlen : (counts.set d (counts.getD d 0 + 1)).length = counts.length := List.length_set
      obtain ⟨r, hr, hrlen, hrmost, hrnonneg, hrroot, hrover, hrweigh⟩ :=
        @ih (counts.set d (counts.getD d 0 + 1)) (max most d)
          (fun d' hd' => hlen ▸ hds d' (List.mem_cons_of_mem d hd')) (by rw [hlen]; exact max_lt hmost hdlen)
          (fun k => by
            have hk := hnonneg k
            have hd := hnonneg d
            rw [hget]
            split_ifs <;> omega)
          (by rw [hget, if_neg (by omega), hroot])
          (fun k hk => by
            rw [hget, if_neg (by omega)]
            exact hover k (by omega))
      refine ⟨r, hr, hrlen.trans hlen, hlen ▸ hrmost, hrnonneg, hrroot, hrover, ?_⟩
      intro x
      rw [hrweigh, weigh_set hdlen, List.map_cons, List.sum_cons]
      push_cast
      ring

/-! ## The longest are made shorter -/

/-- The longest there is of those not longer than one that there are any of. -/
theorem shorter_comes {j m : ℕ} (hm : m < counts.length) (hj : j ≤ m) (hcj : counts.getD j 0 ≠ 0) :
    Comes (shorter counts m) fun k => k ≤ m ∧ counts.getD k 0 ≠ 0 := by
  induction m with
  | zero =>
      rw [Nat.le_zero.mp hj] at hcj
      unfold shorter
      rw [elem_getD 0 hm, ok_bind, if_neg hcj]
      exact ⟨0, rfl, le_rfl, hcj⟩
  | succ m ih =>
      unfold shorter
      rw [elem_getD 0 hm, ok_bind]
      by_cases hc : counts.getD (m + 1) 0 = 0
      · rw [if_pos hc]
        have hjm : j ≤ m := by
          rcases Nat.eq_or_lt_of_le hj with rfl | hlt
          · exact absurd hc hcj
          · omega
        obtain ⟨k, hk, hkm, hck⟩ := ih (by omega) hjm
        exact ⟨k, hk, by omega, hck⟩
      · rw [if_neg hc]
        exact ⟨m + 1, rfl, le_rfl, hc⟩

/-- While the longest is longer than `n` symbols need there is one that is shorter by two at least. -/
theorem Full.exists_shorter (h : Full n counts) (hlimit : n ≤ 2 ^ limit) (hi : limit < i)
    (hci : 0 < counts.getD i 0)
    (hover : ∀ k, i < k → counts.getD k 0 = 0) : ∃ j, 1 ≤ j ∧ j + 2 ≤ i ∧ counts.getD j 0 ≠ 0 := by
  by_contra hnone
  push Not at hnone
  obtain ⟨m, rfl⟩ : ∃ m, i = m + 1 := ⟨i - 1, by omega⟩
  have hzero : ∀ k < m, counts.getD k 0 = 0 := by
    intro k hk
    rcases Nat.eq_zero_or_pos k with rfl | hpos
    · exact h.root
    · exact hnone k hpos (by omega)
  have hrest := forall_mem_nonneg h.nonneg
  have hhalf := weigh_half_le (l := counts.drop m) fun c hc => hrest c (List.mem_of_mem_drop hc)
  have hall : weigh 1 (counts.drop m) = n := by
    rw [← h.all, weigh_drop hzero, one_pow, one_mul]
  have hwhole : weigh (1 / 2) (counts.drop m) = 2 ^ m := by
    have hw := h.whole
    rw [weigh_drop hzero, one_div, inv_pow, inv_mul_eq_one₀ (by positivity)] at hw
    rw [one_div, ← hw]
  have hat : (counts.drop m).getD 1 0 = counts.getD (m + 1) 0 := by
    rw [List.getD_eq_getElem?_getD, List.getElem?_drop, List.getD_eq_getElem?_getD]
  have hpos : (0 : ℚ) < counts.getD (m + 1) 0 := Int.cast_pos.mpr hci
  have hn : (n : ℚ) ≤ 2 ^ m := by
    have hle : n ≤ 2 ^ m := hlimit.trans (Nat.pow_le_pow_right (by omega) (by omega))
    exact_mod_cast hle
  rw [hwhole, hall, hat] at hhalf
  linarith

/-- The longest come in pairs. -/
theorem Full.two_le (h : Full n counts) (hi : 1 ≤ i) (hci : 0 < counts.getD i 0)
    (hover : ∀ k, i < k → counts.getD k 0 = 0) : 2 ≤ counts.getD i 0 := by
  obtain ⟨m, rfl⟩ : ∃ m, i = m + 1 := ⟨i - 1, by omega⟩
  obtain ⟨z, hz⟩ := exists_two_mul_add hover
  rw [h.whole, mul_one] at hz
  have heven : (2 : ℤ) ^ (m + 1) = 2 * z + counts.getD (m + 1) 0 := by exact_mod_cast hz
  rw [pow_succ] at heven
  omega

/-- Two of the longest are made shorter, and the code is what it was. -/
theorem shift_comes (h : Full n counts) (hlimit : n ≤ 2 ^ limit) (hlimit1 : 1 ≤ limit) (hi : limit < i)
    (hlen : i < counts.length) (hci : 0 < counts.getD i 0) (hover : ∀ k, i < k → counts.getD k 0 = 0) :
    Comes (shift counts i) fun out => out.length = counts.length ∧ Full n out ∧
      out.getD i 0 = counts.getD i 0 - 2 ∧ ∀ k, i < k → out.getD k 0 = 0 := by
  obtain ⟨j₀, hj₀, hj₀i, hcj₀⟩ := h.exists_shorter hlimit hi hci hover
  have htwo := h.two_le (by omega) hci hover
  unfold shift
  rw [if_neg (by omega)]
  refine (shorter_comes (by omega) (by omega : j₀ ≤ i - 2) hcj₀).bind ?_
  rintro j ⟨hji, hcj⟩
  have hj : 1 ≤ j := by
    rcases Nat.eq_zero_or_pos j with rfl | hpos
    · exact absurd h.root hcj
    · exact hpos
  refine (change_comes hlen (-2)).bind ?_
  rintro c₁ ⟨hlen₁, hget₁, hweigh₁⟩
  refine (change_comes (by omega : i - 1 < c₁.length) 1).bind ?_
  rintro c₂ ⟨hlen₂, hget₂, hweigh₂⟩
  refine (change_comes (by omega : j + 1 < c₂.length) 2).bind ?_
  rintro c₃ ⟨hlen₃, hget₃, hweigh₃⟩
  obtain ⟨c₄, hc₄, hlen₄, hget₄, hweigh₄⟩ := change_comes (by omega : j < c₃.length) (-1)
  have hget : ∀ k, c₄.getD k 0 = counts.getD k 0 + (if k = i then -2 else 0) + (if k = i - 1 then 1 else 0)
      + (if k = j + 1 then 2 else 0) + if k = j then -1 else 0 := by
    intro k
    rw [hget₄, hget₃, hget₂, hget₁]
  have hweigh : ∀ x, weigh x c₄ = weigh x counts - 2 * x ^ i + x ^ (i - 1) + 2 * x ^ (j + 1) - x ^ j := by
    intro x
    rw [hweigh₄, hweigh₃, hweigh₂, hweigh₁]
    push_cast
    ring
  refine ⟨c₄, hc₄, by omega, ⟨?_, ?_, ?_, ?_⟩, ?_, ?_⟩
  · intro k
    have hk := h.nonneg k
    have hposj : 0 < counts.getD j 0 := lt_of_le_of_ne (h.nonneg j) (Ne.symm hcj)
    rw [hget]
    by_cases hkj : k = j
    · rw [hkj] at hk ⊢
      split_ifs <;> omega
    · by_cases hki : k = i
      · rw [hki]
        split_ifs <;> omega
      · split_ifs <;> omega
  · rw [hget, h.root, if_neg (by omega), if_neg (by omega), if_neg (by omega), if_neg (by omega)]
    rfl
  · rw [hweigh, h.all]
    simp only [one_pow]
    ring
  · obtain ⟨m, rfl⟩ : ∃ m, i = m + 1 := ⟨i - 1, by omega⟩
    rw [hweigh, h.whole, Nat.add_sub_cancel, pow_succ, pow_succ]
    ring
  · rw [hget]
    split_ifs <;> omega
  · intro k hk
    rw [hget, hover k hk]
    split_ifs <;> omega

/-- There are no more of a length than there are symbols. -/
theorem Full.getD_le (h : Full n counts) (k : ℕ) : counts.getD k 0 ≤ n := by
  have hk := getD_le_weigh (forall_mem_nonneg h.nonneg) k
  rw [h.all] at hk
  exact_mod_cast hk

/-- None of the longest is left. -/
theorem clear_comes {turns : ℕ} (h : Full n counts) (hlimit : n ≤ 2 ^ limit) (hlimit1 : 1 ≤ limit)
    (hi : limit < i)
    (hlen : i < counts.length) (hover : ∀ k, i < k → counts.getD k 0 = 0) (hturns : counts.getD i 0 < turns) :
    Comes (clear i turns counts) fun out => out.length = counts.length ∧ Full n out ∧
      ∀ k, i ≤ k → out.getD k 0 = 0 := by
  induction turns generalizing counts with
  | zero =>
      have hk := h.nonneg i
      omega
  | succ turns ih =>
      unfold clear
      rw [elem_getD 0 hlen, ok_bind]
      by_cases hci : 0 < counts.getD i 0
      · rw [if_pos hci]
        refine (shift_comes h hlimit hlimit1 hi hlen hci hover).bind ?_
        rintro c ⟨hlen', h', hci', hover'⟩
        obtain ⟨out, hout, hlen'', hfull, hnone⟩ := ih h' (by omega) hover' (by omega)
        exact ⟨out, hout, hlen''.trans hlen', hfull, hnone⟩
      · rw [if_neg hci]
        refine ⟨counts, rfl, rfl, h, ?_⟩
        intro k hk
        rcases Nat.eq_or_lt_of_le hk with rfl | hlt
        · exact le_antisymm (Int.not_lt.mp hci) (h.nonneg i)
        · exact hover k hlt

/-- None is longer than the limit. -/
theorem limitTo_comes {turns most : ℕ} (h : Full n counts) (hlimit : n ≤ 2 ^ limit) (hlimit1 : 1 ≤ limit)
    (hlen : most < counts.length) (hover : ∀ k, most < k → counts.getD k 0 = 0) (hturns : n < turns) :
    Comes (limitTo limit turns most counts) fun out => out.length = counts.length ∧ Full n out ∧
      ∀ k, limit < k → out.getD k 0 = 0 := by
  induction most generalizing counts with
  | zero => exact ⟨counts, rfl, rfl, h, fun k hk => hover k (by omega)⟩
  | succ i ih =>
      unfold limitTo
      by_cases hi : limit < i + 1
      · rw [if_pos hi]
        have hle := h.getD_le (i + 1)
        refine (clear_comes h hlimit hlimit1 hi hlen hover (by omega)).bind ?_
        rintro c ⟨hlen', h', hnone⟩
        obtain ⟨out, hout, hlen'', hfull, hover'⟩ := ih h' (by omega) fun k hk => hnone k hk
        exact ⟨out, hout, hlen''.trans hlen', hfull, hover'⟩
      · rw [if_neg hi]
        exact ⟨counts, rfl, rfl, h, fun k hk => hover k (by omega)⟩

end ChrysaLisp.HuffmanLengths
