import ChrysaLisp.Streams.HuffmanLimit

set_option autoImplicit false

/-! # A complete code of a limited length

The lengths that the counts give out, from the last of the symbols, which is the most often, to the first
(`assign_comes`), and what `huffman-lengths` comes to. -/

namespace ChrysaLisp.HuffmanLengths

open Bounded Weights

variable {n limit : ℕ} {freqs : List (BitVec 64)}

/-! ## The lengths are given out -/

/-- Where there is something to give out there is a length left that is not too long. -/
theorem le_limit_of_all {counts : List ℤ} {left len : ℕ} (hall : weigh 1 counts = (left + 1 : ℕ))
    (hlow : ∀ k < len, counts.getD k 0 = 0) (hover : ∀ k, limit < k → counts.getD k 0 = 0) : len ≤ limit := by
  by_contra hlt
  have hzero : ∀ k < counts.length, counts.getD k 0 = 0 := by
    intro k _
    by_cases hk : k < len
    · exact hlow k hk
    · exact hover k (by omega)
  rw [weigh_drop hzero, List.drop_length, weigh_nil, mul_zero] at hall
  have hpos : (0 : ℚ) < (left + 1 : ℕ) := Nat.cast_pos.mpr (Nat.succ_pos left)
  exact absurd hall hpos.ne

theorem assign_comes (syms : List ℕ) (turns : ℕ) {left len : ℕ} {counts : List ℤ} (lengths : List ℕ)
    (hnonneg : ∀ k, 0 ≤ counts.getD k 0) (hall : weigh 1 counts = left)
    (hlow : ∀ k < len, counts.getD k 0 = 0)
    (hover : ∀ k, limit < k → counts.getD k 0 = 0) (hlen : limit < counts.length) (hleft : left ≤ syms.length)
    (hnodup : syms.Nodup) (hsyms : ∀ s ∈ syms, s < lengths.length)
    (hturns : left + (limit + 1 - len) < turns) :
    Comes (assign syms turns left len counts lengths) fun out =>
      out.length = lengths.length ∧
      (∀ s, s ∉ syms.take left → out.getD s 0 = lengths.getD s 0) ∧
      (∀ s ∈ syms.take left, len ≤ out.getD s 0 ∧ out.getD s 0 ≤ limit) ∧
      (syms.take left).Pairwise (fun a b => out.getD b 0 ≤ out.getD a 0) ∧
      ((syms.take left).map fun s => (1 / 2 : ℚ) ^ out.getD s 0).sum = weigh (1 / 2) counts := by
  induction turns generalizing left len counts lengths with
  | zero => exact absurd hturns (Nat.not_lt_zero _)
  | succ turns ih =>
      cases left with
      | zero =>
          have hmem := forall_mem_nonneg hnonneg
          have hge : 0 ≤ weigh (1 / 2) counts := weigh_nonneg (by norm_num) hmem
          have hle : weigh (1 / 2) counts ≤ weigh 1 counts := weigh_le_one (by norm_num) (by norm_num) hmem
          rw [hall, Nat.cast_zero] at hle
          refine ⟨lengths, rfl, rfl, fun s _ => rfl, ?_, ?_, ?_⟩
          · intro s hs
            rw [List.take_zero] at hs
            exact absurd hs List.not_mem_nil
          · rw [List.take_zero]
            exact List.Pairwise.nil
          · rw [List.take_zero, List.map_nil, List.sum_nil]
            exact le_antisymm hge hle
      | succ left =>
          have hlim := le_limit_of_all hall hlow hover
          have hlt : len < counts.length := by omega
          unfold assign
          rw [elem_getD 0 hlt, ok_bind]
          by_cases hc : counts.getD len 0 = 0
          · rw [if_pos hc]
            have hlow' : ∀ k < len + 1, counts.getD k 0 = 0 := by
              intro k hk
              rcases Nat.lt_succ_iff_lt_or_eq.mp hk with hk | rfl
              · exact hlow k hk
              · exact hc
            obtain ⟨out, hout, holen, hrest, hbounds, hpair, hsum⟩ :=
              ih lengths hnonneg hall hlow' hover hlen hleft hsyms (by omega)
            exact ⟨out, hout, holen, hrest,
              fun s hs => ⟨by have := (hbounds s hs).1; omega, (hbounds s hs).2⟩, hpair, hsum⟩
          · rw [if_neg hc]
            have hleft' : left < syms.length := hleft
            have hs := hsyms syms[left] (List.getElem_mem hleft')
            have hget := fun k => getD_set counts len k (counts.getD len 0 - 1) 0 hlt
            have hpos : 1 ≤ counts.getD len 0 := lt_of_le_of_ne (hnonneg len) (Ne.symm hc)
            have htake := List.take_succ_eq_append_getElem hleft'
            have hfresh : syms[left] ∉ syms.take left := by
              have hnd := hnodup.sublist (List.take_sublist (left + 1) syms)
              rw [htake] at hnd
              exact fun hmem => (List.nodup_append.mp hnd).2.2 _ hmem _ (List.mem_singleton.mpr rfl) rfl
            rw [elem_of_lt hleft', ok_bind, put_of_lt hs, ok_bind, put_of_lt hlt, ok_bind]
            obtain ⟨out, hout, holen, hrest, hbounds, hpair, hsum⟩ :=
              @ih left len (counts.set len (counts.getD len 0 - 1)) (lengths.set syms[left] len)
                (fun k => by
                  have hk := hnonneg k
                  rw [hget]
                  split_ifs <;> omega)
                (by
                  rw [weigh_set hlt, hall, one_pow]
                  push_cast
                  ring)
                (fun k hk => by rw [hget, if_neg (by omega), hlow k hk])
                (fun k hk => by rw [hget, if_neg (by omega), hover k hk])
                (by rw [List.length_set]; exact hlen) (by omega)
                (by simpa only [List.length_set] using hsyms) (by omega)
            have hlast : out.getD syms[left] 0 = len := by
              rw [hrest _ hfresh, getD_set _ _ _ _ _ hs, if_pos rfl]
            refine ⟨out, hout, holen.trans List.length_set, ?_, ?_, ?_, ?_⟩
            · intro s hns
              rw [htake, List.mem_append, List.mem_singleton, not_or] at hns
              rw [hrest s hns.1, getD_set _ _ _ _ _ hs, if_neg hns.2]
            · intro s hmem
              rw [htake, List.mem_append, List.mem_singleton] at hmem
              rcases hmem with hmem | rfl
              · exact hbounds s hmem
              · exact ⟨hlast.ge, hlast.le.trans hlim⟩
            · rw [htake, List.pairwise_append]
              refine ⟨hpair, List.pairwise_singleton _ _, ?_⟩
              intro a ha b hb
              rw [List.mem_singleton.mp hb, hlast]
              exact (hbounds a ha).1
            · rw [htake, List.map_append, List.sum_append, hsum, List.map_singleton,
                List.sum_singleton, hlast, weigh_set hlt]
              push_cast
              ring

/-! ## The symbols by how often they are -/

theorem mem_used {s : ℕ} : s ∈ used freqs ↔ s < freqs.length ∧ 0 < (freq freqs s).toInt := by
  rw [used, List.mem_filter, List.mem_range, decide_eq_true_eq]

theorem nodup_used : (used freqs).Nodup := List.nodup_range.filter _

/-- By how often they are, and those that are as often by what they are. -/
def Before (freqs : List (BitVec 64)) (a b : ℕ) : Prop :=
  (freq freqs a).toInt < (freq freqs b).toInt ∨ (freq freqs a).toInt = (freq freqs b).toInt ∧ a ≤ b

instance : DecidableRel (Before freqs) := fun _ _ => inferInstanceAs (Decidable (_ ∨ _))

instance : Std.Total (Before freqs) where
  total a b := by
    unfold Before
    omega

instance : IsTrans ℕ (Before freqs) where
  trans a b c := by
    unfold Before
    omega

/-- What is compared does not go over where both are used. -/
theorem compareUsed_le {a b : ℕ} (ha : 0 < (freq freqs a).toInt) (hb : 0 < (freq freqs b).toInt) :
    compareUsed freqs a b ≤ 0 ↔ Before freqs a b := by
  have hsub : (freq freqs a - freq freqs b).toInt = (freq freqs a).toInt - (freq freqs b).toInt := by
    have hla := (freq freqs a).toInt_lt
    have hlb := (freq freqs b).toInt_lt
    rw [BitVec.toInt_sub, Int.bmod_eq_of_le] <;> omega
  unfold compareUsed Before
  by_cases hd : freq freqs a - freq freqs b = 0
  · have heq : freq freqs a = freq freqs b := by
      rw [sub_eq_zero] at hd
      exact hd
    simp only [heq, sub_self]
    simp
  · have hne : (freq freqs a).toInt ≠ (freq freqs b).toInt := by
      intro heq
      exact hd (by rw [BitVec.toInt_inj.mp heq, sub_self])
    simp only [if_pos hd, hsub]
    omega

theorem sorted_eq : sorted freqs = (used freqs).insertionSort (Before freqs) := by
  have h := List.map_insertionSort (fun a b => compareUsed freqs a b ≤ 0) (Before freqs) id (used freqs)
    fun a ha b hb => compareUsed_le (mem_used.mp ha).2 (mem_used.mp hb).2
  rwa [List.map_id, List.map_id] at h

theorem sorted_perm : (sorted freqs).Perm (used freqs) := List.perm_insertionSort _ _

theorem pairwise_sorted : (sorted freqs).Pairwise (Before freqs) := by
  rw [sorted_eq]
  exact List.pairwise_insertionSort _ _

/-! ## The whole of it -/

theorem sum_take {f : ℕ → ℚ} {l : List ℕ} {m : ℕ} (hm : m ≤ l.length) :
    ((l.take m).map f).sum = ∑ x ∈ Finset.range m, f (l.getD x 0) := by
  induction m with
  | zero => simp
  | succ m ih =>
      rw [List.take_succ_eq_append_getElem hm, List.map_append, List.sum_append, ih (by omega),
        Finset.sum_range_succ, List.map_singleton, List.sum_singleton, List.getD_eq_getElem _ _ hm]

/-- The tree, its depths and the counts of them are a whole code. -/
theorem countLengths_comes (turns : ℕ) (weight : List (BitVec 64)) (hn : 2 ≤ n)
    (hweight : weight.length = 2 * n - 1)
    (hlimit : n ≤ 2 ^ limit) (hturns : n + limit < turns) :
    Comes (countLengths turns n limit weight) fun counts =>
        Full n counts ∧ limit < counts.length ∧ ∀ k, limit < k → counts.getD k 0 = 0 := by
  have hlimit1 : 1 ≤ limit := by
    rcases Nat.eq_zero_or_pos limit with rfl | hpos
    · rw [pow_zero] at hlimit
      omega
    · exact hpos
  unfold countLengths
  refine (grow_comes (grown_start hweight (by omega)) (by simp only; omega)).bind ?_
  rintro t ⟨hgrown, hmade⟩
  obtain ⟨hup, hhalves⟩ := hgrown.top hn hmade
  have hparent := hgrown.parent
  have hup' : ∀ x < 2 * n - 2, x < t.parent.getD x 0 ∧ t.parent.getD x 0 ≤ 2 * n - 2 :=
    fun x hx => ⟨(hup x hx).1, (hup x hx).2.2⟩
  refine (depths_comes (by omega) hup' le_rfl (by rw [List.length_replicate]; omega)
    fun x hx hle => absurd hx (Nat.not_lt.mpr hle)).bind ?_
  rintro depth ⟨hdlen, hdtop, hdeep⟩
  have hdtop0 : depth.getD (2 * n - 2) 0 = 0 := by
    rw [hdtop, List.getD_eq_getElem _ _ (by rw [List.length_replicate]; omega), List.getElem_replicate]
  have hdle := depth_le hup' hdtop0 hdeep
  have hdepth : ∀ x < n, 1 ≤ depth.getD x 0 ∧ depth.getD x 0 ≤ n := by
    intro x hx
    obtain ⟨-, hge, hle⟩ := hup x (by omega)
    have hparentle := hdle (2 * n - 2 - t.parent.getD x 0) (t.parent.getD x 0) (by omega)
    rw [hdeep x (by omega)]
    omega
  have hcounts : ∀ k, (List.replicate (max limit n + 1) (0 : ℤ)).getD k 0 = 0 := by
    intro k
    rw [List.getD_eq_getElem?_getD, List.getElem?_replicate]
    split_ifs <;> rfl
  refine (countDepths_comes (depth.take n) ?_ (by rw [List.length_replicate]; omega) (fun k => (hcounts k).ge)
    (hcounts 0) fun k _ => hcounts k).bind ?_
  · intro d hd
    obtain ⟨x, hx, rfl⟩ := List.getElem_of_mem hd
    rw [List.length_take] at hx
    have hdx := hdepth x (by omega)
    rw [List.getD_eq_getElem _ _ (by omega)] at hdx
    rw [List.getElem_take, List.length_replicate]
    omega
  rintro ⟨counts, most⟩ ⟨hlen, hmost, hnonneg, hroot, hover, hweigh⟩
  simp only at hlen hmost hnonneg hroot hover hweigh
  rw [List.length_replicate] at hlen hmost
  have hsum : ∀ x : ℚ, weigh x counts = ∑ k ∈ Finset.range n, x ^ depth.getD k 0 := by
    intro x
    rw [hweigh, weigh_replicate_zero, zero_add, sum_take (by omega)]
  have hfull : Full n counts := by
    refine ⟨hnonneg, hroot, ?_, ?_⟩
    · rw [hsum]
      simp
    · rw [hsum, hhalves (fun x => (1 / 2) ^ depth.getD x 0) fun x hx =>
        by rw [hdeep x hx, pow_succ]; ring, hdtop0, pow_zero]
  obtain ⟨out, hout, holen, hofull, honone⟩ :=
    limitTo_comes hfull hlimit hlimit1 (by omega) hover (by omega : n < turns)
  exact ⟨out, hout, hofull, by omega, honone⟩

/-- What lengths there are, and none for a symbol that is not used. -/
theorem huffmanLengths_comes (freqs : List (BitVec 64)) (limit : ℕ) (hused : 2 ≤ (used freqs).length)
    (hlimit : (used freqs).length ≤ 2 ^ limit) (turns : ℕ) (hturns : (used freqs).length + limit < turns) :
    ∃ lengths, huffmanLengths turns freqs limit = .ok lengths ∧ lengths.length = freqs.length ∧
      (∀ s, s ∉ used freqs → lengths.getD s 0 = 0) ∧
        (∀ s ∈ used freqs, 1 ≤ lengths.getD s 0 ∧ lengths.getD s 0 ≤ limit) ∧
      ((used freqs).map fun s => (1 / 2 : ℚ) ^ lengths.getD s 0).sum = 1 ∧
      ∀ a ∈ used freqs, ∀ b ∈ used freqs, (freq freqs a).toInt < (freq freqs b).toInt →
        lengths.getD b 0 ≤ lengths.getD a 0 := by
  have hlensorted : (sorted freqs).length = (used freqs).length := sorted_perm.length_eq
  have hmem : ∀ {s}, s ∈ sorted freqs ↔ s ∈ used freqs := sorted_perm.mem_iff
  obtain ⟨counts, hcounts, hfull, hlen, hover⟩ := countLengths_comes turns
    ((sorted freqs).map (freq freqs) ++ List.replicate ((used freqs).length - 1) 0) hused
    (by rw [List.length_append, List.length_map, List.length_replicate, hlensorted]; omega) hlimit hturns
  have hlow : ∀ k < 1, counts.getD k 0 = 0 := by
    intro k hk
    rw [Nat.lt_one_iff.mp hk]
    exact hfull.root
  obtain ⟨lengths, hlengths, hcount, hkept, hbounds, hpair, hsum⟩ := assign_comes (sorted freqs) turns
    (List.replicate freqs.length 0) hfull.nonneg hfull.all hlow hover hlen hlensorted.ge
    (sorted_perm.nodup_iff.mpr nodup_used)
    (fun s hs => by rw [List.length_replicate]; exact (mem_used.mp (hmem.mp hs)).1) (by omega)
  rw [List.take_of_length_le hlensorted.le] at hkept hbounds hpair hsum
  refine ⟨lengths, ?_, ?_, ?_, ?_, ?_, ?_⟩
  · unfold huffmanLengths
    simp only [if_neg (by omega : (used freqs).length ≠ 0),
      if_neg (by omega : (used freqs).length ≠ 1), hcounts, ok_bind]
    exact hlengths
  · rw [hcount, List.length_replicate]
  · intro s hs
    rw [hkept s fun h => hs (hmem.mp h), List.getD_eq_getElem?_getD, List.getElem?_replicate]
    split <;> rfl
  · exact fun s hs => hbounds s (hmem.mpr hs)
  · rw [hfull.whole] at hsum
    exact ((sorted_perm.map _).sum_eq).symm.trans hsum
  · -- whichever of the two is given its length first, the less often one has not the shorter
    have hfirst : (sorted freqs).Pairwise fun a b =>
        (freq freqs a).toInt < (freq freqs b).toInt → lengths.getD b 0 ≤ lengths.getD a 0 := by
      refine hpair.imp ?_
      intro a b hle _
      exact hle
    have hsecond : (sorted freqs).Pairwise fun a b =>
        (freq freqs b).toInt < (freq freqs a).toInt → lengths.getD a 0 ≤ lengths.getD b 0 := by
      refine pairwise_sorted.imp ?_
      rintro a b (hlt | ⟨heq, -⟩) hgt
      · exact absurd hgt hlt.asymm
      · exact absurd hgt heq.not_gt
    intro a ha b hb
    exact hfirst.forall_of_forall_of_flip (fun _ _ hlt => absurd hlt (lt_irrefl _)) hsecond (hmem.mpr ha)
      (hmem.mpr hb)

/-- Given enough turns there are lengths for the symbols that are used, each from 1 to the limit,
    that are the whole of a code, and no symbol has a longer one than what is less often. -/
theorem huffmanLengths_complete (freqs : List (BitVec 64)) (limit : ℕ) (hused : 2 ≤ (used freqs).length)
    (hlimit : (used freqs).length ≤ 2 ^ limit) (turns : ℕ) (hturns : (used freqs).length + limit < turns) :
    ∃ lengths, huffmanLengths turns freqs limit = .ok lengths ∧ lengths.length = freqs.length ∧
      (∀ s ∈ used freqs, 1 ≤ lengths.getD s 0 ∧ lengths.getD s 0 ≤ limit) ∧
      ((used freqs).map fun s => (1 / 2 : ℚ) ^ lengths.getD s 0).sum = 1 ∧
      ∀ a ∈ used freqs, ∀ b ∈ used freqs, (freq freqs a).toInt < (freq freqs b).toInt →
        lengths.getD b 0 ≤ lengths.getD a 0 := by
  obtain ⟨lengths, hlengths, hcount, -, hbounds, hsum, hless⟩ :=
    huffmanLengths_comes freqs limit hused hlimit turns hturns
  exact ⟨lengths, hlengths, hcount, hbounds, hsum, hless⟩

/-- Four symbols and a limit of two bits: the tree is of three, and is brought down to two. -/
theorem huffmanLengths_complete_of_four :
    ∃ lengths, huffmanLengths 7 [1, 1, 0, 2, 4] 2 = .ok lengths ∧ lengths.length = 5 ∧
      (∀ s ∈ used [1, 1, 0, 2, 4], 1 ≤ lengths.getD s 0 ∧ lengths.getD s 0 ≤ 2) ∧
      ((used [1, 1, 0, 2, 4]).map fun s => (1 / 2 : ℚ) ^ lengths.getD s 0).sum = 1 ∧
      ∀ a ∈ used [1, 1, 0, 2, 4], ∀ b ∈ used [1, 1, 0, 2, 4],
        (freq [1, 1, 0, 2, 4] a).toInt < (freq [1, 1, 0, 2, 4] b).toInt →
          lengths.getD b 0 ≤ lengths.getD a 0 :=
  huffmanLengths_complete [1, 1, 0, 2, 4] 2 (by decide) (by decide) 7 (by decide)

example : huffmanLengths 7 [1, 1, 0, 2, 4] 2 = .ok [2, 2, 0, 2, 2] := by decide +kernel

end ChrysaLisp.HuffmanLengths
