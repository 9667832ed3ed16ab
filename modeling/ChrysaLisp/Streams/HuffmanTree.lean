import ChrysaLisp.Streams.HuffmanLengths
import Mathlib.Algebra.BigOperators.Intervals
import Mathlib.Algebra.Order.Field.Rat
import Mathlib.Data.List.GetD
import Mathlib.Tactic.Linarith
import Mathlib.Tactic.Ring

set_option autoImplicit false

/-! # The tree of a Huffman code

Whatever is taken as the least, each node that is made has two under it, that were under none, and comes after
them. So there is one that is over all the others, and what halves from a node to those under it
comes at the leaves to what it is at the top (`Grown.halves`). The depth of each is one more than
that of what it is under. -/

namespace ChrysaLisp.HuffmanLengths

open Bounded

variable {n : ℕ} {t t' : Tree}

/-! ## One is taken -/

/-- It is under a node. -/
def Tree.Taken (n : ℕ) (t : Tree) (x : ℕ) : Prop := x < t.leaf ∨ (n ≤ x ∧ x < t.node)

/-- What the leaves that are taken come to more than the nodes that are not. -/
def Tree.surplus (t : Tree) (d : ℕ → ℚ) : ℚ :=
  ∑ x ∈ Finset.range t.leaf, d x - ∑ x ∈ Finset.Ico t.node t.made, d x

/-- Where the queues are. -/
structure Tree.Queues (n : ℕ) (t : Tree) : Prop where
  weight : t.weight.length = 2 * n - 1
  leaf : t.leaf ≤ n
  node : n ≤ t.node
  made : t.node ≤ t.made
  room : t.made ≤ 2 * n - 1

/-- One that was not taken is. -/
structure Takes (n : ℕ) (t : Tree) (r : ℕ) (t' : Tree) : Prop where
  weight : t'.weight = t.weight
  parent : t'.parent = t.parent
  made : t'.made = t.made
  fresh : ¬ t.Taken n r
  before : r < t.made
  taken : ∀ x, t'.Taken n x ↔ t.Taken n x ∨ x = r
  surplus : ∀ d, t'.surplus d = t.surplus d + d r
  count : t'.leaf + t'.node = t.leaf + t.node + 1
  queues : t'.Queues n

theorem takes_leaf (h : t.Queues n) (hlt : t.leaf < n) : Takes n t t.leaf { t with leaf := t.leaf + 1 } where
  weight := rfl
  parent := rfl
  made := rfl
  fresh := by
    rintro (hlt' | ⟨hle, -⟩)
    · exact absurd hlt' (Nat.lt_irrefl _)
    · omega
  before := lt_of_lt_of_le hlt (h.node.trans h.made)
  taken := fun x => by
    unfold Tree.Taken
    simp only
    omega
  surplus := fun d => by
    simp only [Tree.surplus, Finset.sum_range_succ]
    ring
  count := by
    simp only
    omega
  queues := ⟨h.weight, hlt, h.node, h.made, h.room⟩

theorem takes_node (h : t.Queues n) (hlt : t.node < t.made) :
    Takes n t t.node { t with node := t.node + 1 } where
  weight := rfl
  parent := rfl
  made := rfl
  fresh := by
    rintro (hlt' | ⟨-, hlt'⟩)
    · exact absurd (hlt'.trans_le (h.leaf.trans h.node)) (Nat.lt_irrefl _)
    · exact absurd hlt' (Nat.lt_irrefl _)
  before := hlt
  taken := fun x => by
    have hnode := h.node
    unfold Tree.Taken
    simp only
    omega
  surplus := fun d => by
    simp only [Tree.surplus, Finset.sum_eq_sum_Ico_succ_bot hlt]
    ring
  count := by
    simp only
    omega
  queues := ⟨h.weight, h.leaf, h.node.trans (Nat.le_succ _), hlt, h.room⟩

/-- While there is any that is not taken, one is. -/
theorem least_comes (h : t.Queues n) (hleft : t.leaf < n ∨ t.node < t.made) :
    Comes (least n t) fun r => Takes n t r.1 r.2 := by
  have hweight := h.weight
  have hroom := h.room
  unfold least
  by_cases hleaf : t.leaf < n
  · rw [if_pos hleaf]
    by_cases hnone : t.made ≤ t.node
    · rw [if_pos hnone]
      exact ⟨_, rfl, takes_leaf h hleaf⟩
    · rw [if_neg hnone, elem_of_lt (by omega : t.leaf < t.weight.length),
        elem_of_lt (by omega : t.node < t.weight.length)]
      simp only [ok_bind]
      split_ifs
      · exact ⟨_, rfl, takes_leaf h hleaf⟩
      · exact ⟨_, rfl, takes_node h (Nat.lt_of_not_le hnone)⟩
  · rw [if_neg hleaf]
    exact ⟨_, rfl, takes_node h (hleft.resolve_left hleaf)⟩

/-! ## A node is made -/

/-- The nodes that have been made have two under them, each of which is before them. -/
structure Grown (n : ℕ) (t : Tree) : Prop where
  queues : t.Queues n
  parent : t.parent.length = 2 * n - 1
  behind : n < t.made → t.node < t.made
  count : t.leaf + t.node + n = 2 * t.made
  up : ∀ x, t.Taken n x → x < t.parent.getD x 0 ∧ n ≤ t.parent.getD x 0 ∧ t.parent.getD x 0 < t.made
  halves : ∀ d : ℕ → ℚ, (∀ x, t.Taken n x → d x = d (t.parent.getD x 0) / 2) → t.surplus d = 0

theorem getD_set {α : Type} (l : List α) (i k : ℕ) (a b : α) (hi : i < l.length) :
    (l.set i a).getD k b = if k = i then a else l.getD k b := by
  rw [List.getD_eq_getElem?_getD, List.getD_eq_getElem?_getD, List.getElem?_set]
  by_cases hk : i = k
  · rw [if_pos hk, if_pos (hk ▸ hi), if_pos hk.symm, Option.getD_some]
  · rw [if_neg hk, if_neg fun h => hk h.symm]

theorem join_comes (h : Grown n t) (hmade : t.made < 2 * n - 1) :
    Comes (join n t) fun t' => Grown n t' ∧ t'.made = t.made + 1 := by
  have hcount := h.count
  obtain ⟨-, hleaf, hnode, hbehind, -⟩ := h.queues
  have hparent := h.parent
  unfold join
  refine (least_comes h.queues (by omega)).bind ?_
  rintro ⟨a, ta⟩ ha
  simp only at ha
  obtain ⟨hawt, hapar, hamade, hafresh, habefore, hataken, haover, hacount, haq⟩ := ha
  have haleaf := haq.leaf
  refine (least_comes haq (by omega)).bind ?_
  rintro ⟨b, tb⟩ hb
  simp only at hb
  obtain ⟨hbwt, hbpar, hbmade, hbfresh, hbbefore, hbtaken, hbover, hbcount, hbq⟩ := hb
  have hweight := hbq.weight
  have hbnode := hbq.made
  have hab : a ≠ b := fun hab => hbfresh ((hataken b).mpr (Or.inr hab.symm))
  have hpar : tb.parent = t.parent := hbpar.trans hapar
  have hmad : tb.made = t.made := hbmade.trans hamade
  have hlena : a < tb.parent.length := by rw [hpar]; omega
  have hlenb : b < (tb.parent.set a tb.made).length := by rw [List.length_set, hpar]; omega
  simp only [elem_of_lt (by omega : a < tb.weight.length), elem_of_lt (by omega : b < tb.weight.length),
    put_of_lt (by omega : tb.made < tb.weight.length), put_of_lt hlena, put_of_lt hlenb, ok_bind]
  refine ⟨_, rfl, ?_, by simp only; omega⟩
  have hgetD : ∀ x, ((tb.parent.set a tb.made).set b tb.made).getD x 0 =
      if x = a ∨ x = b then t.made else t.parent.getD x 0 := by
    intro x
    rw [getD_set _ _ _ _ _ hlenb, getD_set _ _ _ _ _ hlena, hpar, hmad]
    split_ifs with h1 h2 h3 h3 h3 <;> first | rfl | omega
  have htaken : ∀ x, tb.Taken n x ↔ t.Taken n x ∨ x = a ∨ x = b := by
    intro x
    rw [hbtaken, hataken, or_assoc]
  have hkeep : ∀ x, t.Taken n x → ¬ (x = a ∨ x = b) := by
    rintro x hx (rfl | rfl)
    · exact hafresh hx
    · exact hbfresh ((hataken x).mpr (Or.inl hx))
  refine ⟨⟨by simp only [List.length_set]; exact hweight, hbq.leaf, hbq.node, by simp only; omega,
    by simp only; omega⟩, by simp only [List.length_set, hpar]; exact hparent,
    fun _ => by simp only; omega, by simp only; omega, ?_, ?_⟩
  · intro x hx
    simp only [hgetD]
    rcases (htaken x).mp hx with hx | hx
    · obtain ⟨h1, h2, h3⟩ := h.up x hx
      rw [if_neg (hkeep x hx)]
      omega
    · rw [if_pos hx]
      omega
  · intro d hd
    simp only [hgetD] at hd
    have hbefore : t.surplus d = 0 := h.halves d fun x hx => by
      have hx' := hd x ((htaken x).mpr (Or.inl hx))
      rwa [if_neg (hkeep x hx)] at hx'
    have hda : d a = d t.made / 2 := by
      have hx' := hd a ((htaken a).mpr (Or.inr (Or.inl rfl)))
      rwa [if_pos (Or.inl rfl)] at hx'
    have hdb : d b = d t.made / 2 := by
      have hx' := hd b ((htaken b).mpr (Or.inr (Or.inr rfl)))
      rwa [if_pos (Or.inr rfl)] at hx'
    have hover : tb.surplus d = d t.made := by
      rw [hbover, haover, hbefore, hda, hdb]
      ring
    simp only [Tree.surplus] at hover ⊢
    rw [Finset.sum_Ico_succ_top hbnode, hmad]
    rw [hmad] at hover
    linarith

theorem grow_comes {turns : ℕ} (h : Grown n t) (hturns : 2 * n - 1 - t.made < turns) :
    Comes (grow n turns t) fun t' => Grown n t' ∧ t'.made = 2 * n - 1 := by
  induction turns generalizing t with
  | zero => exact absurd hturns (Nat.not_lt_zero _)
  | succ turns ih =>
      unfold grow
      by_cases hmade : t.made < 2 * n - 1
      · rw [if_pos hmade]
        refine (join_comes h hmade).bind fun t' ⟨h', hmade'⟩ => ih h' ?_
        omega
      · rw [if_neg hmade]
        have hroom := h.queues.room
        exact ⟨t, rfl, h, by omega⟩

theorem grown_start {weight : List (BitVec 64)} (hweight : weight.length = 2 * n - 1) (hn : 1 ≤ n) :
    Grown n ⟨weight, List.replicate (2 * n - 1) 0, 0, n, n⟩ where
  queues := ⟨hweight, Nat.zero_le n, le_rfl, le_rfl, by simp only; omega⟩
  parent := List.length_replicate
  behind := fun h => absurd h (Nat.lt_irrefl n)
  count := by
    simp only
    omega
  up := by
    rintro x (hx | ⟨hle, hlt⟩)
    · exact absurd hx (Nat.not_lt_zero x)
    · exact absurd hlt (Nat.not_lt.mpr hle)
  halves := fun d _ => by simp [Tree.surplus]

/-- At the end all but the last are under one that is after them, and there is the one at the top. -/
theorem Grown.top (h : Grown n t) (hn : 2 ≤ n) (hmade : t.made = 2 * n - 1) :
    (∀ x < 2 * n - 2, x < t.parent.getD x 0 ∧ n ≤ t.parent.getD x 0 ∧ t.parent.getD x 0 ≤ 2 * n - 2) ∧
      ∀ d : ℕ → ℚ, (∀ x < 2 * n - 2, d x = d (t.parent.getD x 0) / 2) →
        ∑ x ∈ Finset.range n, d x = d (2 * n - 2) := by
  have hcount := h.count
  have hbehind := h.behind (by omega)
  have hleaf := h.queues.leaf
  have hl : t.leaf = n := by omega
  have hno : t.node = 2 * n - 2 := by omega
  have htaken : ∀ x, t.Taken n x ↔ x < 2 * n - 2 := by
    intro x
    unfold Tree.Taken
    omega
  constructor
  · intro x hx
    obtain ⟨h1, h2, h3⟩ := h.up x ((htaken x).mpr hx)
    omega
  · intro d hd
    have hover := h.halves d fun x hx => hd x ((htaken x).mp hx)
    have hIco : Finset.Ico t.node t.made = {2 * n - 2} := by
      rw [hno, hmade, show 2 * n - 1 = 2 * n - 2 + 1 by omega, Nat.Ico_succ_singleton]
    rw [Tree.surplus, hl, hIco, Finset.sum_singleton] at hover
    linarith

/-! ## The depths -/

variable {parent : List ℕ} {m : ℕ}

/-- Each is one deeper than what it is under. -/
theorem depths_comes (hparent : m ≤ parent.length)
    (hup : ∀ x < m, x < parent.getD x 0 ∧ parent.getD x 0 ≤ m) {i : ℕ}
    (hi : i ≤ m) {depth : List ℕ} (hlen : depth.length = m + 1)
    (hdone : ∀ x < m, i ≤ x → depth.getD x 0 = depth.getD (parent.getD x 0) 0 + 1) :
    Comes (depths parent i depth) fun out => out.length = m + 1 ∧ out.getD m 0 = depth.getD m 0 ∧
      ∀ x < m, out.getD x 0 = out.getD (parent.getD x 0) 0 + 1 := by
  induction i generalizing depth with
  | zero => exact ⟨depth, rfl, hlen, rfl, fun x hx => hdone x hx (Nat.zero_le x)⟩
  | succ i ih =>
      obtain ⟨hlt, hle⟩ := hup i hi
      have hset := getD_set depth i
      unfold depths
      simp only [elem_getD 0 (by omega : i < parent.length),
        elem_getD 0 (by omega : parent.getD i 0 < depth.length),
        put_of_lt (by omega : i < depth.length), ok_bind]
      obtain ⟨out, hout, hlen', htop, hall⟩ := @ih (by omega)
        (depth.set i (depth.getD (parent.getD i 0) 0 + 1)) (by rw [List.length_set, hlen]) fun x hx hix => by
          obtain ⟨hxlt, -⟩ := hup x hx
          rw [hset _ _ _ (by omega), hset _ _ _ (by omega), if_neg (by omega : parent.getD x 0 ≠ i)]
          by_cases hxi : x = i
          · rw [if_pos hxi, hxi]
          · rw [if_neg hxi]
            exact hdone x hx (by omega)
      refine ⟨out, hout, hlen', ?_, hall⟩
      rw [htop, hset _ _ _ (by omega), if_neg (by omega)]

/-- None is deeper than there are nodes over it. -/
theorem depth_le {depth : List ℕ} (hup : ∀ x < m, x < parent.getD x 0 ∧ parent.getD x 0 ≤ m)
    (htop : depth.getD m 0 = 0) (hdeep : ∀ x < m, depth.getD x 0 = depth.getD (parent.getD x 0) 0 + 1) :
    ∀ k x, x + k = m → depth.getD x 0 ≤ k := by
  intro k
  induction k using Nat.strong_induction_on with
  | _ k ih =>
      intro x hx
      rcases Nat.eq_zero_or_pos k with rfl | hk
      · rw [show x = m by omega, htop]
      · obtain ⟨hlt, hle⟩ := hup x (by omega)
        have hnext := ih (m - parent.getD x 0) (by omega) (parent.getD x 0) (by omega)
        rw [hdeep x (by omega)]
        omega

end ChrysaLisp.HuffmanLengths
