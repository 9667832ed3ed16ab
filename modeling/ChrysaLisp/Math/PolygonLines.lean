import ChrysaLisp.Library.Trails
import ChrysaLisp.Math.PolygonBand
import Mathlib.Tactic.Module
import Mathlib.Tactic.Linarith

set_option autoImplicit false

/-! # The lines of a band

A band adds to the lines what balances the ends along its top with those along its bottom, one way or
another: a line that is made longer moves its end, a new one brings two. And two lines of one edge never
meet: where they would, the one was made longer. -/

namespace ChrysaLisp.Polygon

open Trails

/-- Ends along a height, by turns one where something starts and one where it stops. -/
def ends (y : ℤ) : List ℤ → Point → ℤ
  | [] => 0
  | x :: l => mark (x, y) - ends y l

/-! ## How many start and stop -/

section Balance

variable {s : Lines} {id : ℕ} {top bottom : Point}

theorem goesOn_eq_some {place : Option ℕ} {fin : Seg → Point} {p : Point} {i : ℕ} {seg : Seg} :
    s.goesOn place fin p = some (i, seg) ↔ place = some i ∧ s.segs[i]? = some seg ∧ fin seg = p := by
  unfold Lines.goesOn
  rw [Option.bind_eq_some_iff]
  constructor
  · rintro ⟨j, hj, hseg⟩
    obtain ⟨seg', hseg', hp⟩ := Option.bind_eq_some_iff.mp hseg
    split_ifs at hp with hfin
    obtain ⟨rfl, rfl⟩ := Prod.mk.inj (Option.some.inj hp)
    exact ⟨hj, hseg', hfin⟩
  · rintro ⟨hplace, hseg, hfin⟩
    refine ⟨i, hplace, ?_⟩
    rw [hseg, Option.bind_some, if_pos hfin]

theorem left_balance : balance Seg.start Seg.stop (s.left id top bottom).segs =
    balance Seg.start Seg.stop s.segs + mark top - mark bottom := by
  unfold Lines.left
  cases hon : s.goesOn (s.openl id) Seg.stop top with
  | none =>
      dsimp only
      rw [balance_append, balance_cons, balance_nil]
      abel
  | some p =>
      obtain ⟨i, seg⟩ := p
      obtain ⟨-, hseg, hstop⟩ := goesOn_eq_some.mp hon
      dsimp only
      rw [balance_set hseg, hstop]
      abel

theorem right_balance : balance Seg.start Seg.stop (s.right id top bottom).segs =
    balance Seg.start Seg.stop s.segs + mark bottom - mark top := by
  unfold Lines.right
  cases hon : s.goesOn (s.openr id) Seg.start top with
  | none =>
      dsimp only
      rw [balance_append, balance_cons, balance_nil]
      abel
  | some p =>
      obtain ⟨i, seg⟩ := p
      obtain ⟨-, hseg, hstart⟩ := goesOn_eq_some.mp hon
      dsimp only
      rw [balance_set hseg, hstart]
      abel

/-- The sides of the pieces are from the ends along the top to those along the bottom. -/
theorem foldl_piece_balance (y0 y1 : ℤ) (out : List Piece) (s : Lines) :
    balance Seg.start Seg.stop (out.foldl (Lines.piece y0 y1) s).segs =
      balance Seg.start Seg.stop s.segs + ends y0 (topEnds out) - ends y1 (bottomEnds out) := by
  induction out generalizing s with
  | nil =>
      rw [List.foldl_nil, topEnds, bottomEnds, List.flatMap_nil, List.flatMap_nil, ends, ends]
      abel
  | cons p out ih =>
      rw [List.foldl_cons, ih, Lines.piece, right_balance, left_balance]
      simp only [topEnds, bottomEnds, List.flatMap_cons, List.cons_append, List.nil_append, ends]
      abel

end Balance

/-! ## Across -/

section Across

variable {y : ℤ} {ia ib : Bool} {px x : ℤ} {above tops : List ℤ}

/-- 1 inside, 0 outside. -/
def one (i : Bool) : ℤ := if i then 1 else 0

/-- What the next end is: where one stops, inside, and where one starts, outside. -/
def turnOf (i : Bool) : ℤ := if i then -1 else 1

theorem acrossSeg_balance (h : px ≤ x ∨ ia = false ∧ ib = false) :
    balance Seg.start Seg.stop (acrossSeg y ia ib px x) =
      (one ia - one ib) • (mark (px, y) - mark (x, y)) := by
  by_cases hlt : px < x
  · rw [acrossSeg, if_pos hlt]
    cases ia <;> cases ib <;>
      simp only [one, Bool.not_true, Bool.not_false, Bool.and_true, Bool.and_false,
        Bool.false_eq_true, if_true, if_false, balance_cons, balance_nil, sub_self, sub_zero,
          zero_sub, zero_smul, one_smul, neg_smul, add_zero, neg_sub]
  · rw [acrossSeg, if_neg hlt, balance_nil]
    rcases h with h | ⟨rfl, rfl⟩
    · rw [le_antisymm h (not_lt.mp hlt), sub_self, smul_zero]
    · rw [sub_self, zero_smul]

theorem one_not (i : Bool) : one (!i) = one i + turnOf i := by
  cases i <;> rfl

theorem turnOf_not (i : Bool) : turnOf (!i) = -turnOf i := by
  cases i <;> rfl

/-- What is still to come of both: each in order, before the sentinel, and inside there are an odd number. -/
structure Coming (n : ℕ) (ia ib : Bool) (above tops : List ℤ) : Prop where
  count : n = above.length + tops.length
  oddAbove : above.length % 2 = if ia then 1 else 0
  oddTops : tops.length % 2 = if ib then 1 else 0
  orderedAbove : above.Pairwise (· ≤ ·)
  orderedTops : tops.Pairwise (· ≤ ·)
  below : ∀ x ∈ above ++ tops, x < maxLong

theorem Coming.swap {n : ℕ} (h : Coming n ia ib above tops) : Coming n ib ia tops above :=
  ⟨h.count.trans (Nat.add_comm _ _), h.oddTops, h.oddAbove, h.orderedTops, h.orderedAbove, fun x hx =>
    h.below x (List.mem_append.mpr (List.mem_append.mp hx).symm)⟩

/-- The first of one list is taken, and it is no more than any there is. -/
theorem Coming.take {n : ℕ} (h : Coming (n + 1) ia ib above tops)
    (hle : above.headD maxLong ≤ tops.headD maxLong) :
    ∃ x above', above = x :: above' ∧ Coming n (!ia) ib above' tops ∧ ∀ x' ∈ above' ++ tops, x ≤ x' := by
  obtain ⟨hcount, hodd, hoddTops, habove, htops, hbelow⟩ := h
  cases above with
  | nil =>
      cases tops with
      | nil => exact absurd hcount (Nat.succ_ne_zero n)
      | cons x tops => exact absurd hle (not_le.mpr (hbelow x List.mem_cons_self))
  | cons x above =>
      rw [List.length_cons] at hcount hodd
      obtain ⟨hfirst, hrest⟩ := List.pairwise_cons.mp habove
      refine ⟨x, above, rfl, ⟨by omega, ?_, hoddTops, hrest, htops, fun x' hx' => hbelow x' ?_⟩,
        fun x' hx' => ?_⟩
      · cases ia with
        | true =>
            have hodd : (above.length + 1) % 2 = 1 := hodd
            exact (by omega : above.length % 2 = 0)
        | false =>
            have hodd : (above.length + 1) % 2 = 0 := hodd
            exact (by omega : above.length % 2 = 1)
      · exact List.mem_cons_of_mem x hx'
      · rcases List.mem_append.mp hx' with hx' | hx'
        · exact hfirst x' hx'
        · cases tops with
          | nil => exact absurd hx' List.not_mem_nil
          | cons x0 tops =>
              rcases List.mem_cons.mp hx' with rfl | hx'
              · exact hle
              · exact le_trans hle ((List.pairwise_cons.mp htops).1 x' hx')

/-- A turn: the least end there is, and what is to come after it. -/
theorem Coming.step {n : ℕ} (h : Coming (n + 1) ia ib above tops) (y px : ℤ) :
    ∃ x ia' ib' above' tops', across y (n + 1) ia ib px above tops =
        acrossSeg y ia ib px x ++ across y n ia' ib' x above' tops' ∧
      Coming n ia' ib' above' tops' ∧ x ∈ above ++ tops ∧
      (∀ x' ∈ above' ++ tops', x ≤ x' ∧ x' ∈ above ++ tops) ∧
      (one ia' - one ib') • mark (x, y) + turnOf ia' • ends y above' - turnOf ib' • ends y tops' =
        (one ia - one ib) • mark (x, y) + turnOf ia • ends y above - turnOf ib • ends y tops := by
  by_cases hle : above.headD maxLong ≤ tops.headD maxLong
  · obtain ⟨x, above', rfl, hcoming, hleast⟩ := h.take hle
    refine ⟨x, !ia, ib, above', tops, ?_, hcoming, List.mem_append_left _ List.mem_cons_self,
      fun x' hx' => ⟨hleast x' hx', List.mem_cons_of_mem x hx'⟩, ?_⟩
    · rw [List.headD_cons] at hle
      rw [across, List.headD_cons, if_pos hle, min_eq_left hle, List.tail_cons]
    · rw [one_not, turnOf_not, ends]
      module
  · obtain ⟨x, tops', rfl, hcoming, hleast⟩ := h.swap.take (le_of_not_ge hle)
    refine ⟨x, ia, !ib, above, tops', ?_, hcoming.swap, List.mem_append_right _ List.mem_cons_self,
      fun x' hx' => ⟨hleast x' (List.mem_append.mpr (List.mem_append.mp hx').symm), ?_⟩, ?_⟩
    · rw [List.headD_cons] at hle
      rw [across, List.headD_cons, if_neg hle, min_eq_right (le_of_not_ge hle), List.tail_cons]
    · rcases List.mem_append.mp hx' with hx' | hx'
      · exact List.mem_append_left _ hx'
      · exact List.mem_append_right _ (List.mem_cons_of_mem x hx')
    · rw [one_not, turnOf_not, ends]
      module

/-- Across there is a line wherever one side has a piece and the other has none. -/
theorem across_balance (y : ℤ) (n : ℕ) :
    ∀ {ia ib : Bool} {px : ℤ} {above tops : List ℤ}, Coming n ia ib above tops →
    ((∀ x ∈ above ++ tops, px ≤ x) ∨ ia = false ∧ ib = false) →
    balance Seg.start Seg.stop (across y n ia ib px above tops) =
      (one ia - one ib) • mark (px, y) + turnOf ia • ends y above - turnOf ib • ends y tops := by
  induction n with
  | zero =>
      intro ia ib px above tops h hpx
      have hcount := h.count
      have habove : above = [] := List.eq_nil_of_length_eq_zero (by omega)
      have htops : tops = [] := List.eq_nil_of_length_eq_zero (by omega)
      have hia := h.oddAbove
      have hib := h.oddTops
      subst habove htops
      cases ia with
      | true => exact absurd hia (by decide)
      | false =>
          cases ib with
          | true => exact absurd hib (by decide)
          | false =>
              rw [across, balance_nil, ends, sub_self]
              module
  | succ n ih =>
      intro ia ib px above tops h hpx
      obtain ⟨x, ia', ib', above', tops', heq, hcoming, hx, hrest, hends⟩ := h.step y px
      rw [heq, balance_append, acrossSeg_balance (hpx.imp_left fun hall => hall x hx),
        ih hcoming (Or.inl fun x' hx' => (hrest x' hx').1)]
      rw [← sub_eq_zero] at hends ⊢
      rw [← hends]
      module

/-- Lines across at a height, from `px` on: two that meet go on the one way. -/
structure Crossing (y px hi : ℤ) (lines : List Seg) : Prop where
  id : ∀ seg ∈ lines, seg.id = none
  flat : ∀ seg ∈ lines, seg.start.2 = y ∧ seg.stop.2 = y ∧ seg.start.1 ≠ seg.stop.1
  box : ∀ seg ∈ lines, (px ≤ seg.start.1 ∧ seg.start.1 ≤ hi) ∧ px ≤ seg.stop.1 ∧ seg.stop.1 ≤ hi
  onward : ∀ seg ∈ lines, ∀ seg' ∈ lines, seg.stop = seg'.start →
    0 < (seg.stop.1 - seg.start.1) * (seg'.stop.1 - seg'.start.1)

theorem Crossing.nil (y px hi : ℤ) : Crossing y px hi [] :=
  ⟨fun _ h => absurd h List.not_mem_nil, fun _ h => absurd h List.not_mem_nil,
    fun _ h => absurd h List.not_mem_nil, fun _ h => absurd h List.not_mem_nil⟩

/-- One more before them. -/
theorem Crossing.cons {hi : ℤ} {lines : List Seg} (h : Crossing y x hi lines) (hlt : px < x)
    (hx : x ≤ hi) {seg : Seg}
    (hseg : seg = ⟨(px, y), (x, y), none⟩ ∨ seg = ⟨(x, y), (px, y), none⟩) :
    Crossing y px hi (seg :: lines) := by
  have hnear : ∀ seg' ∈ lines, px < seg'.start.1 ∧ px < seg'.stop.1 := fun seg' hmem =>
    ⟨hlt.trans_le (h.box seg' hmem).1.1, hlt.trans_le (h.box seg' hmem).2.1⟩
  refine ⟨fun seg' hmem => ?_, fun seg' hmem => ?_, fun seg' hmem => ?_, fun a ha b hb hmeet => ?_⟩
  · rcases List.mem_cons.mp hmem with rfl | hmem
    · rcases hseg with rfl | rfl <;> rfl
    · exact h.id seg' hmem
  · rcases List.mem_cons.mp hmem with rfl | hmem
    · rcases hseg with rfl | rfl
      · exact ⟨rfl, rfl, hlt.ne⟩
      · exact ⟨rfl, rfl, hlt.ne'⟩
    · exact h.flat seg' hmem
  · rcases List.mem_cons.mp hmem with rfl | hmem
    · rcases hseg with rfl | rfl
      · exact ⟨⟨le_rfl, hlt.le.trans hx⟩, hlt.le, hx⟩
      · exact ⟨⟨hlt.le, hx⟩, le_rfl, hlt.le.trans hx⟩
    · obtain ⟨hstart, hstop⟩ := h.box seg' hmem
      exact ⟨⟨(hnear seg' hmem).1.le, hstart.2⟩, (hnear seg' hmem).2.le, hstop.2⟩
  · rcases List.mem_cons.mp ha with hfirst | hearlier
    · rcases List.mem_cons.mp hb with hsecond | hlater
      · rw [hfirst, hsecond] at hmeet
        rcases hseg with rfl | rfl
        · exact absurd (congrArg Prod.fst hmeet) hlt.ne'
        · exact absurd (congrArg Prod.fst hmeet) hlt.ne
      · -- it stops where the next starts, at `x`
        have hflat := (h.flat b hlater).2.2
        have hbox := h.box b hlater
        subst hfirst
        rcases hseg with rfl | rfl
        · have hbx : x = b.start.1 := congrArg Prod.fst hmeet
          exact mul_pos (sub_pos.mpr hlt) (sub_pos.mpr (lt_of_le_of_ne (hbx ▸ hbox.2.1) hflat))
        · exact absurd (congrArg Prod.fst hmeet) (hnear b hlater).1.ne
    · rcases List.mem_cons.mp hb with hsecond | hlater
      · have hflat := (h.flat a hearlier).2.2
        have hbox := h.box a hearlier
        subst hsecond
        rcases hseg with rfl | rfl
        · exact absurd (congrArg Prod.fst hmeet) (hnear a hearlier).2.ne'
        · have hax : a.stop.1 = x := congrArg Prod.fst hmeet
          exact mul_pos_of_neg_of_neg (sub_neg.mpr (lt_of_le_of_ne (hax ▸ hbox.1.1) hflat.symm))
            (sub_neg.mpr hlt)
      · exact h.onward a hearlier b hlater hmeet

theorem Crossing.mono {hi : ℤ} {lines : List Seg} (h : Crossing y x hi lines) (hle : px ≤ x) :
    Crossing y px hi lines :=
  ⟨h.id, h.flat, fun seg hmem => ⟨⟨hle.trans (h.box seg hmem).1.1, (h.box seg hmem).1.2⟩,
    hle.trans (h.box seg hmem).2.1, (h.box seg hmem).2.2⟩, h.onward⟩

theorem Crossing.acrossSeg {hi : ℤ} {lines : List Seg} (h : Crossing y x hi lines) (hle : px ≤ x)
    (hx : x ≤ hi) :
    Crossing y px hi (acrossSeg y ia ib px x ++ lines) := by
  unfold Polygon.acrossSeg
  split_ifs with hlt
  · exact h.cons hlt hx (Or.inl rfl)
  · exact h.cons hlt hx (Or.inr rfl)
  · exact h.mono hle
  · exact h.mono hle

theorem across_crossing {hi : ℤ} (y : ℤ) (n : ℕ) : ∀ {ia ib : Bool} {px : ℤ} {above tops : List ℤ},
    Coming n ia ib above tops → (∀ x ∈ above ++ tops, px ≤ x ∧ x ≤ hi) →
    Crossing y px hi (across y n ia ib px above tops) := by
  induction n with
  | zero => exact fun _ _ => Crossing.nil _ _ _
  | succ n ih =>
      intro ia ib px above tops h hbox
      obtain ⟨x, ia', ib', above', tops', heq, hcoming, hx, hrest, -⟩ := h.step y px
      rw [heq]
      refine Crossing.acrossSeg (ih hcoming fun x' hx' => ?_) (hbox x hx).1 (hbox x hx).2
      exact ⟨(hrest x' hx').1, (hbox x' (hrest x' hx').2).2⟩

/-- Outside of both nothing is drawn up to the first end, wherever it is. -/
theorem across_outside {lo hi : ℤ} (y : ℤ) {n : ℕ} (h : Coming n false false above tops)
    (hbox : ∀ x ∈ above ++ tops, lo ≤ x ∧ x ≤ hi) :
    Crossing y lo hi (across y n false false px above tops) := by
  cases n with
  | zero => exact Crossing.nil _ _ _
  | succ n =>
      obtain ⟨x, ia', ib', above', tops', heq, hcoming, hx, hrest, -⟩ := h.step y px
      have hnone : Polygon.acrossSeg y false false px x = [] := by
        show (if px < x then ([] : List Seg) else []) = []
        exact ite_self _
      rw [heq, hnone, List.nil_append]
      refine (across_crossing y n hcoming fun x' hx' => ?_).mono (hbox x hx).1
      exact ⟨(hrest x' hx').1, (hbox x' (hrest x' hx').2).2⟩

end Across

end ChrysaLisp.Polygon
