import Mathlib.Data.Int.Order.Basic
import Mathlib.Order.MinMax
import ChrysaLisp.Library.Tiling
import ChrysaLisp.Gui.Region

set_option autoImplicit false

/-! # Rectangles cut and pasted

The points of a rectangle are those from its first edges up to the ones before its last. Of two
that overlap, whichever branch `rect-overlap` takes, the part copied is what they share, and the
parts left over are a tiling of the rest. -/

namespace ChrysaLisp.Region

open Tiling

/-- The points of a rectangle. -/
def points (r : Rect) : Set (ℤ × ℤ) := {p | r.x ≤ p.1 ∧ p.1 < r.x1 ∧ r.y ≤ p.2 ∧ p.2 < r.y1}

theorem mem_points {r : Rect} {p : ℤ × ℤ} :
    p ∈ points r ↔ r.x ≤ p.1 ∧ p.1 < r.x1 ∧ r.y ≤ p.2 ∧ p.2 < r.y1 := Iff.rfl

/-- Not empty. -/
def Rect.Proper (r : Rect) : Prop := r.x < r.x1 ∧ r.y < r.y1

theorem points_nonempty {r : Rect} : (points r).Nonempty ↔ r.Proper := by
  constructor
  · rintro ⟨p, hp⟩
    rw [mem_points] at hp
    exact ⟨by omega, by omega⟩
  · exact fun h => ⟨(r.x, r.y), le_refl _, h.1, le_refl _, h.2⟩

theorem valid_iff {i : Rect} : valid i = true ↔ i.Proper := by
  simp only [valid, Bool.and_eq_true, decide_eq_true_iff, Rect.Proper, gt_iff_lt]

/-- One is to the left of the other or above it, or the other way about. -/
def Beside (r s : Rect) : Prop := r.x1 ≤ s.x ∨ s.x1 ≤ r.x ∨ r.y1 ≤ s.y ∨ s.y1 ≤ r.y

theorem Beside.disjoint {r s : Rect} (h : Beside r s) : Disjoint (points r) (points s) := by
  refine Set.disjoint_left.2 (fun p hr hs => ?_)
  rw [mem_points] at hr hs
  rcases h with h | h | h | h <;> omega

/-- What makes rectangles a tiling of some points. -/
theorem tiles_of {l : List Rect} {S : Set (ℤ × ℤ)} (hproper : ∀ r ∈ l, r.Proper)
    (hbeside : l.Pairwise Beside) (hcover : ∀ p, (∃ r ∈ l, p ∈ points r) ↔ p ∈ S) :
    Tiles points l ∧ cover points l = S :=
  ⟨⟨fun r hr => points_nonempty.2 (hproper r hr), hbeside.imp Beside.disjoint⟩,
    Set.ext hcover⟩

/-! ## Coordinates -/

/-- An `int` can have it. -/
def FitsInt (v : ℤ) : Prop := -(2 ^ 31) ≤ v ∧ v < 2 ^ 31

def Rect.Fits (r : Rect) : Prop := FitsInt r.x ∧ FitsInt r.y ∧ FitsInt r.x1 ∧ FitsInt r.y1

theorem int_fits {v : ℤ} (h : FitsInt v) : int v = v := by
  obtain ⟨hlo, hhi⟩ := h
  exact Int.bmod_eq_of_le (by omega) (by omega)

theorem fitsInt_int (v : ℤ) : FitsInt (int v) := by
  have hlo := Int.le_bmod (x := v) (m := 2 ^ 32) (by decide)
  have hhi := Int.bmod_lt (x := v) (m := 2 ^ 32) (by decide)
  constructor
  · rw [int]
    omega
  · rw [int]
    omega

theorem Rect.int_fits {r : Rect} (h : r.Fits) : r.int = r := by
  obtain ⟨hx, hy, hx1, hy1⟩ := h
  rw [Rect.int, Region.int_fits hx, Region.int_fits hy, Region.int_fits hx1, Region.int_fits hy1]

/-- What is between two that fit, fits. -/
theorem FitsInt.between {a b v : ℤ} (ha : FitsInt a) (hb : FitsInt b) (hlo : a ≤ v) (hhi : v ≤ b) :
    FitsInt v :=
  ⟨ha.1.trans hlo, hhi.trans_lt hb.2⟩

/-! ## Two rectangles -/

theorem apart_disjoint {r i : Rect} (h : apart r i = true) : Disjoint (points r) (points i) := by
  simp only [apart, Bool.or_eq_true, decide_eq_true_iff, ge_iff_le] at h
  refine Beside.disjoint ?_
  rcases h with ((h | h) | h) | h
  · exact Or.inr (Or.inl h)
  · exact Or.inr (Or.inr (Or.inr h))
  · exact Or.inl h
  · exact Or.inr (Or.inr (Or.inl h))

/-- Each begins before the other ends. -/
def Overlap (r i : Rect) : Prop := r.x < i.x1 ∧ r.y < i.y1 ∧ i.x < r.x1 ∧ i.y < r.y1

theorem overlap_of {r i : Rect} (h : ¬ apart r i = true) : Overlap r i := by
  simp only [apart, Bool.or_eq_true, decide_eq_true_iff, ge_iff_le, not_or, not_le] at h
  exact ⟨h.1.1.1, h.1.1.2, h.1.2, h.2⟩

theorem cutPart_eq (r i : Rect) :
    cutPart r i = ⟨max r.x i.x, max r.y i.y, min r.x1 i.x1, min r.y1 i.y1⟩ := by
  obtain ⟨x, y, x1, y1⟩ := r
  obtain ⟨ix, iy, ix1, iy1⟩ := i
  simp only [cutPart, rectOverlap]
  split_ifs <;> simp only [Rect.mk.injEq] <;> omega

theorem points_cutPart (r i : Rect) : points (cutPart r i) = points r ∩ points i := by
  rw [cutPart_eq]
  ext p
  simp only [Set.mem_inter_iff, mem_points, max_le_iff, lt_min_iff]
  tauto

theorem cutPart_proper {r i : Rect} (hr : r.Proper) (hi : i.Proper) (h : Overlap r i) :
    (cutPart r i).Proper := by
  obtain ⟨h₁, h₂, h₃, h₄⟩ := h
  rw [cutPart_eq]
  exact ⟨max_lt (lt_min hr.1 h₁) (lt_min h₃ hi.1), max_lt (lt_min hr.2 h₂) (lt_min h₄ hi.2)⟩

theorem cutPart_fits {r i : Rect} (hfits : r.Fits) (hr : r.Proper) (hi : i.Proper)
    (h : Overlap r i) : (cutPart r i).Fits := by
  have hp := cutPart_proper hr hi h
  rw [cutPart_eq] at hp ⊢
  have hx := hp.1.le
  have hy := hp.2.le
  refine ⟨hfits.1.between hfits.2.2.1 (le_max_left _ _) (hx.trans (min_le_left _ _)),
    hfits.2.1.between hfits.2.2.2 (le_max_left _ _) (hy.trans (min_le_left _ _)),
    hfits.1.between hfits.2.2.1 ((le_max_left _ _).trans hx) (min_le_left _ _),
    hfits.2.1.between hfits.2.2.2 ((le_max_left _ _).trans hy) (min_le_left _ _)⟩

theorem leftOver_none {r i : Rect} (h : leftOver r i = none) : points r ⊆ points i := by
  obtain ⟨x, y, x1, y1⟩ := r
  obtain ⟨ix, iy, ix1, iy1⟩ := i
  simp only [leftOver, rectOverlap] at h
  split_ifs at h
  intro p hp
  simp only [mem_points] at hp ⊢
  omega

/-- The parts left over are a tiling of the rest of the rectangle, if none of those added is
    empty. -/
theorem leftOver_some {r i : Rect} {f : Rect → Rect} {cells : List Rect} (hfits : r.Fits)
    (hr : r.Proper) (hi : i.x ≤ i.x1 ∧ i.y ≤ i.y1) (hover : Overlap r i)
    (h : leftOver r i = some (f, cells)) (hcells : ∀ t ∈ cells, t.Proper) :
    (Tiles points (f r :: cells) ∧ cover points (f r :: cells) = points r \ points i) ∧
      ∀ t ∈ f r :: cells, t.Fits := by
  obtain ⟨x, y, x1, y1⟩ := r
  obtain ⟨ix, iy, ix1, iy1⟩ := i
  obtain ⟨h₁, h₂, h₃, h₄⟩ := hover
  obtain ⟨fx, fy, fx1, fy1⟩ := hfits
  obtain ⟨hx, hy⟩ := hr
  obtain ⟨hix, hiy⟩ := hi
  dsimp only at h₁ h₂ h₃ h₄ fx fy fx1 fy1 hx hy hix hiy
  -- what is stored is between the edges
  have ex (hlo : x < ix) : FitsInt ix := fx.between fx1 hlo.le h₃.le
  have ey (hlo : y < iy) : FitsInt iy := fy.between fy1 hlo.le h₄.le
  have ex1 (hhi : ix1 < x1) : FitsInt ix1 := fx.between fx1 h₁.le hhi.le
  have ey1 (hhi : iy1 < y1) : FitsInt iy1 := fy.between fy1 h₂.le hhi.le
  have ix' (hlo : x < ix) : int ix = ix := int_fits (ex hlo)
  have iy' (hlo : y < iy) : int iy = iy := int_fits (ey hlo)
  have ix1' (hhi : ix1 < x1) : int ix1 = ix1 := int_fits (ex1 hhi)
  have iy1' (hhi : iy1 < y1) : int iy1 = iy1 := int_fits (ey1 hhi)
  simp only [leftOver, rectOverlap, ge_iff_le] at h
  split_ifs at h
  all_goals
    simp only [Option.some.injEq, Prod.mk.injEq] at h
    obtain ⟨rfl, rfl⟩ := h
    simp (disch := omega) only [ix', iy', ix1', iy1']
    clear ix' iy' ix1' iy1'
    refine ⟨tiles_of ?_ ?_ (fun p => ?_), ?_⟩
    · refine List.forall_mem_cons.2 ⟨?_, hcells⟩
      simp only [Rect.Proper]
      omega
    · simp only [List.pairwise_cons, List.forall_mem_cons, Beside, List.not_mem_nil, false_imp_iff,
        implies_true, List.Pairwise.nil, and_true] <;> omega
    · simp only [List.exists_mem_cons_iff, mem_points, Set.mem_sdiff, List.not_mem_nil, false_and,
        exists_false, or_false]
      omega
    · simp (disch := omega) only [List.forall_mem_cons, Rect.Fits, fx, fy, fx1, fy1, ex, ey, ex1,
        ey1, List.not_mem_nil, false_imp_iff, implies_true, and_true]

theorem leftOver_proper {r i : Rect} {f : Rect → Rect} {cells : List Rect} (hr : r.Proper)
    (hi : i.Proper) (hover : Overlap r i) (h : leftOver r i = some (f, cells)) :
    ∀ t ∈ cells, t.Proper := by
  obtain ⟨x, y, x1, y1⟩ := r
  obtain ⟨ix, iy, ix1, iy1⟩ := i
  simp only [Overlap, Rect.Proper] at hover hr hi
  simp only [leftOver, rectOverlap, ge_iff_le] at h
  split_ifs at h
  all_goals
    simp only [Option.some.injEq, Prod.mk.injEq] at h
    obtain ⟨-, rfl⟩ := h
    simp only [List.forall_mem_cons, Rect.Proper, List.not_mem_nil, false_imp_iff, implies_true,
      and_true] <;> omega

/-! ## Pasting -/

theorem pasteOverlap_covered {r i : Rect} (h : pasteOverlap r i = .covered) :
    points i ⊆ points r := by
  obtain ⟨x, y, x1, y1⟩ := r
  obtain ⟨ix, iy, ix1, iy1⟩ := i
  simp only [pasteOverlap, rectOverlap] at h
  split_ifs at h
  intro p hp
  simp only [mem_points] at hp ⊢
  omega

theorem pasteOverlap_enclosed {r i : Rect} (h : pasteOverlap r i = .enclosed) :
    points r ⊆ points i := by
  obtain ⟨x, y, x1, y1⟩ := r
  obtain ⟨ix, iy, ix1, iy1⟩ := i
  simp only [pasteOverlap, rectOverlap] at h
  split_ifs at h
  intro p hp
  simp only [mem_points] at hp ⊢
  omega

/-- What is pasted is less by what the cell has, and may be nothing by then. -/
theorem pasteOverlap_less {r i j : Rect} (hfits : r.Fits) (hifits : i.Fits)
    (hi : i.x ≤ i.x1 ∧ i.y ≤ i.y1) (hover : Overlap r i) (h : pasteOverlap r i = .less j) :
    points j = points i \ points r ∧ (j.x ≤ j.x1 ∧ j.y ≤ j.y1) ∧ j.Fits := by
  obtain ⟨x, y, x1, y1⟩ := r
  obtain ⟨ix, iy, ix1, iy1⟩ := i
  simp only [Overlap] at hover hi
  simp only [pasteOverlap, rectOverlap, ge_iff_le] at h
  split_ifs at h
  all_goals
    simp only [Paste.less.injEq] at h
    subst h
    refine ⟨Set.ext (fun p => ?_), ⟨?_, ?_⟩, ?_⟩
    · simp only [mem_points, Set.mem_sdiff]
      omega
    · dsimp only
      omega
    · dsimp only
      omega
    · simp only [Rect.Fits] at hfits hifits ⊢
      simp only [hfits, hifits, and_self]

/-- The parts kept of a cell are those `:cut_rect` leaves over. -/
theorem pasteOverlap_keep {r i : Rect} {f : Rect → Rect} {cells : List Rect} (hr : r.Proper)
    (hover : Overlap r i) (h : pasteOverlap r i = .keep f cells) :
    leftOver r i = some (f, cells) ∧ ∀ t ∈ cells, t.Proper := by
  obtain ⟨x, y, x1, y1⟩ := r
  obtain ⟨ix, iy, ix1, iy1⟩ := i
  simp only [Overlap, Rect.Proper] at hover hr
  simp only [pasteOverlap, rectOverlap, ge_iff_le] at h
  simp only [leftOver, rectOverlap, ge_iff_le]
  split_ifs at h
  all_goals
    simp only [Paste.keep.injEq] at h
    obtain ⟨rfl, rfl⟩ := h
    simp only [*, if_true, if_false]
    simp only [List.forall_mem_cons, Rect.Proper, List.not_mem_nil, false_imp_iff, implies_true,
      and_true, true_and] <;> omega

/-- Two rectangles that touch, of the same rows, are one. -/
theorem points_merge_x {r i : Rect} (hr : r.Proper) (hx : r.x ≤ i.x1) (hx1 : i.x ≤ r.x1)
    (hy : i.y = r.y) (hy1 : i.y1 = r.y1) :
    points { i with x := min r.x i.x, x1 := max r.x1 i.x1 } = points i ∪ points r := by
  have hproper := hr.1
  ext p
  simp only [mem_points, Set.mem_union]
  omega

theorem points_merge_y {r i : Rect} (hr : r.Proper) (hy : r.y ≤ i.y1) (hy1 : i.y ≤ r.y1)
    (hx : i.x = r.x) (hx1 : i.x1 = r.x1) :
    points { i with y := min r.y i.y, y1 := max r.y1 i.y1 } = points i ∪ points r := by
  have hproper := hr.2
  ext p
  simp only [mem_points, Set.mem_union]
  omega

end ChrysaLisp.Region
