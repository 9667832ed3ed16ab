import ChrysaLisp.Gui.RegionExact

set_option autoImplicit false

/-! # Region algebra

The region forms give a method each rectangle of another region, moved, and so do to the points of
a region what the method does with those of a rectangle. -/

namespace ChrysaLisp.Region

open Linked Tiling

/-- Points moved by an offset. -/
def moved (dx dy : ℤ) (S : Set (ℤ × ℤ)) : Set (ℤ × ℤ) := {p | (p.1 - dx, p.2 - dy) ∈ S}

theorem mem_moved {dx dy : ℤ} {S : Set (ℤ × ℤ)} {p : ℤ × ℤ} :
    p ∈ moved dx dy S ↔ (p.1 - dx, p.2 - dy) ∈ S := Iff.rfl

theorem points_move (r : Rect) (dx dy : ℤ) : points (r.move dx dy) = moved dx dy (points r) := by
  ext p
  simp only [mem_moved, mem_points, Rect.move]
  omega

theorem Rect.Proper.move {r : Rect} (h : r.Proper) (dx dy : ℤ) : (r.move dx dy).Proper := by
  simp only [Rect.Proper, Rect.move] at h ⊢
  omega

/-- Cells of `int` coordinates can have these points. -/
def Within (S : Set (ℤ × ℤ)) : Prop :=
  ∀ p ∈ S, (FitsInt p.1 ∧ FitsInt (p.1 + 1)) ∧ FitsInt p.2 ∧ FitsInt (p.2 + 1)

theorem Within.fits {r : Rect} {S : Set (ℤ × ℤ)} (h : Within S) (hr : r.Proper)
    (hsub : points r ⊆ S) : r.Fits := by
  obtain ⟨hx, hy⟩ := hr
  have hfirst := h (r.x, r.y) (hsub ⟨le_refl _, hx, le_refl _, hy⟩)
  have hlast := h (r.x1 - 1, r.y1 - 1) (hsub ⟨by dsimp only; omega, by dsimp only; omega,
    by dsimp only; omega, by dsimp only; omega⟩)
  simp only [Int.sub_add_cancel] at hlast
  exact ⟨hfirst.1.1, hfirst.2.1, hlast.1.2, hlast.2.2⟩

section Forms

variable {H : Host} {heap : ℕ} {regions : List ℕ} {m : Mem} {L : ℕ → List Cell} {s d c : ℕ}
variable {C S D : Set (ℤ × ℤ)}

/-- What a method does to a region by the points of a rectangle, it does by those of a region. -/
theorem eachRect_spec {method : ℕ → Rect → Mem → Option Mem} {G : Set (ℤ × ℤ) → Set (ℤ × ℤ)}
    {dx dy : ℤ} (hc : c ∈ regions) (hne : c ≠ d) (hC : IsRegion (L c) C)
    (hmethod : ∀ {m l X r}, Holds H heap regions m (Function.update L d l) [] →
      IsRegion l (G X) → r.Proper → points r ⊆ C → Disjoint X (points r) →
      ∃ m' l', Returns (fun k => method k (r.move (int dx) (int dy)) m) m' ∧
        Holds H heap regions m' (Function.update L d l') [] ∧ IsRegion l' (G (X ∪ points r)))
    (h : Holds H heap regions m L []) (hd : IsRegion (L d) (G ∅)) :
    ∃ m' l', Returns (fun k => eachRect method k c dx dy m) m' ∧
      Holds H heap regions m' (Function.update L d l') [] ∧ IsRegion l' (G C) := by
  have hloop := loop_region H heap regions (m := m)
    (b := fun k m rec _ =>
      (method k ((m.rect rec).move (int dx) (int dy)) m).map (fun m => .go m rec))
    (P := fun m pre suf E => L c = pre ++ suf ∧ ∃ l,
      Holds H heap regions m (Function.update L d l) [] ∧ IsRegion l (G (C \ E))) hc ?_ ?_ hC ?_
  · obtain ⟨m', pre', hret, -, l, hm', hl⟩ := hloop
    rw [Set.sdiff_empty] at hl
    exact ⟨m', l, hret, hm', hl⟩
  · rintro m pre suf E ⟨hL, l, hm, -⟩
    exact ⟨_, hm, by rw [Function.update_of_ne hne, hL]⟩
  · rintro m pre c' r suf E ⟨hL, l, hm, hl⟩ hrect hproper - hsub hES -
    have hdis : Disjoint (C \ E) (points r) :=
      Set.disjoint_left.2 (fun p hp hr => hp.2 (hsub hr))
    obtain ⟨m', l', ⟨n, hret⟩, hm', hl'⟩ := hmethod hm hl hproper (hsub.trans hES) hdis
    refine ⟨m', pre ++ [(c', r)], ⟨n, fun k hk => ?_⟩, ?_, l', hm', ?_⟩
    · have hk' : method k (r.move (int dx) (int dy)) m = some m' := hret k hk
      dsimp only
      rw [hrect, hk', tip_snoc]
      rfl
    · rw [hL, List.append_assoc]
      rfl
    · have hunion : C \ (E \ points r) = (C \ E) ∪ points r := by grind
      rwa [hunion]
  · refine ⟨rfl, L d, ?_, ?_⟩
    · rwa [Function.update_eq_self]
    · rwa [Set.sdiff_self]

theorem removeRegion_spec (hH : H.Fresh (heap :: regions)) (h : Holds H heap regions m L [])
    (hc : c ∈ regions) (hd : d ∈ regions) (hne : c ≠ d) (hC : IsRegion (L c) C)
    (hD : IsRegion (L d) D) (dx dy : ℤ) :
    ∃ m' l', Returns (fun k => removeRegion H heap k c d dx dy m) m' ∧
      Holds H heap regions m' (Function.update L d l') [] ∧
      IsRegion l' (D \ moved (int dx) (int dy) C) := by
  refine eachRect_spec (G := fun X => D \ moved (int dx) (int dy) X) hc hne hC ?_ h ?_
  · intro m l X r hm hl hproper hsub hdis
    obtain ⟨m', l', hret, hm', hl'⟩ := removeRect_spec (i := r.move (int dx) (int dy)) hH hm hd
      (by rwa [Function.update_self])
    rw [Function.update_idem] at hm'
    refine ⟨m', l', hret, hm', ?_⟩
    rwa [points_move, Set.sdiff_sdiff] at hl'
  · have hnone : D \ moved (int dx) (int dy) ∅ = D := Set.sdiff_empty
    rwa [hnone]

theorem copyRegion_spec (hH : H.Fresh (heap :: regions)) (h : Holds H heap regions m L [])
    (hs : s ∈ regions) (hc : c ∈ regions) (hd : d ∈ regions) (hsd : s ≠ d) (hcd : c ≠ d)
    (hS : IsRegion (L s) S) (hC : IsRegion (L c) C) (hD : IsRegion (L d) D) (dx dy : ℤ)
    (hdis : Disjoint D (S ∩ moved (int dx) (int dy) C)) :
    ∃ m' l', Returns (fun k => copyRegion H heap k s d c dx dy m) m' ∧
      Holds H heap regions m' (Function.update L d l') [] ∧
      IsRegion l' (D ∪ (S ∩ moved (int dx) (int dy) C)) := by
  refine eachRect_spec (G := fun X => D ∪ (S ∩ moved (int dx) (int dy) X)) hc hcd hC ?_ h ?_
  · intro m l X r hm hl hproper hsub hdisX
    rw [Set.disjoint_left] at hdis hdisX
    have hnew : Disjoint (D ∪ (S ∩ moved (int dx) (int dy) X))
        (S ∩ points (r.move (int dx) (int dy))) := by
      rw [Set.disjoint_left, points_move]
      rintro p (hp | ⟨-, hp⟩) ⟨hpS, hpr⟩
      · exact hdis hp ⟨hpS, hsub hpr⟩
      · exact hdisX hp hpr
    obtain ⟨m', l', hret, hm', hl'⟩ := copyRect_spec (i := r.move (int dx) (int dy)) hH hm hs hd hsd
      (by rwa [Function.update_of_ne hsd]) (by rwa [Function.update_self]) hnew
    rw [Function.update_idem] at hm'
    refine ⟨m', l', hret, hm', ?_⟩
    rw [points_move, Set.union_assoc, ← Set.inter_union_distrib_left] at hl'
    exact hl'
  · have hnone : D ∪ (S ∩ moved (int dx) (int dy) ∅) = D := by
      rw [show moved (int dx) (int dy) ∅ = ∅ from rfl, Set.inter_empty, Set.union_empty]
    rwa [hnone]

theorem pasteRegion_spec (hH : H.Fresh (heap :: regions)) (h : Holds H heap regions m L [])
    (hc : c ∈ regions) (hd : d ∈ regions) (hne : c ≠ d) (hC : IsRegion (L c) C)
    (hD : IsRegion (L d) D) (dx dy : ℤ) (hfit : Within (moved (int dx) (int dy) C)) :
    ∃ m' l', Returns (fun k => pasteRegion H heap k c d dx dy m) m' ∧
      Holds H heap regions m' (Function.update L d l') [] ∧
      IsRegion l' (D ∪ moved (int dx) (int dy) C) := by
  refine eachRect_spec (G := fun X => D ∪ moved (int dx) (int dy) X) hc hne hC ?_ h ?_
  · intro m l X r hm hl hproper hsub _
    have hfits : (r.move (int dx) (int dy)).Fits := by
      refine hfit.fits (hproper.move _ _) ?_
      rw [points_move]
      exact fun p hp => hsub hp
    obtain ⟨m', l', hret, hm', hl'⟩ := pasteRect_spec (i := r.move (int dx) (int dy)) hH hm hd
      (by rwa [Function.update_self]) (fun _ => hfits)
    rw [Function.update_idem] at hm'
    refine ⟨m', l', hret, hm', ?_⟩
    rw [points_move, Set.union_assoc] at hl'
    exact hl'
  · have hnone : D ∪ moved (int dx) (int dy) ∅ = D := Set.union_empty D
    rwa [hnone]

end Forms

/-! ## Every method -/

/-- A method comes back, and leaves regions of these points. -/
def Leaves (H : Host) (heap : ℕ) (regions : List ℕ) (f : ℕ → Option Mem)
    (A : ℕ → Set (ℤ × ℤ)) : Prop :=
  ∃ m', Returns f m' ∧ Regions H heap regions m' A

section Algebra

variable {H : Host} {heap : ℕ} {regions : List ℕ} {m m' : Mem} {L : ℕ → List Cell} {s d c : ℕ}
variable {A : ℕ → Set (ℤ × ℤ)} {X : Set (ℤ × ℤ)} {l : List Cell}

theorem leaves_of (hA : ∀ h ∈ regions, IsRegion (L h) (A h)) {f : ℕ → Option Mem}
    (hret : Returns f m') (hm : Holds H heap regions m' (Function.update L d l) [])
    (hl : IsRegion l X) : Leaves H heap regions f (Function.update A d X) := by
  refine ⟨m', hret, _, hm, fun h hh => ?_⟩
  by_cases he : h = d
  · rwa [he, Function.update_self, Function.update_self]
  · rw [Function.update_of_ne he, Function.update_of_ne he]
    exact hA h hh

/-- The methods of a rectangle and of a region, on any regions: the points they leave, and cells
    each in one region or free. -/
theorem region_algebra (hH : H.Fresh (heap :: regions)) (h : Regions H heap regions m A)
    (hs : s ∈ regions) (hd : d ∈ regions) (hc : c ∈ regions) (hsd : s ≠ d) (hcd : c ≠ d)
    (i : Rect) (dx dy : ℤ) :
    (Disjoint (A d) (A s ∩ points i) →
      Leaves H heap regions (fun k => copyRect H heap k s d i m)
        (Function.update A d (A d ∪ (A s ∩ points i))) ∧
      Leaves H heap regions (fun k => cutRect H heap k s d i m)
        (Function.update (Function.update A d (A d ∪ (A s ∩ points i))) s (A s \ points i))) ∧
    ((i.Proper → i.Fits) → Leaves H heap regions (fun k => pasteRect H heap k d i m)
      (Function.update A d (A d ∪ points i))) ∧
    Leaves H heap regions (fun k => removeRect H heap k d i m)
      (Function.update A d (A d \ points i)) ∧
    (i.Proper → Leaves H heap regions (fun k => clipRect heap k d i m)
      (Function.update A d (A d ∩ points i))) ∧
    (¬ i.Proper → ∀ k, clipRect heap k d i m = some m) ∧
    (Disjoint (A d) (A s ∩ moved (int dx) (int dy) (A c)) →
      Leaves H heap regions (fun k => copyRegion H heap k s d c dx dy m)
        (Function.update A d (A d ∪ (A s ∩ moved (int dx) (int dy) (A c))))) ∧
    (Within (moved (int dx) (int dy) (A c)) →
      Leaves H heap regions (fun k => pasteRegion H heap k c d dx dy m)
        (Function.update A d (A d ∪ moved (int dx) (int dy) (A c)))) ∧
    Leaves H heap regions (fun k => removeRegion H heap k c d dx dy m)
      (Function.update A d (A d \ moved (int dx) (int dy) (A c))) := by
  obtain ⟨L, hL, hA⟩ := h
  refine ⟨fun hdis => ⟨?_, ?_⟩, fun hfit => ?_, ?_, fun hi => ?_, fun hi k => ?_, fun hdis => ?_,
    fun hfit => ?_, ?_⟩
  · obtain ⟨m', l, hret, hm, hl⟩ := copyRect_spec hH hL hs hd hsd (hA s hs) (hA d hd) hdis
    exact leaves_of hA hret hm hl
  · obtain ⟨m', l₁, l₂, hret, hm, hl₁, hl₂⟩ := cutRect_spec hH hL hs hd hsd (hA s hs) (hA d hd) hdis
    refine ⟨m', hret, _, hm, fun h hh => ?_⟩
    by_cases hes : h = s
    · rwa [hes, Function.update_self, Function.update_self]
    · rw [Function.update_of_ne hes, Function.update_of_ne hes]
      by_cases hed : h = d
      · rwa [hed, Function.update_self, Function.update_self]
      · rw [Function.update_of_ne hed, Function.update_of_ne hed]
        exact hA h hh
  · obtain ⟨m', l, hret, hm, hl⟩ := pasteRect_spec hH hL hd (hA d hd) hfit
    exact leaves_of hA hret hm hl
  · obtain ⟨m', l, hret, hm, hl⟩ := removeRect_spec (i := i) hH hL hd (hA d hd)
    exact leaves_of hA hret hm hl
  · obtain ⟨m', l, hret, hm, hl⟩ := clipRect_spec hL hd (hA d hd) hi
    exact leaves_of hA hret hm hl
  · rw [clipRect, if_neg (fun hv => hi (valid_iff.1 hv))]
  · obtain ⟨m', l, hret, hm, hl⟩ := copyRegion_spec hH hL hs hc hd hsd hcd (hA s hs) (hA c hc)
      (hA d hd) dx dy hdis
    exact leaves_of hA hret hm hl
  · obtain ⟨m', l, hret, hm, hl⟩ := pasteRegion_spec hH hL hc hd hcd (hA c hc) (hA d hd) dx dy hfit
    exact leaves_of hA hret hm hl
  · obtain ⟨m', l, hret, hm, hl⟩ := removeRegion_spec hH hL hc hd hcd (hA c hc) (hA d hd) dx dy
    exact leaves_of hA hret hm hl

/-- The words and rectangles say which cells a region has. -/
theorem Holds.unique {L' : ℕ → List Cell} (h : Holds H heap regions m L [])
    (h' : Holds H heap regions m L' []) (hd : d ∈ regions) : L d = L' d := by
  obtain ⟨free, hl⟩ := h.lists
  obtain ⟨free', hl'⟩ := h'.lists
  have hcells : (L d).map Prod.fst = (L' d).map Prod.fst := by
    have hc := hl.chain d (List.mem_cons_of_mem _ hd)
    have hc' := hl'.chain d (List.mem_cons_of_mem _ hd)
    rw [Function.update_of_ne (h.ne_heap hd)] at hc hc'
    exact hc.unique hc'
  have hpairs (M : ℕ → List Cell) (hM : Holds H heap regions m M []) :
      M d = ((M d).map Prod.fst).map (fun c => (c, m.rect c)) := by
    rw [List.map_map]
    refine (List.map_id _).symm.trans (List.map_congr_left (fun q hq => ?_))
    exact Prod.ext rfl (hM.rects d hd q hq).symm
  rw [hpairs L h, hpairs L' h', hcells]

end Algebra

/-! ## Regions that are not what they might be -/

/-- A host of blocks of one cell. -/
def oneHost : Host := ⟨fun n => [n + 10]⟩

theorem mapped_oneHost (n : ℕ) : mapped oneHost n = (List.range n).map (· + 10) := by
  induction n with
  | zero => rfl
  | succ n ih => rw [mapped, ih, List.range_succ, List.map_append]; rfl

theorem oneHost_fresh : oneHost.Fresh [1, 2, 3, 4] where
  nonempty n := List.cons_ne_nil _ _
  nonzero n := by simp [oneHost]
  nodup n := by
    rw [mapped_oneHost, List.nodup_append]
    refine ⟨by decide, List.nodup_range.map (fun a b h => by omega), fun a ha b hb => ?_⟩
    obtain ⟨k, -, rfl⟩ := List.mem_map.1 hb
    simp only [List.mem_cons, List.not_mem_nil, or_false] at ha
    omega

/-- Nothing mapped, and three empty regions. -/
def noMem : Mem := ⟨fun _ => 0, fun _ => ⟨0, 0, 0, 0⟩, 0⟩

theorem noMem_holds : Holds oneHost 1 [2, 3, 4] noMem (fun _ => []) [] where
  lists := by
    refine ⟨[], fun h hh => ?_, ?_, by decide, List.not_mem_nil⟩
    · have hnone : Function.update (fun _ => ([] : List ℕ)) 1 [] h = [] := by
        by_cases he : h = 1
        · rw [he, Function.update_self]
        · rw [Function.update_of_ne he]
      have hnone' : Function.update (fun h => ((fun _ => []) h : List Cell).map Prod.fst) 1 [] h = [] :=
        hnone
      rw [hnone']
      rfl
    · simp [mapped, noMem, List.flatMap_cons]
  rects h hh q hq := absurd hq List.not_mem_nil

theorem noMem_regions : Regions oneHost 1 [2, 3, 4] noMem (fun _ => ∅) :=
  ⟨_, noMem_holds, fun _ _ => IsRegion.nil⟩

theorem region_algebra_pasted :
    Leaves oneHost 1 [2, 3, 4] (fun k => pasteRect oneHost 1 k 3 ⟨0, 0, 4, 4⟩ noMem)
      (Function.update (fun _ => ∅) 3 (∅ ∪ points ⟨0, 0, 4, 4⟩)) :=
  (region_algebra oneHost_fresh noMem_regions (s := 2) (d := 3) (c := 4) (by decide) (by decide)
    (by decide) (by decide) (by decide) ⟨0, 0, 4, 4⟩ 0 0).2.1
    (fun _ => by simp only [Rect.Fits, FitsInt]; decide)

/-- A rectangle to cut others with. -/
def square : Rect := ⟨0, 0, 4, 4⟩

theorem square_proper : square.Proper := by
  simp only [Rect.Proper, square]
  decide

theorem square_fits : square.Fits := by
  simp only [Rect.Fits, FitsInt, square]
  decide

theorem square_region (c : ℕ) : IsRegion [(c, square)] (points square) :=
  IsRegion.single square_proper square_fits

theorem square_point : ((0, 0) : ℤ × ℤ) ∈ points square := by
  simp only [mem_points, square]
  decide

/-- Two regions of the one rectangle. -/
def squares : ℕ → Set (ℤ × ℤ) :=
  Function.update (Function.update (fun _ => ∅) 2 (points square)) 3 (points square)

theorem squares_hold : ∃ m c₁ c₂, Holds oneHost 1 [2, 3, 4] m (Function.update
    (Function.update (fun _ => []) 2 [(c₁, square)]) 3 [(c₂, square)]) [] ∧
    Regions oneHost 1 [2, 3, 4] m squares := by
  obtain ⟨c₁, h₁⟩ := newCell_holds oneHost_fresh noMem_holds (d := 2) (by decide) square
  obtain ⟨c₂, h₂⟩ := newCell_holds oneHost_fresh h₁ (d := 3) (by decide) square
  rw [Rect.int_fits square_fits] at h₂
  refine ⟨_, c₁, c₂, h₂, _, h₂, fun h hh => ?_⟩
  simp only [List.mem_cons, List.not_mem_nil, or_false] at hh
  rcases hh with rfl | rfl | rfl
  · exact square_region c₁
  · exact square_region c₂
  · exact IsRegion.nil

/-- Clipped by an empty rectangle, a region is left. -/
theorem clip_empty_fails {m : Mem} {c₁ c₂ : ℕ} (hm : Holds oneHost 1 [2, 3, 4] m (Function.update
    (Function.update (fun _ => []) 2 [(c₁, square)]) 3 [(c₂, square)]) []) :
    ¬ Leaves oneHost 1 [2, 3, 4] (fun k => clipRect 1 k 3 ⟨2, 2, 2, 4⟩ m)
      (Function.update squares 3 (squares 3 ∩ points ⟨2, 2, 2, 4⟩)) := by
  rintro ⟨m', ⟨n, hret⟩, L', hm', hA⟩
  have hsame : m = m' := Option.some.inj (hret n (le_refl n))
  subst hsame
  have hL := hm.unique hm' (d := 3) (by decide)
  have hcover := (hA 3 (by decide)).cover
  rw [← hL, Function.update_self, Function.update_self, (square_region c₂).cover] at hcover
  have hpoint := square_point
  rw [hcover] at hpoint
  exact absurd hpoint.2 (by rw [mem_points]; decide)

/-- Copied to a region that has it, a rectangle is there twice. -/
theorem copy_again_fails {m : Mem} {c₁ c₂ : ℕ} (hm : Holds oneHost 1 [2, 3, 4] m (Function.update
    (Function.update (fun _ => []) 2 [(c₁, square)]) 3 [(c₂, square)]) []) :
    ¬ Leaves oneHost 1 [2, 3, 4] (fun k => copyRect oneHost 1 k 2 3 square m)
      (Function.update squares 3 (squares 3 ∪ (squares 2 ∩ points square))) := by
  rintro ⟨m', ⟨n, hret⟩, L', hm', hA⟩
  obtain ⟨c₃, h₃⟩ := newCell_holds oneHost_fresh hm (d := 3) (by decide) square
  rw [Function.update_self, Function.update_idem, Rect.int_fits square_fits] at h₃
  -- the walk has one cell to look at
  have hchain {m : Mem} {l : List Cell} (h : Holds oneHost 1 [2, 3, 4] m (Function.update
      (Function.update (fun _ => []) 2 [(c₁, square)]) 3 l) []) : Chain m.next 2 [c₁] := by
    obtain ⟨free, hl⟩ := h.lists
    have := hl.chain 2 (by decide)
    rwa [Function.update_of_ne (by decide), Function.update_of_ne (by decide),
      Function.update_self] at this
  obtain ⟨hnext, hc₁, -⟩ := hchain hm
  obtain ⟨-, -, hlast⟩ := hchain h₃
  have hrect : m.rect c₁ = square := hm.rects 2 (by decide) (c₁, square) (by
    rw [Function.update_of_ne (by decide), Function.update_self]
    exact List.mem_cons_self)
  have hcopy : copyRect oneHost 1 (n + 2) 2 3 square m = some (newCell oneHost 1 3 m square) := by
    have hlast' : (newCell oneHost 1 3 m square).next c₁ = 0 := hlast
    have hcut : cutPart square square = square := rfl
    have hvalid : valid square = true := rfl
    have hap : apart square square = false := rfl
    simp only [copyRect, copyStep, hvalid, loopFlist, walk, hnext, hc₁, hrect, hap, hcut, hlast', if_true,
      if_false, Bool.false_eq_true]
  have hsame : newCell oneHost 1 3 m square = m' :=
    Option.some.inj (hcopy.symm.trans (hret (n + 2) (by omega)))
  subst hsame
  have hL := h₃.unique hm' (d := 3) (by decide)
  have htiles := (hA 3 (by decide)).tiles
  rw [← hL, Function.update_self] at htiles
  have hdis := (tiles_cons.1 htiles).2.2
  exact Set.disjoint_left.1 hdis square_point ⟨square, List.mem_cons_self, square_point⟩

/-- Pasted past what an `int` has, a rectangle is elsewhere. -/
theorem paste_far_fails {m : Mem} : ¬ Leaves oneHost 1 [2, 3, 4]
    (fun k => pasteRect oneHost 1 k 3 ⟨2 ^ 31, 0, 2 ^ 31 + 1, 1⟩ m)
    (Function.update squares 3 (squares 3 ∪ points ⟨2 ^ 31, 0, 2 ^ 31 + 1, 1⟩)) := by
  rintro ⟨m', -, L', -, hA⟩
  have hregion := hA 3 (by decide)
  rw [Function.update_self] at hregion
  have hpoint : ((2 ^ 31, 0) : ℤ × ℤ) ∈ squares 3 ∪ points ⟨2 ^ 31, 0, 2 ^ 31 + 1, 1⟩ := by
    refine Or.inr ?_
    rw [mem_points]
    decide
  rw [← hregion.cover] at hpoint
  obtain ⟨t, ht, hpt⟩ := hpoint
  have hfits := (hregion.fits t ht).2.2.1.2
  rw [mem_points] at hpt
  omega

/-- What is clipped by an empty rectangle is left, what is copied to where it is is there twice,
    and what no `int` has is somewhere else. -/
theorem region_algebra_fails :
    ¬ (∀ (H : Host) (heap : ℕ) (regions : List ℕ) (m : Mem) (A : ℕ → Set (ℤ × ℤ)) (d : ℕ) (i : Rect),
      H.Fresh (heap :: regions) → Regions H heap regions m A → d ∈ regions →
      Leaves H heap regions (fun k => clipRect heap k d i m)
        (Function.update A d (A d ∩ points i))) ∧
    ¬ (∀ (H : Host) (heap : ℕ) (regions : List ℕ) (m : Mem) (A : ℕ → Set (ℤ × ℤ)) (s d : ℕ) (i : Rect),
      H.Fresh (heap :: regions) → Regions H heap regions m A → s ∈ regions → d ∈ regions → s ≠ d →
      Leaves H heap regions (fun k => copyRect H heap k s d i m)
        (Function.update A d (A d ∪ (A s ∩ points i)))) ∧
    ¬ (∀ (H : Host) (heap : ℕ) (regions : List ℕ) (m : Mem) (A : ℕ → Set (ℤ × ℤ)) (d : ℕ) (i : Rect),
      H.Fresh (heap :: regions) → Regions H heap regions m A → d ∈ regions →
      Leaves H heap regions (fun k => pasteRect H heap k d i m)
        (Function.update A d (A d ∪ points i))) := by
  obtain ⟨m, c₁, c₂, hm, hregions⟩ := squares_hold
  refine ⟨fun hall => ?_, fun hall => ?_, fun hall => ?_⟩
  · exact clip_empty_fails hm (hall _ _ _ _ _ 3 _ oneHost_fresh hregions (by decide))
  · exact copy_again_fails hm
      (hall _ _ _ _ _ 2 3 square oneHost_fresh hregions (by decide) (by decide) (by decide))
  · exact paste_far_fails (hall _ _ _ _ _ 3 _ oneHost_fresh hregions (by decide))

end ChrysaLisp.Region
