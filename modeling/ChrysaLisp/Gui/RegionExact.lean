import Mathlib.Order.BooleanAlgebra.Set
import ChrysaLisp.Gui.RegionCells

set_option autoImplicit false

/-! # What the methods leave

A region is a tiling of its points. A walk of a method has the cells gone by, which are already as
they are to be, and those to come, which are a tiling of the points not looked at yet. -/

namespace ChrysaLisp.Region

open Linked Tiling

/-- Cells that are a region of some points. -/
structure IsRegion (l : List Cell) (S : Set (ℤ × ℤ)) : Prop where
  tiles : Tiles points (l.map Prod.snd)
  cover : cover points (l.map Prod.snd) = S
  fits : ∀ t ∈ l.map Prod.snd, t.Fits

/-- Each of the regions has these points, and every other cell is free. -/
def Regions (H : Host) (heap : ℕ) (regions : List ℕ) (m : Mem) (A : ℕ → Set (ℤ × ℤ)) : Prop :=
  ∃ L, Holds H heap regions m L [] ∧ ∀ h ∈ regions, IsRegion (L h) (A h)

section IsRegion

variable {l l' new pre : List Cell} {S T X Y : Set (ℤ × ℤ)} {q : Cell}

theorem IsRegion.nil : IsRegion [] ∅ := ⟨Tiles.nil, cover_nil, fun _ ht => absurd ht List.not_mem_nil⟩

theorem IsRegion.eq_empty (h : IsRegion [] S) : S = ∅ := by
  rw [← h.cover]
  exact cover_nil

theorem IsRegion.perm (h : IsRegion l S) (hp : l.Perm l') : IsRegion l' S where
  tiles := h.tiles.perm (hp.map _)
  cover := (cover_perm (hp.map _)).symm.trans h.cover
  fits t ht := h.fits t ((hp.map _).mem_iff.2 ht)

theorem IsRegion.append (h : IsRegion l S) (h' : IsRegion l' T) (hd : Disjoint S T) :
    IsRegion (l ++ l') (S ∪ T) := by
  rw [← h.cover, ← h'.cover] at hd
  refine ⟨?_, ?_, fun t ht => ?_⟩
  · rw [List.map_append]
    exact tiles_append.2 ⟨h.tiles, h'.tiles, hd⟩
  · rw [List.map_append, cover_append, h.cover, h'.cover]
  · rw [List.map_append] at ht
    exact (List.mem_append.1 ht).elim (h.fits t) (h'.fits t)

theorem IsRegion.single {c : ℕ} {r : Rect} (hr : r.Proper) (hfits : r.Fits) :
    IsRegion [(c, r)] (points r) where
  tiles := by
    refine tiles_cons.2 ⟨points_nonempty.2 hr, Tiles.nil, ?_⟩
    rw [List.map_nil, cover_nil]
    exact Set.disjoint_empty _
  cover := by rw [List.map_singleton, cover_cons, cover_nil, Set.union_empty]
  fits t ht := by
    rw [List.mem_singleton.1 ht]
    exact hfits

/-- The first of the cells to come, and the rest of them. -/
theorem IsRegion.uncons (h : IsRegion (q :: l) S) :
    q.2.Proper ∧ q.2.Fits ∧ points q.2 ⊆ S ∧ IsRegion l (S \ points q.2) := by
  obtain ⟨hq, hl, hd⟩ := tiles_cons.1 h.tiles
  have hS : points q.2 ∪ Tiling.cover points (l.map Prod.snd) = S := by
    rw [← cover_cons]
    exact h.cover
  refine ⟨points_nonempty.1 hq, h.fits _ List.mem_cons_self, ?_, hl, ?_, fun t ht => ?_⟩
  · exact hS ▸ Set.subset_union_left
  · rw [← hS, Set.union_sdiff_left, hd.symm.sdiff_eq_left]
  · exact h.fits t (List.mem_cons_of_mem _ ht)

/-- A cell gone by, and the cells put at the head for it. -/
theorem IsRegion.placed (h : IsRegion pre X) (hq : IsRegion (q :: new) Y) (hd : Disjoint X Y) :
    IsRegion (new ++ pre ++ [q]) (X ∪ Y) := by
  refine (h.append hq hd).perm ?_
  refine List.perm_append_comm.trans ?_
  rw [List.cons_append, ← List.singleton_append]
  exact List.perm_append_comm

end IsRegion

/-! ## Walks over a region -/

section Walk

variable (H : Host) (heap : ℕ) (regions : List ℕ) {a : ℕ} {l : List Cell} {S : Set (ℤ × ℤ)}

/-- What a walk keeps, by the points not looked at yet, each cell's step does. -/
theorem walk_region {σ : Type} {g : σ → Mem} {b : ℕ → σ → ℕ → ℕ → Option (Step σ)}
    {P : σ → List Cell → List Cell → Set (ℤ × ℤ) → Prop} {Q : σ → Prop} (ha : a ∈ regions)
    (hcells : ∀ {s pre suf E}, P s pre suf E →
      ∃ L, Holds H heap regions (g s) L [] ∧ L a = pre ++ suf)
    (hbody : ∀ {s pre c r suf E}, P s pre ((c, r) :: suf) E → (g s).rect c = r → r.Proper →
      r.Fits → points r ⊆ E → E ⊆ S → IsRegion suf (E \ points r) →
      (∃ s' pre', Returns (fun k => b k s c (tip a (pre.map Prod.fst)))
        (.go s' (tip a (pre'.map Prod.fst))) ∧ P s' pre' suf (E \ points r)) ∨
      (∃ s', Returns (fun k => b k s c (tip a (pre.map Prod.fst))) (.out s') ∧ Q s'))
    {s : σ} (hS : IsRegion l S) (h : P s [] l S) :
    (∃ s' pre', Returns (fun k => walk (fun s => (g s).next) (b k) k s a) (.ended s') ∧
      P s' pre' [] ∅) ∨
    (∃ s', Returns (fun k => walk (fun s => (g s).next) (b k) k s a) (.left s') ∧ Q s') := by
  have hwalk := walk_returns (a := a) (f := fun s => (g s).next) (b := b) (s := s) (Q := Q)
    (P := fun s pre suf => ∃ p q E, P s p q E ∧ IsRegion q E ∧ E ⊆ S ∧ p.map Prod.fst = pre ∧
      q.map Prod.fst = suf)
    ?_ ?_ ⟨[], l, S, h, hS, subset_rfl, rfl, rfl⟩
  · rcases hwalk with ⟨s', -, hret, p, q, E, hP, hE, -, -, hq⟩ | hout
    · rw [List.map_eq_nil_iff] at hq
      subst hq
      rw [hE.eq_empty] at hP
      exact Or.inl ⟨s', p, hret, hP⟩
    · exact Or.inr hout
  · rintro s - - ⟨pre, suf, E, hP, -, -, rfl, rfl⟩
    obtain ⟨L, hL, hLa⟩ := hcells hP
    obtain ⟨free, hl⟩ := hL.lists
    have hchain := hl.chain a (List.mem_cons_of_mem _ ha)
    rwa [Function.update_of_ne (hL.ne_heap ha), hLa, List.map_append] at hchain
  · rintro s - c suf ⟨pre, suf', E, hP, hE, hES, rfl, hsuf⟩
    obtain ⟨⟨c, r⟩, suf', rfl, rfl, rfl⟩ := List.map_eq_cons_iff.1 hsuf
    obtain ⟨hproper, hfits, hsub, hrest⟩ := hE.uncons
    obtain ⟨L, hL, hLa⟩ := hcells hP
    have hc : (g s).rect c = r :=
      hL.rects a ha (c, r) (hLa ▸ List.mem_append_right _ List.mem_cons_self)
    rcases hbody hP hc hproper hfits hsub hES hrest with ⟨s', pre', hret, hP'⟩ | hout
    · exact Or.inl ⟨s', pre'.map Prod.fst, hret, pre', suf', _, hP', hrest,
        Set.sdiff_subset.trans hES, rfl, rfl⟩
    · exact Or.inr hout

/-- A loop with no return in it. -/
theorem loop_region {b : ℕ → Mem → ℕ → ℕ → Option (Step Mem)}
    {P : Mem → List Cell → List Cell → Set (ℤ × ℤ) → Prop} (ha : a ∈ regions)
    (hcells : ∀ {m pre suf E}, P m pre suf E → ∃ L, Holds H heap regions m L [] ∧ L a = pre ++ suf)
    (hbody : ∀ {m pre c r suf E}, P m pre ((c, r) :: suf) E → m.rect c = r → r.Proper → r.Fits →
      points r ⊆ E → E ⊆ S → IsRegion suf (E \ points r) →
      ∃ m' pre', Returns (fun k => b k m c (tip a (pre.map Prod.fst)))
        (.go m' (tip a (pre'.map Prod.fst))) ∧ P m' pre' suf (E \ points r))
    {m : Mem} (hS : IsRegion l S) (h : P m [] l S) :
    ∃ m' pre', Returns (fun k => loopFlist (b k) k a m) m' ∧ P m' pre' [] ∅ := by
  have hwalk := walk_region H heap regions (P := P) (g := id) (Q := fun _ => False) ha hcells
    (fun hP hc hproper hfits hsub hES hrest =>
      Or.inl (hbody hP hc hproper hfits hsub hES hrest)) hS h
  rcases hwalk with ⟨m', pre', ⟨n, hret⟩, hP⟩ | ⟨-, -, hQ⟩
  · refine ⟨m', pre', ⟨n, fun k hk => ?_⟩, hP⟩
    have hk' : walk Mem.next (b k) k m a = some (.ended m') := hret k hk
    simp only [loopFlist, hk']
  · exact hQ.elim

end Walk

/-! ## The methods of a rectangle -/

section Rects

variable {H : Host} {heap : ℕ} {regions : List ℕ} {m : Mem} {L : ℕ → List Cell} {s d : ℕ}
variable {i : Rect} {S D : Set (ℤ × ℤ)}

/-- Nothing of an empty rectangle. -/
theorem points_invalid (hi : ¬ valid i = true) : points i = ∅ := by
  rw [valid_iff, ← points_nonempty] at hi
  exact Set.not_nonempty_iff_eq_empty.1 hi

theorem tip_snoc (a : ℕ) (l : List Cell) (q : Cell) : tip a ((l ++ [q]).map Prod.fst) = q.1 := by
  rw [List.map_append]
  exact tip_concat a _ q.1

theorem copyRect_spec (hH : H.Fresh (heap :: regions)) (h : Holds H heap regions m L [])
    (hs : s ∈ regions) (hd : d ∈ regions) (hne : s ≠ d) (hS : IsRegion (L s) S)
    (hD : IsRegion (L d) D) (hdis : Disjoint D (S ∩ points i)) :
    ∃ m' l', Returns (fun k => copyRect H heap k s d i m) m' ∧
      Holds H heap regions m' (Function.update L d l') [] ∧ IsRegion l' (D ∪ (S ∩ points i)) := by
  by_cases hi : valid i = true
  · have hloop := loop_region H heap regions (m := m)
      (b := fun _ m srec _ => some (copyStep H heap d i m srec))
      (P := fun m pre suf E => L s = pre ++ suf ∧ ∃ l',
        Holds H heap regions m (Function.update L d l') [] ∧
        IsRegion l' (D ∪ ((S \ E) ∩ points i))) hs ?_ ?_ hS ?_
    · obtain ⟨m', pre', hret, -, l', hm', hl'⟩ := hloop
      rw [Set.sdiff_empty] at hl'
      refine ⟨m', l', ?_, hm', hl'⟩
      simp only [copyRect, hi, if_true]
      exact hret
    · rintro m pre suf E ⟨hL, l', hm, -⟩
      exact ⟨_, hm, by rw [Function.update_of_ne hne, hL]⟩
    · rintro m pre c r suf E ⟨hL, l', hm, hl'⟩ hc hproper hfits hsub hES -
      have hL' : L s = (pre ++ [(c, r)]) ++ suf := by rw [hL, List.append_assoc]; rfl
      by_cases hap : apart r i = true
      · refine ⟨m, pre ++ [(c, r)], returns_const (fun k => ?_), hL', l', hm, ?_⟩
        · simp only [copyStep, hc, hap, if_true, tip_snoc]
        · have hri := Set.disjoint_left.1 (apart_disjoint hap)
          have hsame : (S \ (E \ points r)) ∩ points i = (S \ E) ∩ points i := by grind
          rwa [hsame]
      · have hover := overlap_of hap
        have hi' := valid_iff.1 hi
        obtain ⟨c', hm'⟩ := newCell_holds hH hm hd (cutPart r i)
        rw [Rect.int_fits (cutPart_fits hfits hproper hi' hover), Function.update_idem,
          Function.update_self] at hm'
        refine ⟨_, pre ++ [(c, r)], returns_const (fun k => ?_), hL', _, hm', ?_⟩
        · simp only [copyStep, hc, hap, tip_snoc]
          rfl
        · have hcut := IsRegion.single (c := c') (cutPart_proper hproper hi' hover)
            (cutPart_fits hfits hproper hi' hover)
          rw [points_cutPart] at hcut
          rw [Set.disjoint_left] at hdis
          have hboth : Disjoint (points r ∩ points i) (D ∪ (S \ E) ∩ points i) := by
            rw [Set.disjoint_left]
            grind
          have hunion : D ∪ (S \ (E \ points r)) ∩ points i =
            (points r ∩ points i) ∪ (D ∪ (S \ E) ∩ points i) := by grind
          rw [hunion]
          exact hcut.append hl' hboth
    · refine ⟨rfl, L d, ?_, ?_⟩
      · rwa [Function.update_eq_self]
      · rwa [Set.sdiff_self, Set.empty_inter, Set.union_empty]
  · refine ⟨m, L d, returns_const (fun k => ?_), ?_, ?_⟩
    · rw [copyRect, if_neg hi]
    · rwa [Function.update_eq_self]
    · rwa [points_invalid hi, Set.inter_empty, Set.union_empty]

/-- The parts left over of a cell, in it and in those added. -/
theorem IsRegion.leftOver {c : ℕ} {r : Rect} {f : Rect → Rect} {cells : List Rect}
    {new : List Cell} (hfits : r.Fits) (hr : r.Proper) (hi : i.x ≤ i.x1 ∧ i.y ≤ i.y1)
    (hover : Overlap r i) (h : Region.leftOver r i = some (f, cells)) (hcells : ∀ t ∈ cells, t.Proper)
    (hnew : new.map Prod.snd = (cells.map Rect.int).reverse) :
    IsRegion ((c, f r) :: new) (points r \ points i) := by
  obtain ⟨⟨htiles, hcover⟩, hparts⟩ := leftOver_some hfits hr hi hover h hcells
  have hint : cells.map Rect.int = cells := by
    rw [List.map_congr_left (fun t ht => Rect.int_fits (hparts t (List.mem_cons_of_mem _ ht))),
      List.map_id']
  have hperm : (f r :: cells).Perm (((c, f r) :: new).map Prod.snd) := by
    rw [List.map_cons, hnew, hint]
    exact (List.reverse_perm cells).symm.cons (f r)
  exact ⟨htiles.perm hperm, (cover_perm hperm).symm.trans hcover,
    fun t ht => hparts t (hperm.mem_iff.2 ht)⟩

theorem removeRect_spec (hH : H.Fresh (heap :: regions)) (h : Holds H heap regions m L [])
    (hs : s ∈ regions) (hS : IsRegion (L s) S) :
    ∃ m' l', Returns (fun k => removeRect H heap k s i m) m' ∧
      Holds H heap regions m' (Function.update L s l') [] ∧ IsRegion l' (S \ points i) := by
  by_cases hi : valid i = true
  · have hi' := valid_iff.1 hi
    have hloop := loop_region H heap regions (m := m)
      (b := fun _ m srec prec => some (removeStep H heap s i m srec prec))
      (P := fun m pre suf E => Holds H heap regions m (Function.update L s (pre ++ suf)) [] ∧
        IsRegion pre ((S \ E) \ points i)) hs ?_ ?_ hS ?_
    · obtain ⟨m', pre', hret, hm', hpre⟩ := hloop
      rw [Set.sdiff_empty] at hpre
      rw [List.append_nil] at hm'
      refine ⟨m', pre', ?_, hm', hpre⟩
      simp only [removeRect, hi, if_true]
      exact hret
    · rintro m pre suf E ⟨hm, -⟩
      exact ⟨_, hm, Function.update_self ..⟩
    · rintro m pre c r suf E ⟨hm, hpre⟩ hc hproper hfits hsub hES -
      by_cases hap : apart r i = true
      · refine ⟨m, pre ++ [(c, r)], returns_const (fun k => ?_), ?_, ?_⟩
        · simp only [removeStep, hc, hap, if_true, tip_snoc]
        · rwa [List.append_assoc]
        · have hri := Set.disjoint_left.1 (apart_disjoint hap)
          have hsame : (S \ (E \ points r)) \ points i = ((S \ E) \ points i) ∪ points r := by grind
          rw [hsame]
          refine hpre.append (IsRegion.single hproper hfits) ?_
          rw [Set.disjoint_left]
          grind
      · have hover := overlap_of hap
        cases hparts : Region.leftOver r i with
        | some parts =>
            obtain ⟨f, cells⟩ := parts
            have hstore := store_holds f hm hs (Function.update_self ..)
            obtain ⟨new, hnew, hm'⟩ := newCells_holds hH hs cells hstore
            rw [Function.update_idem, Function.update_idem, Function.update_self] at hm'
            refine ⟨cells.foldl (newCell H heap s) (store c f m), new ++ pre ++ [(c, f r)],
              returns_const (fun k => ?_), ?_, ?_⟩
            · simp only [removeStep, hc, hap, hparts, tip_snoc]
              rfl
            · rwa [List.append_assoc, List.append_assoc]
            · have hleft := IsRegion.leftOver (c := c) hfits hproper ⟨hi'.1.le, hi'.2.le⟩ hover hparts
                (leftOver_proper hproper hi' hover hparts) hnew
              have hunion : (S \ (E \ points r)) \ points i =
                  ((S \ E) \ points i) ∪ (points r \ points i) := by grind
              rw [hunion]
              refine hpre.placed hleft ?_
              rw [Set.disjoint_left]
              grind
        | none =>
            have hsub' := leftOver_none hparts
            have hremove := freecell_holds (removeFnode_holds hm hs (Function.update_self ..))
            rw [Function.update_idem] at hremove
            refine ⟨_, pre, returns_const (fun k => ?_), hremove, ?_⟩
            · simp only [removeStep, hc, hap, hparts]
              rfl
            · have hsame : (S \ (E \ points r)) \ points i = (S \ E) \ points i := by grind
              rwa [hsame]
    · refine ⟨?_, ?_⟩
      · rwa [List.nil_append, Function.update_eq_self]
      · rw [Set.sdiff_self, Set.empty_sdiff]
        exact IsRegion.nil
  · refine ⟨m, L s, returns_const (fun k => ?_), ?_, ?_⟩
    · rw [removeRect, if_neg hi]
    · rwa [Function.update_eq_self]
    · rwa [points_invalid hi, Set.sdiff_empty]

theorem update_pair (hne : s ≠ d) (X Y Z : List Cell) :
    Function.update (Function.update (Function.update L d X) s Y) d Z =
      Function.update (Function.update L d Z) s Y := by
  rw [Function.update_comm hne.symm, Function.update_idem, Function.update_comm hne]

theorem cutRect_spec (hH : H.Fresh (heap :: regions)) (h : Holds H heap regions m L [])
    (hs : s ∈ regions) (hd : d ∈ regions) (hne : s ≠ d) (hS : IsRegion (L s) S)
    (hD : IsRegion (L d) D) (hdis : Disjoint D (S ∩ points i)) :
    ∃ m' l₁ l₂, Returns (fun k => cutRect H heap k s d i m) m' ∧
      Holds H heap regions m' (Function.update (Function.update L d l₂) s l₁) [] ∧
      IsRegion l₁ (S \ points i) ∧ IsRegion l₂ (D ∪ (S ∩ points i)) := by
  by_cases hi : valid i = true
  · have hi' := valid_iff.1 hi
    rw [Set.disjoint_left] at hdis
    have hloop := loop_region H heap regions (m := m)
      (b := fun _ m srec prec => some (cutStep H heap s d i m srec prec))
      (P := fun m pre suf E => IsRegion pre ((S \ E) \ points i) ∧ ∃ l,
        Holds H heap regions m (Function.update (Function.update L d l) s (pre ++ suf)) [] ∧
        IsRegion l (D ∪ (S \ E) ∩ points i)) hs ?_ ?_ hS ?_
    · obtain ⟨m', pre', hret, hpre, l, hm', hl⟩ := hloop
      rw [Set.sdiff_empty] at hpre hl
      rw [List.append_nil] at hm'
      refine ⟨m', pre', l, ?_, hm', hpre, hl⟩
      simp only [cutRect, hi, if_true]
      exact hret
    · rintro m pre suf E ⟨-, l, hm, -⟩
      exact ⟨_, hm, Function.update_self ..⟩
    · rintro m pre c r suf E ⟨hpre, l, hm, hl⟩ hc hproper hfits hsub hES -
      by_cases hap : apart r i = true
      · have hri := Set.disjoint_left.1 (apart_disjoint hap)
        refine ⟨m, pre ++ [(c, r)], returns_const (fun k => ?_), ?_, l, ?_, ?_⟩
        · simp only [cutStep, hc, hap, if_true, tip_snoc]
        · have hsame : (S \ (E \ points r)) \ points i = ((S \ E) \ points i) ∪ points r := by grind
          rw [hsame]
          refine hpre.append (IsRegion.single hproper hfits) ?_
          rw [Set.disjoint_left]
          grind
        · rwa [List.append_assoc]
        · have hsame : (S \ (E \ points r)) ∩ points i = (S \ E) ∩ points i := by grind
          rwa [hsame]
      · have hover := overlap_of hap
        -- what is cut is new among what is there
        have hboth : Disjoint (points r ∩ points i) (D ∪ (S \ E) ∩ points i) := by
          rw [Set.disjoint_left]
          grind
        have hunion : D ∪ (S \ (E \ points r)) ∩ points i =
            (points r ∩ points i) ∪ (D ∪ (S \ E) ∩ points i) := by grind
        rw [hunion]
        cases hparts : Region.leftOver r i with
        | some parts =>
            obtain ⟨f, cells⟩ := parts
            have hfits' := cutPart_fits hfits hproper hi' hover
            have hstore := store_holds f hm hs (Function.update_self ..)
            obtain ⟨c', hcut⟩ := newCell_holds hH hstore hd (cutPart r i)
            obtain ⟨new, hnew, hm'⟩ := newCells_holds hH hs cells hcut
            rw [Function.update_idem, update_pair hne, Function.update_idem, Function.update_self,
              Function.update_of_ne hne.symm, Function.update_self, Rect.int_fits hfits'] at hm'
            refine ⟨cells.foldl (newCell H heap s) (newCell H heap d (store c f m) (cutPart r i)),
              new ++ pre ++ [(c, f r)], returns_const (fun k => ?_), ?_, (c', cutPart r i) :: l, ?_, ?_⟩
            · simp only [cutStep, hc, hap, hparts, tip_snoc]
              rfl
            · have hleft := IsRegion.leftOver (c := c) hfits hproper ⟨hi'.1.le, hi'.2.le⟩ hover hparts
                (leftOver_proper hproper hi' hover hparts) hnew
              have hrest : (S \ (E \ points r)) \ points i =
                  ((S \ E) \ points i) ∪ (points r \ points i) := by grind
              rw [hrest]
              refine hpre.placed hleft ?_
              rw [Set.disjoint_left]
              grind
            · rwa [List.append_assoc, List.append_assoc]
            · have hone := IsRegion.single (c := c') (cutPart_proper hproper hi' hover) hfits'
              rw [points_cutPart] at hone
              exact hone.append hl hboth
        | none =>
            have hsub' := leftOver_none hparts
            have hmove := addFnode_holds (removeFnode_holds hm hs (Function.update_self ..)) hd
            rw [Function.update_idem, update_pair hne, Function.update_of_ne hne.symm,
              Function.update_self] at hmove
            refine ⟨_, pre, returns_const (fun k => ?_), ?_, _, hmove, ?_⟩
            · simp only [cutStep, hc, hap, hparts]
              rfl
            · have hsame : (S \ (E \ points r)) \ points i = (S \ E) \ points i := by grind
              rwa [hsame]
            · have hone := IsRegion.single (c := c) hproper hfits
              have hin : points r = points r ∩ points i := (Set.inter_eq_left.2 hsub').symm
              have hrect : (removeFnode c (tip s (pre.map Prod.fst)) m).rect c = r := hc
              rw [hrect]
              rw [hin] at hone
              exact hone.append hl hboth
    · refine ⟨?_, L d, ?_, ?_⟩
      · rw [Set.sdiff_self, Set.empty_sdiff]
        exact IsRegion.nil
      · rwa [List.nil_append, Function.update_eq_self, Function.update_eq_self]
      · rwa [Set.sdiff_self, Set.empty_inter, Set.union_empty]
  · refine ⟨m, L s, L d, returns_const (fun k => ?_), ?_, ?_, ?_⟩
    · rw [cutRect, if_neg hi]
    · rwa [Function.update_eq_self, Function.update_eq_self]
    · rwa [points_invalid hi, Set.sdiff_empty]
    · rwa [points_invalid hi, Set.inter_empty, Set.union_empty]

theorem clipRect_spec (h : Holds H heap regions m L []) (hs : s ∈ regions) (hS : IsRegion (L s) S)
    (hi : i.Proper) :
    ∃ m' l', Returns (fun k => clipRect heap k s i m) m' ∧
      Holds H heap regions m' (Function.update L s l') [] ∧ IsRegion l' (S ∩ points i) := by
  have hloop := loop_region H heap regions (m := m)
    (b := fun _ m rec prec => some (clipStep heap i m rec prec))
    (P := fun m pre suf E => Holds H heap regions m (Function.update L s (pre ++ suf)) [] ∧
      IsRegion pre ((S \ E) ∩ points i)) hs ?_ ?_ hS ?_
  · obtain ⟨m', pre', hret, hm', hpre⟩ := hloop
    rw [Set.sdiff_empty] at hpre
    rw [List.append_nil] at hm'
    refine ⟨m', pre', ?_, hm', hpre⟩
    simp only [clipRect, valid_iff.2 hi, if_true]
    exact hret
  · rintro m pre suf E ⟨hm, -⟩
    exact ⟨_, hm, Function.update_self ..⟩
  · rintro m pre c r suf E ⟨hm, hpre⟩ hc hproper hfits hsub hES -
    by_cases hover : Overlap r i
    · have hcut : (⟨max i.x r.x, max i.y r.y, min i.x1 r.x1, min i.y1 r.y1⟩ : Rect) = cutPart r i := by
        rw [cutPart_eq, max_comm i.x, max_comm i.y, min_comm i.x1, min_comm i.y1]
      have hfits' := cutPart_fits hfits hproper hi hover
      have hstore := store_holds (fun _ => (cutPart r i).int) hm hs (Function.update_self ..)
      rw [Function.update_idem] at hstore
      refine ⟨store c (fun _ => (cutPart r i).int) m, pre ++ [(c, (cutPart r i).int)],
        returns_const (fun k => ?_), ?_, ?_⟩
      · have hcond : r.x < i.x1 ∧ r.y < i.y1 ∧ r.x1 > i.x ∧ r.y1 > i.y := hover
        simp only [clipStep, hc, hcond, hcut, tip_snoc]
        rfl
      · rwa [List.append_assoc]
      · have hone := IsRegion.single (c := c) (cutPart_proper hproper hi hover) hfits'
        rw [points_cutPart] at hone
        have hunion : (S \ (E \ points r)) ∩ points i =
            ((S \ E) ∩ points i) ∪ (points r ∩ points i) := by grind
        rw [hunion, Rect.int_fits hfits']
        refine hpre.append hone ?_
        rw [Set.disjoint_left]
        grind
    · have hout : Disjoint (points r) (points i) := by
        refine Beside.disjoint ?_
        simp only [Overlap, Beside] at hover ⊢
        omega
      have hri := Set.disjoint_left.1 hout
      have hremove := freecell_holds (removeFnode_holds hm hs (Function.update_self ..))
      rw [Function.update_idem] at hremove
      refine ⟨_, pre, returns_const (fun k => ?_), hremove, ?_⟩
      · have hcond : ¬ (r.x < i.x1 ∧ r.y < i.y1 ∧ r.x1 > i.x ∧ r.y1 > i.y) := hover
        simp only [clipStep, hc, hcond]
        rfl
      · have hsame : (S \ (E \ points r)) ∩ points i = (S \ E) ∩ points i := by grind
        rwa [hsame]
  · refine ⟨?_, ?_⟩
    · rwa [List.nil_append, Function.update_eq_self]
    · rw [Set.sdiff_self, Set.empty_inter]
      exact IsRegion.nil

/-! ### Pasting -/

/-- Each edge up to the other, and an `int` has them: what is left to paste may be empty. -/
def Rect.Ordered (i : Rect) : Prop := (i.x ≤ i.x1 ∧ i.y ≤ i.y1) ∧ i.Fits

/-- What a step of `:paste_rect` does at a cell of a rectangle. -/
theorem pasteStep_cases {c prec : ℕ} {r : Rect} (hc : m.rect c = r) (hr : r.Proper)
    (hfits : r.Fits) (hi : i.Ordered) :
    (∃ j, pasteStep H heap d (m, i) c prec = .go (m, j) c ∧
      points j = points i \ points r ∧ j.Ordered) ∨
    (∃ j, pasteStep H heap d (m, i) c prec = .go (freecell heap c (removeFnode c prec m), j) prec ∧
      points j = points i ∪ points r ∧ j.Ordered) ∨
    (∃ f cells, pasteStep H heap d (m, i) c prec =
      .go (cells.foldl (newCell H heap d) (store c f m), i) c ∧ Overlap r i ∧
        leftOver r i = some (f, cells) ∧ ∀ t ∈ cells, t.Proper) ∨
    (pasteStep H heap d (m, i) c prec = .out (m, i) ∧ points i ⊆ points r) := by
  obtain ⟨⟨hix, hiy⟩, hif⟩ := hi
  have happart (h : Beside i r) : points i = points i \ points r := h.disjoint.sdiff_eq_left.symm
  obtain ⟨hrx, hry, hrx1, hry1⟩ := hfits
  obtain ⟨fx, fy, fx1, fy1⟩ := hif
  by_cases h₁ : r.x > i.x1 ∨ r.y > i.y1 ∨ i.x > r.x1 ∨ i.y > r.y1
  · refine Or.inl ⟨i, ?_, happart ?_, ⟨hix, hiy⟩, fx, fy, fx1, fy1⟩
    · simp only [pasteStep, hc, if_pos h₁]
    · simp only [Beside]
      omega
  by_cases h₂ : i.y = r.y ∧ i.y1 = r.y1
  · refine Or.inr (Or.inl ⟨{ i with x := min r.x i.x, x1 := max r.x1 i.x1 }, ?_, ?_, ?_, ?_⟩)
    · simp only [pasteStep, hc, if_neg h₁, if_pos h₂]
    · exact points_merge_x hr (by omega) (by omega) h₂.1 h₂.2
    · exact ⟨by dsimp only; omega, hiy⟩
    · simp only [Rect.Fits, FitsInt] at *
      omega
  by_cases h₃ : i.x = r.x ∧ i.x1 = r.x1
  · refine Or.inr (Or.inl ⟨{ i with y := min r.y i.y, y1 := max r.y1 i.y1 }, ?_, ?_, ?_, ?_⟩)
    · simp only [pasteStep, hc, if_neg h₁, if_neg h₂, if_pos h₃]
    · exact points_merge_y hr (by omega) (by omega) h₃.1 h₃.2
    · exact ⟨hix, by dsimp only; omega⟩
    · simp only [Rect.Fits, FitsInt] at *
      omega
  by_cases h₄ : r.x = i.x1 ∨ r.y = i.y1 ∨ i.x = r.x1 ∨ i.y = r.y1
  · refine Or.inl ⟨i, ?_, happart ?_, ⟨hix, hiy⟩, fx, fy, fx1, fy1⟩
    · simp only [pasteStep, hc, if_neg h₁, if_neg h₂, if_neg h₃, if_pos h₄]
    · simp only [Beside]
      omega
  have hover : Overlap r i := by
    simp only [Overlap]
    omega
  cases hp : pasteOverlap r i with
  | covered =>
      refine Or.inr (Or.inr (Or.inr ⟨?_, pasteOverlap_covered hp⟩))
      simp only [pasteStep, hc, if_neg h₁, if_neg h₂, if_neg h₃, if_neg h₄, hp]
  | less j =>
      obtain ⟨hj, hord, hjf⟩ := pasteOverlap_less ⟨hrx, hry, hrx1, hry1⟩ ⟨fx, fy, fx1, fy1⟩
        ⟨hix, hiy⟩ hover hp
      refine Or.inl ⟨j, ?_, hj, hord, hjf⟩
      simp only [pasteStep, hc, if_neg h₁, if_neg h₂, if_neg h₃, if_neg h₄, hp]
  | keep f cells =>
      obtain ⟨hparts, hcells⟩ := pasteOverlap_keep hr hover hp
      refine Or.inr (Or.inr (Or.inl ⟨f, cells, ?_, hover, hparts, hcells⟩))
      simp only [pasteStep, hc, if_neg h₁, if_neg h₂, if_neg h₃, if_neg h₄, hp]
  | enclosed =>
      have hsub := pasteOverlap_enclosed hp
      refine Or.inr (Or.inl ⟨i, ?_, (Set.union_eq_left.2 hsub).symm, ⟨hix, hiy⟩, fx, fy, fx1, fy1⟩)
      simp only [pasteStep, hc, if_neg h₁, if_neg h₂, if_neg h₃, if_neg h₄, hp]

/-- What is left to paste is of none of the cells gone by, and with theirs is what they had and
    what was given to paste. -/
structure Pasting (S I₀ E X I : Set (ℤ × ℤ)) : Prop where
  sub : ∀ p ∈ X, p ∈ S ∧ p ∉ E
  apart : ∀ p ∈ X, p ∉ I
  union : ∀ p, p ∈ X ∨ p ∈ I ↔ (p ∈ S ∧ p ∉ E) ∨ p ∈ I₀

/-- A cell gone by, of which some points are kept and the others are now to paste. -/
theorem Pasting.step {S I₀ E X I T Y J : Set (ℤ × ℤ)} (h : Pasting S I₀ E X I) (hT : T ⊆ E)
    (hE : E ⊆ S) (hY : ∀ p ∈ Y, p ∈ T ∧ p ∉ J) (hall : ∀ p, p ∈ Y ∨ p ∈ J ↔ p ∈ T ∨ p ∈ I) :
    Pasting S I₀ (E \ T) (X ∪ Y) J := by
  constructor
  · intro p hp
    have hsub := h.sub p
    have hY' := hY p
    have hTE := @hT p
    have hES := @hE p
    simp only [Set.mem_union, Set.mem_sdiff] at *
    tauto
  · intro p hp
    have hsub := h.sub p
    have hXI := h.apart p
    have hY' := hY p
    have hTE := @hT p
    have hall' := hall p
    simp only [Set.mem_union] at hp
    tauto
  · intro p
    have hunion := h.union p
    have hXI := h.apart p
    have hY' := hY p
    have hTE := @hT p
    have hES := @hE p
    have hall' := hall p
    simp only [Set.mem_union, Set.mem_sdiff]
    tauto

/-- What is left to paste, put at the head, if it is not empty. -/
theorem pasteRest_holds (hH : H.Fresh (heap :: regions)) {j : Rect} {pre : List Cell}
    {X : Set (ℤ × ℤ)} (hm : Holds H heap regions m (Function.update L d pre) [])
    (hd : d ∈ regions) (hj : j.Ordered) (hpre : IsRegion pre X)
    (hp : Pasting D (points i) ∅ X (points j)) :
    ∃ l', Holds H heap regions (if j.x ≠ j.x1 ∧ j.y ≠ j.y1 then newCell H heap d m j else m)
      (Function.update L d l') [] ∧ IsRegion l' (D ∪ points i) := by
  by_cases hne : j.x ≠ j.x1 ∧ j.y ≠ j.y1
  · have hproper : j.Proper := ⟨lt_of_le_of_ne hj.1.1 hne.1, lt_of_le_of_ne hj.1.2 hne.2⟩
    obtain ⟨c, hc⟩ := newCell_holds hH hm hd j
    rw [Function.update_idem, Function.update_self, Rect.int_fits hj.2] at hc
    refine ⟨_, by rwa [if_pos hne], ?_⟩
    have hunion : D ∪ points i = points j ∪ X := by
      ext p
      have := hp.union p
      simp only [Set.mem_union, Set.mem_empty_iff_false] at this ⊢
      tauto
    rw [hunion]
    exact (IsRegion.single hproper hj.2).append hpre (Set.disjoint_right.2 hp.apart)
  · refine ⟨pre, by rwa [if_neg hne], ?_⟩
    have hunion : D ∪ points i = X := by
      ext p
      have := hp.union p
      have hnone : p ∉ points j := by
        rw [mem_points]
        omega
      simp only [Set.mem_union, Set.mem_empty_iff_false] at this ⊢
      tauto
    rwa [hunion]

theorem pasteRect_spec (hH : H.Fresh (heap :: regions)) (h : Holds H heap regions m L [])
    (hd : d ∈ regions) (hD : IsRegion (L d) D) (hfit : i.Proper → i.Fits) :
    ∃ m' l', Returns (fun k => pasteRect H heap k d i m) m' ∧
      Holds H heap regions m' (Function.update L d l') [] ∧ IsRegion l' (D ∪ points i) := by
  by_cases hi : valid i = true
  · have hi' := valid_iff.1 hi
    have hwalk := walk_region H heap regions (g := Prod.fst) (s := (m, i))
      (b := fun _ s drec prec => some (pasteStep H heap d s drec prec))
      (P := fun s pre suf E => s.2.Ordered ∧ ∃ X, Pasting D (points i) E X (points s.2) ∧
        Holds H heap regions s.1 (Function.update L d (pre ++ suf)) [] ∧ IsRegion pre X)
      (Q := fun s => ∃ l', Holds H heap regions s.1 (Function.update L d l') [] ∧
        IsRegion l' (D ∪ points i)) hd ?_ ?_ hD ?_
    · rcases hwalk with ⟨⟨m', j⟩, pre', ⟨n, hret⟩, hj, X, hp, hm', hpre⟩ | ⟨⟨m', j⟩, ⟨n, hret⟩, l', hl'⟩
      · rw [List.append_nil] at hm'
        obtain ⟨l', hrest⟩ := pasteRest_holds hH hm' hd hj hpre hp
        refine ⟨_, l', ⟨n, fun k hk => ?_⟩, hrest⟩
        simp only [pasteRect, hi, if_true, hret k hk]
        split_ifs <;> rfl
      · refine ⟨m', l', ⟨n, fun k hk => ?_⟩, hl'⟩
        simp only [pasteRect, hi, if_true, hret k hk]
    · rintro s pre suf E ⟨-, X, -, hm, -⟩
      exact ⟨_, hm, Function.update_self ..⟩
    · rintro ⟨m, j⟩ pre c r suf E ⟨hj, X, hp, hm, hpre⟩ hc hproper hfits hsub hES hrest
      dsimp only at hj hp hm hc
      have hXr : Disjoint X (points r) :=
        Set.disjoint_left.2 (fun p hX hr => (hp.sub p hX).2 (hsub hr))
      rcases pasteStep_cases hc hproper hfits hj with ⟨j', hstep, hpts, hj'⟩ | ⟨j', hstep, hpts, hj'⟩ |
        ⟨f, cells, hstep, hover, hparts, hcells⟩ | ⟨hstep, hin⟩
      · -- the cell stays, and there may be less to paste
        refine Or.inl ⟨(m, j'), pre ++ [(c, r)], returns_const (fun k => ?_), hj', X ∪ points r, ?_, ?_, ?_⟩
        · rw [hstep, tip_snoc]
        · refine hp.step hsub hES (fun p hr => ⟨hr, fun hj => ?_⟩) (fun p => ?_)
          · rw [hpts] at hj
            exact hj.2 hr
          · rw [hpts, Set.mem_sdiff]
            tauto
        · rwa [List.append_assoc]
        · exact hpre.append (IsRegion.single hproper hfits) hXr
      · -- the cell goes, and all of it is to paste
        have hremove := freecell_holds (removeFnode_holds hm hd (Function.update_self ..))
        rw [Function.update_idem] at hremove
        refine Or.inl ⟨(_, j'), pre, returns_const (fun k => ?_), hj', X, ?_, hremove, hpre⟩
        · rw [hstep]
          rfl
        · have hstep' := hp.step (Y := ∅) (J := points j') hsub hES (by simp) (fun p => ?_)
          · rwa [Set.union_empty] at hstep'
          · rw [hpts, Set.mem_union, Set.mem_empty_iff_false]
            tauto
      · -- the cell keeps what is not to paste
        have hstore := store_holds f hm hd (Function.update_self ..)
        obtain ⟨new, hnew, hm'⟩ := newCells_holds hH hd cells hstore
        rw [Function.update_idem, Function.update_idem, Function.update_self] at hm'
        have hleft := IsRegion.leftOver (c := c) hfits hproper hj.1 hover hparts hcells hnew
        refine Or.inl ⟨(cells.foldl (newCell H heap d) (store c f m), j), new ++ pre ++ [(c, f r)],
          returns_const (fun k => ?_), hj, X ∪ (points r \ points j), ?_, ?_, ?_⟩
        · rw [hstep, tip_snoc]
        · refine hp.step hsub hES (fun p hr => hr) (fun p => ?_)
          rw [Set.mem_sdiff]
          tauto
        · rwa [List.append_assoc, List.append_assoc]
        · exact hpre.placed hleft (hXr.mono_right Set.sdiff_subset)
      · -- the cell has all there is left to paste
        refine Or.inr ⟨(m, j), returns_const (fun k => ?_), _, hm, ?_⟩
        · rw [hstep]
        · have hE : IsRegion ((c, r) :: suf) E := by
            have := (IsRegion.single (c := c) hproper hfits).append hrest Set.disjoint_sdiff_right
            rwa [Set.union_sdiff_cancel hsub] at this
          have hunion : D ∪ points i = X ∪ E := by
            ext p
            have h₁ := hp.union p
            have h₂ := @hin p
            have h₃ := @hsub p
            have h₄ := @hES p
            simp only [Set.mem_union]
            tauto
          rw [hunion]
          exact hpre.append hE (Set.disjoint_left.2 (fun p hX hE => (hp.sub p hX).2 hE))
    · refine ⟨⟨⟨hi'.1.le, hi'.2.le⟩, hfit hi'⟩, ∅, ⟨by simp, by simp, fun p => ?_⟩, ?_, IsRegion.nil⟩
      · simp only [Set.mem_empty_iff_false]
        tauto
      · rwa [List.nil_append, Function.update_eq_self]
  · refine ⟨m, L d, returns_const (fun k => ?_), ?_, ?_⟩
    · rw [pasteRect, if_neg hi]
    · rwa [Function.update_eq_self]
    · rwa [points_invalid hi, Set.union_empty]

end Rects

end ChrysaLisp.Region
