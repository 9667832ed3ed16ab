import Mathlib.Data.List.Induction
import ChrysaLisp.Gui.RegionRect

set_option autoImplicit false

/-! # The cells of the region heap

Every cell of the blocks the host has mapped is in one region or on the free list, or is loose for
as long as a method takes to move it from one to another. -/

namespace ChrysaLisp.Region

open Linked

/-- The cells of so many blocks. -/
def mapped (H : Host) : ℕ → List ℕ
  | 0 => []
  | n + 1 => mapped H n ++ H.cells n

/-- What the host maps is new, and not of the words the lists hang from. -/
structure Host.Fresh (H : Host) (heads : List ℕ) : Prop where
  nonempty : ∀ n, H.cells n ≠ []
  nonzero : ∀ n, 0 ∉ H.cells n
  nodup : ∀ n, (heads ++ mapped H n).Nodup

/-- A cell, and the rectangle it has. -/
abbrev Cell := ℕ × Rect

/-- The regions have these cells, with these rectangles, and these cells are loose. All others
    there are, are free. -/
structure Holds (H : Host) (heap : ℕ) (regions : List ℕ) (m : Mem) (L : ℕ → List Cell)
    (loose : List ℕ) : Prop where
  lists : ∃ free, Lists m.next (heap :: regions)
    (Function.update (fun h => (L h).map Prod.fst) heap free) loose (mapped H m.blocks)
  rects : ∀ h ∈ regions, ∀ q ∈ L h, m.rect q.1 = q.2

/-! ## Carving a block -/

theorem carve_concat (next : ℕ → ℕ) (l : List ℕ) (d : ℕ) :
    carve next (l ++ [d]) = (Function.update (carve next l).1 d (carve next l).2, d) := by
  rw [carve, List.foldl_append]
  rfl

theorem carve_other (next : ℕ → ℕ) {l : List ℕ} {x : ℕ} (hx : x ∉ l) :
    (carve next l).1 x = next x := by
  induction l using List.reverseRecOn with
  | nil => rfl
  | append_singleton l d ih =>
      rw [List.mem_append, List.mem_singleton, not_or] at hx
      rw [carve_concat]
      exact (Function.update_of_ne hx.2 _ _).trans (ih hx.1)

/-- The cells of a block, the last of them first, after whatever is made to link to the last. -/
theorem carve_chain (next : ℕ → ℕ) {l : List ℕ} (hnodup : l.Nodup) (hzero : 0 ∉ l) {a : ℕ}
    (ha : a ∉ l) : Chain (Function.update (carve next l).1 a (carve next l).2) a l.reverse := by
  induction l using List.reverseRecOn generalizing a with
  | nil => exact Function.update_self ..
  | append_singleton l d ih =>
      have hd : d ∉ l := fun hd => (List.nodup_append.1 hnodup).2.2 d hd d (List.mem_singleton_self d) rfl
      have hne : ∀ x ∈ d :: l.reverse, x ≠ a := by
        rintro x hx rfl
        refine ha ?_
        rwa [List.mem_append, List.mem_singleton, or_comm, ← List.mem_reverse, ← List.mem_cons]
      rw [List.reverse_append, List.reverse_singleton, List.singleton_append, carve_concat]
      refine ⟨Function.update_self .., fun hd0 => ?_, ?_⟩
      · exact hzero (hd0 ▸ List.mem_append_right l (List.mem_singleton_self d))
      · refine (ih (List.nodup_append.1 hnodup).1 (fun h0 => ?_) hd).congr (fun x hx => ?_)
        · exact hzero (List.mem_append_left _ h0)
        · exact Function.update_of_ne (hne x hx) _ _

/-! ## What the operations on cells do -/

section

variable {H : Host} {heap : ℕ} {regions : List ℕ} {m : Mem} {L : ℕ → List Cell} {loose : List ℕ}
variable {c d s : ℕ} {r : Rect} {pre suf : List Cell}

theorem Holds.heap_not_mem (h : Holds H heap regions m L loose) : heap ∉ regions := by
  obtain ⟨free, hl⟩ := h.lists
  exact (List.nodup_cons.1 hl.heads_nodup).1

theorem Holds.ne_heap (h : Holds H heap regions m L loose) (hd : d ∈ regions) : d ≠ heap :=
  fun he => h.heap_not_mem (he ▸ hd)

/-- The cells of the lists are those of the regions. -/
theorem update_cells (hd : d ≠ heap) (free : List ℕ) (l : List Cell) :
    Function.update (fun h => (Function.update L d l h).map Prod.fst) heap free =
      Function.update (Function.update (fun h => (L h).map Prod.fst) heap free) d
        (l.map Prod.fst) := by
  funext h
  by_cases hh : h = heap
  · rw [hh, Function.update_self, Function.update_of_ne hd.symm, Function.update_self]
  · rw [Function.update_of_ne hh]
    by_cases he : h = d
    · rw [he, Function.update_self, Function.update_self]
    · rw [Function.update_of_ne he, Function.update_of_ne he, Function.update_of_ne hh]

theorem alloc_holds (hH : H.Fresh (heap :: regions)) (h : Holds H heap regions m L []) :
    Holds H heap regions (alloc H heap m).1 L [(alloc H heap m).2] ∧
      (alloc H heap m).1.rect = m.rect := by
  obtain ⟨free, hl⟩ := h.lists
  have hheap : heap ∈ heap :: regions := List.mem_cons_self
  have hnext := hl.next_head hheap
  rw [Function.update_self] at hnext
  cases free with
  | cons c free =>
      have hc : c ≠ 0 := fun h0 => hl.nonzero
        (h0 ▸ hl.mem_cells hheap (by rw [Function.update_self]; exact List.mem_cons_self))
      have halloc : alloc H heap m =
          ({ m with next := Function.update m.next heap (m.next c) }, c) := by
        rw [alloc, hnext, List.headD_cons, if_pos hc]
      rw [halloc]
      refine ⟨⟨⟨free, ?_⟩, h.rects⟩, rfl⟩
      have := hl.unlink hheap (show _ = [] ++ c :: free from Function.update_self ..)
      rwa [Function.update_idem] at this
  | nil =>
      obtain ⟨l, c, hlc⟩ : ∃ l c, H.cells m.blocks = l ++ [c] :=
        ⟨_, _, (List.dropLast_append_getLast (hH.nonempty m.blocks)).symm⟩
      have hnodup := hH.nodup (m.blocks + 1)
      rw [mapped, hlc] at hnodup
      have hzero : 0 ∉ l ++ [c] := hlc ▸ hH.nonzero m.blocks
      have hnew := (List.nodup_append.1 (List.nodup_append.1 hnodup).2.1).2.1
      have hheads : ∀ h ∈ heap :: regions, h ∉ l ++ [c] := fun h hh hm =>
        (List.nodup_append.1 hnodup).2.2 h hh h (List.mem_append_right _ hm) rfl
      have hcells : ∀ x ∈ mapped H m.blocks, x ∉ l ++ [c] := fun x hx hm =>
        (List.nodup_append.1 (List.nodup_append.1 hnodup).2.1).2.2 x hx x hm rfl
      have halloc : alloc H heap m = ({ m with
          next := Function.update (carve m.next (l ++ [c])).1 heap ((carve m.next (l ++ [c])).1 c),
          blocks := m.blocks + 1 }, c) := by
        rw [alloc, hnext, List.headD_nil, if_neg (not_not_intro rfl), hlc, carve_concat]
      rw [halloc]
      refine ⟨⟨⟨l.reverse, ?_⟩, h.rects⟩, rfl⟩
      have hcarved : (carve m.next (l ++ [c])).1 =
          Function.update (carve m.next l).1 c (carve m.next l).2 := by rw [carve_concat]
      have hlast : (carve m.next (l ++ [c])).1 c = (carve m.next l).2 := by
        rw [hcarved, Function.update_self]
      have hcl : c ∉ l := fun hm =>
        (List.nodup_append.1 hnew).2.2 c hm c (List.mem_singleton_self c) rfl
      have hheapl : heap ∉ l := fun hm => hheads heap hheap (List.mem_append_left _ hm)
      have hchain := carve_chain m.next (List.nodup_append.1 hnew).1
        (fun h0 => hzero (List.mem_append_left _ h0)) hheapl
      have hchain' : Chain (Function.update (carve m.next (l ++ [c])).1 heap (carve m.next l).2)
          heap l.reverse := by
        refine hchain.congr (fun x hx => ?_)
        rcases List.mem_cons.1 hx with rfl | hx
        · rw [Function.update_self, Function.update_self]
        · have hxl := List.mem_reverse.1 hx
          have hxh : x ≠ heap := fun he => hheapl (he ▸ hxl)
          have hxc : x ≠ c := fun he => hcl (he ▸ hxl)
          rw [Function.update_of_ne hxh, Function.update_of_ne hxh, hcarved,
            Function.update_of_ne hxc]
      have hmore := hl.more hheap (Function.update_self ..) hchain' (fun h hh hne => ?_)
        (fun x hx => ?_) ((List.reverse_perm l).append_right [c]) hnodup hzero
      · rw [Function.update_idem, ← hlast] at hmore
        rwa [mapped, hlc]
      · rw [Function.update_of_ne hne]
        exact carve_other _ (hheads h hh)
      · have hxh : x ≠ heap := fun he => hl.head_not_cell hheap (he ▸ hx)
        rw [Function.update_of_ne hxh]
        exact carve_other _ (hcells x hx)

/-- A loose cell put at the head of a region. -/
theorem addFnode_holds (h : Holds H heap regions m L (c :: loose)) (hd : d ∈ regions) :
    Holds H heap regions (addFnode d c m) (Function.update L d ((c, m.rect c) :: L d)) loose := by
  obtain ⟨free, hl⟩ := h.lists
  have hne := h.ne_heap hd
  refine ⟨⟨free, ?_⟩, fun h' hh' q hq => ?_⟩
  · have := hl.push (List.mem_cons_of_mem _ hd)
    rwa [update_cells hne, List.map_cons, Function.update_of_ne hne] at *
  · by_cases he : h' = d
    · rw [he, Function.update_self] at hq
      rcases List.mem_cons.1 hq with rfl | hq
      · rfl
      · exact h.rects d hd q hq
    · rw [Function.update_of_ne he] at hq
      exact h.rects h' hh' q hq

/-- A cell taken off a region, by the node before it. -/
theorem removeFnode_holds (h : Holds H heap regions m L loose) (hd : d ∈ regions)
    (hL : L d = pre ++ (c, r) :: suf) :
    Holds H heap regions (removeFnode c (tip d (pre.map Prod.fst)) m)
      (Function.update L d (pre ++ suf)) (c :: loose) := by
  obtain ⟨free, hl⟩ := h.lists
  have hne := h.ne_heap hd
  refine ⟨⟨free, ?_⟩, fun h' hh' q hq => ?_⟩
  · have hcells : Function.update (fun h => (L h).map Prod.fst) heap free d =
        pre.map Prod.fst ++ c :: suf.map Prod.fst := by
      rw [Function.update_of_ne hne, hL, List.map_append]
      rfl
    have := hl.unlink (List.mem_cons_of_mem _ hd) hcells
    rwa [update_cells hne, List.map_append]
  · by_cases he : h' = d
    · rw [he, Function.update_self] at hq
      refine h.rects d hd q (hL ▸ ?_)
      exact (List.Sublist.append_left (List.sublist_cons_self (c, r) suf) pre).mem hq
    · rw [Function.update_of_ne he] at hq
      exact h.rects h' hh' q hq

theorem freecell_holds (h : Holds H heap regions m L (c :: loose)) :
    Holds H heap regions (freecell heap c m) L loose := by
  obtain ⟨free, hl⟩ := h.lists
  refine ⟨⟨c :: free, ?_⟩, h.rects⟩
  have := hl.push List.mem_cons_self
  rwa [Function.update_idem, Function.update_self] at this

theorem Holds.nodup (h : Holds H heap regions m L loose) (hd : d ∈ regions) :
    ((L d).map Prod.fst).Nodup := by
  obtain ⟨free, hl⟩ := h.lists
  have := (List.nodup_append.1 (hl.split (List.mem_cons_of_mem _ hd))).1
  rwa [Function.update_of_ne (h.ne_heap hd)] at this

theorem Holds.other (h : Holds H heap regions m L loose) (hd : d ∈ regions) (hs : s ∈ regions)
    (hne : s ≠ d) {p q : Cell} (hp : p ∈ L d) (hq : q ∈ L s) : q.1 ≠ p.1 := by
  obtain ⟨free, hl⟩ := h.lists
  intro he
  have hnot := hl.other (x := q.1) (List.mem_cons_of_mem _ hd) (List.mem_cons_of_mem _ hs) hne
  rw [Function.update_of_ne (h.ne_heap hd), Function.update_of_ne (h.ne_heap hs)] at hnot
  refine hnot (List.mem_cons_of_mem _ (List.mem_map_of_mem hq)) (List.mem_cons_of_mem _ ?_)
  exact he ▸ List.mem_map_of_mem hp

/-- What is stored in a cell of a region. -/
theorem store_holds (f : Rect → Rect) (h : Holds H heap regions m L loose) (hd : d ∈ regions)
    (hL : L d = pre ++ (c, r) :: suf) :
    Holds H heap regions (store c f m) (Function.update L d (pre ++ (c, f r) :: suf)) loose := by
  have hmem : (c, r) ∈ L d := hL ▸ List.mem_append_right _ List.mem_cons_self
  have hc : m.rect c = r := h.rects d hd _ hmem
  have hother : ∀ q ∈ pre ++ suf, q.1 ≠ c := by
    have hnodup := h.nodup hd
    rw [hL, List.map_append, List.map_cons, (List.perm_middle).nodup_iff, ← List.map_append] at hnodup
    intro q hq he
    have hq' : q.1 ∈ (pre ++ suf).map Prod.fst := List.mem_map_of_mem hq
    exact (List.nodup_cons.1 hnodup).1 (he ▸ hq')
  refine ⟨?_, fun h' hh' q hq => ?_⟩
  · obtain ⟨free, hl⟩ := h.lists
    refine ⟨free, ?_⟩
    have hsame : (pre ++ (c, f r) :: suf).map Prod.fst = (L d).map Prod.fst := by
      rw [hL, List.map_append, List.map_append]
      rfl
    have hkept := Function.update_eq_self d
      (Function.update (fun h => (L h).map Prod.fst) heap free)
    rw [Function.update_of_ne (h.ne_heap hd)] at hkept
    rwa [update_cells (h.ne_heap hd), hsame, hkept]
  · by_cases he : h' = d
    · rw [he, Function.update_self, List.perm_middle.mem_iff] at hq
      rcases List.mem_cons.1 hq with rfl | hq
      · exact (Function.update_self ..).trans (congrArg f hc)
      · refine (Function.update_of_ne (hother q hq) _ _).trans (h.rects d hd q (hL ▸ ?_))
        exact (List.perm_middle.mem_iff).2 (List.mem_cons_of_mem _ hq)
    · rw [Function.update_of_ne he] at hq
      exact (Function.update_of_ne (h.other hd hh' he hmem hq) _ _).trans (h.rects h' hh' q hq)

/-- A cell more at the head of a region. -/
theorem newCell_holds (hH : H.Fresh (heap :: regions)) (h : Holds H heap regions m L [])
    (hd : d ∈ regions) (r : Rect) : ∃ c, Holds H heap regions (newCell H heap d m r)
      (Function.update L d ((c, r.int) :: L d)) [] := by
  obtain ⟨halloc, -⟩ := alloc_holds hH h
  have hadd := addFnode_holds halloc hd
  have hstore := store_holds (fun _ => r.int) hadd hd
    (show _ = [] ++ (_, _) :: L d from Function.update_self ..)
  rw [Function.update_idem] at hstore
  exact ⟨_, hstore⟩

/-- And so many. -/
theorem newCells_holds (hH : H.Fresh (heap :: regions)) (hd : d ∈ regions) (cells : List Rect) :
    ∀ {m : Mem} {L : ℕ → List Cell}, Holds H heap regions m L [] →
      ∃ new : List Cell, new.map Prod.snd = (cells.map Rect.int).reverse ∧
        Holds H heap regions (cells.foldl (newCell H heap d) m)
          (Function.update L d (new ++ L d)) [] := by
  induction cells with
  | nil =>
      intro m L h
      refine ⟨[], rfl, ?_⟩
      rwa [List.nil_append, Function.update_eq_self]
  | cons r cells ih =>
      intro m L h
      obtain ⟨c, hc⟩ := newCell_holds hH h hd r
      obtain ⟨new, hnew, hall⟩ := ih hc
      refine ⟨new ++ [(c, r.int)], ?_, ?_⟩
      · rw [List.map_append, hnew, List.map_cons (f := Rect.int), List.reverse_cons]
        rfl
      · rw [Function.update_idem, Function.update_self] at hall
        rwa [List.append_assoc]

end

end ChrysaLisp.Region
