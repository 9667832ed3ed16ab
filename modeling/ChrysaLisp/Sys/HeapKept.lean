import ChrysaLisp.Sys.HeapCells

set_option autoImplicit false

/-! # What a heap keeps

Between its operations a heap has its blocks linked both ways, all of their cells are of the list
of free cells or handed out, each once, and nothing is counted or listed for a block. -/

namespace ChrysaLisp.Heap

open Linked Function

variable {z : Sizes} {this : ℕ}

/-- The blocks of a heap, linked, with their cells. -/
structure Blocks (z : Sizes) (this : ℕ) (m : Mem) (blocks : List ℕ) : Prop where
  places : Places z this blocks
  succ : Chain m.succ this (blocks ++ [this + lhListTail])
  pred : Back m.pred this (blocks ++ [this + lhListTail])
  cnt : ∀ b ∈ blocks, m.cellcnt b = z.cellCount
  owner : ∀ b ∈ blocks, ∀ c ∈ z.cellsOf b, m.block c = b

structure Kept (z : Sizes) (this base : ℕ) (s : State) (free : List ℕ) : Prop where
  blocks : Blocks z this s.mem s.mapped
  chain : Chain s.mem.next this free
  none : ∀ b ∈ s.mapped, s.mem.next b = 0
  perm : (free ++ s.live).Perm (s.mapped.flatMap z.cellsOf)
  zero : ∀ b ∈ s.mapped, s.mem.tail b = 0 ∧ s.mem.freecnt b = 0
  total : s.mem.total = base + s.mapped.length * z.blocksize

/-- The list of free cells, and none of any block. -/
def freeOnly (this : ℕ) (free : List ℕ) : ℕ → List ℕ := update (fun _ => []) this free

theorem flatMap_freeOnly {blocks : List ℕ} (hp : Places z this blocks) (free : List ℕ) :
    (this :: blocks).flatMap (freeOnly this free) = free := by
  have hnone : blocks.flatMap (freeOnly this free) = [] :=
    List.flatMap_eq_nil_iff.2 (fun b hb => update_of_ne (hp.this_ne b hb).1.symm _ _)
  rw [List.flatMap_cons, hnone, List.append_nil, freeOnly, update_self]

/-- The lists there are, between operations. -/
theorem lists_freeOnly {next : ℕ → ℕ} {blocks free live : List ℕ} (hp : Places z this blocks) :
    Lists next (this :: blocks) (freeOnly this free) live (blocks.flatMap z.cellsOf) ↔
      Chain next this free ∧ (∀ b ∈ blocks, next b = 0) ∧
        (free ++ live).Perm (blocks.flatMap z.cellsOf) := by
  constructor
  · intro hl
    refine ⟨?_, fun b hb => ?_, flatMap_freeOnly hp free ▸ hl.perm⟩
    · have hchain := hl.chain this List.mem_cons_self
      rwa [freeOnly, update_self] at hchain
    · have hchain := hl.chain b (List.mem_cons_of_mem _ hb)
      rwa [freeOnly, update_of_ne (hp.this_ne b hb).1.symm] at hchain
  · rintro ⟨hchain, hnone, hperm⟩
    refine ⟨fun h hh => ?_, (flatMap_freeOnly hp free).symm ▸ hperm, hp.all_nodup, hp.cells_nonzero⟩
    rcases List.mem_cons.1 hh with rfl | hh
    · rwa [freeOnly, update_self]
    · rw [freeOnly, update_of_ne (hp.this_ne h hh).1.symm]
      exact hnone h hh

theorem Kept.lists {base : ℕ} {s : State} {free : List ℕ} (h : Kept z this base s free) :
    Lists s.mem.next (this :: s.mapped) (freeOnly this free) s.live (s.mapped.flatMap z.cellsOf) :=
  (lists_freeOnly h.blocks.places).2 ⟨h.chain, h.none, h.perm⟩

theorem kept_init (z : Sizes) (this : ℕ) (m : Mem) :
    Kept z this m.total ⟨init this m, [], []⟩ [] where
  blocks :=
    { places := ⟨by simp, by simp, List.Pairwise.nil⟩
      succ := by
        have hne : this + lhListTail ≠ this := by simp [lhListTail]
        refine ⟨update_self .., by simp [lhListTail], ?_⟩
        show update (update m.succ (this + lhListTail) 0) this (this + lhListTail) _ = 0
        rw [update_of_ne hne, update_self]
      pred := ⟨update_self .., trivial⟩
      cnt := by simp
      owner := by simp }
  chain := update_self ..
  none := by simp
  perm := by simp
  zero := by simp
  total := by simp [init]

/-! ## `:alloc` and `hp-freecell` -/

section Alloc

variable {base : ℕ} {s : State} {free : List ℕ}

theorem Kept.next_this (h : Kept z this base s free) : s.mem.next this = free.headD 0 := by
  have := h.chain
  rw [← List.nil_append free] at this
  exact this.next_tip

/-- A cell taken off a list that is the heap's, or is to be. -/
theorem kept_gotCell {m : Mem} {blocks live : List ℕ} {cell : ℕ} (hb : Blocks z this m blocks)
    (hchain : Chain (update m.next this cell) this (cell :: free)) (hnone : ∀ b ∈ blocks, m.next b = 0)
    (hperm : (cell :: free ++ live).Perm (blocks.flatMap z.cellsOf))
    (hzero : ∀ b ∈ blocks, m.tail b = 0 ∧ m.freecnt b = 0)
    (htotal : m.total = base + blocks.length * z.blocksize) :
    Kept z this base ⟨(gotCell this m cell).1, blocks, cell :: live⟩ free := by
  have hne : ∀ b ∈ blocks, b ≠ this := fun b hb' => (hb.places.this_ne b hb').1.symm
  have hlists := (lists_freeOnly hb.places).2 ⟨hchain, fun b hb' => by
    rw [update_of_ne (hne b hb')]
    exact hnone b hb', hperm⟩
  have hfirst : freeOnly this (cell :: free) this = [] ++ cell :: free := update_self ..
  have htaken := hlists.unlink List.mem_cons_self hfirst
  have hcell : cell ≠ this := by
    have hmem : cell ∈ blocks.flatMap z.cellsOf := hperm.mem_iff.1 List.mem_cons_self
    exact ne_of_mem_of_not_mem hmem (hlists.head_not_cell List.mem_cons_self)
  rw [tip, update_of_ne hcell, update_idem, List.nil_append, freeOnly, update_idem] at htaken
  obtain ⟨hchain', hnone', hperm'⟩ := (lists_freeOnly hb.places).1 htaken
  exact ⟨⟨hb.places, hb.succ, hb.pred, hb.cnt, hb.owner⟩, hchain', hnone', hperm', hzero, htotal⟩

/-- A new block, linked in before the others. -/
theorem blocks_addNodeAfter {m : Mem} {blocks : List ℕ} {block : ℕ} (hb : Blocks z this m blocks)
    (hp : Places z this (block :: blocks)) :
    Chain (m.addNodeAfter this block).succ this ((block :: blocks) ++ [this + lhListTail]) ∧
      Back (m.addNodeAfter this block).pred this ((block :: blocks) ++ [this + lhListTail]) := by
  have hthis := (hp.this_ne block List.mem_cons_self).1
  have hnodes := hp.nodes_nodup
  have hnew : block ∉ this :: (blocks ++ [this + lhListTail]) := by
    have hrest := (List.nodup_cons.1 (List.nodup_cons.1 hnodes).2).1
    simp only [List.mem_cons, hthis.symm, false_or]
    exact hrest
  have hold : this ∉ blocks ++ [this + lhListTail] := (List.nodup_cons.1 hb.places.nodes_nodup).1
  constructor
  · have hpush := hb.succ.push (hp.nonzero block List.mem_cons_self) hnew hold
    rw [update_comm hthis.symm] at hpush
    exact hpush
  · obtain ⟨d, l, hd⟩ := List.exists_cons_of_ne_nil
      (List.append_ne_nil_of_right_ne_nil blocks (List.cons_ne_nil (this + lhListTail) []))
    have hnodup : (d :: l).Nodup := hd ▸ (List.nodup_cons.1 hb.places.nodes_nodup).2
    have hpred := hb.pred
    have hsucc := hb.succ
    rw [List.cons_append]
    rw [hd] at hpred hsucc hnew ⊢
    have hpush := hpred.push (List.not_mem_of_not_mem_cons hnew) (List.nodup_cons.1 hnodup).1
    show Back (update (update m.pred (m.succ this) block) block this) this _
    rw [hsucc.1]
    exact hpush

/-- A new block has all its cells free, in a list that is to be the heap's. -/
theorem Kept.addBlock {block : ℕ} (h : Kept z this base s []) (hfresh : Fresh z this s.mapped block) :
    ∃ free, (addBlock z this s.mem block).2 :: free = (z.cellsOf block).reverse ∧
      Kept z this base ⟨(gotCell this (addBlock z this s.mem block).1 (addBlock z this s.mem block).2).1,
        block :: s.mapped, (addBlock z this s.mem block).2 :: s.live⟩ free := by
  have hp := h.blocks.places.cons hfresh
  obtain ⟨hsucc, hpred⟩ := blocks_addNodeAfter h.blocks hp
  have hcells := fun c hc => hp.cell_ne (c := c) List.mem_cons_self hc
  -- the words before the cells are made
  let m : Mem := { s.mem.addNodeAfter this block with
    total := s.mem.total + z.blocksize
    next := update s.mem.next block 0
    tail := update s.mem.tail block 0
    freecnt := update s.mem.freecnt block 0 }
  have hcarved : Carved z this block m 0 0 := ⟨update_self .., fun i hi => absurd hi (Nat.not_lt_zero i)⟩
  have hat : z.cellAt block 0 = block + (hpBlockSize + hpCellNext) := by simp [Sizes.cellAt]
  obtain ⟨hall, hcnt, hsame⟩ := carve_spec (fun c hc => ⟨(hcells c hc).1, (hcells c hc).2.1⟩) m 0 0
    hcarved (Nat.succ_pos _)
  rw [hat] at hall hcnt hsame
  set r := carve z block m (block + (hpBlockSize + hpCellNext)) 0 0 with hr
  have hadd : Heap.addBlock z this s.mem block =
      ({ r.1 with cellcnt := update r.1.cellcnt block r.2.2 }, r.2.1) := rfl
  have hne : ∀ b ∈ s.mapped, b ≠ block := fun b hb =>
    ne_of_mem_of_not_mem hb (List.nodup_cons.1 hp.nodup).1
  have hold : ∀ b ∈ s.mapped, ∀ c ∈ z.cellsOf b, c ∉ z.cellsOf block := fun b hb c hc hc' =>
    hne b hb (hp.block_unique (List.mem_cons_of_mem _ hb) List.mem_cons_self hc hc')
  have hheads : ∀ b ∈ block :: s.mapped, b ∉ z.cellsOf block := fun b hb hc =>
    (hcells b hc).2.2 b hb rfl
  obtain ⟨cell, free, hfree⟩ := List.exists_cons_of_ne_nil (l := (z.cellsOf block).reverse)
    (by simp [Sizes.cellsOf, Sizes.cellCount])
  have hchain : Chain (update r.1.next this r.2.1) this (z.cellsOf block).reverse := hall.chain
  have hcell : r.2.1 = cell := by
    rw [hfree] at hchain
    exact (update_self ..).symm.trans hchain.1
  refine ⟨free, by rw [hadd, hfree, hcell], ?_⟩
  rw [hadd]
  refine kept_gotCell ⟨hp, ?_, ?_, ?_, ?_⟩ ?_ ?_ ?_ ?_ ?_
  · exact hsame.succ.symm ▸ hsucc
  · exact hsame.pred.symm ▸ hpred
  · refine List.forall_mem_cons.2 ⟨(update_self ..).trans hcnt, fun b hb => ?_⟩
    show update r.1.cellcnt block r.2.2 b = z.cellCount
    rw [update_of_ne (hne b hb), hsame.cellcnt]
    exact h.blocks.cnt b hb
  · refine List.forall_mem_cons.2 ⟨fun c hc => ?_, fun b hb c hc => ?_⟩
    · obtain ⟨k, hk, rfl⟩ := mem_cellsOf.1 hc
      exact hall.owner k hk
    · exact (hsame.block c (hold b hb c hc)).trans (h.blocks.owner b hb c hc)
  · show Chain (update r.1.next this r.2.1) this (r.2.1 :: free)
    rw [hcell, ← hfree, ← hcell]
    exact hchain
  · refine List.forall_mem_cons.2 ⟨?_, fun b hb => ?_⟩
    · exact (hsame.next block (hheads block List.mem_cons_self)).trans (update_self ..)
    · refine (hsame.next b (hheads b (List.mem_cons_of_mem _ hb))).trans ?_
      exact (update_of_ne (hne b hb) _ _).trans (h.none b hb)
  · show (r.2.1 :: free ++ s.live).Perm _
    rw [hcell, ← hfree, List.flatMap_cons]
    exact (List.reverse_perm _).append h.perm
  · refine List.forall_mem_cons.2 ⟨?_, fun b hb => ?_⟩
    · show r.1.tail block = 0 ∧ r.1.freecnt block = 0
      rw [hsame.tail, hsame.freecnt]
      exact ⟨update_self .., update_self ..⟩
    · show r.1.tail b = 0 ∧ r.1.freecnt b = 0
      rw [hsame.tail, hsame.freecnt]
      exact ⟨(update_of_ne (hne b hb) _ _).trans (h.zero b hb).1,
        (update_of_ne (hne b hb) _ _).trans (h.zero b hb).2⟩
  · show r.1.total = base + (s.mapped.length + 1) * z.blocksize
    rw [hsame.total, Nat.add_mul, Nat.one_mul, ← Nat.add_assoc, ← h.total]

/-- `:alloc` keeps it, and has handed out a cell. -/
theorem Kept.alloc {block : ℕ} (h : Kept z this base s free)
    (hfresh : s.mem.next this = 0 → Fresh z this s.mapped block) :
    ∃ free', Kept z this base (s.alloc z this block) free' := by
  have hnext := h.next_this
  cases free with
  | cons cell free =>
    have hcell : s.mem.next this = cell := hnext
    have hne : s.mem.next this ≠ 0 := hcell ▸ h.chain.2.1
    refine ⟨free, ?_⟩
    have hchain : Chain (update s.mem.next this cell) this (cell :: free) := by
      rw [← hcell, update_eq_self]
      exact hcell.symm ▸ h.chain
    have := kept_gotCell h.blocks hchain h.none h.perm h.zero h.total
    rw [State.alloc, if_pos hne, Heap.alloc, if_pos hne, hcell]
    exact this
  | nil =>
    have hnone : ¬ s.mem.next this ≠ 0 := not_not.2 hnext
    obtain ⟨free, -, hkept⟩ := h.addBlock (hfresh hnext)
    refine ⟨free, ?_⟩
    rw [State.alloc, if_neg hnone, Heap.alloc, if_neg hnone]
    exact hkept

/-- `hp-freecell` keeps it. -/
theorem Kept.hpFreecell {cell : ℕ} (h : Kept z this base s free) (hlive : cell ∈ s.live) :
    Kept z this base (s.free this cell) (cell :: free) := by
  have hp := h.blocks.places
  have hperm : (free ++ cell :: s.live.erase cell).Perm (s.mapped.flatMap z.cellsOf) :=
    (List.Perm.append_left free (List.perm_cons_erase hlive)).symm.trans h.perm
  have hpush := ((lists_freeOnly hp).2 ⟨h.chain, h.none, hperm⟩).push List.mem_cons_self
  rw [freeOnly, update_idem, update_self] at hpush
  obtain ⟨hchain, hnone, hperm'⟩ := (lists_freeOnly hp).1 hpush
  exact ⟨⟨hp, h.blocks.succ, h.blocks.pred, h.blocks.cnt, h.blocks.owner⟩, hchain, hnone, hperm',
    h.zero, h.total⟩

end Alloc

end ChrysaLisp.Heap
