import Mathlib.Data.List.Pairwise
import ChrysaLisp.Sys.Heap

set_option autoImplicit false

/-! # The cells of a block

Where the cells of the blocks are, no two in one place, and what `carve` makes of a new block: a
list of all its cells, the last one first. -/

namespace ChrysaLisp.Heap

open Linked Function

variable {z : Sizes} {this : ℕ}

theorem stride_pos (z : Sizes) : 0 < z.stride := by
  simp only [Sizes.stride, hpCellNext]
  omega

theorem mem_cellsOf {b c : ℕ} : c ∈ z.cellsOf b ↔ ∃ k, k < z.cellCount ∧ z.cellAt b k = c := by
  simp [Sizes.cellsOf]

theorem cellAt_mem (b : ℕ) {k : ℕ} (hk : k < z.cellCount) : z.cellAt b k ∈ z.cellsOf b :=
  mem_cellsOf.2 ⟨k, hk, rfl⟩

theorem length_cellsOf (z : Sizes) (b : ℕ) : (z.cellsOf b).length = z.cellCount := by
  simp [Sizes.cellsOf]

theorem cellAt_succ (z : Sizes) (b k : ℕ) : z.cellAt b k + z.stride = z.cellAt b (k + 1) := by
  simp only [Sizes.cellAt, Nat.add_mul]
  omega

/-- The last cell there is room for. -/
theorem blockend_lt_iff (z : Sizes) (b k : ℕ) :
    z.blockend b < z.cellAt b (k + 1) ↔ z.cellCount ≤ k + 1 := by
  have hfits := z.fits
  have hdiv := Nat.div_lt_iff_lt_mul (x := z.blocksize - z.cellsize - z.guard -
    (hpBlockSize + hpCellNext)) (y := k + 1) (stride_pos z)
  simp only [Sizes.blockend, Sizes.cellAt, Sizes.cellCount]
  omega

/-- A cell is inside its block, the word before it too. -/
theorem cellAt_within {b k : ℕ} (hk : k < z.cellCount) :
    b + (hpBlockSize + hpCellNext) ≤ z.cellAt b k ∧ z.cellAt b k + z.cellsize ≤ b + z.blocksize := by
  have hfits := z.fits
  refine ⟨Nat.le_add_right _ _, ?_⟩
  cases k with
  | zero =>
    simp only [Sizes.cellAt]
    omega
  | succ k =>
    have hlast := mt (blockend_lt_iff z b k).1 (Nat.not_le.2 hk)
    simp only [Sizes.blockend] at hlast
    omega

theorem cellAt_inj {b i j : ℕ} (h : z.cellAt b i = z.cellAt b j) : i = j :=
  Nat.eq_of_mul_eq_mul_right (stride_pos z) (Nat.add_left_cancel h)

theorem nodup_cellsOf (z : Sizes) (b : ℕ) : (z.cellsOf b).Nodup :=
  List.nodup_range.map (fun _ _ h => cellAt_inj h)

/-! ## Where the blocks are -/

/-- The blocks of a heap are apart from it and from each other. -/
structure Places (z : Sizes) (this : ℕ) (blocks : List ℕ) : Prop where
  nonzero : ∀ b ∈ blocks, b ≠ 0
  heap : ∀ b ∈ blocks, Apart this hpHeapSize b z.blocksize
  apart : blocks.Pairwise (fun b b' => Apart b z.blocksize b' z.blocksize)

theorem Places.cons {blocks : List ℕ} (h : Places z this blocks) {block : ℕ}
    (hfresh : Fresh z this blocks block) : Places z this (block :: blocks) where
  nonzero := List.forall_mem_cons.2 ⟨hfresh.nonzero, h.nonzero⟩
  heap := List.forall_mem_cons.2 ⟨hfresh.heap, h.heap⟩
  apart := List.pairwise_cons.2 ⟨hfresh.blocks, h.apart⟩

theorem Places.sublist {blocks blocks' : List ℕ} (h : Places z this blocks)
    (hs : blocks'.Sublist blocks) : Places z this blocks' where
  nonzero b hb := h.nonzero b (hs.subset hb)
  heap b hb := h.heap b (hs.subset hb)
  apart := h.apart.sublist hs

section Places

variable {blocks : List ℕ}

theorem Places.nodup (h : Places z this blocks) : blocks.Nodup := by
  refine h.apart.imp ?_
  rintro b _ hapart rfl
  have hholds := z.holds
  have hfits := z.fits
  simp only [Apart, ptrSize] at hapart hholds
  omega

theorem Places.this_ne (h : Places z this blocks) : ∀ b ∈ blocks, this ≠ b ∧ this + lhListTail ≠ b := by
  intro b hb
  have hapart := h.heap b hb
  have hfits := z.fits
  simp only [Apart, hpHeapSize, hpBlockSize, lhListTail] at *
  omega

/-- The nodes of the list of blocks, and the two ends of it. -/
theorem Places.nodes_nodup (h : Places z this blocks) :
    (this :: (blocks ++ [this + lhListTail])).Nodup := by
  have hends : this ≠ this + lhListTail := by simp [lhListTail]
  refine List.nodup_cons.2 ⟨fun hm => ?_, List.nodup_append.2 ⟨h.nodup, List.nodup_singleton _, ?_⟩⟩
  · rcases List.mem_append.1 hm with hm | hm
    · exact (h.this_ne this hm).1 rfl
    · exact hends (List.mem_singleton.1 hm)
  · intro b hb t ht hbt
    exact (h.this_ne b hb).2 ((List.mem_singleton.1 ht).symm.trans hbt.symm)

theorem Places.apart_of_ne (h : Places z this blocks) {b b' : ℕ} (hb : b ∈ blocks)
    (hb' : b' ∈ blocks) (hne : b ≠ b') : Apart b z.blocksize b' z.blocksize := by
  have : Std.Symm (fun b b' => Apart b z.blocksize b' z.blocksize) := ⟨fun _ _ hab => hab.symm⟩
  exact h.apart.forall hb hb' hne

theorem Places.cell_ne (h : Places z this blocks) {b c : ℕ} (hb : b ∈ blocks) (hc : c ∈ z.cellsOf b) :
    c ≠ 0 ∧ this ≠ c ∧ ∀ b' ∈ blocks, b' ≠ c := by
  obtain ⟨k, hk, rfl⟩ := mem_cellsOf.1 hc
  obtain ⟨hlow, hhigh⟩ := cellAt_within (b := b) hk
  have hheap := h.heap b hb
  have hholds := z.holds
  simp only [Apart, hpHeapSize, hpBlockSize, hpCellNext, ptrSize] at hheap hlow hholds
  refine ⟨by omega, by omega, fun b' hb' => ?_⟩
  by_cases hne : b' = b
  · omega
  · have hapart := h.apart_of_ne hb' hb hne
    rw [Apart] at hapart
    omega

/-- A cell is of one block. -/
theorem Places.block_unique (h : Places z this blocks) {b b' c : ℕ} (hb : b ∈ blocks)
    (hb' : b' ∈ blocks) (hc : c ∈ z.cellsOf b) (hc' : c ∈ z.cellsOf b') : b = b' := by
  obtain ⟨k, hk, rfl⟩ := mem_cellsOf.1 hc
  obtain ⟨k', hk', hkk⟩ := mem_cellsOf.1 hc'
  obtain ⟨hlow, hhigh⟩ := cellAt_within (b := b) hk
  obtain ⟨hlow', hhigh'⟩ := cellAt_within (b := b') hk'
  have hholds := z.holds
  simp only [ptrSize] at hholds
  by_contra hne
  have hapart := h.apart_of_ne hb hb' hne
  rw [Apart] at hapart
  omega

theorem Places.cells_nodup (h : Places z this blocks) : (blocks.flatMap z.cellsOf).Nodup := by
  refine List.nodup_flatMap.2 ⟨fun b _ => nodup_cellsOf z b, ?_⟩
  refine h.nodup.imp_of_mem (fun hb hb' hne => ?_)
  exact fun c hc hc' => hne (h.block_unique hb hb' hc hc')

/-- The heap, its blocks and all their cells are no two in one place. -/
theorem Places.all_nodup (h : Places z this blocks) :
    ((this :: blocks) ++ blocks.flatMap z.cellsOf).Nodup := by
  refine List.nodup_append.2 ⟨?_, h.cells_nodup, ?_⟩
  · exact List.nodup_cons.2 ⟨fun hm => (h.this_ne this hm).1 rfl, h.nodup⟩
  · intro a ha c hc
    obtain ⟨b, hb, hc⟩ := List.mem_flatMap.1 hc
    rcases List.mem_cons.1 ha with rfl | ha
    · exact (h.cell_ne hb hc).2.1
    · exact (h.cell_ne hb hc).2.2 a ha

theorem Places.cells_nonzero (h : Places z this blocks) : 0 ∉ blocks.flatMap z.cellsOf := by
  intro hc
  obtain ⟨b, hb, hc⟩ := List.mem_flatMap.1 hc
  exact (h.cell_ne hb hc).1 rfl

end Places

/-! ## A new block -/

/-- What `carve` has made when it comes to a cell: the ones before are linked, and are of the block. -/
structure Carved (z : Sizes) (this block : ℕ) (m : Mem) (next k : ℕ) : Prop where
  chain : Chain (update m.next this next) this ((List.range k).map (z.cellAt block)).reverse
  owner : ∀ i < k, m.block (z.cellAt block i) = block

/-- What it leaves as it was. -/
structure SameBut (cells : List ℕ) (m m' : Mem) : Prop where
  succ : m'.succ = m.succ
  pred : m'.pred = m.pred
  tail : m'.tail = m.tail
  cellcnt : m'.cellcnt = m.cellcnt
  freecnt : m'.freecnt = m.freecnt
  total : m'.total = m.total
  next : ∀ x, x ∉ cells → m'.next x = m.next x
  block : ∀ x, x ∉ cells → m'.block x = m.block x

theorem Carved.step {block next k : ℕ} {m : Mem} (h : Carved z this block m next k)
    (hk : k < z.cellCount) (hthis : ∀ c ∈ z.cellsOf block, c ≠ 0 ∧ this ≠ c) :
    Carved z this block
      { m with block := update m.block (z.cellAt block k) block
               next := update m.next (z.cellAt block k) next } (z.cellAt block k) (k + 1) := by
  obtain ⟨hzero, hne⟩ := hthis _ (cellAt_mem block hk)
  have hdone : ∀ c ∈ ((List.range k).map (z.cellAt block)).reverse,
      ∃ i, i < k ∧ z.cellAt block i = c := by
    intro c hc
    simpa using hc
  refine ⟨?_, fun i hi => ?_⟩
  · have hnew : z.cellAt block k ∉ this :: ((List.range k).map (z.cellAt block)).reverse := by
      intro hc
      rcases List.mem_cons.1 hc with hc | hc
      · exact hne hc.symm
      · obtain ⟨i, hi, hik⟩ := hdone _ hc
        exact Nat.ne_of_lt hi (cellAt_inj hik)
    have hold : this ∉ ((List.range k).map (z.cellAt block)).reverse := by
      intro hc
      obtain ⟨i, hi, hit⟩ := hdone _ hc
      exact (hthis _ (cellAt_mem block (Nat.lt_trans hi hk))).2 hit.symm
    have hpush := h.chain.push hzero hnew hold
    rw [update_self, update_comm hne, update_idem] at hpush
    rw [List.range_succ, List.map_append, List.reverse_append]
    exact hpush
  · by_cases hik : z.cellAt block i = z.cellAt block k
    · show update m.block (z.cellAt block k) block (z.cellAt block i) = block
      rw [hik, update_self]
    · show update m.block (z.cellAt block k) block (z.cellAt block i) = block
      rw [update_of_ne hik]
      exact h.owner i (Nat.lt_of_le_of_ne (Nat.lt_succ_iff.1 hi) (fun he => hik (by rw [he])))

theorem SameBut.trans {cells : List ℕ} {m m' m'' : Mem} (h : SameBut cells m m')
    (h' : SameBut cells m' m'') : SameBut cells m m'' where
  succ := h'.succ.trans h.succ
  pred := h'.pred.trans h.pred
  tail := h'.tail.trans h.tail
  cellcnt := h'.cellcnt.trans h.cellcnt
  freecnt := h'.freecnt.trans h.freecnt
  total := h'.total.trans h.total
  next x hx := (h'.next x hx).trans (h.next x hx)
  block x hx := (h'.block x hx).trans (h.block x hx)

theorem SameBut.write {cells : List ℕ} {cell : ℕ} (hcell : cell ∈ cells) (m : Mem) (block next : ℕ) :
    SameBut cells m { m with block := update m.block cell block, next := update m.next cell next } where
  succ := rfl
  pred := rfl
  tail := rfl
  cellcnt := rfl
  freecnt := rfl
  total := rfl
  next _ hx := update_of_ne (ne_of_mem_of_not_mem hcell hx).symm _ _
  block _ hx := update_of_ne (ne_of_mem_of_not_mem hcell hx).symm _ _

/-- All the cells of a new block in a list, the last one first. -/
theorem carve_spec {block : ℕ} (hthis : ∀ c ∈ z.cellsOf block, c ≠ 0 ∧ this ≠ c) (m : Mem)
    (next k : ℕ) (h : Carved z this block m next k) (hk : k < z.cellCount) :
    let r := carve z block m (z.cellAt block k) next k
    Carved z this block r.1 r.2.1 z.cellCount ∧ r.2.2 = z.cellCount ∧
      SameBut (z.cellsOf block) m r.1 := by
  obtain ⟨j, hj⟩ : ∃ j, z.cellCount = k + 1 + j := ⟨z.cellCount - (k + 1), by omega⟩
  induction j generalizing m next k with
  | zero =>
    have hsame := SameBut.write (cellAt_mem block hk) m block next
    have hlast : z.blockend block < z.cellAt block k + z.stride := by
      rw [cellAt_succ, blockend_lt_iff]
      omega
    rw [carve, if_pos hlast]
    exact ⟨hj ▸ h.step hk hthis, hj.symm, hsame⟩
  | succ j ih =>
    have hsame := SameBut.write (cellAt_mem block hk) m block next
    have hmore : ¬ z.blockend block < z.cellAt block k + z.stride := by
      rw [cellAt_succ, blockend_lt_iff]
      omega
    rw [carve, if_neg hmore, cellAt_succ]
    obtain ⟨hcarved, hcnt, hrest⟩ := ih _ _ _ (h.step hk hthis) (by omega) (by omega)
    exact ⟨hcarved, hcnt, hsame.trans hrest⟩

end ChrysaLisp.Heap
