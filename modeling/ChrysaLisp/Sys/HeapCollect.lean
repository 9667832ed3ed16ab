import Mathlib.Data.List.Perm.Subperm
import ChrysaLisp.Sys.HeapKept

set_option autoImplicit false

/-! # `:collect`

Its first loop moves the free cells, one after the other, to a list of the block each is of, and
gives back a block when all of its cells are there. Its second puts what is left of those lists
together again. -/

namespace ChrysaLisp.Heap

open Linked Function

variable {z : Sizes} {this base : ℕ}

/-- The last of a list of cells is known. -/
def TailOf (m : Mem) (b : ℕ) (l : List ℕ) : Prop :=
  (l = [] → m.tail b = 0) ∧ (l ≠ [] → m.tail b = tip b l)

/-- The first cell put on a list is the last of it. -/
theorem TailOf.push {m : Mem} {b : ℕ} {l : List ℕ} (h : TailOf m b l) (hl : ∀ x ∈ l, x ≠ 0) (cel : ℕ) :
    (if m.tail b = 0 then update m.tail b cel else m.tail) b = tip cel l := by
  by_cases hnil : l = []
  · rw [if_pos (h.1 hnil), update_self, hnil]
    rfl
  · have hlast := h.2 hnil
    have hne : m.tail b ≠ 0 := hlast ▸ hl _ (tip_mem_self b hnil)
    rw [if_neg hne, hlast, tip_congr b cel hnil]

/-- A block is let go of. -/
theorem Blocks.removeNode {m : Mem} {blocks : List ℕ} {b : ℕ} (h : Blocks z this m blocks)
    (hb : b ∈ blocks) : Blocks z this (m.removeNode b) (blocks.erase b) := by
  obtain ⟨pre, suf, rfl⟩ := List.append_of_mem hb
  have hnodup := h.places.nodup
  have herase : (pre ++ b :: suf).erase b = pre ++ suf := by
    have hpre : b ∉ pre := fun hm =>
      (List.nodup_append.1 hnodup).2.2 b hm b List.mem_cons_self rfl
    rw [List.erase_append_right _ hpre, List.erase_cons_head]
  obtain ⟨d, rest, hd⟩ := List.exists_cons_of_ne_nil
    (List.append_ne_nil_of_right_ne_nil suf (List.cons_ne_nil (this + lhListTail) []))
  have hplaces := h.places.sublist (List.erase_sublist (a := b))
  have hnodes := hplaces.nodes_nodup
  have hsucc := h.succ
  have hpred := h.pred
  rw [List.append_assoc, List.cons_append, hd] at hsucc hpred
  rw [herase] at hplaces hnodes ⊢
  rw [List.append_assoc, hd] at hnodes
  have hprev : m.pred b = tip this pre := hpred.prev_eq
  have hnext : m.succ b = d := hsucc.next_mid
  have hunlink := hsucc.unlink hnodes
  have hback := hpred.unlink (List.nodup_cons.1 hnodes).2
  refine ⟨hplaces, ?_, ?_, fun c hc => ?_, fun c hc => ?_⟩
  · rw [List.append_assoc, hd]
    show Chain (update m.succ (m.pred b) (m.succ b)) this _
    rw [hprev]
    exact hunlink
  · rw [List.append_assoc, hd]
    show Back (update m.pred (m.succ b) (m.pred b)) this _
    rw [hprev, hnext]
    exact hback
  · exact h.cnt c (List.mem_of_mem_erase (herase.symm ▸ hc))
  · exact h.owner c (List.mem_of_mem_erase (herase.symm ▸ hc))

/-! ## The first loop -/

/-- What the first loop keeps, where it has these free cells to come, from `next` on, and the others
    are on lists of their blocks. -/
structure Counting (z : Sizes) (this base : ℕ) (s : State) (c : Count) (next : ℕ) (rest : List ℕ)
    (L : ℕ → List ℕ) : Prop where
  blocks : Blocks z this c.mem c.mapped
  lists : Lists (update c.mem.next this next) (this :: c.mapped) (update L this rest) s.live
    (c.mapped.flatMap z.cellsOf)
  own : ∀ b ∈ c.mapped, ∀ x ∈ L b, x ∈ z.cellsOf b
  count : ∀ b ∈ c.mapped, c.mem.freecnt b = (L b).length ∧ (L b).length < z.cellCount
  tail : ∀ b ∈ c.mapped, TailOf c.mem b (L b)
  total : c.total = base + c.mapped.length * z.blocksize
  sub : c.mapped.Sublist s.mapped
  gone : ∀ b ∈ s.mapped, b ∉ c.mapped → ∀ x ∈ z.cellsOf b, x ∉ s.live

section Counting

variable {s : State} {c : Count} {next cel : ℕ} {rest : List ℕ} {L : ℕ → List ℕ}

theorem Counting.step (h : Counting z this base s c next (cel :: rest) L) :
    ∃ L', Counting z this base s (countCell z c cel) (c.mem.next cel) rest L' := by
  have hp := h.blocks.places
  have hthis : this ∈ this :: c.mapped := List.mem_cons_self
  have hfirst : update L this (cel :: rest) this = [] ++ cel :: rest := update_self ..
  have hmem : cel ∈ c.mapped.flatMap z.cellsOf :=
    h.lists.mem_cells hthis (by rw [update_self]; exact List.mem_cons_self)
  obtain ⟨blk, hblk, hcel⟩ := List.mem_flatMap.1 hmem
  have howner : c.mem.block cel = blk := h.blocks.owner blk hblk cel hcel
  have hcelThis : cel ≠ this := ((hp.cell_ne hblk hcel).2.1).symm
  have hblkThis : blk ≠ this := (hp.this_ne blk hblk).1.symm
  -- off the list, and on the one of its block
  have htaken := h.lists.unlink hthis hfirst
  rw [tip, update_idem, update_of_ne hcelThis, update_idem, List.nil_append] at htaken
  have hput := htaken.push (List.mem_cons_of_mem _ hblk)
  rw [update_of_ne hblkThis, update_of_ne hblkThis, update_comm hcelThis.symm,
    update_comm hblkThis.symm, update_comm hblkThis.symm] at hput
  let m : Mem := { c.mem with
    next := update (update c.mem.next cel (c.mem.next blk)) blk cel
    tail := if c.mem.tail blk = 0 then update c.mem.tail blk cel else c.mem.tail
    freecnt := update c.mem.freecnt blk (c.mem.freecnt blk + 1) }
  let L' := update L blk (cel :: L blk)
  have hL' : L' blk = cel :: L blk := update_self ..
  have hother : ∀ b, b ≠ blk → L' b = L b := fun b hb => update_of_ne hb _ _
  have hown : ∀ b ∈ c.mapped, ∀ x ∈ L' b, x ∈ z.cellsOf b := by
    intro b hb x hx
    by_cases hbb : b = blk
    · subst hbb
      rw [hL'] at hx
      rcases List.mem_cons.1 hx with rfl | hx
      · exact hcel
      · exact h.own b hb x hx
    · exact h.own b hb x (hother b hbb ▸ hx)
  have htail : ∀ b ∈ c.mapped, TailOf m b (L' b) := by
    intro b hb
    have hwas := h.tail b hb
    by_cases hbb : b = blk
    · subst hbb
      rw [hL']
      refine ⟨fun he => absurd he (List.cons_ne_nil _ _), fun _ => ?_⟩
      exact hwas.push (fun x hx => (hp.cell_ne hb (h.own b hb x hx)).1) cel
    · rw [hother b hbb]
      have hsame : m.tail b = c.mem.tail b := by
        show (if c.mem.tail blk = 0 then update c.mem.tail blk cel else c.mem.tail) b = _
        split_ifs
        · exact update_of_ne hbb _ _
        · rfl
      rwa [TailOf, hsame]
  have hcount : ∀ b ∈ c.mapped, b ≠ blk → m.freecnt b = (L' b).length ∧ (L' b).length < z.cellCount := by
    intro b hb hbb
    rw [hother b hbb]
    exact ⟨(update_of_ne hbb _ _).trans (h.count b hb).1, (h.count b hb).2⟩
  have hfreecnt : m.freecnt blk = (L' blk).length := by
    rw [hL', List.length_cons, ← (h.count blk hblk).1]
    exact update_self ..
  have hstep : countCell z c cel =
      if z.cellCount ≠ (L' blk).length then { c with mem := m }
      else ⟨m.removeNode blk, c.total - z.blocksize, c.mapped.erase blk⟩ := by
    rw [← hfreecnt, ← h.blocks.cnt blk hblk, countCell]
    dsimp only
    rw [howner]
    rfl
  have hblocks : Blocks z this m c.mapped :=
    ⟨hp, h.blocks.succ, h.blocks.pred, h.blocks.cnt, h.blocks.owner⟩
  refine ⟨L', ?_⟩
  rw [hstep]
  split_ifs with hfull
  · refine ⟨hblocks, hput, hown, fun b hb => ?_, htail, h.total, h.sub, h.gone⟩
    by_cases hbb : b = blk
    · have hlt := (h.count blk hblk).2
      rw [hL', List.length_cons] at hfull
      rw [hbb]
      refine ⟨hfreecnt, ?_⟩
      rw [hL', List.length_cons]
      omega
    · exact hcount b hb hbb
  · -- all the cells of the block are on its list
    have hnodup := hput.split (List.mem_cons_of_mem _ hblk)
    have hlist : update L' this rest blk = L' blk := update_of_ne hblkThis _ _
    rw [hlist] at hnodup
    have hlength : (z.cellsOf blk).length ≤ (L' blk).length :=
      Nat.le_of_eq ((length_cellsOf z blk).trans (not_not.1 hfull))
    have hcellsPerm : (L' blk).Perm (z.cellsOf blk) :=
      ((List.nodup_append.1 hnodup).1.subperm (hown blk hblk)).perm_of_length_le hlength
    have hcells : (c.mapped.flatMap z.cellsOf).Perm
        (update L' this rest blk ++ (c.mapped.erase blk).flatMap z.cellsOf) := by
      have hout := (List.perm_cons_erase hblk).flatMap_right z.cellsOf
      rw [List.flatMap_cons] at hout
      rw [hlist]
      exact hout.trans (hcellsPerm.symm.append_right _)
    have hdrop := hput.drop (List.mem_cons_of_mem _ hblk) hcells
    have hin : ∀ b ∈ c.mapped.erase blk, b ∈ c.mapped := fun b => List.mem_of_mem_erase
    have hne : ∀ b ∈ c.mapped.erase blk, b ≠ blk := fun b hb => ((hp.nodup.mem_erase_iff).1 hb).1
    rw [List.erase_cons_tail (by simpa using hblkThis.symm)] at hdrop
    refine ⟨hblocks.removeNode hblk, hdrop, fun b hb => hown b (hin b hb),
      fun b hb => hcount b (hin b hb) (hne b hb), fun b hb => htail b (hin b hb), ?_,
      List.erase_sublist.trans h.sub, fun b hb hgone => ?_⟩
    · have hlen := List.length_erase_of_mem hblk
      have hpos := List.length_pos_of_mem hblk
      obtain ⟨n, hn⟩ : ∃ n, c.mapped.length = n + 1 := ⟨c.mapped.length - 1, by omega⟩
      show c.total - z.blocksize = base + (c.mapped.erase blk).length * z.blocksize
      rw [h.total, hlen, hn, Nat.add_mul, Nat.one_mul, Nat.add_sub_cancel]
      omega
    · by_cases hmapped : b ∈ c.mapped
      · have hbb : b = blk := by
          by_contra hbb
          exact hgone ((List.mem_erase_of_ne hbb).2 hmapped)
        intro x hx hlive
        have hxL : x ∈ L' blk := hcellsPerm.mem_iff.2 (hbb ▸ hx)
        exact (List.nodup_append.1 hnodup).2.2 x hxL x (List.mem_append_right _ hlive) rfl
      · exact h.gone b hb hmapped

/-- The free cells of a heap are counted, all of them. -/
theorem Counting.countCells (h : Counting z this base s c next rest L) :
    ∃ c' L', (∀ fuel, rest.length < fuel → countCells z fuel c next = some c') ∧
      Counting z this base s c' 0 [] L' := by
  induction rest generalizing c next L with
  | nil =>
    have hend : next = 0 := by
      have hnext := h.lists.next_head List.mem_cons_self
      rwa [update_self, update_self] at hnext
    subst hend
    refine ⟨c, L, fun fuel hfuel => ?_, h⟩
    obtain ⟨fuel, rfl⟩ := Nat.exists_eq_succ_of_ne_zero (Nat.ne_of_gt hfuel)
    rw [Heap.countCells, if_pos rfl]
  | cons cel rest ih =>
    obtain ⟨L₁, h₁⟩ := h.step
    have hnext : next = cel := by
      have hnext := h.lists.next_head List.mem_cons_self
      rwa [update_self, update_self] at hnext
    subst hnext
    have hzero : next ≠ 0 := by
      have hchain := h.lists.chain this List.mem_cons_self
      rw [update_self] at hchain
      exact hchain.2.1
    obtain ⟨c', L', hrun, hend⟩ := ih h₁
    refine ⟨c', L', fun fuel hfuel => ?_, hend⟩
    obtain ⟨fuel, rfl⟩ := Nat.exists_eq_succ_of_ne_zero (Nat.ne_of_gt (Nat.zero_lt_of_lt hfuel))
    rw [Heap.countCells, if_neg hzero]
    exact hrun fuel (Nat.lt_of_succ_lt_succ hfuel)

/-- The blocks left have a cell that is handed out, and those given back have none. -/
theorem Counting.mapped_eq (h : Counting z this base s c 0 [] L) (hs : Places z this s.mapped) :
    c.mapped = s.mapped.filter (fun b => (z.cellsOf b).any (fun x => decide (x ∈ s.live))) := by
  have hp := h.blocks.places
  have hlive : ∀ b ∈ c.mapped, (z.cellsOf b).any (fun x => decide (x ∈ s.live)) = true := by
    intro b hb
    -- a cell of it is not on its list
    obtain ⟨x, hx, hxL⟩ : ∃ x ∈ z.cellsOf b, x ∉ L b := by
      by_contra hall
      have hsub : z.cellsOf b ⊆ L b := fun x hx => by
        by_contra hxL
        exact hall ⟨x, hx, hxL⟩
      have hlength := ((nodup_cellsOf z b).subperm hsub).length_le
      rw [length_cellsOf] at hlength
      exact absurd (h.count b hb).2 (Nat.not_lt.2 hlength)
    have hmem := h.lists.perm.mem_iff.2 (List.mem_flatMap.2 ⟨b, hb, hx⟩)
    rcases List.mem_append.1 hmem with hlist | hlive
    · obtain ⟨h', hh', hxh'⟩ := List.mem_flatMap.1 hlist
      rcases List.mem_cons.1 hh' with rfl | hh'
      · rw [update_self] at hxh'
        exact absurd hxh' List.not_mem_nil
      · rw [update_of_ne (hp.this_ne h' hh').1.symm] at hxh'
        obtain rfl := hp.block_unique hb hh' hx (h.own h' hh' x hxh')
        exact absurd hxh' hxL
    · exact List.any_eq_true.2 ⟨x, hx, decide_eq_true hlive⟩
  have hsub : c.mapped.Sublist
      (s.mapped.filter (fun b => (z.cellsOf b).any (fun x => decide (x ∈ s.live)))) := by
    have hfilter := h.sub.filter (fun b => (z.cellsOf b).any (fun x => decide (x ∈ s.live)))
    rwa [List.filter_eq_self.2 hlive] at hfilter
  refine hsub.eq_of_length_le ((hs.nodup.filter _).subperm (fun b hb => ?_)).length_le
  obtain ⟨hmem, hany⟩ := List.mem_filter.1 hb
  by_contra hgone
  obtain ⟨x, hx, hxlive⟩ := List.any_eq_true.1 hany
  exact h.gone b hmem hgone x hx (of_decide_eq_true hxlive)

theorem Kept.counting {free : List ℕ} (h : Kept z this base s free) :
    Counting z this base s ⟨s.mem, s.mem.total, s.mapped⟩ (s.mem.next this) free (fun _ => []) where
  blocks := h.blocks
  lists := by
    rw [update_eq_self]
    exact h.lists
  own _ _ x hx := absurd hx List.not_mem_nil
  count b hb := ⟨(h.zero b hb).2, Nat.succ_pos _⟩
  tail b hb := ⟨fun _ => (h.zero b hb).1, fun hne => absurd rfl hne⟩
  total := h.total
  sub := List.Sublist.refl _
  gone b hb hgone := absurd hb hgone

end Counting

/-! ## The second loop -/

/-- What the second loop keeps, which has been over some of the blocks. -/
structure Splicing (z : Sizes) (this : ℕ) (live : List ℕ) (m : Mem) (done todo : List ℕ)
    (L : ℕ → List ℕ) : Prop where
  blocks : Blocks z this m (done ++ todo)
  lists : Lists m.next (this :: (done ++ todo)) L live ((done ++ todo).flatMap z.cellsOf)
  done : ∀ b ∈ done, L b = [] ∧ m.tail b = 0 ∧ m.freecnt b = 0
  count : ∀ b ∈ todo, m.freecnt b = (L b).length
  tail : ∀ b ∈ todo, TailOf m b (L b)

section Splicing

variable {live done todo : List ℕ} {m : Mem} {blk : ℕ} {L : ℕ → List ℕ}

theorem Splicing.step (h : Splicing z this live m done (blk :: todo) L) :
    ∃ L', Splicing z this live (spliceBlock this m blk) (done ++ [blk]) todo L' ∧
      (spliceBlock this m blk).total = m.total := by
  have hassoc : done ++ blk :: todo = done ++ [blk] ++ todo := by simp
  have hblk : blk ∈ this :: (done ++ blk :: todo) := by simp
  have hfirst := h.lists.next_head hblk
  have hblocks := h.blocks
  have hlists := h.lists
  by_cases hnil : L blk = []
  · have hzero : m.next blk = 0 := by rw [hfirst, hnil]; rfl
    rw [spliceBlock, if_pos hzero]
    rw [hassoc] at hblocks hlists
    refine ⟨L, ⟨hblocks, hlists, fun b hb => ?_, fun b hb => ?_, fun b hb => ?_⟩, rfl⟩
    · rcases List.mem_append.1 hb with hb | hb
      · exact h.done b hb
      · obtain rfl := List.mem_singleton.1 hb
        refine ⟨hnil, (h.tail b List.mem_cons_self).1 hnil, ?_⟩
        rw [h.count b List.mem_cons_self, hnil]
        rfl
    · exact h.count b (List.mem_cons_of_mem _ hb)
    · exact h.tail b (List.mem_cons_of_mem _ hb)
  · have hp := h.blocks.places
    have hmem : ∀ b, b ∈ done ∨ b ∈ blk :: todo → b ∈ done ++ blk :: todo := fun b =>
      List.mem_append.2
    have hother : ∀ b, b ∈ done ∨ b ∈ todo → b ≠ blk := by
      have hnodup := hp.nodup
      rintro b (hb | hb) rfl
      · exact (List.nodup_append.1 hnodup).2.2 b hb b List.mem_cons_self rfl
      · exact (List.nodup_cons.1 (List.nodup_append.1 hnodup).2.1).1 hb
    have hblkThis : blk ≠ this := (hp.this_ne blk (hmem blk (Or.inr List.mem_cons_self))).1.symm
    have hzero : m.next blk ≠ 0 := by
      rw [hfirst]
      obtain ⟨c, l, hc⟩ := List.exists_cons_of_ne_nil hnil
      rw [hc]
      exact (h.lists.chain blk hblk).nonzero c (hc ▸ List.mem_cons_self)
    have hlast : tip blk (L blk) = m.tail blk := ((h.tail blk List.mem_cons_self).2 hnil).symm
    have hsplice := h.lists.splice List.mem_cons_self hblk hblkThis hnil hlast
    rw [spliceBlock, if_neg hzero]
    rw [hassoc] at hblocks hsplice
    have hL : ∀ b, b ∈ done ∨ b ∈ todo →
        update (update L blk []) this (L blk ++ L this) b = L b := by
      intro b hb
      have hthis := (hp.this_ne b (hmem b (hb.imp id (List.mem_cons_of_mem _)))).1.symm
      rw [update_of_ne hthis, update_of_ne (hother b hb)]
    refine ⟨_, ⟨⟨hblocks.places, hblocks.succ, hblocks.pred, hblocks.cnt, hblocks.owner⟩, hsplice,
      fun b hb => ?_, fun b hb => ?_, fun b hb => ?_⟩, rfl⟩
    · rcases List.mem_append.1 hb with hb | hb
      · rw [hL b (Or.inl hb)]
        have hne := hother b (Or.inl hb)
        exact ⟨(h.done b hb).1, (update_of_ne hne _ _).trans (h.done b hb).2.1,
          (update_of_ne hne _ _).trans (h.done b hb).2.2⟩
      · obtain rfl := List.mem_singleton.1 hb
        rw [update_of_ne hblkThis, update_self]
        exact ⟨rfl, update_self .., update_self ..⟩
    · rw [hL b (Or.inr hb)]
      exact (update_of_ne (hother b (Or.inr hb)) _ _).trans (h.count b (List.mem_cons_of_mem _ hb))
    · rw [hL b (Or.inr hb), TailOf]
      have hsame : update m.tail blk 0 b = m.tail b := update_of_ne (hother b (Or.inr hb)) _ _
      dsimp only
      rw [hsame]
      exact h.tail b (List.mem_cons_of_mem _ hb)

theorem Splicing.spliceBlocks (h : Splicing z this live m done todo L) :
    ∃ m' L', (∀ fuel, todo.length < fuel →
        spliceBlocks this fuel m ((todo ++ [this + lhListTail]).headD 0) = some m') ∧
      Splicing z this live m' (done ++ todo) [] L' ∧ m'.total = m.total := by
  induction todo generalizing done m L with
  | nil =>
    refine ⟨m, L, fun fuel hfuel => ?_, by rwa [List.append_nil], rfl⟩
    obtain ⟨fuel, rfl⟩ := Nat.exists_eq_succ_of_ne_zero (Nat.ne_of_gt hfuel)
    have hend : m.succ (this + lhListTail) = 0 := by
      have hsucc := h.blocks.succ
      rw [List.append_nil] at hsucc
      exact hsucc.next_mid
    rw [Heap.spliceBlocks, List.nil_append, List.headD_cons, if_pos hend]
  | cons blk todo ih =>
    obtain ⟨L₁, h₁, htotal⟩ := h.step
    obtain ⟨m', L', hrun, hend, hsame⟩ := ih h₁
    have hsucc := h.blocks.succ
    rw [List.append_assoc, List.cons_append] at hsucc
    have hnext : m.succ blk = (todo ++ [this + lhListTail]).headD 0 := hsucc.next_mid
    have hne : m.succ blk ≠ 0 := by
      rw [hnext]
      cases todo with
      | nil => simp [lhListTail]
      | cons b todo => exact h.blocks.places.nonzero b (by simp)
    refine ⟨m', L', fun fuel hfuel => ?_, by simpa using hend, hsame.trans htotal⟩
    obtain ⟨fuel, rfl⟩ := Nat.exists_eq_succ_of_ne_zero (Nat.ne_of_gt (Nat.zero_lt_of_lt hfuel))
    rw [Heap.spliceBlocks, List.cons_append, List.headD_cons, if_neg hne, hnext]
    exact hrun fuel (Nat.lt_of_succ_lt_succ hfuel)

end Splicing

/-! ## Both -/

theorem Kept.collect {s : State} {free : List ℕ} (h : Kept z this base s free) :
    ∃ s' free', Returns (s.collect z this) s' ∧ Kept z this base s' free' ∧ s'.live = s.live ∧
      s'.mapped = s.mapped.filter (fun b => (z.cellsOf b).any (fun x => decide (x ∈ s.live))) := by
  obtain ⟨c, L, hcount, hcounted⟩ := h.counting.countCells
  have hp := hcounted.blocks.places
  let m : Mem := { c.mem with next := update c.mem.next this 0 }
  have hother : ∀ b ∈ c.mapped, update L this [] b = L b := fun b hb =>
    update_of_ne (hp.this_ne b hb).1.symm _ _
  have hsplicing : Splicing z this s.live m [] c.mapped (update L this []) :=
    { blocks := ⟨hp, hcounted.blocks.succ, hcounted.blocks.pred, hcounted.blocks.cnt,
        hcounted.blocks.owner⟩
      lists := hcounted.lists
      done := fun b hb => absurd hb List.not_mem_nil
      count := fun b hb => by
        rw [hother b hb]
        exact (hcounted.count b hb).1
      tail := fun b hb => by
        rw [hother b hb]
        exact hcounted.tail b hb }
  obtain ⟨m', L', hsplice, hspliced, htotal⟩ := hsplicing.spliceBlocks
  have hlists := hspliced.lists
  rw [List.nil_append, List.append_nil] at hlists
  have hdone : ∀ b ∈ c.mapped, L' b = [] ∧ m'.tail b = 0 ∧ m'.freecnt b = 0 := hspliced.done
  have honly : ∀ h ∈ this :: c.mapped, freeOnly this (L' this) h = L' h := by
    intro h hh
    rcases List.mem_cons.1 hh with rfl | hh
    · exact update_self ..
    · exact (update_of_ne (hp.this_ne h hh).1.symm _ _).trans (hdone h hh).1.symm
  obtain ⟨hchain, hnone, hperm⟩ := (lists_freeOnly hp).1 (hlists.congr honly)
  have hblocks := hspliced.blocks
  rw [List.nil_append, List.append_nil] at hblocks
  refine ⟨⟨{ m' with total := c.total }, c.mapped, s.live⟩, L' this, ?_, ?_, rfl,
    hcounted.mapped_eq h.blocks.places⟩
  · refine ⟨max free.length c.mapped.length + 1, fun fuel hfuel => ?_⟩
    have hhead : m.succ this = (c.mapped ++ [this + lhListTail]).headD 0 := by
      have hsucc := hcounted.blocks.succ
      rw [← List.nil_append (c.mapped ++ [this + lhListTail])] at hsucc
      exact hsucc.next_tip
    rw [State.collect, hcount fuel (by omega), Option.bind_some]
    show Option.map _ (Heap.spliceBlocks this fuel m (m.succ this)) = _
    rw [hhead, hsplice fuel (by omega), Option.map_some]
  · exact ⟨⟨hp, hblocks.succ, hblocks.pred, hblocks.cnt, hblocks.owner⟩, hchain, hnone, hperm,
      fun b hb => (hdone b hb).2, hcounted.total⟩

/-! ## Every state of a heap -/

theorem Reach.kept {s : State} (h : Reach z this base s) : ∃ free, Kept z this base s free := by
  induction h with
  | init m htotal => exact ⟨[], htotal ▸ kept_init z this m⟩
  | alloc block _ hfresh ih =>
    obtain ⟨free, hkept⟩ := ih
    exact hkept.alloc hfresh
  | free cell _ hlive ih =>
    obtain ⟨free, hkept⟩ := ih
    exact ⟨cell :: free, hkept.hpFreecell hlive⟩
  | collect _ hs ih =>
    obtain ⟨free, hkept⟩ := ih
    obtain ⟨s', free', hs', hkept', -, -⟩ := hkept.collect
    obtain rfl := hs.unique hs'
    exact ⟨free', hkept'⟩

/-- The blocks a heap has linked are those the host has mapped for it, each of their cells is handed
    out or in the list of free cells, once, and the total counts them. A `:collect` comes back, and
    has given back just the blocks with no cell handed out. -/
theorem heap_whole (z : Sizes) (this base : ℕ) (s : State) (h : Reach z this base s) :
    Chain s.mem.succ this (s.mapped ++ [this + lhListTail]) ∧
      (∃ free, Chain s.mem.next this free ∧
        (free ++ s.live).Perm (s.mapped.flatMap z.cellsOf)) ∧
      (s.mapped.flatMap z.cellsOf).Nodup ∧
      s.mem.total = base + s.mapped.length * z.blocksize ∧
      ∃ s', Returns (s.collect z this) s' ∧ Reach z this base s' ∧ s'.live = s.live ∧
        s'.mapped = s.mapped.filter (fun b => (z.cellsOf b).any (fun x => decide (x ∈ s.live))) := by
  obtain ⟨free, hkept⟩ := h.kept
  obtain ⟨s', free', hs', -, hlive, hmapped⟩ := hkept.collect
  exact ⟨hkept.blocks.succ, ⟨free, hkept.chain, hkept.perm⟩, hkept.blocks.places.cells_nodup,
    hkept.total, s', hs', .collect h hs', hlive, hmapped⟩

/-! A heap at 64, of cells of 24 bytes, with one block of a page and a cell of it handed out. -/

def cells24 : Sizes := Sizes.init 0 24 5 (by decide)

def zeroMem : Mem := ⟨fun _ => 0, fun _ => 0, fun _ => 0, fun _ => 0, fun _ => 0, fun _ => 0, fun _ => 0, 0⟩

def oneOut : State := (⟨init 64 zeroMem, [], []⟩ : State).alloc cells24 64 4096

theorem fresh_page : Fresh cells24 64 [] 4096 := ⟨by decide, Or.inl (by decide), by simp⟩

theorem heap_whole_page : ∃ s', Returns (oneOut.collect cells24 64) s' ∧ s'.live = oneOut.live := by
  obtain ⟨s', hs', -, hlive, -⟩ := (heap_whole cells24 64 0 oneOut
    ((Reach.init zeroMem rfl).alloc 4096 (fun _ => fresh_page))).2.2.2.2
  exact ⟨s', hs', hlive⟩

end ChrysaLisp.Heap
