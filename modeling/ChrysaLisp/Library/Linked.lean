import Mathlib.Data.List.Nodup
import Mathlib.Data.List.Perm.Basic
import Mathlib.Logic.Function.Basic
import Mathlib.Tactic.Common

set_option autoImplicit false

/-! # Singly linked lists

Cells are addresses, 0 is none, and `next` is the word of a cell, or of a list's head, that links
it to the one after. Some lists of some heads share out the cells there are: a cell is in one of
them, or loose, in the hands of who took it off a list.

A walk goes over the cells of a list while they are taken off and others are put at its head. -/

namespace Linked

/-! ## One list -/

/-- From a node through some cells to the end. -/
def Chain (next : ℕ → ℕ) : ℕ → List ℕ → Prop
  | a, [] => next a = 0
  | a, c :: l => next a = c ∧ c ≠ 0 ∧ Chain next c l

/-- The node a chain of some cells ends in. -/
def tip : ℕ → List ℕ → ℕ
  | a, [] => a
  | _, c :: l => tip c l

variable {next next' : ℕ → ℕ} {a b c : ℕ} {l pre suf : List ℕ}

theorem tip_concat (a : ℕ) (l : List ℕ) (c : ℕ) : tip a (l ++ [c]) = c := by
  induction l generalizing a with
  | nil => rfl
  | cons d l ih => exact ih d

theorem tip_mem (a : ℕ) (l : List ℕ) : tip a l ∈ a :: l := by
  induction l generalizing a with
  | nil => exact List.mem_cons_self
  | cons d l ih => exact List.mem_cons_of_mem _ (ih d)

theorem tip_mem_self (a : ℕ) (hl : l ≠ []) : tip a l ∈ l := by
  cases l with
  | nil => exact absurd rfl hl
  | cons c l => exact tip_mem c l

theorem tip_congr (a b : ℕ) (hl : l ≠ []) : tip a l = tip b l := by
  cases l with
  | nil => exact absurd rfl hl
  | cons c l => rfl

theorem Chain.congr (h : Chain next a l) (heq : ∀ x ∈ a :: l, next' x = next x) :
    Chain next' a l := by
  induction l generalizing a with
  | nil =>
      rw [Chain, heq a List.mem_cons_self]
      exact h
  | cons c l ih =>
      refine ⟨?_, h.2.1, ih h.2.2 (fun x hx => heq x (List.mem_cons_of_mem _ hx))⟩
      rw [heq a List.mem_cons_self]
      exact h.1

theorem Chain.next_tip (h : Chain next a (pre ++ suf)) : next (tip a pre) = suf.headD 0 := by
  induction pre generalizing a with
  | nil =>
      cases suf with
      | nil => exact h
      | cons c suf => exact h.1
  | cons d pre ih => exact ih h.2.2

theorem Chain.next_mid (h : Chain next a (pre ++ c :: suf)) : next c = suf.headD 0 := by
  rw [← List.singleton_append, ← List.append_assoc] at h
  rw [← tip_concat a pre c]
  exact h.next_tip

theorem Chain.nonzero (h : Chain next a l) : ∀ c ∈ l, c ≠ 0 := by
  induction l generalizing a with
  | nil => exact fun c hc => absurd hc List.not_mem_nil
  | cons d l ih =>
      intro c hc
      rcases List.mem_cons.1 hc with rfl | hc
      · exact h.2.1
      · exact ih h.2.2 c hc

/-- The words say which cells there are. -/
theorem Chain.unique {l' : List ℕ} (h : Chain next a l) (h' : Chain next a l') : l = l' := by
  induction l generalizing a l' with
  | nil =>
      cases l' with
      | nil => rfl
      | cons c l' => exact absurd (h'.1.symm.trans h) h'.2.1
  | cons c l ih =>
      cases l' with
      | nil => exact absurd (h.1.symm.trans h') h.2.1
      | cons c' l' =>
          have hc : c = c' := h.1.symm.trans h'.1
          rw [← hc] at h' ⊢
          rw [ih h.2.2 h'.2.2]

/-- A cell put in front. -/
theorem Chain.push (h : Chain next a l) (hc : c ≠ 0) (hnew : c ∉ a :: l) (ha : a ∉ l) :
    Chain (Function.update (Function.update next c (next a)) a c) a (c :: l) := by
  have hca : c ≠ a := fun he => hnew (he ▸ List.mem_cons_self)
  refine ⟨Function.update_self .., hc, ?_⟩
  have hcn : Function.update (Function.update next c (next a)) a c c = next a := by
    rw [Function.update_of_ne hca, Function.update_self]
  cases l with
  | nil =>
      rw [Chain, hcn]
      exact h
  | cons d l =>
      refine ⟨by rw [hcn]; exact h.1, h.2.1, h.2.2.congr (fun x hx => ?_)⟩
      have hxa : x ≠ a := fun he => ha (he ▸ hx)
      have hxc : x ≠ c := fun he => hnew (he ▸ List.mem_cons_of_mem _ hx)
      rw [Function.update_of_ne hxa, Function.update_of_ne hxc]

/-- A cell taken out, by the node before it. -/
theorem Chain.unlink (h : Chain next a (pre ++ c :: suf)) (hnodup : (a :: (pre ++ suf)).Nodup) :
    Chain (Function.update next (tip a pre) (next c)) a (pre ++ suf) := by
  induction pre generalizing a with
  | nil =>
      obtain ⟨-, -, hc⟩ := h
      cases suf with
      | nil =>
          rw [List.nil_append, Chain, tip, Function.update_self]
          exact hc
      | cons d suf =>
          refine ⟨by rw [tip, Function.update_self]; exact hc.1, hc.2.1, ?_⟩
          refine hc.2.2.congr (fun x hx => Function.update_of_ne (fun he => ?_) _ _)
          have hxa : x = a := he
          exact (List.nodup_cons.1 hnodup).1 (hxa ▸ hx)
  | cons d pre ih =>
      obtain ⟨had, hd, hrest⟩ := h
      have ha : a ∉ d :: (pre ++ suf) := (List.nodup_cons.1 hnodup).1
      have htip : a ≠ tip d pre := by
        intro he
        have hmem : tip d pre ∈ d :: (pre ++ suf) :=
          List.mem_append_left suf (tip_mem d pre)
        exact ha (he ▸ hmem)
      refine ⟨?_, hd, ih hrest (List.nodup_cons.1 hnodup).2⟩
      rw [tip, Function.update_of_ne htip]
      exact had

/-! ## Links both ways -/

/-- Each node after the first has the one before it. -/
def Back (prev : ℕ → ℕ) : ℕ → List ℕ → Prop
  | _, [] => True
  | a, c :: l => prev c = a ∧ Back prev c l

section Both

variable {prev prev' : ℕ → ℕ} {d : ℕ}

theorem Back.congr (h : Back prev a l) (heq : ∀ x ∈ l, prev' x = prev x) : Back prev' a l := by
  induction l generalizing a with
  | nil => trivial
  | cons c l ih =>
      exact ⟨(heq c List.mem_cons_self).trans h.1,
        ih h.2 (fun x hx => heq x (List.mem_cons_of_mem _ hx))⟩

theorem Back.prev_eq (h : Back prev a (pre ++ c :: suf)) : prev c = tip a pre := by
  induction pre generalizing a with
  | nil => exact h.1
  | cons d pre ih => exact ih h.2

/-- A node taken out, by the one after it. -/
theorem Back.unlink (h : Back prev a (pre ++ c :: d :: suf)) (hnodup : (pre ++ d :: suf).Nodup) :
    Back (Function.update prev d (tip a pre)) a (pre ++ d :: suf) := by
  induction pre generalizing a with
  | nil =>
      refine ⟨Function.update_self .., h.2.2.congr (fun x hx => Function.update_of_ne ?_ _ _)⟩
      exact ne_of_mem_of_not_mem hx (List.nodup_cons.1 hnodup).1
  | cons e pre ih =>
      obtain ⟨he, hrest⟩ := List.nodup_cons.1 hnodup
      have hed : e ≠ d := fun hed => he (hed ▸ List.mem_append_right pre List.mem_cons_self)
      exact ⟨(Function.update_of_ne hed _ _).trans h.1, ih h.2 hrest⟩

/-- A node put in after the first. -/
theorem Back.push (h : Back prev a (d :: l)) (hc : c ∉ d :: l) (hd : d ∉ l) :
    Back (Function.update (Function.update prev d c) c a) a (c :: d :: l) := by
  have hdc : d ≠ c := fun he => hc (he ▸ List.mem_cons_self)
  refine ⟨Function.update_self .., ?_, h.2.congr (fun x hx => ?_)⟩
  · rw [Function.update_of_ne hdc, Function.update_self]
  · rw [Function.update_of_ne (ne_of_mem_of_not_mem hx (List.not_mem_of_not_mem_cons hc)),
      Function.update_of_ne (ne_of_mem_of_not_mem hx hd)]

end Both

/-! ## Lists that share out some cells -/

/-- The lists of some heads, and the loose cells, are all the cells there are, each once. -/
structure Lists (next : ℕ → ℕ) (heads : List ℕ) (L : ℕ → List ℕ) (loose cells : List ℕ) : Prop where
  chain : ∀ h ∈ heads, Chain next h (L h)
  perm : (heads.flatMap L ++ loose).Perm cells
  nodup : (heads ++ cells).Nodup
  nonzero : 0 ∉ cells

section Lists

variable {heads loose cells : List ℕ} {L : ℕ → List ℕ} {h : ℕ}

/-- The cells of one list and those of the others. -/
theorem flatMap_perm (hh : h ∈ heads) (hnodup : heads.Nodup) (l' : List ℕ) :
    (heads.flatMap (Function.update L h l')).Perm (l' ++ (heads.erase h).flatMap L) := by
  refine ((List.perm_cons_erase hh).flatMap_right _).trans ?_
  rw [List.flatMap_cons, Function.update_self]
  refine List.Perm.append_left _ (List.Perm.of_eq (List.flatMap_congr fun x hx => ?_))
  exact Function.update_of_ne (fun he => hnodup.not_mem_erase (he ▸ hx)) _ _

theorem flatMap_perm_self (hh : h ∈ heads) (hnodup : heads.Nodup) :
    (heads.flatMap L).Perm (L h ++ (heads.erase h).flatMap L) := by
  have := flatMap_perm (L := L) hh hnodup (L h)
  rwa [Function.update_eq_self] at this

theorem Lists.heads_nodup (hl : Lists next heads L loose cells) : heads.Nodup :=
  (List.nodup_append.1 hl.nodup).1

theorem Lists.mem_cells (hl : Lists next heads L loose cells) (hh : h ∈ heads) (hc : c ∈ L h) :
    c ∈ cells :=
  hl.perm.mem_iff.1 (List.mem_append_left _ (List.mem_flatMap.2 ⟨h, hh, hc⟩))

theorem Lists.loose_mem (hl : Lists next heads L loose cells) (hc : c ∈ loose) : c ∈ cells :=
  hl.perm.mem_iff.1 (List.mem_append_right _ hc)

theorem Lists.head_not_cell (hl : Lists next heads L loose cells) (hh : h ∈ heads) : h ∉ cells :=
  fun hc => (List.nodup_append.1 hl.nodup).2.2 h hh h hc rfl

/-- One list, the others and what is loose have no cell of each other's. -/
theorem Lists.split (hl : Lists next heads L loose cells) (hh : h ∈ heads) :
    (L h ++ ((heads.erase h).flatMap L ++ loose)).Nodup := by
  have hcells : cells.Nodup := (List.nodup_append.1 hl.nodup).2.1
  have hperm := ((flatMap_perm_self (L := L) hh hl.heads_nodup).append_right loose).symm.trans hl.perm
  rw [← List.append_assoc]
  exact hperm.nodup_iff.2 hcells

/-- What the lists of other heads have is not of this one's. -/
theorem Lists.other (hl : Lists next heads L loose cells) (hh : h ∈ heads) {h' : ℕ}
    (hh' : h' ∈ heads) (hne : h' ≠ h) {x : ℕ} (hx : x ∈ h' :: L h') : x ∉ h :: L h := by
  intro hxh
  rcases List.mem_cons.1 hx with rfl | hx
  · rcases List.mem_cons.1 hxh with rfl | hxh
    · exact hne rfl
    · exact hl.head_not_cell hh' (hl.mem_cells hh hxh)
  · rcases List.mem_cons.1 hxh with rfl | hxh
    · exact hl.head_not_cell hh (hl.mem_cells hh' hx)
    · have hrest : x ∈ (heads.erase h).flatMap L ++ loose :=
        List.mem_append_left _ (List.mem_flatMap.2 ⟨h', (List.mem_erase_of_ne hne).2 hh', hx⟩)
      exact (List.nodup_append.1 (hl.split hh)).2.2 x hxh x hrest rfl

theorem Lists.not_loose (hl : Lists next heads L (c :: loose) cells) (hh : h ∈ heads) :
    c ∉ h :: L h := by
  intro hc
  rcases List.mem_cons.1 hc with rfl | hc
  · exact hl.head_not_cell hh (hl.loose_mem List.mem_cons_self)
  · exact (List.nodup_append.1 (hl.split hh)).2.2 c hc c
      (List.mem_append_right _ List.mem_cons_self) rfl

/-- A loose cell put at the head of a list. -/
theorem Lists.push (hl : Lists next heads L (c :: loose) cells) (hh : h ∈ heads) :
    Lists (Function.update (Function.update next c (next h)) h c) heads
      (Function.update L h (c :: L h)) loose cells where
  chain h' hh' := by
    by_cases hne : h' = h
    · subst hne
      rw [Function.update_self]
      have hc0 : c ≠ 0 := fun he => hl.nonzero (he ▸ hl.loose_mem List.mem_cons_self)
      have hself : h' ∉ L h' := fun hm => hl.head_not_cell hh (hl.mem_cells hh hm)
      exact (hl.chain h' hh).push hc0 (hl.not_loose hh) hself
    · rw [Function.update_of_ne hne]
      refine (hl.chain h' hh').congr (fun x hx => ?_)
      have hxh : x ≠ h := fun he => hl.other hh hh' hne hx (he ▸ List.mem_cons_self)
      have hxc : x ≠ c := fun he => hl.not_loose hh' (he ▸ hx)
      rw [Function.update_of_ne hxh, Function.update_of_ne hxc]
  perm := by
    have hnow := (flatMap_perm (L := L) hh hl.heads_nodup (c :: L h)).append_right loose
    have hwas := (flatMap_perm_self (L := L) hh hl.heads_nodup).append_right (c :: loose)
    refine (hnow.trans ?_).trans (hwas.symm.trans hl.perm)
    rw [List.cons_append, List.cons_append]
    exact List.perm_middle.symm
  nodup := hl.nodup
  nonzero := hl.nonzero

/-- A cell taken out of a list. -/
theorem Lists.unlink (hl : Lists next heads L loose cells) (hh : h ∈ heads)
    (hL : L h = pre ++ c :: suf) : Lists (Function.update next (tip h pre) (next c)) heads
      (Function.update L h (pre ++ suf)) (c :: loose) cells where
  chain h' hh' := by
    by_cases hne : h' = h
    · subst hne
      rw [Function.update_self]
      have hchain := hl.chain h' hh
      rw [hL] at hchain
      refine hchain.unlink (List.nodup_cons.2 ⟨fun hm => ?_, ?_⟩)
      · refine hl.head_not_cell hh (hl.mem_cells hh ?_)
        rw [hL]
        rcases List.mem_append.1 hm with hm | hm
        · exact List.mem_append_left _ hm
        · exact List.mem_append_right _ (List.mem_cons_of_mem _ hm)
      · have hnodup := (List.nodup_append.1 (hl.split hh)).1
        rw [hL] at hnodup
        exact hnodup.sublist (List.Sublist.append_left (List.sublist_cons_self c suf) pre)
    · rw [Function.update_of_ne hne]
      refine (hl.chain h' hh').congr (fun x hx => Function.update_of_ne (fun he => ?_) _ _)
      refine hl.other hh hh' hne hx ?_
      rw [he, hL]
      exact List.mem_append_left (c :: suf) (tip_mem h pre)
  perm := by
    have hnow := (flatMap_perm (L := L) hh hl.heads_nodup (pre ++ suf)).append_right (c :: loose)
    have hwas := (flatMap_perm_self (L := L) hh hl.heads_nodup).append_right loose
    refine (hnow.trans ?_).trans (hwas.symm.trans hl.perm)
    rw [hL]
    simp only [List.append_assoc, List.cons_append]
    refine (List.Perm.append_left pre ?_)
    rw [← List.append_assoc, ← List.append_assoc]
    exact List.perm_middle
  nodup := hl.nodup
  nonzero := hl.nonzero

/-- Cells that were not there before, some put on a list that had none, the others loose. -/
theorem Lists.more {new : List ℕ} (hl : Lists next heads L [] cells) (hh : h ∈ heads)
    (hempty : L h = []) (hchain : Chain next' h l) (hheads : ∀ h' ∈ heads, h' ≠ h → next' h' = next h')
    (hcells : ∀ c ∈ cells, next' c = next c) (hperm : (l ++ loose).Perm new)
    (hnodup : (heads ++ (cells ++ new)).Nodup) (hzero : 0 ∉ new) :
    Lists next' heads (Function.update L h l) loose (cells ++ new) where
  chain h' hh' := by
    by_cases hne : h' = h
    · subst hne
      rwa [Function.update_self]
    · rw [Function.update_of_ne hne]
      refine (hl.chain h' hh').congr (fun x hx => ?_)
      rcases List.mem_cons.1 hx with rfl | hx
      · exact hheads x hh' hne
      · exact hcells x (hl.mem_cells hh' hx)
  perm := by
    have hnow := (flatMap_perm (L := L) hh hl.heads_nodup l).append_right loose
    have hwas := (flatMap_perm_self (L := L) hh hl.heads_nodup).symm.trans
      ((List.Perm.of_eq (List.append_nil _).symm).trans hl.perm)
    rw [hempty, List.nil_append] at hwas
    rw [List.append_assoc] at hnow
    refine hnow.trans ((List.perm_append_comm_assoc _ _ _).trans (hwas.append hperm))
  nodup := hnodup
  nonzero hz := (List.mem_append.1 hz).elim hl.nonzero hzero

/-- Only the lists of the heads count. -/
theorem Lists.congr {L' : ℕ → List ℕ} (hl : Lists next heads L loose cells)
    (hL : ∀ h ∈ heads, L' h = L h) : Lists next heads L' loose cells where
  chain h hh := (hL h hh).symm ▸ hl.chain h hh
  perm := (List.flatMap_congr hL).symm ▸ hl.perm
  nodup := hl.nodup
  nonzero := hl.nonzero

/-- A head let go of, with the cells of its list. -/
theorem Lists.drop {rest : List ℕ} (hl : Lists next heads L loose cells) (hh : h ∈ heads)
    (hcells : cells.Perm (L h ++ rest)) : Lists next (heads.erase h) L loose rest where
  chain h' hh' := hl.chain h' (List.mem_of_mem_erase hh')
  perm := by
    have hwas := (flatMap_perm_self (L := L) hh hl.heads_nodup).append_right loose
    rw [List.append_assoc] at hwas
    exact (List.perm_append_left_iff _).1 ((hwas.symm.trans hl.perm).trans hcells)
  nodup := by
    obtain ⟨hheads, hnodup, hapart⟩ := List.nodup_append.1 hl.nodup
    have hrest : ∀ x ∈ rest, x ∈ cells := fun x hx => hcells.mem_iff.2 (List.mem_append_right _ hx)
    refine List.nodup_append.2 ⟨hheads.erase h, ?_, fun a ha b hb => ?_⟩
    · exact (List.nodup_append.1 (hcells.nodup_iff.1 hnodup)).2.1
    · exact hapart a (List.mem_of_mem_erase ha) b (hrest b hb)
  nonzero hz := hl.nonzero (hcells.mem_iff.2 (List.mem_append_right _ hz))

/-- Chains that go on from a node as one does from another. -/
theorem Chain.relink (h : Chain next a l) (hb : next' b = next a)
    (heq : ∀ x ∈ l, next' x = next x) : Chain next' b l := by
  cases l with
  | nil => exact hb.trans h
  | cons c l => exact ⟨hb.trans h.1, h.2.1, h.2.2.congr heq⟩

/-- A chain that is made to go on where it ended. -/
theorem Chain.extend (h : Chain next a pre) (hnodup : (a :: pre).Nodup)
    (hrest : Chain next' (tip a pre) suf)
    (heq : ∀ x ∈ a :: pre, x ≠ tip a pre → next' x = next x) : Chain next' a (pre ++ suf) := by
  induction pre generalizing a with
  | nil => exact hrest
  | cons c pre ih =>
      obtain ⟨ha, hpre⟩ := List.nodup_cons.1 hnodup
      have hne : a ≠ tip c pre := fun he => ha (he.symm ▸ tip_mem c pre)
      refine ⟨(heq a List.mem_cons_self hne).trans h.1, h.2.1, ih h.2.2 hpre hrest ?_⟩
      exact fun x hx => heq x (List.mem_cons_of_mem _ hx)

/-- All of one list put before another, by its last cell. -/
theorem Lists.splice {t : ℕ} (hl : Lists next heads L loose cells) (hh : h ∈ heads)
    (hb : b ∈ heads) (hne : b ≠ h) (hL : L b ≠ []) (ht : tip b (L b) = t) :
    Lists (Function.update (Function.update (Function.update next h (next b)) t (next h)) b 0) heads
      (Function.update (Function.update L b []) h (L b ++ L h)) loose cells := by
  have htL : t ∈ L b := ht ▸ tip_mem_self b hL
  have hcell : ∀ {x h'}, h' ∈ heads → x ∈ L h' → ∀ h'' ∈ heads, x ≠ h'' := fun hh' hx _ hh'' =>
    ne_of_mem_of_not_mem (hl.mem_cells hh' hx) (hl.head_not_cell hh'')
  have htb : t ≠ b := hcell hb htL b hb
  have hth : t ≠ h := hcell hb htL h hh
  refine ⟨fun h' hh' => ?_, ?_, hl.nodup, hl.nonzero⟩
  · by_cases hh'h : h' = h
    · -- the two lists, one after the other
      subst hh'h
      rw [Function.update_self]
      obtain ⟨c, p, hcp⟩ := List.exists_cons_of_ne_nil hL
      have hchain := hl.chain b hb
      have hnodup := (List.nodup_append.1 (hl.split hb)).1
      rw [hcp] at hchain hnodup ht ⊢
      refine ⟨?_, hchain.2.1, hchain.2.2.extend hnodup ((hl.chain h' hh).relink ?_ ?_) ?_⟩
      · rw [Function.update_of_ne hne.symm, Function.update_of_ne hth.symm, Function.update_self]
        exact hchain.1
      · rw [show tip c p = t from ht, Function.update_of_ne htb, Function.update_self]
      · intro x hx
        have hxb := hl.other hb hh hne.symm (List.mem_cons_of_mem _ hx)
        have hxt : x ≠ t := fun he => hxb (List.mem_cons_of_mem _ (he.symm ▸ htL))
        rw [Function.update_of_ne (List.ne_of_not_mem_cons hxb), Function.update_of_ne hxt,
          Function.update_of_ne (hcell hh hx h' hh)]
      · intro x hx hxt
        have hxL : x ∈ L b := hcp ▸ hx
        have hxt : x ≠ t := fun he => hxt (he.trans (ht : tip c p = t).symm)
        rw [Function.update_of_ne (hcell hb hxL b hb), Function.update_of_ne hxt,
          Function.update_of_ne (hcell hb hxL h' hh)]
    · rw [Function.update_of_ne hh'h]
      by_cases hh'b : h' = b
      · subst hh'b
        rw [Function.update_self, Chain, Function.update_self]
      · rw [Function.update_of_ne hh'b]
        refine (hl.chain h' hh').congr (fun x hx => ?_)
        have hxb := hl.other hb hh' hh'b hx
        have hxh := hl.other hh hh' hh'h hx
        have hxt : x ≠ t := fun he => hxb (List.mem_cons_of_mem _ (he.symm ▸ htL))
        rw [Function.update_of_ne (List.ne_of_not_mem_cons hxb), Function.update_of_ne hxt,
          Function.update_of_ne (List.ne_of_not_mem_cons hxh)]
  · have hnow := flatMap_perm (L := Function.update L b []) hh hl.heads_nodup (L b ++ L h)
    have hb' : b ∈ heads.erase h := (List.mem_erase_of_ne hne).2 hb
    have hrest := flatMap_perm (L := L) hb' (hl.heads_nodup.erase h) []
    have hwas := (flatMap_perm_self (L := L) hh hl.heads_nodup).trans
      (List.Perm.append_left (L h) (flatMap_perm_self (L := L) hb' (hl.heads_nodup.erase h)))
    refine List.Perm.trans (List.Perm.append_right loose ?_) hl.perm
    refine (hnow.trans (List.Perm.append_left _ hrest)).trans ?_
    refine List.Perm.trans ?_ hwas.symm
    rw [List.nil_append, ← List.append_assoc]
    exact List.Perm.append_right _ List.perm_append_comm

/-- The first cell of a list. -/
theorem Lists.next_head (hl : Lists next heads L loose cells) (hh : h ∈ heads) :
    next h = (L h).headD 0 := by
  have := (hl.chain h hh)
  rw [← List.nil_append (L h)] at this
  exact this.next_tip

end Lists

/-! ## Walks -/

/-- Where a step of a walk leaves off: at a node, or out of the walk. -/
inductive Step (σ : Type)
  | go (s : σ) (node : ℕ)
  | out (s : σ)

/-- How a walk ended: with the list, or by a step out of it. -/
inductive Exit (σ : Type)
  | ended (s : σ)
  | left (s : σ)

/-- A walk over a list from a node, of so many cells at most. The body is given the cell and the
    node before it. -/
def walk {σ : Type} (next : σ → ℕ → ℕ) (body : σ → ℕ → ℕ → Option (Step σ)) :
    ℕ → σ → ℕ → Option (Exit σ)
  | 0, _, _ => none
  | fuel + 1, s, last =>
      let node := next s last
      if node = 0 then some (.ended s)
      else
        match body s node last with
        | some (.go s node) => walk next body fuel s node
        | some (.out s) => some (.left s)
        | none => none

/-- With enough steps allowed it comes back, and with this. -/
def Returns {α : Type} (f : ℕ → Option α) (r : α) : Prop := ∃ n, ∀ k, n ≤ k → f k = some r

theorem returns_const {α : Type} {f : ℕ → Option α} {r : α} (h : ∀ k, f k = some r) : Returns f r :=
  ⟨0, fun k _ => h k⟩

/-- It comes back with one thing. -/
theorem Returns.unique {α : Type} {f : ℕ → Option α} {r r' : α} (h : Returns f r)
    (h' : Returns f r') : r = r' := by
  obtain ⟨m, hm⟩ := h
  obtain ⟨n, hn⟩ := h'
  have hr := hm (max m n) (Nat.le_max_left m n)
  rw [hn (max m n) (Nat.le_max_right m n)] at hr
  exact (Option.some.inj hr).symm

theorem Returns.bind {α β : Type} {f : ℕ → Option α} {a : α} {g : ℕ → α → Option β} {b : β}
    (hf : Returns f a) (hg : Returns (fun k => g k a) b) :
    Returns (fun k => (f k).bind (g k)) b := by
  obtain ⟨m, hm⟩ := hf
  obtain ⟨n, hn⟩ := hg
  refine ⟨max m n, fun k hk => ?_⟩
  show (f k).bind (g k) = some b
  rw [hm k (by omega), Option.bind_some]
  exact hn k (by omega)

/-- The rule of a walk: what holds of the cells gone by, as they are now, and those to come, every
    step keeps, and a step out of the walk comes to another thing. A step may take steps too. -/
theorem walk_returns {σ : Type} {f : σ → ℕ → ℕ} {b : ℕ → σ → ℕ → ℕ → Option (Step σ)}
    {P : σ → List ℕ → List ℕ → Prop} {Q : σ → Prop}
    (hnext : ∀ s pre suf, P s pre suf → Chain (f s) a (pre ++ suf))
    (hbody : ∀ s pre c suf, P s pre (c :: suf) →
      (∃ s' pre', Returns (fun k => b k s c (tip a pre)) (.go s' (tip a pre')) ∧ P s' pre' suf) ∨
      (∃ s', Returns (fun k => b k s c (tip a pre)) (.out s') ∧ Q s'))
    {s : σ} {pre suf : List ℕ} (h : P s pre suf) :
    (∃ s' pre', Returns (fun k => walk f (b k) k s (tip a pre)) (.ended s') ∧ P s' pre' []) ∨
      (∃ s', Returns (fun k => walk f (b k) k s (tip a pre)) (.left s') ∧ Q s') := by
  have hwalk : ∀ (suf : List ℕ) (s : σ) (pre : List ℕ), P s pre suf →
      (∃ s' pre', (∃ n, ∀ k fuel, n ≤ k → n ≤ fuel →
        walk f (b k) fuel s (tip a pre) = some (.ended s')) ∧ P s' pre' []) ∨
      (∃ s', (∃ n, ∀ k fuel, n ≤ k → n ≤ fuel →
        walk f (b k) fuel s (tip a pre) = some (.left s')) ∧ Q s') := by
    intro suf
    induction suf with
    | nil =>
        intro s pre h
        have hend : f s (tip a pre) = 0 := (hnext s pre [] h).next_tip
        refine Or.inl ⟨s, pre, ⟨1, fun k fuel _ hfuel => ?_⟩, h⟩
        obtain ⟨fuel, rfl⟩ : ∃ n, fuel = n + 1 := ⟨fuel - 1, by omega⟩
        rw [walk, hend, if_pos rfl]
    | cons c suf ih =>
        intro s pre h
        have hchain := hnext s pre (c :: suf) h
        have hc : f s (tip a pre) = c := hchain.next_tip
        have hc0 : c ≠ 0 := hchain.nonzero c (List.mem_append_right _ List.mem_cons_self)
        -- one step of the walk, and what is left of it
        rcases hbody s pre c suf h with ⟨s₁, pre₁, ⟨n, hstep⟩, h₁⟩ | ⟨s₁, ⟨n, hstep⟩, hQ⟩
        · have hone : ∀ k fuel, n ≤ k → walk f (b k) (fuel + 1) s (tip a pre) =
              walk f (b k) fuel s₁ (tip a pre₁) := by
            intro k fuel hk
            have hk' : b k s c (tip a pre) = some (.go s₁ (tip a pre₁)) := hstep k hk
            rw [walk, hc, if_neg hc0, hk']
          rcases ih s₁ pre₁ h₁ with ⟨s', pre', ⟨n', hrest⟩, h'⟩ | ⟨s', ⟨n', hrest⟩, hQ⟩
          · refine Or.inl ⟨s', pre', ⟨max n n' + 1, fun k fuel hk hfuel => ?_⟩, h'⟩
            obtain ⟨fuel, rfl⟩ : ∃ i, fuel = i + 1 := ⟨fuel - 1, by omega⟩
            rw [hone k fuel (by omega)]
            exact hrest k fuel (by omega) (by omega)
          · refine Or.inr ⟨s', ⟨max n n' + 1, fun k fuel hk hfuel => ?_⟩, hQ⟩
            obtain ⟨fuel, rfl⟩ : ∃ i, fuel = i + 1 := ⟨fuel - 1, by omega⟩
            rw [hone k fuel (by omega)]
            exact hrest k fuel (by omega) (by omega)
        · refine Or.inr ⟨s₁, ⟨n + 1, fun k fuel hk hfuel => ?_⟩, hQ⟩
          obtain ⟨fuel, rfl⟩ : ∃ i, fuel = i + 1 := ⟨fuel - 1, by omega⟩
          have hk' : b k s c (tip a pre) = some (.out s₁) := hstep k (by omega)
          rw [walk, hc, if_neg hc0, hk']
  rcases hwalk suf s pre h with ⟨s', pre', ⟨n, hn⟩, h'⟩ | ⟨s', ⟨n, hn⟩, hQ⟩
  · exact Or.inl ⟨s', pre', ⟨n, fun k hk => hn k k hk hk⟩, h'⟩
  · exact Or.inr ⟨s', ⟨n, fun k hk => hn k k hk hk⟩, hQ⟩

end Linked
