import ChrysaLisp.Math.Polygon
import Mathlib.Data.List.Perm.Basic
import Mathlib.Data.List.Nodup
import Mathlib.Data.List.Infix
import Mathlib.Algebra.Order.Ring.Int
import Mathlib.Tactic.SplitIfs
import Mathlib.Tactic.Ring

set_option autoImplicit false

/-! # The pieces of a band

Whatever the edges of a band are and however they cross, the ends of its pieces are in order across, at the
top and at the bottom, within the sides of the points, and no edge is used twice. -/

namespace ChrysaLisp.Polygon

/-- The ends of the pieces along the top of a band. -/
abbrev topEnds (out : List Piece) : List ℤ := out.flatMap fun p => [p.xl0, p.xr0]

abbrev bottomEnds (out : List Piece) : List ℤ := out.flatMap fun p => [p.xl1, p.xr1]

abbrev edgeIds (out : List Piece) : List ℕ := out.flatMap fun p => [p.idl, p.idr]

/-- Numbers in order, from one to another. -/
structure Upto (lo : ℤ) (l : List ℤ) (hi : ℤ) : Prop where
  ordered : l.Pairwise (· ≤ ·)
  low : ∀ x ∈ l, lo ≤ x
  high : ∀ x ∈ l, x ≤ hi

structure Pieces (lo hi : ℤ) (out : List Piece) : Prop where
  tops : Upto lo (topEnds out) hi
  bottoms : Upto lo (bottomEnds out) hi
  ids : (edgeIds out).Nodup

section Upto

variable {lo hi hi' a : ℤ} {l l' : List ℤ}

theorem Upto.nil (lo hi : ℤ) : Upto lo [] hi :=
  ⟨List.Pairwise.nil, fun _ h => absurd h List.not_mem_nil, fun _ h => absurd h List.not_mem_nil⟩

theorem Upto.mono (h : Upto lo l hi) (hle : hi ≤ hi') : Upto lo l hi' :=
  ⟨h.ordered, h.low, fun x hx => (h.high x hx).trans hle⟩

theorem Upto.sublist (h : Upto lo l hi) (hsub : l'.Sublist l) : Upto lo l' hi :=
  ⟨h.ordered.sublist hsub, fun x hx => h.low x (hsub.subset hx), fun x hx => h.high x (hsub.subset hx)⟩

theorem Upto.snoc (h : Upto lo l a) (hlow : lo ≤ a) : Upto lo (l ++ [a]) a where
  ordered := by
    refine List.pairwise_append.mpr ⟨h.ordered, List.pairwise_singleton _ a, fun x hx y hy => ?_⟩
    rw [List.mem_singleton.mp hy]
    exact h.high x hx
  low x hx := by
    rcases List.mem_append.mp hx with hx | hx
    · exact h.low x hx
    · rw [List.mem_singleton.mp hx]
      exact hlow
  high x hx := by
    rcases List.mem_append.mp hx with hx | hx
    · exact h.high x hx
    · rw [List.mem_singleton.mp hx]

theorem Pieces.nil (lo hi : ℤ) : Pieces lo hi [] := ⟨Upto.nil lo hi, Upto.nil lo hi, List.nodup_nil⟩

end Upto

/-! ## The edges in a band -/

/-- An edge goes down, between the sides. -/
structure Edge.Ok (lo hi : ℤ) (e : Edge) : Prop where
  down : e.yt < e.yb
  top : lo ≤ e.xt ∧ e.xt ≤ hi
  bottom : lo ≤ e.xb ∧ e.xb ≤ hi

section Edges

variable {lo hi y0 y1 : ℤ} {e : Edge} {active : List Edge}

/-- A part of a difference is none of the way to all of it. -/
theorem tdiv_part {d m n : ℤ} (hd : 0 ≤ d) (hm : 0 ≤ m) (hmn : m ≤ n) (hn : 0 < n) :
    0 ≤ (d * m).tdiv n ∧ (d * m).tdiv n ≤ d := by
  have hpos := mul_nonneg hd hm
  rw [Int.tdiv_eq_ediv_of_nonneg hpos]
  exact ⟨Int.ediv_nonneg hpos hn.le, Int.ediv_le_of_le_mul hn (mul_le_mul_of_nonneg_left hmn hd)⟩

theorem Edge.Ok.along (h : e.Ok lo hi) {y : ℤ} (htop : e.yt ≤ y) (hbottom : y ≤ e.yb) :
    lo ≤ e.along y ∧ e.along y ≤ hi := by
  obtain ⟨hdown, ht, hb⟩ := h
  rw [Edge.along]
  split_ifs
  · exact ht
  · exact hb
  · rcases le_total 0 (e.xb - e.xt) with hright | hleft
    · have hpart := tdiv_part hright (sub_nonneg.mpr htop) (sub_le_sub_right hbottom e.yt) (sub_pos.mpr hdown)
      omega
    · have hpart := tdiv_part (neg_nonneg.mpr hleft) (sub_nonneg.mpr htop) (sub_le_sub_right hbottom e.yt)
        (sub_pos.mpr hdown)
      rw [neg_mul, Int.neg_tdiv] at hpart
      omega

theorem putBack_perm (v : Edge) (done : List Edge) : (putBack v done).Perm (v :: done) := by
  induction done with
  | nil => exact List.Perm.refl _
  | cons u done ih =>
      rw [putBack]
      split_ifs
      · exact List.Perm.refl _
      · exact (ih.cons u).trans (List.Perm.swap v u done)

theorem foldl_putBack_perm (active done : List Edge) :
    (active.foldl (fun done v => putBack v done) done).Perm (active ++ done) := by
  induction active generalizing done with
  | nil => exact List.Perm.refl _
  | cons v active ih =>
      refine (ih _).trans (((putBack_perm v done).append_left active).trans ?_)
      exact List.perm_middle

theorem inOrder_perm (active : List Edge) : (inOrder active).Perm active := by
  have h := foldl_putBack_perm active []
  rw [List.append_nil] at h
  exact (List.reverse_perm _).trans h

end Edges

/-! ## Along a band -/

/-- The ends at the top there are so far, with that of a piece that is open. -/
def Sweep.openTops (s : Sweep) : List ℤ := topEnds s.out ++ if s.inside then [s.lx0] else []

def Sweep.openBottoms (s : Sweep) : List ℤ := bottomEnds s.out ++ if s.inside then [s.lx1] else []

def Sweep.openIds (s : Sweep) : List ℕ := edgeIds s.out ++ if s.inside then [s.lid] else []

/-- Edges of the numbers `seen` have been gone by, `gid` last. -/
structure Swept (lo hi : ℤ) (seen : List ℕ) (s : Sweep) (gid : ℕ) : Prop where
  last : s.gid = some gid
  tops : Upto lo s.openTops s.gx0
  bottoms : Upto lo s.openBottoms s.gx1
  last0 : lo ≤ s.gx0 ∧ s.gx0 ≤ s.px0 ∧ s.px0 ≤ hi
  last1 : lo ≤ s.gx1 ∧ s.gx1 ≤ s.px1 ∧ s.px1 ≤ hi
  ids : (s.openIds ++ [gid]).Nodup
  seen : ∀ i ∈ s.openIds ++ [gid], i ∈ seen

section Sweep

variable {mode : Mode} {lo hi : ℤ} {seen : List ℕ} {s : Sweep} {gid : ℕ} {e : Edge}

theorem flatMap_snoc {α β : Type} (f : α → List β) (l : List α) (a : α) :
    (l ++ [a]).flatMap f = l.flatMap f ++ f a := by
  rw [List.flatMap_append, List.flatMap_singleton]

/-- Of the ends so far and that of the last edge, a turn leaves some out at most. -/
theorem turn_spec (mode : Mode) (s : Sweep) (gid : ℕ) :
    (s.turn mode gid).openTops.Sublist (s.openTops ++ [s.gx0]) ∧
    (s.turn mode gid).openBottoms.Sublist (s.openBottoms ++ [s.gx1]) ∧
    (s.turn mode gid).openIds.Sublist (s.openIds ++ [gid]) ∧
    (s.turn mode gid).px0 = s.px0 ∧ (s.turn mode gid).px1 = s.px1 := by
  unfold Sweep.turn
  dsimp only
  split_ifs with hsame hnow
  · exact ⟨List.sublist_append_left _ _, List.sublist_append_left _ _, List.sublist_append_left _ _, rfl, rfl⟩
  · have hout : s.inside = false := by
      rw [hnow] at hsame
      exact Bool.eq_false_iff.mpr fun h => hsame h.symm
    simp only [Sweep.openTops, Sweep.openBottoms, Sweep.openIds, hout, Bool.false_eq_true, if_true, if_false,
      List.append_nil]
    exact ⟨List.Sublist.refl _, List.Sublist.refl _, List.Sublist.refl _, trivial, trivial⟩
  · have hin : s.inside = true := by
      rw [Bool.eq_false_of_not_eq_true hnow] at hsame
      exact Bool.eq_true_of_not_eq_false fun h => hsame h.symm
    simp only [Sweep.openTops, Sweep.openBottoms, Sweep.openIds, hin, Bool.false_eq_true, if_true, if_false,
      List.append_nil, flatMap_snoc, List.append_assoc, List.cons_append, List.nil_append]
    exact ⟨List.Sublist.refl _, List.Sublist.refl _, List.Sublist.refl _, trivial, trivial⟩

/-- What is wound round has no part in it. -/
theorem Swept.wound (h : Swept lo hi seen s gid) (wa wb : ℤ) :
    Swept lo hi seen { s with wa := wa, wb := wb } gid :=
  ⟨h.last, h.tops, h.bottoms, h.last0, h.last1, h.ids, h.seen⟩

theorem nodup_snoc {l : List ℕ} {i : ℕ} (hl : l.Nodup) (hi : i ∉ l) : (l ++ [i]).Nodup := by
  rw [← List.concat_eq_append]
  exact hl.concat hi

theorem Swept.edge (h : Swept lo hi seen s gid) (hnew : e.id ∉ seen) (h0 : e.x0 ≤ hi) (h1 : e.x1 ≤ hi) :
    ∃ gid', Swept lo hi (e.id :: seen) (s.edge mode e) gid' := by
  obtain ⟨hgid, htops, hbottoms, ⟨hlow0, hlast0, hhigh0⟩, ⟨hlow1, hlast1, hhigh1⟩, hids, hseen⟩ := h
  have hx0 : s.px0 ≤ max e.x0 s.px0 ∧ max e.x0 s.px0 ≤ hi := ⟨le_max_right _ _, max_le h0 hhigh0⟩
  have hx1 : s.px1 ≤ max e.x1 s.px1 ∧ max e.x1 s.px1 ≤ hi := ⟨le_max_right _ _, max_le h1 hhigh1⟩
  have hopen : ∀ i ∈ s.openIds, i ∈ seen := fun i hi => hseen i (List.mem_append_left _ hi)
  have hown := hseen gid (List.mem_append_right _ List.mem_cons_self)
  -- the state but for what is wound round
  have hstep : ∃ t gid', Swept lo hi (e.id :: seen) t gid' ∧
      s.edge mode e = if e.set = 0 then { t with wa := t.wa + e.wind }
        else { t with wb := t.wb + e.wind } := by
    by_cases hnear : max e.x0 s.px0 - s.gx0 ≤ polyNear ∧ max e.x1 s.px1 - s.gx1 ≤ polyNear
    · refine ⟨{ s with px0 := max e.x0 s.px0, px1 := max e.x1 s.px1, gid := some (min gid e.id) },
        min gid e.id, ⟨rfl, htops, hbottoms, ⟨hlow0, hlast0.trans hx0.1, hx0.2⟩,
          ⟨hlow1, hlast1.trans hx1.1, hx1.2⟩, ?_, ?_⟩, ?_⟩
      · refine nodup_snoc (hids.sublist (List.sublist_append_left _ _)) fun hmem => ?_
        rcases min_choice gid e.id with hmin | hmin
        · rw [hmin] at hmem
          exact (List.nodup_append.mp hids).2.2 gid hmem gid List.mem_cons_self rfl
        · rw [hmin] at hmem
          exact hnew (hopen _ hmem)
      · intro i hi
        rcases List.mem_append.mp hi with hi | hi
        · exact List.mem_cons_of_mem _ (hopen i hi)
        · rw [List.mem_singleton.mp hi]
          rcases min_choice gid e.id with hmin | hmin
          · rw [hmin]
            exact List.mem_cons_of_mem _ hown
          · rw [hmin]
            exact List.mem_cons_self
      · unfold Sweep.edge
        simp only [hgid, if_pos hnear]
    · obtain ⟨htop, hbottom, hid, hpx0, hpx1⟩ :=
        turn_spec mode { s with px0 := max e.x0 s.px0, px1 := max e.x1 s.px1 } gid
      have hidsub := fun i hi => hseen i (hid.subset hi)
      refine ⟨{ ({ s with px0 := max e.x0 s.px0, px1 := max e.x1 s.px1 } : Sweep).turn mode gid with
          gx0 := max e.x0 s.px0, gx1 := max e.x1 s.px1, gid := some e.id }, e.id,
        ⟨rfl, ((htops.snoc hlow0).sublist htop).mono (hlast0.trans hx0.1),
          ((hbottoms.snoc hlow1).sublist hbottom).mono (hlast1.trans hx1.1),
          ⟨(hlow0.trans hlast0).trans hx0.1, hpx0.ge, hpx0.trans_le hx0.2⟩,
          ⟨(hlow1.trans hlast1).trans hx1.1, hpx1.ge, hpx1.trans_le hx1.2⟩,
          nodup_snoc (hids.sublist hid) fun hmem => hnew (hidsub _ hmem), ?_⟩, ?_⟩
      · intro i hi
        rcases List.mem_append.mp hi with hi | hi
        · exact List.mem_cons_of_mem _ (hidsub i hi)
        · rw [List.mem_singleton.mp hi]
          exact List.mem_cons_self
      · unfold Sweep.edge
        simp only [hgid, if_neg hnear]
  obtain ⟨t, gid', ht, heq⟩ := hstep
  refine ⟨gid', ?_⟩
  rw [heq]
  split_ifs
  · exact ht.wound _ _
  · exact ht.wound _ _

/-- The first edge of a band. -/
theorem Swept.first (hlo : minLong ≤ lo) (h0 : lo ≤ e.x0 ∧ e.x0 ≤ hi) (h1 : lo ≤ e.x1 ∧ e.x1 ≤ hi) :
    Swept lo hi [e.id] (({} : Sweep).edge mode e) e.id := by
  have hx0 : max e.x0 minLong = e.x0 := max_eq_left (hlo.trans h0.1)
  have hx1 : max e.x1 minLong = e.x1 := max_eq_left (hlo.trans h1.1)
  have hstart : Swept lo hi [e.id]
      { px0 := max e.x0 minLong, px1 := max e.x1 minLong,
        gx0 := max e.x0 minLong, gx1 := max e.x1 minLong, gid := some e.id } e.id := by
    rw [hx0, hx1]
    exact ⟨rfl, Upto.nil _ _, Upto.nil _ _, ⟨h0.1, le_rfl, h0.2⟩, ⟨h1.1, le_rfl, h1.2⟩,
      List.nodup_singleton _, fun i hi => hi⟩
  unfold Sweep.edge
  dsimp only
  split_ifs
  · exact hstart.wound _ _
  · exact hstart.wound _ _

theorem Swept.foldl (active : List Edge) (h : Swept lo hi seen s gid) (hids : (active.map Edge.id).Nodup)
    (hnew : ∀ e ∈ active, e.id ∉ seen) (hbox : ∀ e ∈ active, e.x0 ≤ hi ∧ e.x1 ≤ hi) :
    ∃ seen' gid', Swept lo hi seen' (active.foldl (Sweep.edge mode) s) gid' := by
  induction active generalizing s seen gid with
  | nil => exact ⟨seen, gid, h⟩
  | cons e active ih =>
      rw [List.map_cons, List.nodup_cons] at hids
      obtain ⟨gid', hnext⟩ := @Swept.edge mode _ _ _ _ _ _ h (hnew e List.mem_cons_self)
        (hbox e List.mem_cons_self).1
        (hbox e List.mem_cons_self).2
      refine ih hnext hids.2 (fun e' he' hmem => ?_) fun e' he' => hbox e' (List.mem_cons_of_mem _ he')
      rcases List.mem_cons.mp hmem with hsame | hmem
      · exact hids.1 (hsame ▸ List.mem_map_of_mem he')
      · exact hnew e' (List.mem_cons_of_mem _ he') hmem

theorem Swept.pieces (h : Swept lo hi seen s gid) : Pieces lo hi s.pieces := by
  have htops := (h.tops.snoc h.last0.1).mono (h.last0.2.1.trans h.last0.2.2)
  have hbottoms := (h.bottoms.snoc h.last1.1).mono (h.last1.2.1.trans h.last1.2.2)
  have hids := h.ids
  unfold Sweep.pieces
  rw [h.last]
  cases hin : s.inside with
  | true =>
      simp only [Sweep.openTops, Sweep.openBottoms, Sweep.openIds, hin, if_true, List.append_assoc,
        List.cons_append, List.nil_append] at htops hbottoms hids
      dsimp only
      rw [if_pos rfl]
      refine ⟨?_, ?_, ?_⟩
      · rwa [topEnds, flatMap_snoc]
      · rwa [bottomEnds, flatMap_snoc]
      · rwa [edgeIds, flatMap_snoc]
  | false =>
      simp only [Sweep.openTops, Sweep.openBottoms, Sweep.openIds, hin, Bool.false_eq_true, if_false,
        List.append_nil] at htops hbottoms hids
      dsimp only
      rw [if_neg Bool.false_ne_true]
      exact ⟨htops.sublist (List.sublist_append_left _ _), hbottoms.sublist (List.sublist_append_left _ _),
        hids.sublist (List.sublist_append_left _ _)⟩

theorem sweep_pieces (mode : Mode) {active : List Edge} (hlo : minLong ≤ lo)
    (hids : (active.map Edge.id).Nodup)
    (hbox : ∀ e ∈ active, (lo ≤ e.x0 ∧ e.x0 ≤ hi) ∧ lo ≤ e.x1 ∧ e.x1 ≤ hi) :
    Pieces lo hi (active.foldl (Sweep.edge mode) {}).pieces := by
  cases active with
  | nil => exact Pieces.nil lo hi
  | cons e active =>
      rw [List.map_cons, List.nodup_cons] at hids
      have hfirst := hbox e List.mem_cons_self
      obtain ⟨seen', gid', h⟩ := (@Swept.first mode _ _ _ hlo hfirst.1 hfirst.2).foldl active hids.2
        (fun e' he' hmem => hids.1 (List.mem_singleton.mp hmem ▸ List.mem_map_of_mem he'))
        fun e' he' => ⟨(hbox e' (List.mem_cons_of_mem _ he')).1.2, (hbox e' (List.mem_cons_of_mem _ he')).2.2⟩
      exact h.pieces

end Sweep

/-! ## A band -/

section Band

variable {lo hi y0 y1 : ℤ} {active : List Edge}

/-- What is in the band is of the edges that were, each placed. -/
theorem polyBand_active (active : List Edge) (y0 y1 : ℤ) (mode : Mode) (byMiddle : Bool) :
    (polyBand active y0 y1 mode byMiddle).1.Perm
      ((active.filter (y0 < ·.yb)).map (Edge.place byMiddle y0 y1)) := by
  unfold polyBand
  dsimp only
  split_ifs
  · exact inOrder_perm _
  · exact inOrder_perm _

/-- Edges of the bands from a height on: those of them that go below it are there at its top and at the
next. -/
structure Active (lo hi : ℤ) (active : List Edge) (y0 y1 : ℤ) : Prop where
  ids : (active.map Edge.id).Nodup
  ok : ∀ e ∈ active, e.Ok lo hi
  top : ∀ e ∈ active, e.yt ≤ y0
  bottom : ∀ e ∈ active, y0 < e.yb → y1 ≤ e.yb

theorem Active.polyBand_ids (h : Active lo hi active y0 y1) (mode : Mode) (byMiddle : Bool) :
    ((polyBand active y0 y1 mode byMiddle).1.map Edge.id).Nodup := by
  refine (((polyBand_active active y0 y1 mode byMiddle).map Edge.id).nodup_iff).mpr ?_
  rw [List.map_map]
  exact h.ids.sublist ((List.filter_sublist).map Edge.id)

/-- An edge that is still there was, but for its place. -/
theorem mem_polyBand {mode : Mode} {byMiddle : Bool} {e : Edge}
    (he : e ∈ (polyBand active y0 y1 mode byMiddle).1) :
    ∃ e' ∈ active, y0 < e'.yb ∧ e = e'.place byMiddle y0 y1 := by
  obtain ⟨e', he', rfl⟩ := List.mem_map.mp ((polyBand_active active y0 y1 mode byMiddle).mem_iff.mp he)
  obtain ⟨hmem, hbelow⟩ := List.mem_filter.mp he'
  exact ⟨e', hmem, of_decide_eq_true hbelow, rfl⟩

theorem Active.polyBand_box (h : Active lo hi active y0 y1) (hy : y0 ≤ y1) {mode : Mode}
    {byMiddle : Bool} {e : Edge}
    (he : e ∈ (polyBand active y0 y1 mode byMiddle).1) : (lo ≤ e.x0 ∧ e.x0 ≤ hi) ∧ lo ≤ e.x1 ∧ e.x1 ≤ hi := by
  obtain ⟨e', hmem, hbelow, rfl⟩ := mem_polyBand he
  have hlast := h.bottom e' hmem hbelow
  exact ⟨(h.ok e' hmem).along (h.top e' hmem) (hy.trans hlast),
    (h.ok e' hmem).along ((h.top e' hmem).trans hy) hlast⟩

theorem Active.polyBand_pieces (h : Active lo hi active y0 y1) (hy : y0 ≤ y1) (hlo : minLong ≤ lo)
    (mode : Mode)
    (byMiddle : Bool) : Pieces lo hi ((polyBand active y0 y1 mode byMiddle).2.getD []) := by
  have hids := h.polyBand_ids mode byMiddle
  have hbox := fun e he => @Active.polyBand_box _ _ _ _ _ h hy mode byMiddle e he
  unfold polyBand at hids hbox ⊢
  dsimp only at hids hbox ⊢
  split_ifs at hids hbox ⊢
  · exact Pieces.nil lo hi
  · exact sweep_pieces mode hlo hids hbox

/-- The edges of the bands from a height on, with those still to come: `R` is of where they end. -/
structure Edges (lo hi : ℤ) (R : ℤ → Prop) (edges active : List Edge) (y : ℤ) : Prop where
  ids : ((active ++ edges).map Edge.id).Nodup
  ok : ∀ e ∈ active, e.Ok lo hi
  top : ∀ e ∈ active, e.yt ≤ y
  ends : ∀ e ∈ active, R e.yb

variable {R R' : ℤ → Prop} {edges : List Edge}

theorem Edges.live (h : Edges lo hi R edges active y0) (hbelow : ∀ b, R b → y0 < b → y1 ≤ b) :
    Active lo hi active y0 y1 where
  ids := by
    have hids := h.ids
    rw [List.map_append] at hids
    exact hids.sublist (List.sublist_append_left _ _)
  ok := h.ok
  top := h.top
  bottom e he hb := hbelow e.yb (h.ends e he) hb

/-- And so on to the next band. -/
theorem Edges.mono (h : Edges lo hi R edges active y0) (hy : y0 ≤ y1) (himp : ∀ b, R b → R' b) :
    Edges lo hi R' edges active y1 :=
  ⟨h.ids, h.ok, fun e he => (h.top e he).trans hy, fun e he => himp _ (h.ends e he)⟩

theorem Edges.band (h : Edges lo hi R edges active y0) (y1 : ℤ) (mode : Mode) (byMiddle : Bool) :
    Edges lo hi R edges (polyBand active y0 y1 mode byMiddle).1 y0 where
  ids := by
    have hperm := ((polyBand_active active y0 y1 mode byMiddle).append_right edges).map Edge.id
    refine hperm.nodup_iff.mpr ?_
    rw [List.map_append, List.map_map]
    have hids := h.ids
    rw [List.map_append] at hids
    exact hids.sublist (((List.filter_sublist).map Edge.id).append_right _)
  ok e he := by
    obtain ⟨e', hmem, -, rfl⟩ := mem_polyBand he
    exact ⟨(h.ok e' hmem).down, (h.ok e' hmem).top, (h.ok e' hmem).bottom⟩
  top e he := by
    obtain ⟨e', hmem, -, rfl⟩ := mem_polyBand he
    exact h.top e' hmem
  ends e he := by
    obtain ⟨e', hmem, -, rfl⟩ := mem_polyBand he
    exact h.ends e' hmem

end Band

end ChrysaLisp.Polygon
