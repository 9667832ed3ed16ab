import ChrysaLisp.Library.Corners
import ChrysaLisp.Math.PolygonScan
import ChrysaLisp.Math.PolygonWalk
import Mathlib.Data.List.GetD

set_option autoImplicit false

/-! # Rings of a closed trail

Only a line across goes on along the one before it, and the same way, so no point of a ring is the point
before it. What is left out of it is then no corner, and its area is that of the lines. -/

namespace ChrysaLisp.Polygon

open Trails Corners

/-! ## The points of a ring -/

section Turns

variable {k : Option ℕ} {s : Seg} {l x y trail : List Seg} {p q : Point}

/-- Which lines set out from a corner, after one of edge `k`. -/
def marksFrom (k : Option ℕ) : List Seg → List (Point × Bool)
  | [] => []
  | seg :: trail => (seg.start, decide (seg.id ≠ k)) :: marksFrom seg.id trail

theorem kept_marksFrom (k : Option ℕ) (trail : List Seg) :
    kept (marksFrom k trail) = (turnsFrom k trail).map Seg.start := by
  induction trail generalizing k with
  | nil => rfl
  | cons seg trail ih =>
      rw [marksFrom, turnsFrom]
      by_cases hid : seg.id = k
      · rw [if_pos hid, ← hid, ← ih, hid, decide_eq_false (not_not.mpr rfl)]
        rfl
      · rw [if_neg hid, decide_eq_true hid, List.map_cons, ← ih]
        rfl

theorem map_fst_marksFrom (k : Option ℕ) (trail : List Seg) :
    (marksFrom k trail).map Prod.fst = trail.map Seg.start := by
  induction trail generalizing k with
  | nil => rfl
  | cons seg trail ih => rw [marksFrom, List.map_cons, List.map_cons, ih]

theorem turnsFrom_same (h : ∀ seg ∈ trail, seg.id = k) : turnsFrom k trail = [] := by
  induction trail with
  | nil => rfl
  | cons seg trail ih =>
      rw [turnsFrom, if_pos (h seg List.mem_cons_self)]
      exact ih fun seg' hseg' => h seg' (List.mem_cons_of_mem _ hseg')

/-- Lines of one edge at the front go on along it. -/
theorem turnsFrom_append_left (h : ∀ seg ∈ x, seg.id = k) : turnsFrom k (x ++ y) = turnsFrom k y := by
  induction x with
  | nil => rfl
  | cons seg x ih =>
      rw [List.cons_append, turnsFrom, if_pos (h seg List.mem_cons_self)]
      exact ih fun seg' hseg' => h seg' (List.mem_cons_of_mem _ hseg')

/-- And at the end, after the last of that edge. -/
theorem turnsFrom_append_right (hx : ∀ seg ∈ x, seg.id = k) (hlast : y.getLast?.map Seg.id = some k)
    (k' : Option ℕ) :
    turnsFrom k' (y ++ x) = turnsFrom k' y := by
  induction y generalizing k' with
  | nil => exact absurd hlast (Option.some_ne_none _).symm
  | cons seg y ih =>
      rw [List.cons_append, turnsFrom, turnsFrom]
      cases y with
      | nil =>
          have hid : seg.id = k := Option.some.inj hlast
          rw [List.nil_append, hid, turnsFrom_same hx]
          split_ifs with hk
          · rw [← hk, turnsFrom_same hx]
            rfl
          · rfl
      | cons seg' y =>
          have hlast' : (seg' :: y).getLast?.map Seg.id = some k := by
            rw [List.getLast?_cons_cons] at hlast
            exact hlast
          rw [ih hlast', ih hlast']

/-- The last corner's line is of the edge the last line is of. -/
theorem getLast?_turns (s : Seg) (trail : List Seg) :
    (s :: turnsFrom s.id trail).getLast?.map Seg.id = (s :: trail).getLast?.map Seg.id := by
  induction trail generalizing s with
  | nil => rfl
  | cons seg trail ih =>
      rw [turnsFrom, List.getLast?_cons_cons]
      split_ifs with hid
      · rw [← ih seg, hid]
        cases hturns : turnsFrom s.id trail with
        | nil => exact congrArg some hid.symm
        | cons seg' rest => rw [List.getLast?_cons_cons, List.getLast?_cons_cons]
      · rw [List.getLast?_cons_cons, ih seg]

/-- A ring set out on along an edge it comes back along is the ring from the next corner. -/
theorem corners_eq (hne : trail ≠ []) (h : IsTrail Seg.start Seg.stop p trail p) :
    ∃ s l p', IsTrail Seg.start Seg.stop p' (s :: l) p' ∧ (s :: l).Perm trail ∧
      corners trail = (turns (s :: l)).map Seg.start := by
  obtain ⟨s, l, rfl⟩ := List.exists_cons_of_ne_nil hne
  by_cases hwrap : 1 < (turns (s :: l)).length ∧
      (turns (s :: l)).head?.map Seg.id = (turns (s :: l)).getLast?.map Seg.id
  · obtain ⟨hlong, hsame⟩ := hwrap
    have hfront : ∀ seg ∈ l.takeWhile (·.id = s.id), seg.id = s.id := fun seg hseg =>
      of_decide_eq_true (List.mem_takeWhile_imp (p := fun seg : Seg => decide (seg.id = s.id)) hseg)
    have hsplit : l.takeWhile (·.id = s.id) ++ l.dropWhile (·.id = s.id) = l :=
      List.takeWhile_append_dropWhile
    have hturns : turnsFrom s.id l = turnsFrom s.id (l.dropWhile (·.id = s.id)) := by
      conv_lhs => rw [← hsplit]
      exact turnsFrom_append_left hfront
    cases hrest : l.dropWhile (·.id = s.id) with
    | nil =>
        rw [turns, hturns, hrest] at hlong
        exact absurd hlong (lt_irrefl 1)
    | cons s' y =>
        have hother : s'.id ≠ s.id := by
          have hhead := List.head?_dropWhile_not (fun seg : Seg => decide (seg.id = s.id)) l
          rw [hrest] at hhead
          exact of_decide_eq_false hhead
        have hlast : (s' :: y).getLast?.map Seg.id = some s.id := by
          rw [turns, getLast?_turns, ← hsplit, hrest, List.head?_cons, Option.map_some, ← List.cons_append,
            List.getLast?_append_cons] at hsame
          exact hsame.symm
        have hmoved : turnsFrom s.id (s' :: y ++ s :: l.takeWhile (·.id = s.id)) =
          turnsFrom s.id (s' :: y) := by
          refine turnsFrom_append_right (fun seg hseg => ?_) hlast s.id
          rcases List.mem_cons.mp hseg with rfl | hseg
          · rfl
          · exact hfront seg hseg
        have hring : turns (s' :: y ++ s :: l.takeWhile (·.id = s.id)) = turnsFrom s.id l := by
          rw [hturns, hrest, ← hmoved, List.cons_append, turnsFrom, if_neg hother]
          rfl
        have hparts : s :: l = (s :: l.takeWhile (·.id = s.id)) ++ s' :: y := by
          rw [List.cons_append, ← hrest, hsplit]
        obtain ⟨p', hclosed⟩ := IsTrail.rotate (hparts ▸ h)
        refine ⟨s', y ++ s :: l.takeWhile (·.id = s.id), p', hclosed, ?_, ?_⟩
        · rw [hparts, ← List.cons_append]
          exact List.perm_append_comm
        · rw [corners, if_pos ⟨hlong, hsame⟩, ← List.cons_append, hring]
          rfl
  · refine ⟨s, l, p, h, List.Perm.refl _, ?_⟩
    rw [corners, if_neg hwrap]

end Turns

/-! ## Rings of drawn lines -/

section Rings

variable {Q : Point → Prop} {segs l trail : List Seg} {a b s : Seg} {p q : Point}

/-- Which way a line goes. -/
def Seg.along (seg : Seg) : Point := seg.stop - seg.start

/-- A line that goes on along the one before it is across, as that is, and the same way. -/
theorem Drawn.same (h : Drawn Q segs) (ha : a ∈ segs) (hb : b ∈ segs) (hmeet : a.stop = b.start)
    (hid : b.id = a.id) :
    a.start.2 = a.stop.2 ∧ b.start.2 = b.stop.2 ∧ 0 < (a.stop.1 - a.start.1) * (b.stop.1 - b.start.1) := by
  have hnone : a.id = none := by
    by_contra hsome
    exact h.apart a ha b hb hsome hid.symm hmeet
  have hnone' := hid.trans hnone
  exact ⟨(h.flat a ha hnone).1, (h.flat b hb hnone').1, h.onward a ha b hb hnone hnone' hmeet⟩

theorem Drawn.ne (h : Drawn Q segs) (ha : a ∈ segs) : a.start ≠ a.stop := by
  intro heq
  by_cases hid : a.id = none
  · exact (h.flat a ha hid).2 (congrArg Prod.fst heq)
  · exact h.sloped a ha hid (congrArg Prod.snd heq)

theorem Drawn.along_ne (h : Drawn Q segs) (ha : a ∈ segs) : a.along ≠ 0 := fun hzero =>
  h.ne ha (sub_eq_zero.mp hzero).symm

theorem cross_flat (ha : a.start.2 = a.stop.2) (hb : b.start.2 = b.stop.2) : cross a.along b.along = 0 := by
  rw [cross, Seg.along, Seg.along, Prod.snd_sub, Prod.snd_sub, ha, hb, sub_self, sub_self, mul_zero,
    zero_mul, sub_zero]

/-- The points left out of a trail are no corners of it. -/
theorem trail_bends (h : Drawn Q segs) (l : List Seg) : ∀ {s : Seg}, (∀ seg ∈ s :: l, seg ∈ segs) →
    IsTrail Seg.start Seg.stop s.start (s :: l) p →
    ∃ f, f ≠ 0 ∧ Bends p f s.along s.start (marksFrom s.id l) := by
  induction l with
  | nil =>
      intro s hin htrail
      have hne := h.along_ne (hin s List.mem_cons_self)
      have hend : s.stop = p := htrail.2
      refine ⟨s.along, hne, .nil hne ?_ (cross_self _)⟩
      rw [← hend]
      exact cross_self _
  | cons s' l ih =>
      intro s hin htrail
      have hs := hin s List.mem_cons_self
      have hs' := hin s' (List.mem_cons_of_mem _ List.mem_cons_self)
      have hmeet : s'.start = s.stop := htrail.2.1
      obtain ⟨f, hf, hbends⟩ := ih (fun seg hseg => hin seg (List.mem_cons_of_mem _ hseg)) ⟨rfl, htrail.2.2⟩
      refine ⟨f, hf, .cons (h.along_ne hs) ?_ (fun hk => ?_) hbends⟩
      · rw [hmeet]
        exact cross_self _
      · obtain ⟨hflat, hflat', -⟩ := h.same hs hs' hmeet.symm (not_not.mp (of_decide_eq_false hk))
        exact cross_flat hflat hflat'

theorem pathArea_trail (l : List Seg) : ∀ {s : Seg}, IsTrail Seg.start Seg.stop s.start (s :: l) p →
    pathArea s.start (l.map Seg.start) p = ((s :: l).map fun seg => cross seg.start seg.stop).sum := by
  induction l with
  | nil =>
      intro s htrail
      have hend : s.stop = p := htrail.2
      rw [List.map_nil, pathArea, List.map_singleton, List.sum_singleton, hend]
  | cons s' l ih =>
      intro s htrail
      have hmeet : s'.start = s.stop := htrail.2.1
      have hrest := ih ⟨rfl, htrail.2.2⟩
      rw [List.map_cons, pathArea, hrest, hmeet, List.map_cons (l := s' :: l), List.sum_cons]

/-- The area of a ring is that of its lines. -/
theorem area_turns (h : Drawn Q segs) (hin : ∀ seg ∈ s :: l, seg ∈ segs)
    (htrail : IsTrail Seg.start Seg.stop p (s :: l) p) :
    area ((turns (s :: l)).map Seg.start) = ((s :: l).map fun seg => cross seg.start seg.stop).sum := by
  obtain rfl : s.start = p := htrail.1
  obtain ⟨f, hf, hbends⟩ := trail_bends h l hin htrail
  have hkeep := area_keep (k := true) hbends (fun hk => Bool.noConfusion hk) hf
  rw [map_fst_marksFrom] at hkeep
  rw [← pathArea_trail l htrail, turns, List.map_cons, ← kept_marksFrom]
  exact hkeep

/-- Lines across have come from a point to a line. -/
def Behind (q : Point) (s : Seg) : Prop :=
  q = s.start ∨ s.start.2 = s.stop.2 ∧ q.2 = s.start.2 ∧ 0 < (s.start.1 - q.1) * (s.stop.1 - s.start.1)

theorem Behind.ne (h : Behind q s) (hs : s.start ≠ s.stop) : q ≠ s.stop := by
  rintro rfl
  rcases h with heq | ⟨-, -, hpos⟩
  · exact hs heq.symm
  · rw [← neg_sub, neg_mul, neg_pos] at hpos
    exact absurd hpos (not_lt.mpr (mul_self_nonneg _))

theorem Behind.same (h : Behind q a) (hmeet : a.stop = b.start) (ha : a.start.2 = a.stop.2)
    (hb : b.start.2 = b.stop.2) (hpos : 0 < (a.stop.1 - a.start.1) * (b.stop.1 - b.start.1)) :
    Behind q b := by
  refine Or.inr ⟨hb, ?_, ?_⟩
  · rcases h with rfl | ⟨-, hq, -⟩
    · rw [ha, hmeet]
    · rw [hq, ha, hmeet]
  · have hx : a.stop.1 = b.start.1 := congrArg Prod.fst hmeet
    rcases h with rfl | ⟨-, -, hback⟩
    · rw [← hx]
      rwa [← hx] at hpos
    · rcases pos_and_pos_or_neg_and_neg_of_mul_pos hpos with ⟨hone, htwo⟩ | ⟨hone, htwo⟩
      · have hlate := (pos_iff_pos_of_mul_pos hback).mpr hone
        exact mul_pos (by omega) htwo
      · have hlate := (neg_iff_neg_of_mul_pos hback).mpr hone
        exact mul_pos_of_neg_of_neg (by omega) htwo

/-- Each point of a ring is another than the one before it. -/
theorem trail_chain (h : Drawn Q segs) (l : List Seg) :
    ∀ {s : Seg} {q : Point}, (∀ seg ∈ s :: l, seg ∈ segs) →
    IsTrail Seg.start Seg.stop s.start (s :: l) p → Behind q s →
    (q :: ((turnsFrom s.id l).map Seg.start ++ [p])).IsChain (· ≠ ·) := by
  induction l with
  | nil =>
      intro s q hin htrail hq
      have hend : s.stop = p := htrail.2
      rw [turnsFrom, List.map_nil, List.nil_append, List.isChain_cons_cons, ← hend]
      exact ⟨hq.ne (h.ne (hin s List.mem_cons_self)), List.isChain_singleton _⟩
  | cons s' l ih =>
      intro s q hin htrail hq
      have hs := hin s List.mem_cons_self
      have hs' := hin s' (List.mem_cons_of_mem _ List.mem_cons_self)
      have hin' := fun seg hseg => hin seg (List.mem_cons_of_mem s hseg)
      have hmeet : s'.start = s.stop := htrail.2.1
      rw [turnsFrom]
      split_ifs with hid
      · obtain ⟨hflat, hflat', hpos⟩ := h.same hs hs' hmeet.symm hid
        rw [← hid]
        exact ih hin' ⟨rfl, htrail.2.2⟩ (hq.same hmeet.symm hflat hflat' hpos)
      · rw [List.map_cons, List.cons_append, List.isChain_cons_cons, hmeet]
        refine ⟨hq.ne (h.ne hs), ?_⟩
        rw [← hmeet]
        exact ih hin' ⟨rfl, htrail.2.2⟩ (Or.inl rfl)

end Rings

/-! ## The corners of a ring -/

section Tidy

variable {z a b c p : Point} {l rest ring : List Point}

theorem cross_of_not_corner (h : isCorner a b c = false) : cross (b - a) (c - b) = 0 := by
  have hline : (b.1 - a.1) * (c.2 - a.2) - (b.2 - a.2) * (c.1 - a.1) = 0 := by
    by_contra hne
    rw [isCorner, bne_eq_false_iff_eq] at h
    exact hne h
  rw [cross, Prod.fst_sub, Prod.snd_sub, Prod.fst_sub, Prod.snd_sub]
  linear_combination hline

/-- Which points are corners, on from a point up to another. -/
def cornersFrom (z : Point) : Point → List Point → List (Point × Bool)
  | _, [] => []
  | a, b :: l => (b, isCorner a b (l.headD z)) :: cornersFrom z b l

theorem map_fst_cornersFrom (z a : Point) (l : List Point) : (cornersFrom z a l).map Prod.fst = l := by
  induction l generalizing a with
  | nil => rfl
  | cons b l ih => rw [cornersFrom, List.map_cons, ih]

theorem kept_map (l : List (Point × Point × Point)) :
    kept (l.map fun p => (p.2.1, isCorner p.1 p.2.1 p.2.2)) =
      (l.filter fun p => isCorner p.1 p.2.1 p.2.2).map fun p => p.2.1 := by
  rw [kept, List.filter_map, List.map_map]
  rfl

/-- Each with the one before it and the one after. -/
theorem zip_cornersFrom (z a : Point) (l : List Point) :
    ((a :: l).dropLast.zip (l.zip (l.tail ++ [z]))).map (fun p => (p.2.1, isCorner p.1 p.2.1 p.2.2)) =
      cornersFrom z a l := by
  induction l generalizing a with
  | nil => rfl
  | cons b l ih =>
      cases l with
      | nil => rfl
      | cons c l =>
          rw [cornersFrom, ← ih b]
          rfl

theorem tidy_cons (a : Point) (l : List Point) :
    tidy (a :: l) = kept ((a, isCorner (l.getLastD a) a (l.headD a)) :: cornersFrom a a l) := by
  have hlast : (a :: l).getLast?.toList ++ (a :: l).dropLast = (l.getLastD a :: a :: l).dropLast := by
    rw [List.getLast?_cons, Option.toList_some, ← List.getLastD_eq_getLast?]
    rfl
  rw [tidy, hlast, ← kept_map]
  exact congrArg kept (zip_cornersFrom a (l.getLastD a) (a :: l))

theorem bends_cornersFrom (h : (a :: (l ++ [z])).IsChain (· ≠ ·)) :
    Bends z (z - l.getLastD a) (l.headD z - a) a (cornersFrom z a l) ∧ z - l.getLastD a ≠ 0 := by
  induction l generalizing a with
  | nil =>
      have hne : z - a ≠ 0 := fun hzero => (List.isChain_cons_cons.mp h).1 (sub_eq_zero.mp hzero).symm
      exact ⟨.nil hne (cross_self _) (cross_self _), hne⟩
  | cons b l ih =>
      obtain ⟨hne, hrest⟩ := List.isChain_cons_cons.mp h
      obtain ⟨hbends, hlast⟩ := ih hrest
      rw [List.getLastD_cons]
      exact ⟨.cons (fun hzero => hne (sub_eq_zero.mp hzero).symm) (cross_self _) cross_of_not_corner
        hbends, hlast⟩

theorem area_tidy (h : (a :: (l ++ [a])).IsChain (· ≠ ·)) : area (tidy (a :: l)) = area (a :: l) := by
  obtain ⟨hbends, hne⟩ := bends_cornersFrom h
  have hkeep := area_keep (k := isCorner (l.getLastD a) a (l.headD a)) hbends cross_of_not_corner hne
  rw [map_fst_cornersFrom] at hkeep
  rw [tidy_cons, hkeep]

end Tidy

section Areas

variable {Q : Point → Prop} {segs trail : List Seg} {p : Point}

theorem area_ring (h : Drawn Q segs) (hin : ∀ seg ∈ trail, seg ∈ segs) (hne : trail ≠ [])
    (htrail : IsTrail Seg.start Seg.stop p trail p) :
    area (tidy (corners trail)) = (trail.map fun seg => cross seg.start seg.stop).sum := by
  obtain ⟨s, l, p', hclosed, hperm, hcorners⟩ := corners_eq hne htrail
  have hin' : ∀ seg ∈ s :: l, seg ∈ segs := fun seg hseg => hin seg (hperm.subset hseg)
  obtain rfl : s.start = p' := hclosed.1
  have hchain := trail_chain h l hin' hclosed (Or.inl rfl)
  rw [hcorners, turns, List.map_cons, area_tidy hchain, ← (hperm.map _).sum_eq, ← area_turns h hin' hclosed]
  rfl

/-- Where less than three corners are left there is no area. -/
theorem area_ringOf (h : Drawn Q segs) (hin : ∀ seg ∈ trail, seg ∈ segs) (hne : trail ≠ [])
    (htrail : IsTrail Seg.start Seg.stop p trail p) :
    ((ringOf trail).toList.map area).sum = (trail.map fun seg => cross seg.start seg.stop).sum := by
  have harea := area_ring h hin hne htrail
  rw [ringOf]
  split_ifs with hlong
  · rw [Option.toList_some, List.map_singleton, List.sum_singleton, harea]
  · rw [← harea, area_of_length_lt (not_le.mp hlong)]
    rfl

end Areas

/-! ## Two sets of paths -/

section Sets

variable {lo hi ylo yhi : ℤ} {p q : Point} {segs : List Seg} {Q : Point → Prop}

theorem pointKey_inj (hx : hi - lo < 0x100000000) (hy : yhi - ylo < 0x100000000)
    (hp : (lo ≤ p.1 ∧ p.1 ≤ hi) ∧ ylo ≤ p.2 ∧ p.2 ≤ yhi) (hq : (lo ≤ q.1 ∧ q.1 ≤ hi) ∧ ylo ≤ q.2 ∧ q.2 ≤ yhi)
    (h : pointKey p = pointKey q) : p = q := by
  rw [pointKey, pointKey] at h
  refine Prod.ext ?_ ?_ <;> omega

theorem segAt_mem {i : ℕ} (hi : i < segs.length) : segAt segs i ∈ segs := by
  rw [segAt, List.getD_eq_getElem _ _ hi]
  exact List.getElem_mem hi

theorem map_segAt (segs : List Seg) : (List.range segs.length).map (segAt segs) = segs := by
  refine List.ext_getElem ?_ fun i h0 h1 => ?_
  · rw [List.length_map, List.length_range]
  · rw [List.getElem_map, List.getElem_range, segAt, List.getD_eq_getElem _ _ h1]

theorem IsTrail.map {trail : List ℕ} {a b : Point}
    (h : IsTrail (fun i => (segAt segs i).start) (fun i => (segAt segs i).stop) a trail b) :
    IsTrail Seg.start Seg.stop a (trail.map (segAt segs)) b := by
  induction trail generalizing a with
  | nil => exact h
  | cons i trail ih => exact ⟨h.1, ih h.2⟩

/-- Lines that balance are joined into closed trails, with none left over. -/
theorem polyTrails_spec (hkeys : ∀ p q, Q p → Q q → pointKey p = pointKey q → p = q) (hdrawn : Drawn Q segs)
    (hbalance : balance Seg.start Seg.stop segs = 0) :
    (polyTrails segs).flatten.Perm segs ∧
    ∀ trail ∈ polyTrails segs, trail ≠ [] ∧ ∃ p, IsTrail Seg.start Seg.stop p trail p := by
  have hunused : unused segs (Walk.new segs) = List.range segs.length :=
    List.filter_eq_self.mpr fun _ _ => rfl
  have hbalance' : balance (fun i => (segAt segs i).start) (fun i => (segAt segs i).stop)
      (unused segs (Walk.new segs)) = 0 := by
    rw [hunused, ← hbalance]
    conv_rhs => rw [← map_segAt segs]
    rw [balance, balance, List.map_map]
    rfl
  obtain ⟨hflat, htrails⟩ :=
    trailsFrom_spec hkeys (fun i hi => hdrawn.box _ (segAt_mem hi)) (List.range segs.length)
    (listed_new segs) (fun i hi => List.mem_range.mp hi) (fun i hi => hunused ▸ hi) hbalance'
  refine ⟨?_, fun trail hmem => ?_⟩
  · rw [polyTrails, ← List.map_flatten]
    refine (hflat.map (segAt segs)).trans ?_
    rw [hunused, map_segAt]
  · obtain ⟨trail', hmem', rfl⟩ := List.mem_map.mp hmem
    obtain ⟨hne, p, htrail⟩ := htrails trail' hmem'
    exact ⟨fun hnil => hne (List.map_eq_nil_iff.mp hnil), p, IsTrail.map htrail⟩

theorem sum_filterMap {α β : Type} (f : α → Option β) (g : β → ℤ) (k : α → ℤ) (l : List α)
    (h : ∀ a ∈ l, ((f a).toList.map g).sum = k a) : ((l.filterMap f).map g).sum = (l.map k).sum := by
  induction l with
  | nil => rfl
  | cons a l ih =>
      have hrest := ih fun a' ha' => h a' (List.mem_cons_of_mem a ha')
      rw [List.map_cons, List.sum_cons, ← hrest, ← h a List.mem_cons_self]
      cases hf : f a with
      | none =>
          rw [List.filterMap_cons_none hf]
          exact (zero_add _).symm
      | some b =>
          rw [List.filterMap_cons_some hf, List.map_cons, List.sum_cons, Option.toList_some,
            List.map_singleton, List.sum_singleton]

/-- And the signed area of the rings is that of the lines. -/
theorem polyRings_area (hdrawn : Drawn Q segs) (hflat : (polyTrails segs).flatten.Perm segs)
    (htrails : ∀ trail ∈ polyTrails segs, trail ≠ [] ∧ ∃ p, IsTrail Seg.start Seg.stop p trail p) :
    ((polyRings segs).map area).sum = (segs.map fun seg => cross seg.start seg.stop).sum := by
  rw [polyRings, sum_filterMap ringOf area fun trail => (trail.map fun seg => cross seg.start seg.stop).sum]
  · rw [← (hflat.map _).sum_eq, List.map_flatten, List.sum_flatten, List.map_map]
    rfl
  · intro trail hmem
    obtain ⟨hne, p, htrail⟩ := htrails trail hmem
    exact area_ringOf hdrawn (fun seg hseg =>
      hflat.subset (List.mem_flatten.mpr ⟨trail, hmem, hseg⟩)) hne htrail

/-- Numbers of 64 bits, two x's or two y's less than 65536 pixels apart. A product of two such differences
fits 64 bits only where they are nearer still. -/
structure Small (points : List Point) : Prop where
  long : ∀ p ∈ points, (minLong ≤ p.1 ∧ p.1 < maxLong) ∧ minLong ≤ p.2 ∧ p.2 < maxLong
  near : ∀ p ∈ points, ∀ q ∈ points, p.1 - q.1 < 0x100000000 ∧ p.2 - q.2 < 0x100000000

theorem exists_bounds (l : List ℤ) (hlong : ∀ x ∈ l, minLong ≤ x ∧ x < maxLong)
    (hnear : ∀ x ∈ l, ∀ y ∈ l, x - y < 0x100000000) :
    ∃ lo hi, (∀ x ∈ l, lo ≤ x ∧ x ≤ hi) ∧ hi - lo < 0x100000000 ∧ minLong ≤ lo ∧ hi < maxLong := by
  cases l with
  | nil => exact ⟨0, 0, fun x hx => absurd hx List.not_mem_nil, by decide, by decide, by decide⟩
  | cons a l =>
      obtain ⟨lo, hlo, hleast⟩ :=
        (a :: l).toFinset.exists_min_image id ⟨a, List.mem_toFinset.mpr List.mem_cons_self⟩
      obtain ⟨hi, hhi, hmost⟩ :=
        (a :: l).toFinset.exists_max_image id ⟨a, List.mem_toFinset.mpr List.mem_cons_self⟩
      rw [List.mem_toFinset] at hlo hhi
      exact ⟨lo, hi, fun x hx => ⟨hleast x (List.mem_toFinset.mpr hx), hmost x (List.mem_toFinset.mpr hx)⟩,
        hnear hi hhi lo hlo, (hlong lo hlo).1, (hlong hi hhi).2⟩

/-- The lines of any two sets of paths, by any op and rules, start at each point as often as they stop
there. All of them are joined into closed trails, a ring for each that has corners, and the signed area of
the rings is that of the lines. -/
theorem polygon_closes (mode : Mode) {a b : List (List Point)} (h : Small (a ++ b).flatten) :
    (∀ p : Point, ((polySegs mode a b).countP fun seg => seg.start = p) =
      (polySegs mode a b).countP fun seg => seg.stop = p) ∧
    (polyTrails (polySegs mode a b)).flatten.Perm (polySegs mode a b) ∧
    (∀ trail ∈ polyTrails (polySegs mode a b), ∃ p, IsTrail Seg.start Seg.stop p trail p) ∧
    ((polyOp mode a b).map area).sum = ((polySegs mode a b).map fun seg => cross seg.start seg.stop).sum := by
  obtain ⟨lo, hi, hx, hxnear, hlo, hhi⟩ := exists_bounds ((a ++ b).flatten.map Prod.fst)
    (fun x hx => by obtain ⟨p, hp, rfl⟩ := List.mem_map.mp hx; exact (h.long p hp).1)
    (fun x hx y hy => by
      obtain ⟨p, hp, rfl⟩ := List.mem_map.mp hx
      obtain ⟨q, hq, rfl⟩ := List.mem_map.mp hy
      exact (h.near p hp q hq).1)
  obtain ⟨ylo, yhi, hy, hynear, -, -⟩ := exists_bounds ((a ++ b).flatten.map Prod.snd)
    (fun y hy => by obtain ⟨p, hp, rfl⟩ := List.mem_map.mp hy; exact (h.long p hp).2)
    (fun x hx y hy => by
      obtain ⟨p, hp, rfl⟩ := List.mem_map.mp hx
      obtain ⟨q, hq, rfl⟩ := List.mem_map.mp hy
      exact (h.near p hp q hq).2)
  obtain ⟨hbalance, hdrawn⟩ := polySegs_drawn mode hlo hhi fun p hp =>
    ⟨hx p.1 (List.mem_map_of_mem hp), hy p.2 (List.mem_map_of_mem hp)⟩
  obtain ⟨hflat, htrails⟩ := polyTrails_spec (fun p q => pointKey_inj hxnear hynear) hdrawn hbalance
  exact ⟨fun p => countP_of_balanced hbalance p, hflat, fun trail hmem => (htrails trail hmem).2,
    polyRings_area hdrawn hflat htrails⟩

/-- Two squares of 40 that share a square of 20. -/
theorem polygon_closes_squares :
    (polyTrails (polySegs ⟨.intersect, false, false⟩ [[(10, 10), (50, 10), (50, 50), (10, 50)]]
      [[(30, 30), (70, 30), (70, 70), (30, 70)]])).flatten.Perm
        (polySegs ⟨.intersect, false, false⟩ [[(10, 10), (50, 10), (50, 50), (10, 50)]]
          [[(30, 30), (70, 30), (70, 70), (30, 70)]]) ∧
    ((polyOp ⟨.intersect, false, false⟩ [[(10, 10), (50, 10), (50, 50), (10, 50)]]
      [[(30, 30), (70, 30), (70, 70), (30, 70)]]).map area).sum =
        ((polySegs ⟨.intersect, false, false⟩ [[(10, 10), (50, 10), (50, 50), (10, 50)]]
          [[(30, 30), (70, 30), (70, 70), (30, 70)]]).map fun seg => cross seg.start seg.stop).sum :=
  have hcloses := polygon_closes ⟨.intersect, false, false⟩ (a := [[(10, 10), (50, 10), (50, 50), (10, 50)]])
    (b := [[(30, 30), (70, 30), (70, 70), (30, 70)]]) ⟨by decide, by decide⟩
  ⟨hcloses.2.1, hcloses.2.2.2⟩

example : polyOp ⟨.intersect, false, false⟩ [[(10, 10), (50, 10), (50, 50), (10, 50)]]
    [[(30, 30), (70, 30), (70, 70), (30, 70)]] = [[(30, 30), (30, 50), (50, 50), (50, 30)]] := by
  decide +kernel

end Sets

end ChrysaLisp.Polygon
