import ChrysaLisp.Math.PolygonDrawn
import Mathlib.Data.List.TakeWhile

set_option autoImplicit false

/-! # A scan from the top to the bottom

The lines down to a height balance but for the ends along it, and these are what is above the next band.
Along the bottom of the last there are only lines across, and then all is balanced. -/

namespace ChrysaLisp.Polygon

open Trails

/-! ## From band to band -/

/-- The lines of the bands down to a height. -/
structure Level (Q : Point → Prop) (lo hi : ℤ) (s : Scan) (y : ℤ) : Prop where
  above : Upto lo s.above hi
  even : s.above.length % 2 = 0
  balanced : balance Seg.start Seg.stop s.lines.segs + ends y s.above = 0
  ready : ∀ e, Ready s.lines e y
  drawn : Drawn Q s.lines.segs
  lower : ∀ seg ∈ s.lines.segs, seg.id = none → seg.start.2 < y

section Level

variable {Q : Point → Prop} {lo hi y y0 y1 : ℤ} {s : Scan} {out : List Piece} {segs more : List Seg} {e : ℕ}

theorem Level.empty (Q : Point → Prop) (lo hi y : ℤ) : Level Q lo hi {} y :=
  ⟨Upto.nil lo hi, rfl, by rw [balance_nil, ends, add_zero], fun e => Ready.empty e y, Drawn.nil,
    fun _ h => absurd h List.not_mem_nil⟩

theorem Ready.append {s : Lines} (h : Ready s e y) (hnone : ∀ seg ∈ more, seg.id = none) :
    Ready { s with segs := s.segs ++ more } e y := by
  have hlook : ∀ {i : ℕ} {seg : Seg}, (s.segs ++ more)[i]? = some seg → seg.id = some e →
    s.segs[i]? = some seg := by
    intro i seg hi hid
    rcases lt_or_ge i s.segs.length with hlt | hge
    · rwa [List.getElem?_append_left hlt] at hi
    · rw [List.getElem?_append_right hge] at hi
      exact absurd ((hnone seg (List.mem_of_getElem? hi)).symm.trans hid) (Option.some_ne_none e).symm
  have hkept : ∀ {i : ℕ} {seg : Seg}, s.segs[i]? = some seg → (s.segs ++ more)[i]? = some seg := by
    intro i seg hi
    rw [List.getElem?_append_left (List.getElem?_eq_some_iff.mp hi).1, hi]
  refine ⟨fun i seg hi hid => h.down i seg (hlook hi hid) hid,
    fun i seg hi hid => h.up i seg (hlook hi hid) hid, fun i hi => ?_, fun i hi => ?_⟩
  · obtain ⟨seg, hseg, hd⟩ := h.lastl i hi
    exact ⟨seg, hkept hseg, hd⟩
  · obtain ⟨seg, hseg, hu⟩ := h.lastr i hi
    exact ⟨seg, hkept hseg, hu⟩

/-- Lines across a height that the others across are above. -/
theorem Drawn.append (h : Drawn Q segs) (hlower : ∀ seg ∈ segs, seg.id = none → seg.start.2 < y)
    (hmore : Crossing y lo hi more) (hbox : ∀ x, lo ≤ x → x ≤ hi → Q (x, y)) : Drawn Q (segs ++ more) := by
  have hsome : ∀ seg ∈ segs ++ more, seg.id ≠ none → seg ∈ segs := fun seg hmem hid =>
    (List.mem_append.mp hmem).resolve_right fun hin => hid (hmore.id seg hin)
  refine ⟨fun seg hmem => ?_, fun seg hmem hid => h.sloped seg (hsome seg hmem hid) hid,
    fun a ha b hb hid hsame => h.apart a (hsome a ha hid) b (hsome b hb (hsame ▸ hid)) hid hsame,
    fun seg hmem hid => ?_, fun a ha b hb hna hnb hmeet => ?_⟩
  · rcases List.mem_append.mp hmem with hmem | hmem
    · exact h.box seg hmem
    · obtain ⟨hstart, hstop, -⟩ := hmore.flat seg hmem
      obtain ⟨h0, h1⟩ := hmore.box seg hmem
      have hQ0 := hbox seg.start.1 h0.1 h0.2
      have hQ1 := hbox seg.stop.1 h1.1 h1.2
      rw [← hstart] at hQ0
      rw [← hstop] at hQ1
      exact ⟨hQ0, hQ1⟩
  · rcases List.mem_append.mp hmem with hmem | hmem
    · exact h.flat seg hmem hid
    · obtain ⟨hstart, hstop, hne⟩ := hmore.flat seg hmem
      exact ⟨hstart.trans hstop.symm, hne⟩
  · have hheight := congrArg Prod.snd hmeet
    rcases List.mem_append.mp ha with ha | ha
    · rcases List.mem_append.mp hb with hb | hb
      · exact h.onward a ha b hb hna hnb hmeet
      · have hlow := hlower a ha hna
        have hflat := (h.flat a ha hna).1
        have hstart := (hmore.flat b hb).1
        omega
    · rcases List.mem_append.mp hb with hb | hb
      · have hlow := hlower b hb hnb
        have hstop := (hmore.flat a ha).2.1
        omega
      · exact hmore.onward a ha b hb hmeet

theorem length_topEnds (out : List Piece) : (topEnds out).length = 2 * out.length := by
  induction out with
  | nil => rfl
  | cons p out ih =>
      rw [topEnds, List.flatMap_cons, List.length_append, ← topEnds, ih, List.length_cons, List.length_cons,
        List.length_cons, List.length_nil]
      ring

theorem length_bottomEnds (out : List Piece) : (bottomEnds out).length = 2 * out.length := by
  induction out with
  | nil => rfl
  | cons p out ih =>
      rw [bottomEnds, List.flatMap_cons, List.length_append, ← bottomEnds, ih, List.length_cons,
        List.length_cons, List.length_cons, List.length_nil]
      ring

/-- Both are outside to begin with. -/
theorem Level.coming (h : Level Q lo hi s y) (hout : Pieces lo hi out) (hhi : hi < maxLong) :
    Coming (s.above.length + (topEnds out).length) false false s.above (topEnds out) := by
  refine ⟨rfl, h.even, ?_, h.above.ordered, hout.tops.ordered, fun x hx => ?_⟩
  · rw [length_topEnds]
    exact Nat.mul_mod_right 2 _
  · rcases List.mem_append.mp hx with hx | hx
    · exact (h.above.high x hx).trans_lt hhi
    · exact (hout.tops.high x hx).trans_lt hhi

theorem Level.crossing (h : Level Q lo hi s y) (hout : Pieces lo hi out) (hhi : hi < maxLong) :
    Crossing y lo hi (across y (s.above.length + (topEnds out).length) false false 0 s.above
      (topEnds out)) := by
  refine across_outside y (h.coming hout hhi) fun x hx => ?_
  rcases List.mem_append.mp hx with hx | hx
  · exact ⟨h.above.low x hx, h.above.high x hx⟩
  · exact ⟨hout.tops.low x hx, hout.tops.high x hx⟩

theorem Level.crossing_balance (h : Level Q lo hi s y) (hout : Pieces lo hi out) (hhi : hi < maxLong) :
    balance Seg.start Seg.stop
      (across y (s.above.length + (topEnds out).length) false false 0 s.above (topEnds out)) =
      ends y s.above - ends y (topEnds out) := by
  rw [across_balance y _ (h.coming hout hhi) (Or.inr ⟨rfl, rfl⟩)]
  simp only [one, turnOf, Bool.false_eq_true, if_false, sub_self, zero_smul, one_smul, zero_add]

theorem Level.band (h : Level Q lo hi s y0) (hout : Pieces lo hi out) (hy : y0 < y1) (hhi : hi < maxLong)
    (hbox0 : ∀ x, lo ≤ x → x ≤ hi → Q (x, y0)) (hbox1 : ∀ x, lo ≤ x → x ≤ hi → Q (x, y1)) :
    Level Q lo hi (s.band out y0 y1) y1 := by
  have hends : ∀ p ∈ out, EndsIn Q y0 y1 p := by
    intro p hp
    have htop : ∀ x ∈ [p.xl0, p.xr0], Q (x, y0) := fun x hx =>
      hbox0 x (hout.tops.low x (List.mem_flatMap_of_mem hp hx))
        (hout.tops.high x (List.mem_flatMap_of_mem hp hx))
    have hbottom : ∀ x ∈ [p.xl1, p.xr1], Q (x, y1) := fun x hx =>
      hbox1 x (hout.bottoms.low x (List.mem_flatMap_of_mem hp hx))
        (hout.bottoms.high x (List.mem_flatMap_of_mem hp hx))
    exact ⟨⟨htop _ List.mem_cons_self, hbottom _ List.mem_cons_self⟩,
      htop _ (List.mem_cons_of_mem _ List.mem_cons_self),
        hbottom _ (List.mem_cons_of_mem _ List.mem_cons_self)⟩
  obtain ⟨hdrawn, hused, hothers, hflat⟩ :=
    foldl_piece_drawn hy out hout.ids hends h.drawn fun e _ => h.ready e
  have hlower : ∀ seg ∈ (out.foldl (Lines.piece y0 y1) s.lines).segs, seg.id = none → seg.start.2 < y0 :=
    fun seg hmem hnone => h.lower seg (hflat seg hmem hnone) hnone
  have hcrossing := h.crossing hout hhi
  refine ⟨hout.bottoms, ?_, ?_, fun e => ?_, hdrawn.append hlower hcrossing hbox0, fun seg hmem hnone => ?_⟩
  · show (bottomEnds out).length % 2 = 0
    rw [length_bottomEnds]
    exact Nat.mul_mod_right 2 _
  · show balance Seg.start Seg.stop ((out.foldl (Lines.piece y0 y1) s.lines).segs ++
      across y0 (s.above.length + (topEnds out).length) false false 0 s.above (topEnds out)) +
        ends y1 (bottomEnds out) = 0
    rw [balance_append, foldl_piece_balance, h.crossing_balance hout hhi, ← h.balanced]
    abel
  · refine Ready.append ?_ hcrossing.id
    by_cases he : e ∈ edgeIds out
    · exact hused e he
    · exact hothers e he y1 ((h.ready e).mono hy)
  · rcases List.mem_append.mp hmem with hmem | hmem
    · exact (hlower seg hmem hnone).trans hy
    · rw [(hcrossing.flat seg hmem).1]
      exact hy

/-- Across the bottom of the last. -/
theorem Level.last (h : Level Q lo hi s y) (hhi : hi < maxLong) (hbox : ∀ x, lo ≤ x → x ≤ hi → Q (x, y)) :
    balance Seg.start Seg.stop (s.band [] y y).lines.segs = 0 ∧ Drawn Q (s.band [] y y).lines.segs := by
  have hcrossing := h.crossing (Pieces.nil lo hi) hhi
  refine ⟨?_, h.drawn.append h.lower hcrossing hbox⟩
  show balance Seg.start Seg.stop
    (s.lines.segs ++ across y (s.above.length + (topEnds []).length) false false 0
    s.above (topEnds [])) = 0
  rw [balance_append, h.crossing_balance (Pieces.nil lo hi) hhi, ← h.balanced]
  exact congrArg _ (sub_zero _)

end Level

/-! ## Heights -/

section Heights

variable {l : List ℤ} {x y ya yb : ℤ} {active : List Edge}

theorem mem_usort : x ∈ usort l ↔ x ∈ l := by
  rw [usort, List.mem_dedup, List.mem_insertionSort]

theorem usort_ordered (l : List ℤ) : (usort l).Pairwise (· < ·) := by
  have hle : (usort l).Pairwise (· ≤ ·) := (List.pairwise_insertionSort _ l).sublist (List.dedup_sublist _)
  exact (hle.and (List.nodup_dedup _)).imp fun h => lt_of_le_of_ne h.1 h.2

theorem cutAt_between {e e' : Edge} (h : cutAt ya yb e e' = some y) : ya < y ∧ y < yb := by
  unfold cutAt at h
  dsimp only at h
  split_ifs at h with hcross hbetween
  rw [← Option.some.inj h]
  exact hbetween

theorem polyCuts_between (h : y ∈ polyCuts ya yb active) : ya < y ∧ y < yb := by
  induction active with
  | nil => exact absurd h List.not_mem_nil
  | cons e active ih =>
      rcases List.mem_append.mp h with h | h
      · obtain ⟨e', -, hcut⟩ := List.mem_filterMap.mp h
        exact cutAt_between hcut
      · exact ih h

end Heights

/-! ## All the bands -/

section Bands

variable {Q : Point → Prop} {lo hi ylo yhi y ya yb y0 : ℤ} {s : Scan} {R : ℤ → Prop}
  {edges active : List Edge}

/-- A band that is cut, at heights from its top to its bottom. -/
theorem cutBands_level (mode : Mode) (hlo : minLong ≤ lo) (hhi : hi < maxLong)
    (hbox : ∀ x y, lo ≤ x → x ≤ hi → y0 ≤ y → y ≤ yb → Q (x, y)) (hR : ∀ b, R b → y0 < b → yb ≤ b)
    (cuts : List ℤ) :
    ∀ {y : ℤ} {active : List Edge} {s : Scan}, (y :: cuts).Pairwise (· < ·) → yb ∈ y :: cuts →
    (∀ x ∈ y :: cuts, y0 ≤ x ∧ x ≤ yb) → Edges lo hi R edges active y → Level Q lo hi s y →
    Edges lo hi R edges (cutBands mode (y :: cuts) active s).1 yb ∧
    Level Q lo hi (cutBands mode (y :: cuts) active s).2 yb := by
  induction cuts with
  | nil =>
      intro y active s _ hlast _ hedges hlevel
      obtain rfl := List.mem_singleton.mp hlast
      exact ⟨hedges, hlevel⟩
  | cons y1 cuts ih =>
      intro y active s hordered hlast hwithin hedges hlevel
      obtain ⟨hfirst, hrest⟩ := List.pairwise_cons.mp hordered
      have hy := hfirst y1 List.mem_cons_self
      obtain ⟨hy0, -⟩ := hwithin y List.mem_cons_self
      have hy1 := (hwithin y1 (List.mem_cons_of_mem _ List.mem_cons_self)).2
      have hlive := hedges.live fun b hb hbelow => hy1.trans (hR b hb (hy0.trans_lt hbelow))
      have hpieces := hlive.polyBand_pieces hy.le hlo mode true
      have hnext := hlevel.band hpieces hy hhi (fun x h0 h1 => hbox x y h0 h1 hy0 (hy.le.trans hy1))
        fun x h0 h1 => hbox x y1 h0 h1 (hy0.trans hy.le) hy1
      refine ih hrest ?_ (fun x hx => hwithin x (List.mem_cons_of_mem _ hx))
        ((hedges.band y1 mode true).mono hy.le fun _ hb => hb) hnext
      rcases List.mem_cons.mp hlast with heq | hlast
      · exact absurd (heq ▸ hy1) (not_le.mpr hy)
      · exact hlast

theorem cutBands_usort (mode : Mode) (hlo : minLong ≤ lo) (hhi : hi < maxLong) (hy : ya < yb)
    (hbox : ∀ x y, lo ≤ x → x ≤ hi → ya ≤ y → y ≤ yb → Q (x, y)) (hR : ∀ b, R b → ya < b → yb ≤ b)
    {cuts : List ℤ} (hcuts : ∀ x ∈ cuts, ya < x ∧ x < yb) (hedges : Edges lo hi R edges active ya)
    (hlevel : Level Q lo hi s ya) :
    Edges lo hi R edges (cutBands mode (usort (ya :: yb :: cuts)) active s).1 yb ∧
    Level Q lo hi (cutBands mode (usort (ya :: yb :: cuts)) active s).2 yb := by
  have hordered := usort_ordered (ya :: yb :: cuts)
  have htop : ya ∈ usort (ya :: yb :: cuts) := mem_usort.mpr List.mem_cons_self
  have hbottom : yb ∈ usort (ya :: yb :: cuts) := mem_usort.mpr (List.mem_cons_of_mem _ List.mem_cons_self)
  have hwithin : ∀ x ∈ usort (ya :: yb :: cuts), ya ≤ x ∧ x ≤ yb := by
    intro x hx
    rcases List.mem_cons.mp (mem_usort.mp hx) with rfl | hx
    · exact ⟨le_rfl, hy.le⟩
    · rcases List.mem_cons.mp hx with rfl | hx
      · exact ⟨hy.le, le_rfl⟩
      · exact ⟨(hcuts x hx).1.le, (hcuts x hx).2.le⟩
  cases hsorted : usort (ya :: yb :: cuts) with
  | nil =>
      rw [hsorted] at htop
      exact absurd htop List.not_mem_nil
  | cons y0 rest =>
      rw [hsorted] at hordered htop hbottom hwithin
      have hfirst : y0 = ya := by
        rcases List.mem_cons.mp htop with heq | hin
        · exact heq.symm
        · have hlt := (List.pairwise_cons.mp hordered).1 ya hin
          exact absurd (hwithin y0 List.mem_cons_self).1 (not_le.mpr hlt)
      subst hfirst
      exact cutBands_level mode hlo hhi hbox hR rest hordered hbottom hwithin hedges hlevel

/-- Where the edges end: at a height to come, or above. -/
def EndsAt (ys : List ℤ) (y b : ℤ) : Prop := b ∈ ys ∨ b < y

theorem EndsAt.next {ys : List ℤ} {b : ℤ} (h : EndsAt (ya :: yb :: ys) ya b) (hy : ya < yb) :
    EndsAt (yb :: ys) yb b := by
  rcases h with h | h
  · rcases List.mem_cons.mp h with rfl | h
    · exact Or.inr hy
    · exact Or.inl h
  · exact Or.inr (h.trans hy)

/-- Those that begin at a height come. -/
theorem Edges.come (h : Edges lo hi R edges active y) (hcoming : ∀ e ∈ edges, e.Ok lo hi ∧ R e.yb) :
    Edges lo hi R (edges.dropWhile (·.yt = y)) (active ++ edges.takeWhile (·.yt = y)) y := by
  have htaken : ∀ e ∈ edges.takeWhile (·.yt = y), e ∈ edges ∧ e.yt = y := fun e he =>
    ⟨(List.takeWhile_prefix _).subset he,
      of_decide_eq_true (List.mem_takeWhile_imp (p := fun e : Edge => decide (e.yt = y)) he)⟩
  refine ⟨?_, fun e he => ?_, fun e he => ?_, fun e he => ?_⟩
  · rw [List.append_assoc, List.takeWhile_append_dropWhile]
    exact h.ids
  · rcases List.mem_append.mp he with he | he
    · exact h.ok e he
    · exact (hcoming e (htaken e he).1).1
  · rcases List.mem_append.mp he with he | he
    · exact h.top e he
    · exact (htaken e he).2.le
  · rcases List.mem_append.mp he with he | he
    · exact h.ends e he
    · exact (hcoming e (htaken e he).1).2

theorem polyScan_level (mode : Mode) (hlo : minLong ≤ lo) (hhi : hi < maxLong)
    (hbox : ∀ x y, lo ≤ x → x ≤ hi → ylo ≤ y → y ≤ yhi → Q (x, y)) (ys : List ℤ) :
    ∀ {y : ℤ} {edges active : List Edge} {s : Scan}, (y :: ys).Pairwise (· < ·) →
    (∀ x ∈ y :: ys, ylo ≤ x ∧ x ≤ yhi) → Edges lo hi (EndsAt (y :: ys) y) edges active y →
    (∀ e ∈ edges, e.Ok lo hi ∧ EndsAt (y :: ys) y e.yb) → Level Q lo hi s y →
    balance Seg.start Seg.stop (polyScan mode (y :: ys) edges active s).lines.segs = 0 ∧
    Drawn Q (polyScan mode (y :: ys) edges active s).lines.segs := by
  induction ys with
  | nil =>
      intro y edges active s _ hwithin _ _ hlevel
      obtain ⟨hy0, hy1⟩ := hwithin y List.mem_cons_self
      exact hlevel.last hhi fun x h0 h1 => hbox x y h0 h1 hy0 hy1
  | cons yb ys ih =>
      intro ya edges active s hordered hwithin hedges hcoming hlevel
      obtain ⟨hfirst, hrest⟩ := List.pairwise_cons.mp hordered
      have hy := hfirst yb List.mem_cons_self
      obtain ⟨ha0, -⟩ := hwithin ya List.mem_cons_self
      obtain ⟨-, hb1⟩ := hwithin yb (List.mem_cons_of_mem _ List.mem_cons_self)
      have hband : ∀ x y, lo ≤ x → x ≤ hi → ya ≤ y → y ≤ yb → Q (x, y) := fun x y h0 h1 hy0 hy1 =>
        hbox x y h0 h1 (ha0.trans hy0) (hy1.trans hb1)
      have hbelow : ∀ b, EndsAt (ya :: yb :: ys) ya b → ya < b → yb ≤ b := by
        intro b hb hlt
        rcases hb with hmem | habove
        · rcases List.mem_cons.mp hmem with rfl | hmem
          · exact absurd hlt (lt_irrefl _)
          · rcases List.mem_cons.mp hmem with rfl | hmem
            · exact le_rfl
            · exact ((List.pairwise_cons.mp hrest).1 b hmem).le
        · exact absurd habove hlt.not_gt
      have hcome := hedges.come hcoming
      have hlive := hcome.live hbelow
      have hpieces := hlive.polyBand_pieces hy.le hlo mode false
      have hkept := hcome.band yb mode false
      have hlater : ∀ e ∈ edges.dropWhile (·.yt = ya), e.Ok lo hi ∧ EndsAt (yb :: ys) yb e.yb :=
        fun e he => by
        obtain ⟨hok, hend⟩ := hcoming e ((List.dropWhile_suffix _).subset he)
        exact ⟨hok, hend.next hy⟩
      have hwithin' := fun x hx => hwithin x (List.mem_cons_of_mem ya hx)
      rw [polyScan]
      dsimp only
      generalize polyBand (active ++ edges.takeWhile (·.yt = ya)) ya yb mode false = p at hpieces hkept
      obtain ⟨active', out⟩ := p
      cases out with
      | some out =>
          have hnext := hlevel.band hpieces hy hhi (fun x h0 h1 => hband x ya h0 h1 le_rfl hy.le)
            fun x h0 h1 => hband x yb h0 h1 hy.le le_rfl
          exact ih hrest hwithin' (hkept.mono hy.le fun b hb => hb.next hy) hlater hnext
      | none =>
          obtain ⟨hcut, hnext⟩ := cutBands_usort mode hlo hhi hy hband hbelow
            (fun x hx => polyCuts_between hx) hkept hlevel
          exact ih hrest hwithin' (hcut.mono le_rfl fun b hb => hb.next hy) hlater hnext

end Bands

/-! ## Two sets of paths -/

section Sets

variable {lo hi ylo yhi : ℤ} {set : ℕ} {e : Edge} {p : Point} {path : List Point}
  {paths a b : List (List Point)}

/-- An edge goes down from a point to another. -/
theorem mem_edgesFrom (h : e ∈ edgesFrom set p path) :
    ∃ q ∈ p :: path, ∃ q' ∈ p :: path, (e.xt, e.yt) = q ∧ (e.xb, e.yb) = q' ∧ e.yt < e.yb := by
  induction path generalizing p with
  | nil => exact absurd h List.not_mem_nil
  | cons p' path ih =>
      obtain ⟨x0, y0⟩ := p
      obtain ⟨x1, y1⟩ := p'
      have hsecond : ((x1, y1) : Point) ∈ (x0, y0) :: (x1, y1) :: path :=
        List.mem_cons_of_mem _ List.mem_cons_self
      rw [edgesFrom] at h
      rcases List.mem_append.mp h with h | h
      · split_ifs at h with hdown hup
        · rw [List.mem_singleton.mp h]
          exact ⟨_, List.mem_cons_self, _, hsecond, rfl, rfl, hdown⟩
        · rw [List.mem_singleton.mp h]
          exact ⟨_, hsecond, _, List.mem_cons_self, rfl, rfl, hup⟩
        · exact absurd h List.not_mem_nil
      · obtain ⟨q, hq, q', hq', hends⟩ := ih h
        exact ⟨q, List.mem_cons_of_mem _ hq, q', List.mem_cons_of_mem _ hq', hends⟩

theorem mem_setEdges (h : e ∈ setEdges set paths) :
    (e.xt, e.yt) ∈ paths.flatten ∧ (e.xb, e.yb) ∈ paths.flatten ∧ e.yb ∈ setHeights paths ∧ e.yt < e.yb := by
  obtain ⟨path, hpath, he⟩ := List.mem_flatMap.mp h
  obtain ⟨hmem, hlong⟩ := List.mem_filter.mp hpath
  obtain ⟨q, hq, q', hq', htop, hbottom, hdown⟩ := mem_edgesFrom he
  have hlast : path.getLastD (0, 0) ∈ path := by
    cases path with
    | nil => exact absurd hlong (by decide)
    | cons p path =>
        rw [List.getLastD_cons]
        exact List.getLastD_mem_cons
  have hin : ∀ q ∈ path.getLastD (0, 0) :: path, q ∈ path := fun q hq => by
    rcases List.mem_cons.mp hq with rfl | hq
    · exact hlast
    · exact hq
  refine ⟨List.mem_flatten.mpr ⟨path, hmem, htop ▸ hin q hq⟩,
    List.mem_flatten.mpr ⟨path, hmem, hbottom ▸ hin q' hq'⟩,
      List.mem_flatMap.mpr ⟨path, hpath, List.mem_map.mpr ⟨q', hin q' hq', ?_⟩⟩, hdown⟩
  rw [← hbottom]

theorem mem_setHeights {y : ℤ} (h : y ∈ setHeights paths) : ∃ p ∈ paths.flatten, p.2 = y := by
  obtain ⟨path, hpath, hy⟩ := List.mem_flatMap.mp h
  obtain ⟨p, hp, rfl⟩ := List.mem_map.mp hy
  exact ⟨p, List.mem_flatten.mpr ⟨path, (List.mem_filter.mp hpath).1, hp⟩, rfl⟩

/-- All the edges go down between the points, to a height there is. -/
theorem mem_polyEdges (h : e ∈ polyEdges a b) :
    (e.xt, e.yt) ∈ (a ++ b).flatten ∧ (e.xb, e.yb) ∈ (a ++ b).flatten ∧ e.yb ∈ polyHeights a b ∧
      e.yt < e.yb := by
  obtain ⟨i, hi, rfl⟩ := List.mem_mapIdx.mp h
  rw [List.flatten_append, polyHeights, mem_usort]
  rcases List.mem_append.mp ((List.mem_insertionSort _).mp (List.getElem_mem hi)) with hmem | hmem
  · obtain ⟨htop, hbottom, hheight, hdown⟩ := mem_setEdges hmem
    exact ⟨List.mem_append_left _ htop, List.mem_append_left _ hbottom, List.mem_append_left _ hheight, hdown⟩
  · obtain ⟨htop, hbottom, hheight, hdown⟩ := mem_setEdges hmem
    exact ⟨List.mem_append_right _ htop, List.mem_append_right _ hbottom,
      List.mem_append_right _ hheight, hdown⟩

theorem polyEdges_ids (a b : List (List Point)) : ((polyEdges a b).map Edge.id).Nodup := by
  have hids : ∀ l : List Edge, (l.mapIdx fun i e => { e with id := i }).map Edge.id =
    List.range l.length := by
    intro l
    refine List.ext_getElem ?_ fun i h0 h1 => ?_
    · rw [List.length_map, List.length_mapIdx, List.length_range]
    · rw [List.getElem_map, List.getElem_mapIdx, List.getElem_range]
  rw [polyEdges, hids]
  exact List.nodup_range

theorem polyHeights_within (hpoints : ∀ p ∈ (a ++ b).flatten, ylo ≤ p.2 ∧ p.2 ≤ yhi) {y : ℤ}
    (h : y ∈ polyHeights a b) : ylo ≤ y ∧ y ≤ yhi := by
  rw [List.flatten_append] at hpoints
  rcases List.mem_append.mp (mem_usort.mp h) with h | h
  · obtain ⟨p, hp, rfl⟩ := mem_setHeights h
    exact hpoints p (List.mem_append_left _ hp)
  · obtain ⟨p, hp, rfl⟩ := mem_setHeights h
    exact hpoints p (List.mem_append_right _ hp)

/-- The lines of any two sets of paths: they balance, they are within the box of the points, and no two
of an edge meet. -/
theorem polySegs_drawn (mode : Mode) (hlo : minLong ≤ lo) (hhi : hi < maxLong)
    (hpoints : ∀ p ∈ (a ++ b).flatten, (lo ≤ p.1 ∧ p.1 ≤ hi) ∧ ylo ≤ p.2 ∧ p.2 ≤ yhi) :
    balance Seg.start Seg.stop (polySegs mode a b) = 0 ∧
    Drawn (fun p => (lo ≤ p.1 ∧ p.1 ≤ hi) ∧ ylo ≤ p.2 ∧ p.2 ≤ yhi) (polySegs mode a b) := by
  have hordered := usort_ordered (setHeights a ++ setHeights b)
  have hwithin : ∀ y ∈ polyHeights a b, ylo ≤ y ∧ y ≤ yhi := fun y hy =>
    polyHeights_within (fun p hp => (hpoints p hp).2) hy
  have hedges : ∀ e ∈ polyEdges a b, e.Ok lo hi ∧ e.yb ∈ polyHeights a b := fun e he => by
    obtain ⟨htop, hbottom, hheight, hdown⟩ := mem_polyEdges he
    exact ⟨⟨hdown, (hpoints _ htop).1, (hpoints _ hbottom).1⟩, hheight⟩
  rw [← polyHeights] at hordered
  rw [polySegs]
  cases hys : polyHeights a b with
  | nil => exact ⟨balance_nil, Drawn.nil⟩
  | cons y ys =>
      rw [hys] at hordered hwithin hedges
      exact polyScan_level mode hlo hhi (fun x y h0 h1 hy0 hy1 => ⟨⟨h0, h1⟩, hy0, hy1⟩) ys hordered hwithin
        ⟨polyEdges_ids a b, fun e he => absurd he List.not_mem_nil, fun e he => absurd he List.not_mem_nil,
          fun e he => absurd he List.not_mem_nil⟩
        (fun e he => ⟨(hedges e he).1, Or.inl (hedges e he).2⟩) (Level.empty _ lo hi y)

end Sets

end ChrysaLisp.Polygon
