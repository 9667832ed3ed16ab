import ChrysaLisp.Math.PolygonLines

set_option autoImplicit false

/-! # Lines that do not go on along each other

A left side goes down and a right side up. Two of one edge would meet, the one stopping where the other
starts, only where the second goes on from the first, and then it is the first that was made longer. For
this all that stop at a height must be the last of their edge there. -/

namespace ChrysaLisp.Polygon

open Trails

/-- The lines of a scan: each is of some points, and where two of one kind meet they are across, the one
way. -/
structure Drawn (Q : Point → Prop) (segs : List Seg) : Prop where
  box : ∀ seg ∈ segs, Q seg.start ∧ Q seg.stop
  sloped : ∀ seg ∈ segs, seg.id ≠ none → seg.start.2 ≠ seg.stop.2
  apart : ∀ seg ∈ segs, ∀ seg' ∈ segs, seg.id ≠ none → seg.id = seg'.id → seg.stop ≠ seg'.start
  flat : ∀ seg ∈ segs, seg.id = none → seg.start.2 = seg.stop.2 ∧ seg.start.1 ≠ seg.stop.1
  onward : ∀ seg ∈ segs, ∀ seg' ∈ segs, seg.id = none → seg'.id = none → seg.stop = seg'.start →
    0 < (seg.stop.1 - seg.start.1) * (seg'.stop.1 - seg'.start.1)

/-- The lines of an edge are above a height, and those that come down to it or go up from it are the last. -/
structure Ready (s : Lines) (e : ℕ) (y : ℤ) : Prop where
  down : ∀ i seg, s.segs[i]? = some seg → seg.id = some e → seg.start.2 < seg.stop.2 →
    seg.stop.2 ≤ y ∧ (seg.stop.2 = y → s.openl e = some i)
  up : ∀ i seg, s.segs[i]? = some seg → seg.id = some e → seg.stop.2 < seg.start.2 →
    seg.start.2 ≤ y ∧ (seg.start.2 = y → s.openr e = some i)
  lastl : ∀ i, s.openl e = some i → ∃ seg, s.segs[i]? = some seg ∧ seg.id = some e ∧ seg.start.2 < seg.stop.2
  lastr : ∀ i, s.openr e = some i → ∃ seg, s.segs[i]? = some seg ∧ seg.id = some e ∧ seg.stop.2 < seg.start.2

section Drawn

variable {Q : Point → Prop} {segs segs' : List Seg} {s s' : Lines} {e e' : ℕ} {y y' : ℤ}

theorem Drawn.nil : Drawn Q [] :=
  ⟨fun _ h => absurd h List.not_mem_nil, fun _ h => absurd h List.not_mem_nil,
    fun _ h => absurd h List.not_mem_nil, fun _ h => absurd h List.not_mem_nil,
    fun _ h => absurd h List.not_mem_nil⟩

theorem Ready.empty (e : ℕ) (y : ℤ) : Ready {} e y :=
  ⟨fun _ _ h => absurd h (Option.some_ne_none _).symm, fun _ _ h => absurd h (Option.some_ne_none _).symm,
    fun _ h => absurd h (Option.some_ne_none _).symm, fun _ h => absurd h (Option.some_ne_none _).symm⟩

/-- At a height below none of them is. -/
theorem Ready.mono (h : Ready s e y) (hlt : y < y') : Ready s e y' where
  down i seg hseg hid hdown := by
    have hle := (h.down i seg hseg hid hdown).1
    exact ⟨hle.trans hlt.le, fun heq => absurd (heq ▸ hle) (not_le.mpr hlt)⟩
  up i seg hseg hid hup := by
    have hle := (h.up i seg hseg hid hup).1
    exact ⟨hle.trans hlt.le, fun heq => absurd (heq ▸ hle) (not_le.mpr hlt)⟩
  lastl := h.lastl
  lastr := h.lastr

/-- One line comes to them, or in the place of one. -/
theorem Drawn.add (h : Drawn Q segs) {new : Seg} (hsub : ∀ seg ∈ segs', seg ∈ segs ∨ seg = new)
    (hid : new.id = some e)
    (hbox : Q new.start ∧ Q new.stop) (hslope : new.start.2 ≠ new.stop.2)
    (hapart : ∀ seg ∈ segs, seg.id = some e → seg.stop ≠ new.start ∧ new.stop ≠ seg.start) :
    Drawn Q segs' := by
  have hnone : ∀ seg ∈ segs', seg.id = none → seg ∈ segs := fun seg hmem hflat =>
    (hsub seg hmem).resolve_right fun hnew =>
      absurd (hflat.symm.trans (hnew ▸ hid)) (Option.some_ne_none e).symm
  refine ⟨fun seg hmem => ?_, fun seg hmem hsome => ?_, fun a ha b hb hsome hsame => ?_,
    fun seg hmem hflat => h.flat seg (hnone seg hmem hflat) hflat,
    fun a ha b hb hfa hfb => h.onward a (hnone a ha hfa) b (hnone b hb hfb) hfa hfb⟩
  · rcases hsub seg hmem with hmem | rfl
    · exact h.box seg hmem
    · exact hbox
  · rcases hsub seg hmem with hmem | rfl
    · exact h.sloped seg hmem hsome
    · exact hslope
  · rcases hsub a ha with ha | rfl
    · rcases hsub b hb with hb | rfl
      · exact h.apart a ha b hb hsome hsame
      · exact (hapart a ha (hsame.trans hid)).1
    · rcases hsub b hb with hb | rfl
      · exact (hapart b hb (hsame.symm.trans hid)).2
      · exact fun hmeet => hslope (congrArg Prod.snd hmeet).symm

end Drawn

/-! ## A left side -/

/-- What a side leaves: it is drawn, what is of other edges is as it was, and nothing goes across. -/
structure Sided (Q : Point → Prop) (s s' : Lines) (e : ℕ) (y : ℤ) : Prop where
  drawn : Drawn Q s'.segs
  ready : Ready s' e y
  others : ∀ e' y', e' ≠ e → Ready s e' y' → Ready s' e' y'
  flat : ∀ seg ∈ s'.segs, seg.id = none → seg ∈ s.segs

/-- One line has changed or has come, and it is its edge's last left. -/
structure Edited (s s' : Lines) (e k : ℕ) (new : Seg) : Prop where
  look : ∀ j, s'.segs[j]? = if j = k then some new else s.segs[j]?
  openr : s'.openr = s.openr
  own : s'.openl e = some k
  others : ∀ e', e' ≠ e → s'.openl e' = s.openl e'

section Left

variable {Q : Point → Prop} {s s' : Lines} {e k : ℕ} {new : Seg} {x0 x1 y0 y1 : ℤ} {top bottom : Point}

/-- A new line, where the last does not stop at its top, or the last made longer. -/
theorem left_edited (s : Lines) (e : ℕ) (top bottom : Point) :
    (Edited s (s.left e top bottom) e s.segs.length ⟨top, bottom, some e⟩ ∧
      ∀ i seg, s.openl e = some i → s.segs[i]? = some seg → seg.stop ≠ top) ∨
    ∃ k old, s.openl e = some k ∧ s.segs[k]? = some old ∧ old.stop = top ∧
      Edited s (s.left e top bottom) e k { old with stop := bottom } := by
  unfold Lines.left
  cases hon : s.goesOn (s.openl e) Seg.stop top with
  | none =>
      refine Or.inl ⟨⟨fun j => ?_, rfl, Function.update_self _ _ _,
        fun e' he' => Function.update_of_ne he' _ _⟩, fun i seg hopen hseg hstop => ?_⟩
      · dsimp only
        split_ifs with hj
        · rw [hj, List.getElem?_concat_length]
        · rcases lt_or_gt_of_ne hj with hlt | hgt
          · rw [List.getElem?_append_left hlt]
          · rw [List.getElem?_eq_none hgt.le, List.getElem?_eq_none]
            rw [List.length_append, List.length_singleton]
            exact hgt
      · rw [goesOn_eq_some.mpr ⟨hopen, hseg, hstop⟩] at hon
        exact Option.some_ne_none _ hon
  | some p =>
      obtain ⟨k, old⟩ := p
      obtain ⟨hopen, hold, hstop⟩ := goesOn_eq_some.mp hon
      refine Or.inr ⟨k, old, hopen, hold, hstop, fun j => ?_, rfl, hopen, fun e' _ => rfl⟩
      have hk : k < s.segs.length := (List.getElem?_eq_some_iff.mp hold).1
      dsimp only
      rw [List.getElem?_set]
      by_cases hj : j = k
      · rw [if_pos hj.symm, if_pos hj, if_pos hk]
      · rw [if_neg (Ne.symm hj), if_neg hj]

/-- A line that goes down to the height below, in the place of none or of another of its edge that does. -/
theorem Edited.sided (h : Edited s s' e k new) (hdrawn : Drawn Q s.segs) (hready : Ready s e y0)
    (hy : y0 < y1)
    (hold : ∀ seg, s.segs[k]? = some seg → seg.id = some e ∧ seg.start.2 < seg.stop.2)
    (hid : new.id = some e) (hbox : Q new.start ∧ Q new.stop) (hstart : new.start.2 ≤ y0)
    (hstop : new.stop.2 = y1)
    (hapart : ∀ seg ∈ s.segs, seg.id = some e → seg.stop ≠ new.start) : Sided Q s s' e y1 := by
  have hlook : ∀ {j seg}, s'.segs[j]? = some seg → (j = k ∧ seg = new) ∨ (j ≠ k ∧ s.segs[j]? = some seg) := by
    intro j seg hj
    rw [h.look] at hj
    by_cases hk : j = k
    · rw [if_pos hk] at hj
      exact Or.inl ⟨hk, (Option.some.inj hj).symm⟩
    · rw [if_neg hk] at hj
      exact Or.inr ⟨hk, hj⟩
  have hkept : ∀ {j seg}, j ≠ k → s.segs[j]? = some seg → s'.segs[j]? = some seg := by
    intro j seg hj hseg
    rw [h.look, if_neg hj, hseg]
  have hsub : ∀ seg ∈ s'.segs, seg ∈ s.segs ∨ seg = new := by
    intro seg hmem
    obtain ⟨j, hj⟩ := List.mem_iff_getElem?.mp hmem
    rcases hlook hj with ⟨-, rfl⟩ | ⟨-, hseg⟩
    · exact Or.inr rfl
    · exact Or.inl (List.mem_of_getElem? hseg)
  have hdown : new.start.2 < new.stop.2 := by omega
  refine ⟨hdrawn.add hsub hid hbox hdown.ne fun seg hmem hsame =>
    ⟨hapart seg hmem hsame, fun hmeet => ?_⟩, ?_, ?_, ?_⟩
  · -- nothing of the edge is as low as where the new one stops
    obtain ⟨j, hj⟩ := List.mem_iff_getElem?.mp hmem
    have hlow : seg.start.2 = y1 := (congrArg Prod.snd hmeet).symm.trans hstop
    have hslope := hdrawn.sloped seg hmem (hsame ▸ Option.some_ne_none e)
    rcases lt_or_gt_of_ne hslope with hd | hu
    · have hle := (hready.down j seg hj hsame hd).1
      omega
    · have hle := (hready.up j seg hj hsame hu).1
      omega
  · refine ⟨fun i seg hi hsame hd => ?_, fun i seg hi hsame hu => ?_, fun i hi => ?_, fun i hi => ?_⟩
    · rcases hlook hi with ⟨rfl, rfl⟩ | ⟨-, hseg⟩
      · exact ⟨hstop.le, fun _ => h.own⟩
      · have hle := (hready.down i seg hseg hsame hd).1
        exact ⟨hle.trans hy.le, fun heq => by omega⟩
    · rcases hlook hi with ⟨rfl, rfl⟩ | ⟨-, hseg⟩
      · exact absurd hdown hu.not_gt
      · have hle := (hready.up i seg hseg hsame hu).1
        exact ⟨hle.trans hy.le, fun heq => by omega⟩
    · rw [h.own, Option.some.injEq] at hi
      exact ⟨new, by rw [h.look, if_pos hi.symm], hid, hdown⟩
    · rw [h.openr] at hi
      obtain ⟨seg, hseg, hsame, hu⟩ := hready.lastr i hi
      refine ⟨seg, hkept (fun hk => ?_) hseg, hsame, hu⟩
      rw [hk] at hseg
      exact absurd (hold seg hseg).2 hu.not_gt
  · intro e' y' hne hother
    have hnew : ∀ {seg : Seg}, seg.id = some e' → seg ≠ new := fun hseg heq =>
      hne (Option.some.inj (hseg.symm.trans (heq ▸ hid)))
    have hat : ∀ {j seg}, s.segs[j]? = some seg → seg.id = some e' → j ≠ k := fun hseg hsame hk =>
      hne (Option.some.inj (hsame.symm.trans (hold _ (hk ▸ hseg)).1))
    refine ⟨fun i seg hi hsame hd => ?_, fun i seg hi hsame hu => ?_, fun i hi => ?_, fun i hi => ?_⟩
    · rcases hlook hi with ⟨-, heq⟩ | ⟨-, hseg⟩
      · exact absurd heq (hnew hsame)
      · rw [h.others e' hne]
        exact hother.down i seg hseg hsame hd
    · rcases hlook hi with ⟨-, heq⟩ | ⟨-, hseg⟩
      · exact absurd heq (hnew hsame)
      · rw [h.openr]
        exact hother.up i seg hseg hsame hu
    · rw [h.others e' hne] at hi
      obtain ⟨seg, hseg, hsame, hd⟩ := hother.lastl i hi
      exact ⟨seg, hkept (hat hseg hsame) hseg, hsame, hd⟩
    · rw [h.openr] at hi
      obtain ⟨seg, hseg, hsame, hu⟩ := hother.lastr i hi
      exact ⟨seg, hkept (hat hseg hsame) hseg, hsame, hu⟩
  · intro seg hmem hnone
    rcases hsub seg hmem with hmem | rfl
    · exact hmem
    · exact absurd (hnone.symm.trans hid) (Option.some_ne_none e).symm

theorem left_sided (hdrawn : Drawn Q s.segs) (hready : Ready s e y0) (hy : y0 < y1) (htop : Q (x0, y0))
    (hbottom : Q (x1, y1)) : Sided Q s (s.left e (x0, y0) (x1, y1)) e y1 := by
  rcases left_edited s e (x0, y0) (x1, y1) with ⟨hedit, hlast⟩ | ⟨k, old, hopen, hold, hstop, hedit⟩
  · refine hedit.sided hdrawn hready hy (fun seg hseg => ?_) rfl ⟨htop, hbottom⟩ le_rfl rfl
      fun seg hmem hsame hmeet => ?_
    · exact absurd (List.getElem?_eq_some_iff.mp hseg).1 (lt_irrefl _)
    · obtain ⟨j, hj⟩ := List.mem_iff_getElem?.mp hmem
      have hat : seg.stop.2 = y0 := congrArg Prod.snd hmeet
      rcases lt_or_gt_of_ne (hdrawn.sloped seg hmem (hsame ▸ Option.some_ne_none e)) with hd | hu
      · exact hlast j seg ((hready.down j seg hj hsame hd).2 hat) hj hmeet
      · have hle := (hready.up j seg hj hsame hu).1
        omega
  · obtain ⟨seg, hseg, hsame, hd⟩ := hready.lastl k hopen
    obtain rfl : seg = old := Option.some.inj (hseg.symm.trans hold)
    have hmem := List.mem_of_getElem? hold
    have hat : seg.stop.2 = y0 := congrArg Prod.snd hstop
    refine hedit.sided hdrawn hready hy (fun seg' hseg' => ?_) hsame ⟨(hdrawn.box seg hmem).1, hbottom⟩
      (hat ▸ hd.le) rfl fun seg' hmem' hsame' => ?_
    · obtain rfl : seg' = seg := Option.some.inj (hseg'.symm.trans hold)
      exact ⟨hsame, hd⟩
    · exact hdrawn.apart seg' hmem' seg hmem (hsame' ▸ Option.some_ne_none e) (hsame'.trans hsame.symm)

end Left

/-! ## A right side -/

def Seg.flip (seg : Seg) : Seg := { start := seg.stop, stop := seg.start, id := seg.id }

/-- With each line the other way, lefts are rights. -/
def Lines.flip (s : Lines) : Lines := { segs := s.segs.map Seg.flip, openl := s.openr, openr := s.openl }

section Right

variable {Q : Point → Prop} {s s' : Lines} {segs : List Seg} {e : ℕ} {x0 x1 y y0 y1 : ℤ} {top bottom : Point}

theorem map_flip_flip (segs : List Seg) : (segs.map Seg.flip).map Seg.flip = segs := by
  rw [List.map_map]
  exact List.map_id segs

theorem goesOn_flip (s : Lines) (place : Option ℕ) (p : Point) :
    s.flip.goesOn place Seg.stop p = (s.goesOn place Seg.start p).map fun q => (q.1, q.2.flip) := by
  cases place with
  | none => rfl
  | some i =>
      simp only [Lines.goesOn, Lines.flip, Option.bind_some, List.getElem?_map]
      cases s.segs[i]? with
      | none => rfl
      | some seg =>
          simp only [Option.map_some, Option.bind_some, Seg.flip]
          split_ifs
          · rfl
          · rfl

theorem right_eq (s : Lines) (e : ℕ) (top bottom : Point) :
    s.right e top bottom = (s.flip.left e top bottom).flip := by
  have hon := goesOn_flip s (s.openr e) top
  unfold Lines.right Lines.left
  rw [show s.flip.openl e = s.openr e from rfl, hon]
  cases s.goesOn (s.openr e) Seg.start top with
  | none =>
      simp only [Option.map_none, Lines.flip, List.map_append, map_flip_flip, List.length_map]
      rfl
  | some q =>
      simp only [Option.map_some, Lines.flip, List.map_set, map_flip_flip]
      rfl

theorem Drawn.flip (h : Drawn Q segs) : Drawn Q (segs.map Seg.flip) := by
  have hmem : ∀ seg ∈ segs.map Seg.flip, ∃ seg' ∈ segs, seg'.flip = seg :=
    fun seg hseg => List.mem_map.mp hseg
  refine ⟨fun seg hseg => ?_, fun seg hseg hsome => ?_, fun a ha b hb hsome hsame => ?_,
    fun seg hseg hnone => ?_, fun a ha b hb hna hnb hmeet => ?_⟩
  · obtain ⟨seg', hseg', rfl⟩ := hmem seg hseg
    exact (h.box seg' hseg').symm
  · obtain ⟨seg', hseg', rfl⟩ := hmem seg hseg
    exact (h.sloped seg' hseg' hsome).symm
  · obtain ⟨a', ha', rfl⟩ := hmem a ha
    obtain ⟨b', hb', rfl⟩ := hmem b hb
    exact (h.apart b' hb' a' ha' (hsame ▸ hsome) hsame.symm).symm
  · obtain ⟨seg', hseg', rfl⟩ := hmem seg hseg
    exact ⟨(h.flat seg' hseg' hnone).1.symm, (h.flat seg' hseg' hnone).2.symm⟩
  · obtain ⟨a', ha', rfl⟩ := hmem a ha
    obtain ⟨b', hb', rfl⟩ := hmem b hb
    have hpos := h.onward b' hb' a' ha' hnb hna hmeet.symm
    rw [← neg_mul_neg, neg_sub, neg_sub, mul_comm] at hpos
    exact hpos

theorem getElem?_flip (s : Lines) (i : ℕ) : s.flip.segs[i]? = s.segs[i]?.map Seg.flip := List.getElem?_map

theorem Ready.flip (h : Ready s e y) : Ready s.flip e y := by
  have hlook : ∀ {i : ℕ} {seg : Seg}, s.flip.segs[i]? = some seg →
    ∃ seg' : Seg, s.segs[i]? = some seg' ∧ seg'.flip = seg := by
    intro i seg hi
    rw [getElem?_flip] at hi
    exact Option.map_eq_some_iff.mp hi
  refine ⟨fun i seg hi hsame hd => ?_, fun i seg hi hsame hu => ?_, fun i hi => ?_, fun i hi => ?_⟩
  · obtain ⟨seg', hseg', rfl⟩ := hlook hi
    exact h.up i seg' hseg' hsame hd
  · obtain ⟨seg', hseg', rfl⟩ := hlook hi
    exact h.down i seg' hseg' hsame hu
  · obtain ⟨seg, hseg, hsame, hu⟩ := h.lastr i hi
    exact ⟨seg.flip, by rw [getElem?_flip, hseg]; rfl, hsame, hu⟩
  · obtain ⟨seg, hseg, hsame, hd⟩ := h.lastl i hi
    exact ⟨seg.flip, by rw [getElem?_flip, hseg]; rfl, hsame, hd⟩

theorem flip_flip (s : Lines) : s.flip.flip = s := by
  rw [Lines.flip, Lines.flip, map_flip_flip]

theorem right_sided (hdrawn : Drawn Q s.segs) (hready : Ready s e y0) (hy : y0 < y1) (htop : Q (x0, y0))
    (hbottom : Q (x1, y1)) : Sided Q s (s.right e (x0, y0) (x1, y1)) e y1 := by
  have h := left_sided (s := s.flip) hdrawn.flip hready.flip hy htop hbottom
  rw [right_eq]
  refine ⟨h.drawn.flip, h.ready.flip, fun e' y' hne hother => (h.others e' y' hne hother.flip).flip,
    fun seg hmem hnone => ?_⟩
  obtain ⟨seg', hseg', rfl⟩ := List.mem_map.mp hmem
  obtain ⟨seg, hseg, rfl⟩ := List.mem_map.mp (h.flat seg' hseg' hnone)
  exact hseg

end Right

/-! ## The pieces of a band -/

section Pieces

variable {Q : Point → Prop} {s : Lines} {y0 y1 : ℤ}

/-- The ends of pieces are of the points. -/
def EndsIn (Q : Point → Prop) (y0 y1 : ℤ) (p : Piece) : Prop :=
  (Q (p.xl0, y0) ∧ Q (p.xl1, y1)) ∧ Q (p.xr0, y0) ∧ Q (p.xr1, y1)

/-- Edges that are used once each are ready for the next band, and the others are as they were. -/
theorem foldl_piece_drawn (hy : y0 < y1) (out : List Piece) (hids : (edgeIds out).Nodup)
    (hends : ∀ p ∈ out, EndsIn Q y0 y1 p) :
    ∀ {s : Lines}, Drawn Q s.segs → (∀ e ∈ edgeIds out, Ready s e y0) →
    Drawn Q (out.foldl (Lines.piece y0 y1) s).segs ∧
    (∀ e ∈ edgeIds out, Ready (out.foldl (Lines.piece y0 y1) s) e y1) ∧
    (∀ e ∉ edgeIds out, ∀ y, Ready s e y → Ready (out.foldl (Lines.piece y0 y1) s) e y) ∧
    ∀ seg ∈ (out.foldl (Lines.piece y0 y1) s).segs, seg.id = none → seg ∈ s.segs := by
  induction out with
  | nil =>
      intro s hdrawn _
      exact ⟨hdrawn, fun e he => absurd he List.not_mem_nil, fun e _ y h => h, fun seg hmem _ => hmem⟩
  | cons p out ih =>
      intro s hdrawn hready
      rw [edgeIds, List.flatMap_cons, List.cons_append, List.cons_append, List.nil_append, List.nodup_cons,
        List.nodup_cons, List.mem_cons, not_or] at hids
      obtain ⟨⟨hlr, hl⟩, hr, hrest⟩ := hids
      have hmem : ∀ e, e ∈ edgeIds (p :: out) ↔ e = p.idl ∨ e = p.idr ∨ e ∈ edgeIds out := by
        intro e
        rw [edgeIds, List.flatMap_cons, List.cons_append, List.cons_append, List.nil_append, List.mem_cons,
          List.mem_cons]
      obtain ⟨⟨hl0, hl1⟩, hr0, hr1⟩ := hends p List.mem_cons_self
      have hleft := left_sided hdrawn (hready p.idl ((hmem _).mpr (Or.inl rfl))) hy hl0 hl1
      have hright := right_sided hleft.drawn
        (hleft.others p.idr y0 (Ne.symm hlr) (hready p.idr ((hmem _).mpr (Or.inr (Or.inl rfl))))) hy hr0 hr1
      have hkeep : ∀ e, e ≠ p.idl → e ≠ p.idr → ∀ y, Ready s e y → Ready (s.piece y0 y1 p) e y :=
        fun e hel her y h => hright.others e y her (hleft.others e y hel h)
      obtain ⟨hd, hused, hothers, hflat⟩ := ih hrest (fun p' hp' => hends p' (List.mem_cons_of_mem p hp'))
        (s := s.piece y0 y1 p) hright.drawn fun e he =>
          hkeep e (fun heq => hl (heq ▸ he)) (fun heq => hr (heq ▸ he)) y0
            (hready e ((hmem e).mpr (Or.inr (Or.inr he))))
      rw [List.foldl_cons]
      refine ⟨hd, fun e he => ?_, fun e he y h => ?_, fun seg hseg hnone => ?_⟩
      · rcases (hmem e).mp he with rfl | rfl | he
        · exact hothers _ hl y1 (hright.others _ y1 hlr hleft.ready)
        · exact hothers _ hr y1 hright.ready
        · exact hused e he
      · rw [hmem, not_or, not_or] at he
        exact hothers e he.2.2 y (hkeep e he.1 he.2.1 y h)
      · exact hleft.flat seg (hright.flat seg (hflat seg hseg hnone) hnone) hnone

end Pieces

end ChrysaLisp.Polygon
