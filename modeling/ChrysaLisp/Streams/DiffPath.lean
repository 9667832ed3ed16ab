import ChrysaLisp.Streams.Diff

set_option autoImplicit false

/-! # What the search comes to is a way through both texts

Each path of the search is a way from the start, of places a step apart (`IsWay`), and so is what
`iron` makes of one. However many paths were let go of, the one that is taken in the end is at the end
of both texts (`searchPaths_goal`): the paths of a turn are of one length but for those that were at the
end before it, and of paths that are let go of none was nearer the end than one that is kept. -/

namespace ChrysaLisp

/-! ## Ways -/

/-- A step of a way: a line gone, a line come, or a line they both have. -/
inductive DiffStep (al bl : List Str) : DiffPlace → DiffPlace → Prop
  | gone {a b : ℕ} (h : a < al.length) : DiffStep al bl (a, b) (a + 1, b)
  | come {a b : ℕ} (h : b < bl.length) : DiffStep al bl (a, b) (a, b + 1)
  | same {a b : ℕ} {l : Str} (ha : al[a]? = some l) (hb : bl[b]? = some l) :
      DiffStep al bl (a, b) (a + 1, b + 1)

/-- The places a way goes on to from a place, and the last of them. -/
inductive Goes (al bl : List Str) : DiffPlace → Path → DiffPlace → Prop
  | here (p : DiffPlace) : Goes al bl p [] p
  | on {p q r : DiffPlace} {rest : Path} (h : DiffStep al bl p q) (hrest : Goes al bl q rest r) :
      Goes al bl p (q :: rest) r

/-- A way from the start. -/
def IsWay (al bl : List Str) (p : Path) (r : DiffPlace) : Prop :=
  ∃ rest, p = (0, 0) :: rest ∧ Goes al bl (0, 0) rest r

section Ways

variable {al bl : List Str} {p : Path} {q r s : DiffPlace}

theorem Goes.snoc {rest : Path} (h : Goes al bl q rest r) (hstep : DiffStep al bl r s) :
    Goes al bl q (rest ++ [s]) s := by
  induction h with
  | here q => exact .on hstep (.here s)
  | on h _ ih => exact .on h (ih hstep)

theorem IsWay.start : IsWay al bl [(0, 0)] (0, 0) := ⟨[], rfl, .here _⟩

theorem IsWay.snoc (h : IsWay al bl p q) (hstep : DiffStep al bl q r) : IsWay al bl (p ++ [r]) r := by
  obtain ⟨rest, rfl, hrest⟩ := h
  exact ⟨rest ++ [r], rfl, hrest.snoc hstep⟩

/-- A way, and a run of steps after it. -/
theorem IsWay.run {out : Path} {f : ℕ → DiffPlace} (h : IsWay al bl (out ++ [f 0]) (f 0)) (n : ℕ)
    (hstep : ∀ i < n, DiffStep al bl (f i) (f (i + 1))) :
    IsWay al bl (out ++ (List.range n).map f ++ [f n]) (f n) := by
  induction n with
  | zero => rwa [List.range_zero, List.map_nil, List.append_nil]
  | succ n ih =>
      rw [List.range_succ, List.map_append, ← List.append_assoc]
      exact (ih (fun i hi => hstep i (Nat.lt_succ_of_lt hi))).snoc (hstep n (Nat.lt_succ_self n))

theorem IsWay.flatRun {out : Path} {x y a b : ℕ} (h : IsWay al bl (out ++ [(x, y)]) (x, y))
    (ha : x ≤ a ∧ a ≤ al.length) (hb : y ≤ b ∧ b ≤ bl.length) :
    IsWay al bl (out ++ ChrysaLisp.flatRun x y a b ++ [(a, b)]) (a, b) := by
  have hgone := @IsWay.run al bl out (fun i => (x + i, y)) h (a - x)
    (fun i hi => .gone (by omega))
  rw [Nat.add_sub_cancel' ha.1] at hgone
  have hcome := @IsWay.run al bl _ (fun j => (a, y + j)) hgone (b - y) (fun j hj => .come (by omega))
  rw [Nat.add_sub_cancel' hb.1] at hcome
  unfold ChrysaLisp.flatRun
  rw [← List.append_assoc]
  exact hcome

end Ways

/-! ## The path, ironed, is a way still -/

section Iron

variable {al bl : List Str} {s : Ironing} {a b a' b' : ℕ}

/-- What `iron` has at a place of a path: a way to where the run it is in began, and a run that comes
    to the place. -/
structure Ironing.At (al bl : List Str) (s : Ironing) (a b : ℕ) : Prop where
  a_eq : s.a = a
  b_eq : s.b = b
  path : IsWay al bl (s.out ++ [(s.x, s.y)]) (s.x, s.y)
  inside : a ≤ al.length ∧ b ≤ bl.length
  le : s.x ≤ a ∧ s.y ≤ b
  diag : s.flat = false → a - s.x = b - s.y ∧
    ∀ i < a - s.x, DiffStep al bl (s.x + i, s.y + i) (s.x + (i + 1), s.y + (i + 1))

/-- Its run is a way on to the place. -/
theorem Ironing.At.run (h : s.At al bl a b) : IsWay al bl (s.out ++ s.run ++ [(a, b)]) (a, b) := by
  have ha : s.a.toNat = a := by rw [h.a_eq, Int.toNat_natCast]
  have hb : s.b.toNat = b := by rw [h.b_eq, Int.toNat_natCast]
  unfold Ironing.run
  rw [ha, hb]
  cases hflat : s.flat with
  | true => exact h.path.flatRun ⟨h.le.1, h.inside.1⟩ ⟨h.le.2, h.inside.2⟩
  | false =>
      obtain ⟨hlen, hsteps⟩ := h.diag hflat
      have hrun := @IsWay.run al bl s.out (fun i => (s.x + i, s.y + i)) h.path (a - s.x) hsteps
      rw [Nat.add_sub_cancel' h.le.1, hlen, Nat.add_sub_cancel' h.le.2, ← hlen] at hrun
      exact hrun

theorem DiffStep.inside (h : DiffStep al bl (a, b) (a', b')) (hin : a ≤ al.length ∧ b ≤ bl.length) :
    a' ≤ al.length ∧ b' ≤ bl.length := by
  cases h with
  | gone h => exact ⟨h, hin.2⟩
  | come h => exact ⟨hin.1, h⟩
  | same ha hb =>
      exact ⟨(List.getElem?_eq_some_iff.mp ha).1, (List.getElem?_eq_some_iff.mp hb).1⟩

/-- Over a line they both have: a run of such lines goes on, or one begins. -/
theorem Ironing.At.same (h : s.At al bl a b) (hstep : DiffStep al bl (a, b) (a + 1, b + 1)) :
    (s.place (a + 1, b + 1)).At al bl (a + 1) (b + 1) := by
  have hin := hstep.inside h.inside
  have hcond : ((a + 1 : ℕ) : ℤ) ≠ s.a ∧ ((b + 1 : ℕ) : ℤ) ≠ s.b := by
    rw [h.a_eq, h.b_eq]
    omega
  have ha : s.a.toNat = a := by rw [h.a_eq, Int.toNat_natCast]
  have hb : s.b.toNat = b := by rw [h.b_eq, Int.toNat_natCast]
  unfold Ironing.place
  rw [if_pos hcond]
  cases hflat : s.flat with
  | true =>
      rw [if_pos rfl, ha, hb]
      refine ⟨rfl, rfl, h.run, hin, ⟨Nat.le_succ a, Nat.le_succ b⟩, fun _ => ⟨by simp, fun i hi => ?_⟩⟩
      obtain rfl : i = 0 := by
        simp only [Nat.add_sub_cancel_left] at hi
        omega
      exact hstep
  | false =>
      rw [if_neg Bool.false_ne_true]
      obtain ⟨hlen, hsteps⟩ := h.diag hflat
      have hx := h.le.1
      have hy := h.le.2
      refine ⟨rfl, rfl, h.path, hin, ⟨Nat.le_succ_of_le hx, Nat.le_succ_of_le hy⟩,
        fun _ => ⟨by simp only; omega, fun i hi => ?_⟩⟩
      by_cases hlt : i < a - s.x
      · exact hsteps i hlt
      -- the last of the run is the step that is taken now
      · have hxi : s.x + i = a := by
          simp only at hi
          omega
        have hyi : s.y + i = b := by omega
        simp only [← Nat.add_assoc, hxi, hyi]
        exact hstep

/-- Along an edge: a run of lines gone and come goes on, or one begins. -/
theorem Ironing.At.flat (h : s.At al bl a b) (hin : a' ≤ al.length ∧ b' ≤ bl.length)
    (hle : a ≤ a' ∧ b ≤ b') (hedge : a' = a ∨ b' = b) : (s.place (a', b')).At al bl a' b' := by
  have hcond : ¬ ((a' : ℤ) ≠ s.a ∧ (b' : ℤ) ≠ s.b) := by
    rw [h.a_eq, h.b_eq]
    omega
  have ha : s.a.toNat = a := by rw [h.a_eq, Int.toNat_natCast]
  have hx := h.le.1
  have hy := h.le.2
  unfold Ironing.place
  rw [if_neg hcond]
  cases hflat : s.flat with
  | true =>
      rw [if_pos rfl]
      exact ⟨rfl, rfl, h.path, hin, ⟨hx.trans hle.1, hy.trans hle.2⟩,
        fun hf => absurd (hflat.symm.trans hf) Bool.noConfusion⟩
  | false =>
      obtain ⟨hlen, -⟩ := h.diag hflat
      rw [if_neg Bool.false_ne_true, ha, hlen, Nat.add_sub_cancel' hy]
      exact ⟨rfl, rfl, h.run, hin, hle, fun hf => absurd hf Bool.noConfusion⟩

/-- The run goes on, or is written and another begins. -/
theorem Ironing.At.place (h : s.At al bl a b) (hstep : DiffStep al bl (a, b) (a', b')) :
    (s.place (a', b')).At al bl a' b' := by
  have hin := hstep.inside h.inside
  cases hstep with
  | gone ha => exact h.flat hin ⟨Nat.le_succ a, le_rfl⟩ (Or.inr rfl)
  | come hb => exact h.flat hin ⟨le_rfl, Nat.le_succ b⟩ (Or.inl rfl)
  | same ha hb => exact h.same (.same ha hb)

theorem Ironing.At.goes {p r : DiffPlace} {rest : Path} (hgoes : Goes al bl p rest r) :
    ∀ s : Ironing, s.At al bl p.1 p.2 → (rest.foldl Ironing.place s).At al bl r.1 r.2 := by
  induction hgoes with
  | here p => exact fun s h => h
  | on hstep _ ih => exact fun s h => ih _ (h.place hstep)

/-- **`iron` makes a way of a way**, to the same place. -/
theorem isWay_iron {p : Path} {r : DiffPlace} (h : IsWay al bl p r) : IsWay al bl (iron p) r := by
  obtain ⟨rest, rfl, hgoes⟩ := h
  have hstart : (Ironing.place ⟨[], -1, -1, 0, 0, false⟩ (0, 0)).At al bl 0 0 :=
    ⟨rfl, rfl, .start, ⟨Nat.zero_le _, Nat.zero_le _⟩, ⟨le_rfl, le_rfl⟩,
      fun _ => ⟨rfl, fun i hi => absurd hi (Nat.not_lt_zero i)⟩⟩
  have hend := Ironing.At.goes hgoes _ hstart
  unfold iron
  rw [List.foldl_cons]
  generalize rest.foldl Ironing.place _ = s at hend
  dsimp only
  rw [hend.a_eq, hend.b_eq, Int.toNat_natCast, Int.toNat_natCast]
  exact hend.run

end Iron

/-! ## The search comes to the end -/

section Search

variable {al bl : List Str} {p q : Path} {n : ℕ}

/-- A path of the search after so many turns. -/
structure Searched (al bl : List Str) (n : ℕ) (p : Path) : Prop where
  path : IsWay al bl p (Path.last p)
  length : p.length = n + 1
  inside : (Path.last p).1 ≤ al.length ∧ (Path.last p).2 ≤ bl.length
  far : n ≤ (Path.last p).1 + (Path.last p).2

theorem last_snoc (p : Path) (r : DiffPlace) : Path.last (p ++ [r]) = r := by
  unfold Path.last
  rw [List.getLastD_concat]

theorem Searched.snoc (h : Searched al bl n p) {r : DiffPlace} (hstep : DiffStep al bl (Path.last p) r)
    (hfar : (Path.last p).1 + (Path.last p).2 < r.1 + r.2) : Searched al bl (n + 1) (p ++ [r]) := by
  refine ⟨?_, ?_, ?_, ?_⟩
  · rw [last_snoc]
    exact h.path.snoc hstep
  · rw [List.length_append, List.length_singleton, h.length]
  · rw [last_snoc]
    exact hstep.inside h.inside
  · rw [last_snoc]
    have := h.far
    omega

theorem stepPath_goal (h : Path.last p = (al.length, bl.length)) : stepPath al bl p = [p] := by
  unfold stepPath
  rw [h]
  exact if_neg (by simp)

/-- A path that is at the end stays, and any other goes on. -/
theorem Searched.step (h : Searched al bl n p) (hq : q ∈ stepPath al bl p) :
    Path.last p = (al.length, bl.length) ∧ q = p ∨ Searched al bl (n + 1) q := by
  by_cases hgoal : Path.last p = (al.length, bl.length)
  · rw [stepPath_goal hgoal] at hq
    exact Or.inl ⟨hgoal, List.mem_singleton.mp hq⟩
  refine Or.inr ?_
  obtain ⟨a, b, hlast⟩ : ∃ a b, Path.last p = (a, b) := ⟨_, _, rfl⟩
  have hin := h.inside
  have hgo := @Searched.snoc al bl p n h
  unfold stepPath at hq
  rw [hlast] at hgoal hin hgo hq
  dsimp only at hq
  rw [if_pos (by rwa [Prod.mk.injEq, not_and_or] at hgoal)] at hq
  by_cases ha : a = al.length
  · rw [if_pos ha, List.mem_singleton] at hq
    have hb : b < bl.length := lt_of_le_of_ne hin.2 (fun hb => hgoal (by rw [ha, hb]))
    exact hq ▸ hgo (.come hb) (by simp only; omega)
  rw [if_neg ha] at hq
  have halt : a < al.length := lt_of_le_of_ne hin.1 ha
  by_cases hb : b = bl.length
  · rw [if_pos hb, List.mem_singleton] at hq
    exact hq ▸ hgo (.gone halt) (by simp only; omega)
  rw [if_neg hb] at hq
  have hblt : b < bl.length := lt_of_le_of_ne hin.2 hb
  by_cases hsame : al[a]? = bl[b]?
  · rw [if_pos hsame, List.mem_singleton] at hq
    have hl := List.getElem?_eq_getElem halt
    exact hq ▸ hgo (.same hl (hsame.symm.trans hl)) (by simp only; omega)
  · rw [if_neg hsame, List.mem_cons, List.mem_singleton] at hq
    rcases hq with rfl | rfl
    · exact hgo (.come hblt) (by simp only; omega)
    · exact hgo (.gone halt) (by simp only; omega)

theorem stepPath_ne_nil (p : Path) : stepPath al bl p ≠ [] := by
  unfold stepPath
  simp only
  split_ifs <;> simp

/-- What `sort` is relied on for: the list it has, in order. How it has those that are as good as one
    another is its own. -/
structure Sorts (sortBy : (Path → ℤ) → List Path → List Path) : Prop where
  perm : ∀ key ps, (sortBy key ps).Perm ps
  sorted : ∀ key ps, (sortBy key ps).Pairwise (fun p q => key p ≤ key q)

variable {sortBy : (Path → ℤ) → List Path → List Path} {ps : List Path}

/-- What is kept of a turn is of the paths that there were, gone on. -/
theorem mem_stepPaths (hsort : Sorts sortBy) (hq : q ∈ stepPaths sortBy al bl ps) :
    ∃ p ∈ ps, q ∈ stepPath al bl p := by
  unfold stepPaths at hq
  dsimp only at hq
  split_ifs at hq
  · exact List.mem_flatMap.mp ((hsort.perm _ _).mem_iff.mp (List.mem_of_mem_take hq))
  · exact List.mem_flatMap.mp hq

theorem stepPaths_ne_nil (hsort : Sorts sortBy) (hps : ps ≠ []) : stepPaths sortBy al bl ps ≠ [] := by
  obtain ⟨p, hp⟩ := List.exists_mem_of_ne_nil ps hps
  obtain ⟨q, hq⟩ := List.exists_mem_of_ne_nil _ (@stepPath_ne_nil al bl p)
  have hmem : q ∈ ps.flatMap (stepPath al bl) := List.mem_flatMap.mpr ⟨p, hp, hq⟩
  unfold stepPaths
  dsimp only
  split_ifs
  · rw [Ne, List.take_eq_nil_iff, not_or]
    exact ⟨by decide, fun hnil => List.not_mem_nil (hnil ▸ (hsort.perm _ _).mem_iff.mpr hmem)⟩
  · exact List.ne_nil_of_mem hmem

/-- A turn is the last if a path was at the end before it, and there is one in as many turns as there
    are lines. -/
theorem searchPaths_ends (hsort : Sorts sortBy) (turns : ℕ) : ∀ (n : ℕ) (ps : List Path), ps ≠ [] →
    (∀ p ∈ ps, Searched al bl n p) → al.length + bl.length < n + turns →
    ∃ n' ps', searchPaths sortBy al bl turns ps = some (stepPaths sortBy al bl ps') ∧
      (∀ p ∈ ps', Searched al bl n' p) ∧ ∃ p ∈ ps', Path.last p = (al.length, bl.length) := by
  induction turns with
  | zero =>
      intro n ps hps hall hturns
      obtain ⟨p, hp⟩ := List.exists_mem_of_ne_nil ps hps
      have hfar := (hall p hp).far
      have hin := (hall p hp).inside
      omega
  | succ turns ih =>
      intro n ps hps hall hturns
      unfold searchPaths
      by_cases hany : ps.any (Path.atGoal al bl) = true
      · rw [if_pos hany]
        obtain ⟨p, hp, hgoal⟩ := List.any_eq_true.mp hany
        exact ⟨n, ps, rfl, hall, p, hp, of_decide_eq_true hgoal⟩
      · rw [if_neg hany]
        refine ih (n + 1) _ (stepPaths_ne_nil hsort hps) (fun q hq => ?_) (by omega)
        obtain ⟨p, hp, hq⟩ := mem_stepPaths hsort hq
        refine ((hall p hp).step hq).resolve_left (fun hgoal => ?_)
        exact hany (List.any_eq_true.mpr ⟨p, hp, decide_eq_true hgoal.1⟩)

theorem goalDistance_nonneg (al bl : List Str) (p : Path) : 0 ≤ goalDistance al bl p := by
  unfold goalDistance
  positivity

theorem goalDistance_eq_zero : goalDistance al bl p = 0 ↔ Path.last p = (al.length, bl.length) := by
  unfold goalDistance
  rw [add_eq_zero_iff_of_nonneg (sq_nonneg _) (sq_nonneg _), sq_eq_zero_iff, sq_eq_zero_iff, Prod.ext_iff]
  omega

/-- Of the paths that are let go of none is nearer the end than one that is kept. -/
theorem goalDistance_le_of_not_mem (hsort : Sorts sortBy) {g : Path} (hp : p ∈ ps)
    (hg : g ∈ stepPath al bl p) (hgone : g ∉ stepPaths sortBy al bl ps)
    (hq : q ∈ stepPaths sortBy al bl ps) : goalDistance al bl q ≤ goalDistance al bl g := by
  have hmem : g ∈ ps.flatMap (stepPath al bl) := List.mem_flatMap.mpr ⟨p, hp, hg⟩
  unfold stepPaths at hgone hq
  dsimp only at hgone hq
  split_ifs at hgone hq
  · have hsorted := hsort.sorted (goalDistance al bl) (ps.flatMap (stepPath al bl))
    have hin := (hsort.perm (goalDistance al bl) _).mem_iff.mpr hmem
    rw [← List.take_append_drop minPaths (sortBy _ _)] at hsorted hin
    have hdrop := (List.mem_append.mp hin).resolve_left hgone
    exact (List.pairwise_append.mp hsorted).2.2 q hq g hdrop
  · exact absurd hmem hgone

/-- **The shortest path of the last turn is a way to the end of both texts.** -/
theorem isWay_shortest (hsort : Sorts sortBy) (hall : ∀ p ∈ ps, Searched al bl n p) (hp : p ∈ ps)
    (hgoal : Path.last p = (al.length, bl.length)) :
    IsWay al bl ((sortBy (fun p => (p.length : ℤ)) (stepPaths sortBy al bl ps)).headD [])
      (al.length, bl.length) := by
  have hperm := hsort.perm (fun p => (p.length : ℤ)) (stepPaths sortBy al bl ps)
  have hsorted := hsort.sorted (fun p => (p.length : ℤ)) (stepPaths sortBy al bl ps)
  have hne := @stepPaths_ne_nil al bl sortBy ps hsort (List.ne_nil_of_mem hp)
  cases hlist : sortBy (fun p => (p.length : ℤ)) (stepPaths sortBy al bl ps) with
  | nil => exact absurd (hperm.symm.trans (hlist ▸ .refl _)).eq_nil hne
  | cons q rest =>
      rw [hlist] at hperm hsorted
      have hq := hperm.mem_iff.mp List.mem_cons_self
      obtain ⟨p', hp', hstep⟩ := mem_stepPaths hsort hq
      rw [List.headD_cons]
      rcases (hall p' hp').step hstep with ⟨hlast, rfl⟩ | hq'
      · exact hlast ▸ (hall q hp').path
      -- it was not at the end before the turn, so no path that was is kept
      · have hgone : p ∉ stepPaths sortBy al bl ps := by
          intro hkept
          have hlen : (q.length : ℤ) ≤ p.length := by
            rcases List.mem_cons.mp (hperm.mem_iff.mpr hkept) with rfl | hrest
            · exact le_rfl
            · exact List.rel_of_pairwise_cons hsorted hrest
          rw [hq'.length, (hall p hp).length] at hlen
          omega
        have hnear := goalDistance_le_of_not_mem hsort hp
          (by rw [stepPath_goal hgoal]; exact List.mem_singleton_self p) hgone hq
        rw [goalDistance_eq_zero.mpr hgoal] at hnear
        have hlast := goalDistance_eq_zero.mp (le_antisymm hnear (goalDistance_nonneg al bl q))
        exact hlast ▸ hq'.path

/-- **The search ends, and what it is for is a way to the end of both texts.** -/
theorem searchPaths_goal (hsort : Sorts sortBy) (al bl : List Str) :
    ∃ ps, searchPaths sortBy al bl (al.length + bl.length + 1) [[(0, 0)]] = some ps ∧
      IsWay al bl ((sortBy (fun p => (p.length : ℤ)) ps).headD []) (al.length, bl.length) := by
  have hstart : ∀ p ∈ [[(0, 0)]], Searched al bl 0 p := by
    intro p hp
    rw [List.mem_singleton.mp hp]
    exact ⟨.start, rfl, ⟨Nat.zero_le _, Nat.zero_le _⟩, le_rfl⟩
  obtain ⟨n, ps, hsearch, hall, p, hp, hgoal⟩ :=
    searchPaths_ends hsort (al.length + bl.length + 1) 0 [[(0, 0)]] (by simp) hstart (by omega)
  exact ⟨_, hsearch, isWay_shortest hsort hall hp hgoal⟩

end Search

end ChrysaLisp
