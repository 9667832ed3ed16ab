import Mathlib.Data.List.Nodup
import Mathlib.Data.List.Perm.Basic
import ChrysaLisp.Lisp.Env

set_option autoImplicit false

/-! # Who holds an environment

Every environment there is says how many hold it: the task and its values, the roots, and those it
is the parent of. Those of the pool nobody holds. What `deref` is given is a root that is let go of,
and its parent is the next. -/

namespace ChrysaLisp.Lookup

variable {S V : Type}

/-- The environments that are a parent, as often as they are one. -/
def parents (env : ℕ → Hmap S V) (live : List ℕ) : List ℕ := live.filterMap (fun e => (env e).parent)

/-- How many hold it. -/
def holders (env : ℕ → Hmap S V) (live roots : List ℕ) (x : ℕ) : ℕ :=
  roots.count x + (parents env live).count x

/-- The chain of empty ones, from its head. -/
def Pooled (env : ℕ → Hmap S V) : Option ℕ → List ℕ → Prop
  | none, idle => idle = []
  | some e, idle => Climb.Path (fun e => (env e).parent) e idle

structure Cells (env : ℕ → Hmap S V) (next : ℕ) (pool : Option ℕ) (live idle roots : List ℕ) : Prop where
  nodup : (live ++ idle).Nodup
  lt : ∀ e ∈ live ++ idle, e < next
  rooted : ∀ e ∈ roots, e ∈ live
  closed : ∀ e ∈ live, ∀ p, (env e).parent = some p → p ∈ live
  counted : ∀ e ∈ live, (env e).refs = holders env live roots e
  pooled : Pooled env pool idle
  blank : ∀ e ∈ idle, (env e).buckets = [[]] ∧ (env e).refs = 1

/-! ## Parents -/

theorem parents_congr {env env' : ℕ → Hmap S V} {live : List ℕ}
    (h : ∀ e ∈ live, (env' e).parent = (env e).parent) : parents env' live = parents env live :=
  List.filterMap_congr h

theorem parents_cons (env : ℕ → Hmap S V) (e : ℕ) (live : List ℕ) :
    parents env (e :: live) = (env e).parent.toList ++ parents env live := by
  rw [parents, List.filterMap_cons]
  cases (env e).parent with
  | none => rfl
  | some p => rfl

theorem count_parents (env : ℕ → Hmap S V) {e : ℕ} {live : List ℕ} (he : e ∈ live) (x : ℕ) :
    (parents env live).count x =
      (env e).parent.toList.count x + (parents env (live.erase e)).count x := by
  have hperm : (parents env live).Perm (parents env (e :: live.erase e)) :=
    (List.perm_cons_erase he).filterMap _
  rw [hperm.count_eq, parents_cons, List.count_append]

theorem count_parents_update (env : ℕ → Hmap S V) (h : Hmap S V) {e : ℕ} {live : List ℕ}
    (hnodup : live.Nodup) (he : e ∈ live) (x : ℕ) :
    (parents (Function.update env e h) live).count x + (env e).parent.toList.count x =
      (parents env live).count x + h.parent.toList.count x := by
  have hrest : parents (Function.update env e h) (live.erase e) = parents env (live.erase e) :=
    parents_congr fun y hy => by
      rw [Function.update_of_ne ((hnodup.mem_erase_iff.1 hy).1)]
  rw [count_parents _ he, count_parents env he, hrest, Function.update_self]
  omega

theorem mem_parents {env : ℕ → Hmap S V} {live : List ℕ} {p : ℕ} :
    p ∈ parents env live ↔ ∃ e ∈ live, (env e).parent = some p := List.mem_filterMap

/-! ## The pool -/

theorem Pooled.congr {env env' : ℕ → Hmap S V} {pool : Option ℕ} {idle : List ℕ}
    (h : Pooled env pool idle) (heq : ∀ e ∈ idle, (env' e).parent = (env e).parent) :
    Pooled env' pool idle := by
  cases pool with
  | none => exact h
  | some e => exact Climb.Path.congr h heq

theorem Pooled.pop {env : ℕ → Hmap S V} {e : ℕ} {idle : List ℕ} (h : Pooled env (some e) idle) :
    ∃ rest, idle = e :: rest ∧ Pooled env (env e).parent rest := by
  cases h with
  | root h => exact ⟨[], rfl, by rw [h]; rfl⟩
  | up h hl => exact ⟨_, rfl, by rw [h]; exact hl⟩

theorem Pooled.push {env : ℕ → Hmap S V} {pool : Option ℕ} {e : ℕ} {idle : List ℕ}
    (h : Pooled env pool idle) (he : (env e).parent = pool) : Pooled env (some e) (e :: idle) := by
  cases pool with
  | none => obtain rfl := h; exact .root he
  | some p => exact .up he h

namespace Cells

variable {env env' : ℕ → Hmap S V} {next : ℕ} {pool : Option ℕ} {live idle roots roots' : List ℕ}
  {e p : ℕ} {h : Hmap S V}

theorem live_nodup (hc : Cells env next pool live idle roots) : live.Nodup := hc.nodup.of_append_left

theorem not_idle (hc : Cells env next pool live idle roots) (he : e ∈ live) : e ∉ idle :=
  fun hi => List.disjoint_of_nodup_append hc.nodup he hi

theorem live_lt (hc : Cells env next pool live idle roots) (he : e ∈ live) : e < next :=
  hc.lt e (List.mem_append_left _ he)

theorem live_length_le (hc : Cells env next pool live idle roots) : live.length ≤ next := by
  have hsub : live ⊆ List.range next := fun e he => List.mem_range.2 (hc.live_lt he)
  have hle := (hc.live_nodup.subperm hsub).length_le
  rwa [List.length_range] at hle

/-- The roots are a matter of how often each is one. -/
theorem perm (hc : Cells env next pool live idle roots) (hp : roots.Perm roots') :
    Cells env next pool live idle roots' :=
  { hc with
    rooted := fun e he => hc.rooted e (hp.mem_iff.2 he)
    counted := fun e he => by rw [hc.counted e he, holders, holders, hp.count_eq] }

/-- An environment changed: its refs are its own holders and what it was of others. -/
theorem update (hc : Cells env next pool live idle roots) (he : e ∈ live)
    (hrooted : ∀ x ∈ roots', x ∈ live) (hclosed : ∀ p, h.parent = some p → p ∈ live)
    (hself : h.refs = holders (Function.update env e h) live roots' e)
    (hrest : ∀ x, x ≠ e →
      holders (Function.update env e h) live roots' x = holders env live roots x) :
    Cells (Function.update env e h) next pool live idle roots' where
  nodup := hc.nodup
  lt := hc.lt
  rooted := hrooted
  closed x hx p hp := by
    by_cases hxe : x = e
    · subst hxe
      rw [Function.update_self] at hp
      exact hclosed p hp
    · rw [Function.update_of_ne hxe] at hp
      exact hc.closed x hx p hp
  counted x hx := by
    by_cases hxe : x = e
    · subst hxe
      rw [Function.update_self, hself]
    · rw [Function.update_of_ne hxe, hc.counted x hx, hrest x hxe]
  pooled := hc.pooled.congr fun x hx => by
    rw [Function.update_of_ne (ne_of_mem_of_not_mem hx (hc.not_idle he))]
  blank x hx := by
    rw [Function.update_of_ne (ne_of_mem_of_not_mem hx (hc.not_idle he))]
    exact hc.blank x hx

/-- Its parent the same and its refs another number, so the roots have it the more or less often. -/
theorem setRefs (hc : Cells env next pool live idle roots) (he : e ∈ live)
    (hparent : h.parent = (env e).parent) (hrooted : ∀ x ∈ roots', x ∈ live)
    (hself : h.refs + roots.count e = (env e).refs + roots'.count e)
    (hrest : ∀ x, x ≠ e → roots'.count x = roots.count x) :
    Cells (Function.update env e h) next pool live idle roots' := by
  have hparents : ∀ x, (parents (Function.update env e h) live).count x = (parents env live).count x := by
    intro x
    have := count_parents_update env h hc.live_nodup he x
    rw [hparent] at this
    omega
  refine hc.update he hrooted (fun p hp => hc.closed e he p (hparent ▸ hp)) ?_ (fun x hx => ?_)
  · have hcounted := hc.counted e he
    rw [holders] at hcounted ⊢
    rw [hparents]
    omega
  · rw [holders, holders, hparents, hrest x hx]

/-- What it binds is another. -/
theorem edit (hc : Cells env next pool live idle roots) (he : e ∈ live)
    (hparent : h.parent = (env e).parent) (hrefs : h.refs = (env e).refs) :
    Cells (Function.update env e h) next pool live idle roots :=
  hc.setRefs he hparent hc.rooted (by rw [hrefs]) (fun _ _ => rfl)

theorem ref (hc : Cells env next pool live idle roots) (he : e ∈ live) :
    Cells (Function.update env e { env e with refs := (env e).refs + 1 }) next pool live idle
      (e :: roots) := by
  refine hc.setRefs he rfl (List.forall_mem_cons.2 ⟨he, hc.rooted⟩) ?_ (fun x hx => ?_)
  · rw [List.count_cons_self]
    dsimp only
    omega
  · exact List.count_cons_of_ne (Ne.symm hx)

/-- A new parent, or none, of one that is held the more often for it or not. -/
theorem reparent (hc : Cells env next pool live idle roots) (he : e ∈ live)
    (hclosed : ∀ p, h.parent = some p → p ∈ live) (hrooted : ∀ x ∈ roots', x ∈ live)
    (hself : h.refs + roots.count e + (env e).parent.toList.count e =
      (env e).refs + roots'.count e + h.parent.toList.count e)
    (hrest : ∀ x, x ≠ e → roots'.count x + h.parent.toList.count x =
      roots.count x + (env e).parent.toList.count x) :
    Cells (Function.update env e h) next pool live idle roots' := by
  have hparents := count_parents_update env h hc.live_nodup he
  refine hc.update he hrooted hclosed ?_ (fun x hx => ?_)
  · have hcounted := hc.counted e he
    have := hparents e
    rw [holders] at hcounted ⊢
    omega
  · have := hparents x
    have := hrest x hx
    rw [holders, holders]
    omega

/-- One more, whose ref of its parent was a root's. -/
theorem join {next' : ℕ} {pool' : Option ℕ} {idle' : List ℕ}
    (hc : Cells env next pool live idle (h.parent.toList ++ roots)) (hrefs : h.refs = 1) (he : e ∉ live)
    (hnodup : (e :: live ++ idle').Nodup) (hlt : ∀ x ∈ e :: live ++ idle', x < next')
    (hpooled : Pooled env pool' idle')
    (hblank : ∀ x ∈ idle', (env x).buckets = [[]] ∧ (env x).refs = 1) :
    Cells (Function.update env e h) next' pool' (e :: live) idle' (e :: roots) := by
  have hlive : ∀ x ∈ live, x ≠ e := fun x hx => ne_of_mem_of_not_mem hx he
  have hidle : ∀ x ∈ idle', x ≠ e := fun x hx hxe =>
    (List.nodup_cons.1 hnodup).1 (List.mem_append_right _ (hxe ▸ hx))
  have hparents : parents (Function.update env e h) (e :: live) =
      h.parent.toList ++ parents env live := by
    rw [parents_cons, Function.update_self,
      parents_congr (fun x hx => by rw [Function.update_of_ne (hlive x hx)])]
  have hcount : ∀ x, holders (Function.update env e h) (e :: live) (e :: roots) x =
      holders env live (h.parent.toList ++ roots) x + [e].count x := by
    intro x
    rw [holders, holders, hparents, List.count_append, List.count_append, ← List.singleton_append,
      List.count_append]
    omega
  have hnone : holders env live (h.parent.toList ++ roots) e = 0 := by
    have hroot : e ∉ h.parent.toList ++ roots := fun hx => he (hc.rooted e hx)
    have hparent : e ∉ parents env live := fun hx => by
      obtain ⟨y, hy, hp⟩ := mem_parents.1 hx
      exact he (hc.closed y hy e hp)
    rw [holders, List.count_eq_zero_of_not_mem hroot, List.count_eq_zero_of_not_mem hparent]
  refine ⟨hnodup, hlt, ?_, ?_, ?_, ?_, ?_⟩
  · refine List.forall_mem_cons.2 ⟨List.mem_cons_self, fun x hx => List.mem_cons_of_mem _ ?_⟩
    exact hc.rooted x (List.mem_append_right _ hx)
  · refine List.forall_mem_cons.2 ⟨fun p hp => ?_, fun x hx p hp => ?_⟩
    · rw [Function.update_self] at hp
      exact List.mem_cons_of_mem _ (hc.rooted p (by rw [hp]; simp))
    · rw [Function.update_of_ne (hlive x hx)] at hp
      exact List.mem_cons_of_mem _ (hc.closed x hx p hp)
  · refine List.forall_mem_cons.2 ⟨?_, fun x hx => ?_⟩
    · rw [Function.update_self, hrefs, hcount, hnone, List.count_singleton_self]
    · rw [Function.update_of_ne (hlive x hx), hc.counted x hx, hcount,
        List.count_eq_zero_of_not_mem (by simpa using hlive x hx), Nat.add_zero]
  · exact hpooled.congr fun x hx => by rw [Function.update_of_ne (hidle x hx)]
  · intro x hx
    rw [Function.update_of_ne (hidle x hx)]
    exact hblank x hx

/-- One created. -/
theorem add (hc : Cells env next pool live idle (h.parent.toList ++ roots)) (hrefs : h.refs = 1) :
    Cells (Function.update env next h) (next + 1) pool (next :: live) idle (next :: roots) := by
  have hnew : next ∉ live ++ idle := fun hx => (hc.lt next hx).ne rfl
  refine hc.join hrefs (fun hx => hnew (List.mem_append_left _ hx)) ?_ ?_ hc.pooled hc.blank
  · rw [List.cons_append]
    exact List.nodup_cons.2 ⟨hnew, hc.nodup⟩
  · rw [List.cons_append]
    exact List.forall_mem_cons.2 ⟨Nat.lt_succ_self _, fun x hx => (hc.lt x hx).trans (Nat.lt_succ_self _)⟩

/-- One of the pool used again. -/
theorem recycle (hc : Cells env next (some e) live idle (h.parent.toList ++ roots)) (hrefs : h.refs = 1) :
    ∃ rest, idle = e :: rest ∧
      Cells (Function.update env e h) next (env e).parent (e :: live) rest (e :: roots) := by
  obtain ⟨rest, rfl, hrest⟩ := hc.pooled.pop
  have hperm : (live ++ e :: rest).Perm (e :: live ++ rest) := List.perm_middle
  have he : e ∉ live := fun hx => hc.not_idle hx List.mem_cons_self
  refine ⟨rest, rfl, hc.join hrefs he (hperm.nodup_iff.1 hc.nodup) ?_ hrest ?_⟩
  · exact fun x hx => hc.lt x (hperm.mem_iff.2 hx)
  · exact fun x hx => hc.blank x (List.mem_cons_of_mem _ hx)

/-! ## One that is let go of -/

/-- Held once, by a root that lets go: it is no other root and nobody's parent. -/
theorem sole (hc : Cells env next pool live idle (e :: roots)) (hone : (env e).refs = 1) :
    e ∉ roots ∧ ∀ x ∈ live, (env x).parent ≠ some e := by
  have hcounted := hc.counted e (hc.rooted e List.mem_cons_self)
  rw [hone, holders, List.count_cons_self] at hcounted
  have hroots : roots.count e = 0 := by omega
  have hparents : (parents env live).count e = 0 := by omega
  refine ⟨List.count_eq_zero.1 hroots, fun x hx hp => ?_⟩
  exact List.count_eq_zero.1 hparents (mem_parents.2 ⟨x, hx, hp⟩)

/-- It goes, and its ref of its parent is a root's. -/
theorem leave (hc : Cells env next pool live idle (e :: roots)) (hone : (env e).refs = 1)
    (heq : ∀ x ∈ live, x ≠ e → env' x = env x) {pool' : Option ℕ} {idle' : List ℕ}
    (hnodup : (live.erase e ++ idle').Nodup) (hlt : ∀ x ∈ live.erase e ++ idle', x < next)
    (hpooled : Pooled env' pool' idle')
    (hblank : ∀ x ∈ idle', (env' x).buckets = [[]] ∧ (env' x).refs = 1) :
    Cells env' next pool' (live.erase e) idle' ((env e).parent.toList ++ roots) := by
  obtain ⟨hroots, hparents⟩ := hc.sole hone
  have he : e ∈ live := hc.rooted e List.mem_cons_self
  have hmem : ∀ {x}, x ∈ live.erase e ↔ x ≠ e ∧ x ∈ live := hc.live_nodup.mem_erase_iff
  have heq' : ∀ x ∈ live.erase e, env' x = env x := fun x hx => heq x (hmem.1 hx).2 (hmem.1 hx).1
  have hp : ∀ p, (env e).parent = some p → p ∈ live.erase e := fun p hp =>
    hmem.2 ⟨fun hpe => hparents e he (hpe ▸ hp), hc.closed e he p hp⟩
  refine ⟨hnodup, hlt, ?_, ?_, ?_, hpooled, hblank⟩
  · intro x hx
    rcases List.mem_append.1 hx with hx | hx
    · exact hp x (Option.mem_toList.1 hx)
    · exact hmem.2 ⟨ne_of_mem_of_not_mem hx hroots, hc.rooted x (List.mem_cons_of_mem _ hx)⟩
  · intro x hx p hxp
    rw [heq' x hx] at hxp
    exact hmem.2 ⟨fun hpe => hparents x (hmem.1 hx).2 (hpe ▸ hxp), hc.closed x (hmem.1 hx).2 p hxp⟩
  · intro x hx
    have hparents' : parents env' (live.erase e) = parents env (live.erase e) :=
      parents_congr fun y hy => by rw [heq' y hy]
    rw [heq' x hx, hc.counted x (hmem.1 hx).2, holders, holders, hparents', count_parents env he,
      List.count_append, List.count_cons_of_ne (Ne.symm (hmem.1 hx).1)]
    omega

/-- Put back in the pool, with nothing bound. -/
theorem retire (hc : Cells env next pool live idle (e :: roots)) (hone : (env e).refs = 1)
    (hparent : h.parent = pool) (hbuckets : h.buckets = [[]]) (hrefs : h.refs = 1) :
    Cells (Function.update env e h) next (some e) (live.erase e) (e :: idle)
      ((env e).parent.toList ++ roots) := by
  have he : e ∈ live := hc.rooted e List.mem_cons_self
  have hidle : ∀ x ∈ idle, x ≠ e := fun x hx => ne_of_mem_of_not_mem hx (hc.not_idle he)
  have hperm : (live ++ idle).Perm (live.erase e ++ e :: idle) :=
    ((List.perm_cons_erase he).append_right idle).trans List.perm_middle.symm
  refine hc.leave hone (fun x _ hx => Function.update_of_ne hx _ _) (hperm.nodup_iff.1 hc.nodup)
    (fun x hx => hc.lt x (hperm.mem_iff.2 hx)) ?_ ?_
  · refine (hc.pooled.congr fun x hx => ?_).push ?_
    · rw [Function.update_of_ne (hidle x hx)]
    · rw [Function.update_self, hparent]
  · refine List.forall_mem_cons.2 ⟨?_, fun x hx => ?_⟩
    · rw [Function.update_self]
      exact ⟨hbuckets, hrefs⟩
    · rw [Function.update_of_ne (hidle x hx)]
      exact hc.blank x hx

/-- A root lets go, and those that nobody holds then are gone. Of the rest all is as it was. -/
theorem deref {fuel : ℕ} {way : List ℕ} (hc : Cells env next pool live idle (e :: roots))
    (hway : Climb.Path (fun e => (env e).parent) e way) (hle : way.length ≤ fuel) :
    ∃ live', live' ⊆ live ∧ Cells (Lookup.deref fuel env e) next pool live' idle roots ∧
      ∀ x, (Lookup.deref fuel env e x).buckets = (env x).buckets ∧
        (Lookup.deref fuel env e x).parent = (env x).parent := by
  induction way generalizing env live e fuel with
  | nil => exact absurd hway.length_pos (by simp)
  | cons c way ih =>
    obtain ⟨fuel, rfl⟩ : ∃ n, fuel = n + 1 := ⟨fuel - 1, by simp at hle; omega⟩
    have he : e ∈ live := hc.rooted e List.mem_cons_self
    have hsame : ∀ x, (unref env e x).buckets = (env x).buckets ∧
        (unref env e x).parent = (env x).parent := by
      intro x
      by_cases hx : x = e
      · rw [hx, unref, Function.update_self]
        exact ⟨rfl, rfl⟩
      · rw [unref, Function.update_of_ne hx]
        exact ⟨rfl, rfl⟩
    rw [Lookup.deref]
    split_ifs with hone
    · -- the last ref
      have hsub : live.erase e ++ idle ⊆ live ++ idle :=
        List.append_subset.2 ⟨fun x hx => List.mem_append_left _ (List.mem_of_mem_erase hx),
          fun x hx => List.mem_append_right _ hx⟩
      have hgone : Cells (unref env e) next pool (live.erase e) idle ((env e).parent.toList ++ roots) :=
        hc.leave hone (fun x _ hx => Function.update_of_ne hx _ _)
        ((List.erase_sublist.append_right idle).nodup hc.nodup) (fun x hx => hc.lt x (hsub hx))
        (hc.pooled.congr fun x _ => (hsame x).2) (fun x hx => by
          rw [unref, Function.update_of_ne (ne_of_mem_of_not_mem hx (hc.not_idle he))]
          exact hc.blank x hx)
      cases hway with
      | root hroot =>
        rw [hroot] at hgone ⊢
        exact ⟨_, List.erase_subset, hgone, hsame⟩
      | up hparent hrest =>
        rw [hparent] at hgone ⊢
        obtain ⟨live', hlive, hcells, hfields⟩ := ih hgone (hrest.congr fun x _ => (hsame x).2)
          (by simpa using hle)
        refine ⟨live', List.Subset.trans hlive List.erase_subset, hcells, fun x => ?_⟩
        rw [(hfields x).1, (hfields x).2]
        exact hsame x
    · refine ⟨live, List.Subset.refl _, ?_, hsame⟩
      refine hc.setRefs he rfl (fun x hx => hc.rooted x (List.mem_cons_of_mem _ hx)) ?_ (fun x hx => ?_)
      · have hcounted := hc.counted e he
        rw [holders, List.count_cons_self] at hcounted
        rw [List.count_cons_self]
        dsimp only
        omega
      · rw [List.count_cons_of_ne (Ne.symm hx)]

end Cells

end ChrysaLisp.Lookup
