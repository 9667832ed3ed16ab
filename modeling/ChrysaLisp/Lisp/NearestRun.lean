import ChrysaLisp.Lisp.Nearest

set_option autoImplicit false

/-! # Lookup finds the nearest binding, in every run

What a push, a pop and a value that comes or goes do to the environments there are, and then a step and
a run: every answer is the one the tree gives. -/

namespace ChrysaLisp.Lookup

variable {S V : Type} [DecidableEq S] {hash : S → ℕ} {l k : Lisp S V} {t u : Tree S V}
  {live idle idle' : List ℕ} {m : ℕ → ℕ} {e p : ℕ} {h : Hmap S V} {f : S → Option V}

/-- Some of the environments are as those of the tree. -/
def Simulated (hash : S → ℕ) (l : Lisp S V) (t : Tree S V) : Prop :=
  ∃ live idle m, Sim hash l t live idle m

theorem Named.ref (hn : Named hash l.env t live m) : Named hash (l.ref e 1).env t live m :=
  hn.sub (List.Subset.refl _) fun x _ => by
    by_cases hx : x = e
    · rw [hx, Lisp.ref, Lisp.env_put_self]
      exact ⟨rfl, rfl⟩
    · rw [Lisp.ref, Lisp.env_put_of_ne l hx]
      exact ⟨rfl, rfl⟩

namespace Sim

/-! ## One more -/

theorem held_update (hs : Sim hash l t live idle m) (he : e ∉ live) (n : ℕ) :
    t.held = l.held.map (Option.map (Function.update m e n)) := by
  rw [hs.held]
  refine List.map_congr_left fun o ho => ?_
  cases o with
  | none => rfl
  | some x =>
    have hx : x ∈ live := hs.cells.rooted x (mem_roots_held ho)
    rw [Option.map_some, Option.map_some, Function.update_of_ne (ne_of_mem_of_not_mem hx he)]

theorem saved_update (hs : Sim hash l t live idle m) (he : e ∉ live) (n : ℕ) :
    t.saved.map Prod.fst = l.saved.map (Function.update m e n) := by
  rw [hs.saved]
  refine List.map_congr_left fun x hx => ?_
  have hlive : x ∈ live := hs.cells.rooted x (List.mem_cons_of_mem _ (List.mem_append_right _ hx))
  rw [Function.update_of_ne (ne_of_mem_of_not_mem hlive he)]

/-- An empty environment under the task's, which is the task's then. -/
theorem push_of (hs : Sim hash l t live idle m) (he : e ∉ live) (hparent : h.parent = some l.environment)
    (hb : Binds hash h fun _ => none) (henv : k.env = Function.update l.env e h)
    (hen : k.environment = e) (hheld : k.held = l.held) (hsaved : k.saved = l.saved)
    (hcells : Cells k.env k.next k.env_pool (e :: live) idle' k.roots) :
    Sim hash k { t.add (some t.current) (fun _ => none) with current := t.next } (e :: live) idle'
      (Function.update m e t.next) where
  cells := hcells
  named := by
    have hp : ∀ p, h.parent = some p → p ∈ live := fun p hp => by
      rw [hparent] at hp
      exact Option.some.inj hp ▸ hs.environment_mem
    have hnamed := hs.named.join he hb hp hs.cells.closed
    rw [hparent, Option.map_some, ← hs.current, ← henv] at hnamed
    exact { hnamed with }
  current := by rw [hen, Function.update_self]
  held := by rw [hheld]; exact hs.held_update he t.next
  saved := by rw [hsaved]; exact hs.saved_update he t.next

/-- An environment that is a value's. -/
theorem new_of {env : ℕ → Hmap S V} (hs : Sim hash l t live idle m) (hn : Named hash env t live m)
    (hclosed : ∀ x ∈ live, ∀ p, (env x).parent = some p → p ∈ live) (he : e ∉ live)
    (hb : Binds hash h f) (hp : ∀ p, h.parent = some p → p ∈ live)
    (henv : k.env = Function.update env e h) (hen : k.environment = l.environment)
    (hheld : k.held = l.held ++ [some e]) (hsaved : k.saved = l.saved)
    (hcells : Cells k.env k.next k.env_pool (e :: live) idle' k.roots) :
    Sim hash k ((t.add (h.parent.map m) f).hold t.next) (e :: live) idle'
      (Function.update m e t.next) where
  cells := hcells
  named := by
    have hnamed := hn.join he hb hp hclosed
    rw [← henv] at hnamed
    exact { hnamed with }
  current := by
    rw [hen, Function.update_of_ne (ne_of_mem_of_not_mem hs.environment_mem he)]
    exact hs.current
  held := by
    rw [hheld, List.map_append, List.map_singleton, Option.map_some, Function.update_self,
      ← hs.held_update he t.next]
    rfl
  saved := by rw [hsaved]; exact hs.saved_update he t.next

theorem pool_mem (hs : Sim hash l t live idle m) (he : l.env_pool = some e) : e ∈ idle := by
  have hpooled := hs.cells.pooled
  rw [he] at hpooled
  obtain ⟨rest, hidle, -⟩ := hpooled.pop
  rw [hidle]
  exact List.mem_cons_self

theorem push (hs : Sim hash l t live idle m) (room : ℕ) (grow : ℕ → ℕ) :
    Simulated hash (l.envPush room grow)
      { t.add (some t.current) (fun _ => none) with current := t.next } := by
  rw [Lisp.envPush]
  cases hpool : l.env_pool with
  | none =>
    have hnew : l.next ∉ live := fun hmem => (hs.cells.live_lt hmem).ne rfl
    have hb : Binds hash { (Hmap.create room grow 1 : Hmap S V) with parent := some l.environment }
        (fun _ => none) := (binds_create hash room grow Nat.one_pos).congr rfl
    have hrefs : (Hmap.create room grow 1 : Hmap S V).refs = 1 := Hmap.refs_create grow room 1
    exact ⟨_, _, _, hs.push_of hnew rfl hb rfl rfl rfl rfl (hs.cells.add hrefs)⟩
  | some e =>
    have hcells := hs.cells
    rw [hpool] at hcells
    have hblank := hs.pool_mem hpool
    obtain ⟨hbuckets, hrefs⟩ := hs.cells.blank e hblank
    obtain ⟨rest, -, hrec⟩ := hcells.recycle (h := { l.env e with parent := some l.environment }) hrefs
    have hb : Binds hash { l.env e with parent := some l.environment } (fun _ => none) :=
      (binds_single hash (l.env e) holds_nil_pairsOf).congr hbuckets
    exact ⟨_, _, _, hs.push_of (fun hmem => hs.cells.not_idle hmem hblank) rfl hb rfl rfl rfl rfl hrec⟩

theorem create (hs : Sim hash l t live idle m) (room : ℕ) (grow : ℕ → ℕ) {n : ℕ} (hn : 0 < n) :
    Simulated hash ((l.add (Hmap.create room grow n)).hold l.next)
      ((t.add none fun _ => none).hold t.next) := by
  have hnew : l.next ∉ live := fun hmem => (hs.cells.live_lt hmem).ne rfl
  have hparent : (Hmap.create room grow n : Hmap S V).parent = none := Hmap.parent_create grow room n
  have hcells : Cells l.env l.next l.env_pool live idle
      ((Hmap.create room grow n : Hmap S V).parent.toList ++ l.roots) := by
    rw [hparent]
    exact hs.cells
  have hsim : Sim hash ((l.add (Hmap.create room grow n)).hold l.next)
      ((t.add ((Hmap.create room grow n : Hmap S V).parent.map m) fun _ => none).hold t.next)
      (l.next :: live) idle (Function.update m l.next t.next) :=
    hs.new_of hs.named hs.cells.closed hnew (binds_create hash room grow hn)
      (fun p hp => by rw [hparent] at hp; exact absurd hp (by simp)) rfl rfl rfl rfl
      ((hcells.add (Hmap.refs_create grow room n)).perm (roots_hold _ _).symm)
  rw [hparent] at hsim
  exact ⟨_, _, _, hsim⟩

/-! ## A ref more -/

/-- A value that is one of the environments there are. -/
theorem refHold (hs : Sim hash l t live idle m) (he : e ∈ live) :
    Sim hash ((l.ref e 1).hold e) (t.hold (m e)) live idle m where
  cells := (hs.cells.ref he).perm (roots_hold (l.ref e 1) e).symm
  named := { hs.named.ref with }
  current := hs.current
  held := by
    have hheld := hs.held
    rw [Tree.hold, Lisp.hold, List.map_append, hheld]
    rfl
  saved := hs.saved

theorem copy (hs : Sim hash l t live idle m) (he : e ∈ live) (room : ℕ) (grow : ℕ → ℕ) {n : ℕ}
    (hn : 0 < n) :
    Simulated hash ((((l.parent e).elim l (fun p => l.ref p 1)).add
      ((l.env e).copy room grow hash n)).hold l.next)
      ((t.add (t.parent (m e)) (t.binds (m e))).hold t.next) := by
  have hnew : l.next ∉ live := fun hmem => (hs.cells.live_lt hmem).ne rfl
  have hparent : ((l.env e).copy room grow hash n).parent = l.parent e := Hmap.parent_copy ..
  have hb := (hs.named.binds e he).copy room grow hn
  rw [hs.named.parent e he]
  cases hp : l.parent e with
  | none =>
    have hpe : (l.env e).parent = none := hp
    have hcells : Cells l.env l.next l.env_pool live idle
        (((l.env e).copy room grow hash n).parent.toList ++ l.roots) := by
      rw [hparent, hp]
      exact hs.cells
    have hsim : Sim hash ((l.add ((l.env e).copy room grow hash n)).hold l.next)
        ((t.add (((l.env e).copy room grow hash n).parent.map m) (t.binds (m e))).hold t.next)
        (l.next :: live) idle (Function.update m l.next t.next) :=
      hs.new_of hs.named hs.cells.closed hnew hb
        (fun q hq => by rw [hparent, hp] at hq; exact absurd hq (by simp)) rfl rfl rfl rfl
        ((hcells.add (Hmap.refs_copy ..)).perm (roots_hold _ _).symm)
    rw [hparent, hp] at hsim
    rw [hpe]
    exact ⟨_, _, _, hsim⟩
  | some p =>
    have hpe : (l.env e).parent = some p := hp
    have hlive : p ∈ live := hs.parent_mem he hp
    have hcells : Cells (l.ref p 1).env l.next l.env_pool live idle
        (((l.env e).copy room grow hash n).parent.toList ++ l.roots) := by
      rw [hparent, hp]
      exact hs.cells.ref hlive
    have hnamed : Named hash (l.ref p 1).env t live m := hs.named.ref
    have hsim : Sim hash (((l.ref p 1).add ((l.env e).copy room grow hash n)).hold l.next)
        ((t.add (((l.env e).copy room grow hash n).parent.map m) (t.binds (m e))).hold t.next)
        (l.next :: live) idle (Function.update m l.next t.next) :=
      hs.new_of hnamed hcells.closed hnew hb
        (fun q hq => by rw [hparent, hp] at hq; exact Option.some.inj hq ▸ hlive) rfl rfl rfl rfl
        ((hcells.add (Hmap.refs_copy ..)).perm (roots_hold _ _).symm)
    rw [hparent, hp] at hsim
    rw [hpe]
    exact ⟨_, _, _, hsim⟩

/-! ## A ref fewer -/

/-- What a deref leaves is as it was. -/
theorem deref_of {env : ℕ → Hmap S V} {roots : List ℕ} (hn : Named hash env t live m)
    (hcells : Cells env l.next l.env_pool live idle (e :: roots))
    (henv : k.env = deref l.next env e) (hnext : k.next = l.next) (hpool : k.env_pool = l.env_pool)
    (hperm : roots.Perm k.roots) (hu : Named hash env u live m)
    (hcurrent : u.current = m k.environment) (hheld : u.held = k.held.map (Option.map m))
    (hsaved : u.saved.map Prod.fst = k.saved.map m) : Simulated hash k u := by
  obtain ⟨way, hway, hlen, -, -⟩ := hn.way hcells (hcells.rooted e List.mem_cons_self)
  obtain ⟨live', hsub, hleft, hsame⟩ := hcells.deref hway hlen
  refine ⟨live', idle, m, ?_, ?_, hcurrent, hheld, hsaved⟩
  · rw [henv, hnext, hpool]
    exact hleft.perm hperm
  · rw [henv]
    exact hu.sub hsub fun x _ => hsame x

theorem drop (hs : Sim hash l t live idle m) {i : ℕ} (hi : l.value? i = some e) :
    Simulated hash { l.derefEnv e with held := l.held.set i none }
      { t with held := t.held.set i none } := by
  have hval := Option.join_eq_some_iff.1 hi
  have hheld : t.held.set i none = (l.held.set i none).map (Option.map m) := by
    rw [hs.held, List.map_set]
    rfl
  exact deref_of (k := { l.derefEnv e with held := l.held.set i none }) hs.named
    (hs.cells.perm (roots_drop l hval)) rfl rfl rfl (List.Perm.refl _) { hs.named with } hs.current hheld
    hs.saved

theorem pop (hs : Sim hash l t live idle m) (hp : l.parent l.environment = some p) :
    ∃ l', l.envPop = some l' ∧ Simulated hash l' { t with current := m p } := by
  have hpe : (l.env l.environment).parent = some p := hp
  have hlive : p ∈ live := hs.parent_mem hs.environment_mem hp
  rw [Lisp.envPop]
  dsimp only
  rw [hpe, Option.map_some]
  refine ⟨_, rfl, ?_⟩
  by_cases hfast : (l.env l.environment).refs = 1 ∧ (l.env l.environment).grown = false ∧
      (l.env l.environment).buckets.length = 1
  · rw [if_pos hfast]
    have hret := hs.cells.retire (h := { l.env l.environment with buckets := [[]], parent := l.env_pool })
      hfast.1 rfl rfl hfast.1
    rw [hpe] at hret
    refine ⟨live.erase l.environment, l.environment :: idle, m, hret, ?_, rfl, hs.held, hs.saved⟩
    have hsame : ∀ x ∈ live.erase l.environment, (Function.update l.env l.environment
        { l.env l.environment with buckets := [[]], parent := l.env_pool }) x = l.env x := fun x hx =>
      Function.update_of_ne (hs.cells.live_nodup.mem_erase_iff.1 hx).1 ..
    have hnamed := hs.named.sub List.erase_subset fun x hx =>
      ⟨congrArg Hmap.buckets (hsame x hx), congrArg Hmap.parent (hsame x hx)⟩
    exact { hnamed with }
  · rw [if_neg hfast]
    have hnamed : Named hash (l.ref p 1).env t live m := hs.named.ref
    exact deref_of (k := { (l.ref p 1).derefEnv l.environment with environment := p }) hnamed
      ((hs.cells.ref hlive).perm (List.Perm.swap ..)) rfl rfl rfl (List.Perm.refl _) { hnamed with } rfl
      hs.held hs.saved

/-! ## Another parent -/

/-- One put elsewhere, and another is the task's. -/
theorem reparent_of (hs : Sim hash l t live idle m) (he : e ∈ live) (hp : p ∈ live)
    (hbuckets : h.buckets = (l.env e).buckets) (hclosed : ∀ q, h.parent = some q → q ∈ live)
    (hrooted : Rooted (Function.update t.parent (m e) (h.parent.map m)) t.next)
    (hself : h.refs + (if l.environment = e then 1 else 0) + (l.env e).parent.toList.count e =
      (l.env e).refs + (if p = e then 1 else 0) + 1 + h.parent.toList.count e)
    (hrest : ∀ x, x ≠ e → (if p = x then 1 else 0) + h.parent.toList.count x =
      (if l.environment = x then 1 else 0) + (l.env e).parent.toList.count x) :
    Sim hash { (l.put e h).hold e with environment := p }
      { (t.reparent (m e) (h.parent.map m)).hold (m e) with current := m p } live idle m where
  cells := by
    have hcells : Cells (Function.update l.env e h) l.next l.env_pool live idle
        (e :: p :: (l.held.reduceOption ++ l.saved)) := by
      refine hs.cells.reparent he hclosed ?_ ?_ (fun x hx => ?_)
      · refine List.forall_mem_cons.2 ⟨he, List.forall_mem_cons.2 ⟨hp, fun x hx => ?_⟩⟩
        exact hs.cells.rooted x (List.mem_cons_of_mem _ hx)
      · rw [Lisp.roots, List.count_cons, List.count_cons, List.count_cons]
        simp only [beq_iff_eq, if_true]
        omega
      · have := hrest x hx
        rw [Lisp.roots, List.count_cons, List.count_cons, List.count_cons]
        simp only [beq_iff_eq, hx.symm, if_false]
        omega
    exact hcells.perm (roots_hold { l.put e h with environment := p } e).symm
  named := { hs.named.reparent he hbuckets hrooted with }
  current := rfl
  held := by
    have hheld := hs.held
    rw [Tree.hold, Lisp.hold, List.map_append, Tree.reparent]
    dsimp only
    rw [hheld]
    rfl
  saved := hs.saved

theorem lispEnvPush (hs : Sim hash l t live idle m) (he : e ∈ live) (hpe : l.parent e = none)
    (hnot : m e ∉ Climb.nodes t.parent t.next t.current) :
    Simulated hash (l.lispEnvPush e).1
      { (t.reparent (m e) (some t.current)).hold (m e) with current := m e } := by
  have henv := hs.environment_mem
  have hnone : (l.env e).parent = none := hpe
  have hcurrent : t.current < t.next := hs.current ▸ hs.named.lt _ henv
  have hparent : t.parent (m e) = none := by rw [hs.named.parent e he, hnone, Option.map_none]
  rw [Lisp.lispEnvPush, if_pos hpe]
  rw [hs.current] at hcurrent hnot ⊢
  refine ⟨live, idle, m, hs.reparent_of
    (h := { l.env e with parent := some l.environment, refs := (l.env e).refs + 2 }) he he rfl
    (fun q hq => Option.some.inj hq ▸ henv) (hs.named.rooted.hang hparent hcurrent hnot) ?_ ?_⟩
  · rw [hnone]
    simp only [Option.toList_none, Option.toList_some, List.count_nil, List.count_singleton, beq_iff_eq,
      if_true]
    omega
  · intro x hx
    rw [hnone]
    simp only [Option.toList_none, Option.toList_some, List.count_nil, List.count_singleton, beq_iff_eq,
      hx.symm, if_false]
    omega

theorem lispEnvPop (hs : Sim hash l t live idle m) (hp : l.parent l.environment = some p) :
    Simulated hash (l.lispEnvPop).1
      { (t.reparent t.current none).hold t.current with current := m p } := by
  have henv := hs.environment_mem
  have hpe : (l.env l.environment).parent = some p := hp
  rw [Lisp.lispEnvPop]
  dsimp only
  rw [hp, hs.current]
  refine ⟨live, idle, m, hs.reparent_of (h := { l.env l.environment with parent := none }) henv
    (hs.parent_mem henv hp) rfl (fun q hq => absurd hq (by simp)) hs.named.rooted.cut ?_ ?_⟩
  · rw [hpe]
    simp only [Option.toList_none, Option.toList_some, List.count_nil, List.count_singleton, beq_iff_eq,
      if_true]
    omega
  · intro x hx
    rw [hpe]
    simp only [Option.toList_none, Option.toList_some, List.count_nil, List.count_singleton, beq_iff_eq,
      hx.symm, if_false]
    omega

/-! ## An `eval` in an environment -/

theorem enter (hs : Sim hash l t live idle m) {i : ℕ} (hi : l.value? i = some e) :
    Simulated hash
      { l with environment := e, held := l.held.set i none, saved := l.environment :: l.saved }
      { t with current := m e, held := t.held.set i none, saved := (t.current, m e) :: t.saved } := by
  have hval := Option.join_eq_some_iff.1 hi
  have hperm : (e :: { l with held := l.held.set i none }.roots).Perm
      (e :: ((l.held.set i none).reduceOption ++ l.environment :: l.saved)) :=
    List.Perm.cons e List.perm_middle.symm
  refine ⟨live, idle, m, hs.cells.perm ((roots_drop l hval).trans hperm), { hs.named with }, rfl, ?_, ?_⟩
  · dsimp only
    rw [hs.held, List.map_set]
    rfl
  · rw [List.map_cons, List.map_cons, hs.saved, hs.current]

theorem leave (hs : Sim hash l t live idle m) {old : ℕ} {rest : List ℕ} {saved : List (ℕ × ℕ)}
    (hl : l.saved = old :: rest) (ht : saved.map Prod.fst = rest.map m) :
    Simulated hash { l.hold l.environment with environment := old, saved := rest }
      { t.hold (m l.environment) with current := m old, saved := saved } := by
  have hroots : l.roots.Perm { l.hold l.environment with environment := old, saved := rest }.roots := by
    have hperm := roots_hold { l with environment := old, saved := rest } l.environment
    refine List.Perm.trans ?_ hperm.symm
    rw [Lisp.roots, hl]
    exact List.Perm.cons _ List.perm_middle
  refine ⟨live, idle, m, hs.cells.perm hroots, { hs.named with }, rfl, ?_, ht⟩
  rw [Tree.hold, Lisp.hold, List.map_append, hs.held]
  rfl

/-! ## Searches -/

theorem get (hs : Sim hash l t live idle m) (he : e ∈ live) (key : S) :
    Simulated hash (l.get hash e key).1 t ∧
      (l.get hash e key).2 = .value (t.lookup (m e) key) := by
  refine ⟨⟨live, idle, m, hs.slot _⟩, ?_⟩
  rw [Lisp.get, Tree.lookup]
  rcases hs.search he key with ⟨hnone, hno⟩ | ⟨x, i, v, hsome, -, -, hv, hnear, hbinds⟩
  · rw [hnone, hno]
    rfl
  · rw [hsome, hnear]
    dsimp only
    rw [Option.bind_some, Option.bind_some, hv, hbinds]

theorem set (hs : Sim hash l t live idle m) (he : e ∈ live) (key : S) (value : V) :
    (t.nearest (m e) key = none ∧ l.set hash e key value = (l, .found false)) ∨
      ∃ x k, t.nearest (m e) key = some (m x) ∧ l.set hash e key value = (k, .found true) ∧
        Simulated hash k (t.bind (m x) [(key, value)]) := by
  rcases hs.search he key with ⟨hnone, hno⟩ | ⟨x, i, v, hsome, hx, hi, -, hnear, -⟩
  · exact Or.inl ⟨hno, by rw [Lisp.set, hnone]⟩
  · refine Or.inr ⟨x, _, hnear, by rw [Lisp.set, hsome], ⟨live, idle, m, ?_⟩⟩
    exact hs.edit (h := (l.env x).setValue hash key i value) hx rfl rfl
      ((hs.named.binds x hx).setValue hi value) _

theorem defx (hs : Sim hash l t live idle m) (he : e ∈ live) (key : S) :
    Simulated hash (l.defx hash e key).1 t ∧ (l.defx hash e key).2 = .value (t.binds (m e) key) :=
  ⟨⟨live, idle, m, hs.slot _⟩, congrArg Answer.value ((hs.named.binds e he).look l.slot key).symm⟩

theorem undef (hs : Sim hash l t live idle m) (he : e ∈ live) (key : S) :
    Simulated hash (l.undef hash e key)
      (t.rebind (m e) (Function.update (t.binds (m e)) key none)) :=
  ⟨live, idle, m, hs.edit he (Hmap.parent_undef ..) (Hmap.refs_undef ..)
    ((hs.named.binds e he).undef l.slot key) _⟩

theorem resize (hs : Sim hash l t live idle m) (he : e ∈ live) (room : ℕ) (grow : ℕ → ℕ) {n : ℕ}
    (hn : 0 < n) : Simulated hash (l.put e ((l.env e).resize room grow hash n)) t := by
  have hsim := hs.edit he (Hmap.parent_resize grow (l.env e) room hash n)
    (Hmap.refs_resize grow (l.env e) room hash n) ((hs.named.binds e he).resize room grow hn) l.slot
  have hself : t.rebind (m e) (t.binds (m e)) = t := by
    rw [Tree.rebind, Function.update_eq_self]
  rw [hself] at hsim
  exact ⟨live, idle, m, hsim⟩

end Sim

/-! ## A step -/

/-- What is done to an environment of the tree is done to the task's of that name. -/
theorem Sim.which_map {α : Type} {w : Option ℕ} {g : ℕ → α} {r : α} (hs : Sim hash l t live idle m)
    (h : (t.which w).map g = some r) : ∃ e, l.which w = some e ∧ e ∈ live ∧ g (m e) = r := by
  obtain ⟨x, hx, hr⟩ := Option.map_eq_some_iff.1 h
  rw [hs.which] at hx
  obtain ⟨e, he, rfl⟩ := Option.map_eq_some_iff.1 hx
  exact ⟨e, he, hs.which_mem he, hr⟩

/-- A step the tree takes the task takes, with the same answer. -/
theorem Simulated.step (room : ℕ) (grow : ℕ → ℕ) {op : Op S V} {a : Answer V}
    (hsim : Simulated hash l t) (hstep : t.step op = some (u, a)) :
    ∃ k, l.step hash room grow op = some (k, a) ∧ Simulated hash k u := by
  obtain ⟨live, idle, m, hs⟩ := hsim
  have hparent : ∀ e ∈ live, t.parent (m e) = (l.parent e).map m := hs.named.parent
  have hcurrent : t.parent t.current = (l.parent l.environment).map m := by
    rw [hs.current, hparent _ hs.environment_mem]
  cases op with
  | push =>
    obtain ⟨rfl, rfl⟩ := Prod.mk.inj (Option.some.inj hstep)
    exact ⟨_, rfl, hs.push room grow⟩
  | pop =>
    rw [Tree.step, hcurrent] at hstep
    split at hstep
    · obtain ⟨x, hx, hr⟩ := Option.map_eq_some_iff.1 hstep
      obtain ⟨p, hp, rfl⟩ := Option.map_eq_some_iff.1 hx
      obtain ⟨rfl, rfl⟩ := Prod.mk.inj hr
      obtain ⟨k, hk, hkt⟩ := hs.pop hp
      exact ⟨k, by rw [Lisp.step, hk, Option.map_some], hkt⟩
    · exact absurd hstep (by simp)
  | envPush i =>
    obtain ⟨x, hx, hr⟩ := Option.bind_eq_some_iff.1 hstep
    rw [hs.value?] at hx
    obtain ⟨e, hi, rfl⟩ := Option.map_eq_some_iff.1 hx
    have he := hs.held_mem hi
    rw [hparent e he, Option.isSome_map] at hr
    have hk : l.step hash room grow (.envPush i) = some (l.lispEnvPush e) := by
      rw [Lisp.step, hi, Option.map_some]
    cases hpe : l.parent e with
    | some p =>
      rw [hpe, Option.isSome_some, if_pos rfl] at hr
      obtain ⟨rfl, rfl⟩ := Prod.mk.inj (Option.some.inj hr)
      rw [Lisp.lispEnvPush, if_neg (by rw [hpe]; simp)] at hk
      exact ⟨l, hk, ⟨live, idle, m, hs⟩⟩
    | none =>
      rw [hpe, Option.isSome_none, if_neg (by simp)] at hr
      split at hr
      · exact absurd hr (by simp)
      · rename_i hnot
        obtain ⟨rfl, rfl⟩ := Prod.mk.inj (Option.some.inj hr)
        refine ⟨_, hk.trans ?_, hs.lispEnvPush he hpe hnot⟩
        rw [Lisp.lispEnvPush, if_pos hpe]
  | envPop =>
    rw [Tree.step, hcurrent] at hstep
    cases hp : l.parent l.environment with
    | none =>
      rw [hp] at hstep
      obtain ⟨rfl, rfl⟩ := Prod.mk.inj (Option.some.inj hstep)
      refine ⟨l, ?_, ⟨live, idle, m, hs⟩⟩
      rw [Lisp.step, Lisp.lispEnvPop]
      dsimp only
      rw [hp]
    | some p =>
      rw [hp, Option.map_some] at hstep
      dsimp only at hstep
      split at hstep
      · obtain ⟨rfl, rfl⟩ := Prod.mk.inj (Option.some.inj hstep)
        refine ⟨_, ?_, hs.lispEnvPop hp⟩
        rw [Lisp.step, Lisp.lispEnvPop]
        dsimp only
        rw [hp]
      · exact absurd hstep (by simp)
  | create num =>
    rw [Tree.step] at hstep
    rw [Lisp.step]
    by_cases hnum : num < 1
    · rw [if_pos hnum] at hstep ⊢
      obtain ⟨rfl, rfl⟩ := Prod.mk.inj (Option.some.inj hstep)
      exact ⟨l, rfl, ⟨live, idle, m, hs⟩⟩
    · rw [if_neg hnum] at hstep ⊢
      obtain ⟨rfl, rfl⟩ := Prod.mk.inj (Option.some.inj hstep)
      exact ⟨_, rfl, hs.create room grow (by omega)⟩
  | here =>
    obtain ⟨rfl, rfl⟩ := Prod.mk.inj (Option.some.inj hstep)
    refine ⟨_, rfl, ⟨live, idle, m, ?_⟩⟩
    rw [hs.current]
    exact hs.refHold hs.environment_mem
  | penv w =>
    obtain ⟨e, hw, he, hr⟩ := hs.which_map hstep
    rw [hparent e he] at hr
    rw [Lisp.step, hw, Option.map_some]
    cases hp : l.parent e with
    | none =>
      rw [hp] at hr
      obtain ⟨rfl, rfl⟩ := Prod.mk.inj hr
      exact ⟨l, rfl, ⟨live, idle, m, hs⟩⟩
    | some p =>
      rw [hp] at hr
      obtain ⟨rfl, rfl⟩ := Prod.mk.inj hr
      exact ⟨_, rfl, ⟨live, idle, m, hs.refHold (hs.parent_mem he hp)⟩⟩
  | drop i =>
    obtain ⟨e, hi, he, hr⟩ := hs.which_map (w := some i) hstep
    obtain ⟨rfl, rfl⟩ := Prod.mk.inj hr
    have hval : l.value? i = some e := hi
    exact ⟨_, by rw [Lisp.step, hval, Option.map_some], hs.drop hval⟩
  | enter i =>
    obtain ⟨e, hi, he, hr⟩ := hs.which_map (w := some i) hstep
    obtain ⟨rfl, rfl⟩ := Prod.mk.inj hr
    have hval : l.value? i = some e := hi
    exact ⟨_, by rw [Lisp.step, hval, Option.map_some], hs.enter hval⟩
  | leave =>
    have hsaved := hs.saved
    rw [Tree.step] at hstep
    cases ht : t.saved with
    | nil =>
      rw [ht] at hstep
      exact absurd hstep (by simp)
    | cons s saved =>
      obtain ⟨x, y⟩ := s
      rw [ht, List.map_cons] at hsaved
      obtain ⟨old, rest, hl, rfl, hrest⟩ := List.map_eq_cons_iff.1 hsaved.symm
      rw [ht] at hstep
      dsimp only at hstep
      split at hstep
      · rename_i hxe
        obtain ⟨rfl, rfl⟩ := Prod.mk.inj (Option.some.inj hstep)
        refine ⟨_, by rw [Lisp.step, hl], ?_⟩
        rw [← hxe, hs.current]
        exact hs.leave hl hrest.symm
      · exact absurd hstep (by simp)
  | bind steal args =>
    obtain ⟨rfl, rfl⟩ := Prod.mk.inj (Option.some.inj hstep)
    refine ⟨_, rfl, ⟨live, idle, m, ?_⟩⟩
    rw [hs.current]
    exact hs.envBind grow steal args
  | define w key value =>
    obtain ⟨e, hw, he, hr⟩ := hs.which_map hstep
    obtain ⟨rfl, rfl⟩ := Prod.mk.inj hr
    exact ⟨_, by rw [Lisp.step, hw, Option.map_some], ⟨live, idle, m, hs.pinsert he grow key value⟩⟩
  | undef w key =>
    obtain ⟨e, hw, he, hr⟩ := hs.which_map hstep
    obtain ⟨rfl, rfl⟩ := Prod.mk.inj hr
    exact ⟨_, by rw [Lisp.step, hw, Option.map_some], hs.undef he key⟩
  | set w key value =>
    obtain ⟨e, hw, he, hr⟩ := hs.which_map hstep
    have hk : l.step hash room grow (.set w key value) = some (l.set hash e key value) := by
      rw [Lisp.step, hw, Option.map_some]
    rcases hs.set he key value with ⟨hnear, hset⟩ | ⟨x, k, hnear, hset, hkt⟩
    · rw [hnear] at hr
      obtain ⟨rfl, rfl⟩ := Prod.mk.inj hr
      exact ⟨l, hk.trans (congrArg some hset), ⟨live, idle, m, hs⟩⟩
    · rw [hnear] at hr
      obtain ⟨rfl, rfl⟩ := Prod.mk.inj hr
      exact ⟨k, hk.trans (congrArg some hset), hkt⟩
  | get w key =>
    obtain ⟨e, hw, he, hr⟩ := hs.which_map hstep
    obtain ⟨rfl, rfl⟩ := Prod.mk.inj hr
    obtain ⟨hkt, ha⟩ := hs.get he key
    exact ⟨_, by rw [Lisp.step, hw, Option.map_some, ← ha], hkt⟩
  | defx w key =>
    obtain ⟨e, hw, he, hr⟩ := hs.which_map hstep
    obtain ⟨rfl, rfl⟩ := Prod.mk.inj hr
    obtain ⟨hkt, ha⟩ := hs.defx he key
    exact ⟨_, by rw [Lisp.step, hw, Option.map_some, ← ha], hkt⟩
  | resize w num =>
    obtain ⟨e, hw, he, hr⟩ := hs.which_map hstep
    obtain ⟨rfl, rfl⟩ := Prod.mk.inj hr
    rw [Lisp.step, hw, Option.map_some]
    by_cases hnum : num < 1
    · rw [if_pos hnum, if_pos hnum]
      exact ⟨l, rfl, ⟨live, idle, m, hs⟩⟩
    · rw [if_neg hnum, if_neg hnum]
      exact ⟨_, rfl, hs.resize he room grow (by omega)⟩
  | copy w num =>
    obtain ⟨e, hw, he, hr⟩ := hs.which_map hstep
    rw [Lisp.step, hw, Option.map_some]
    by_cases hnum : num < 1
    · rw [if_pos hnum] at hr ⊢
      obtain ⟨rfl, rfl⟩ := Prod.mk.inj hr
      exact ⟨l, rfl, ⟨live, idle, m, hs⟩⟩
    · rw [if_neg hnum] at hr ⊢
      obtain ⟨rfl, rfl⟩ := Prod.mk.inj hr
      exact ⟨_, rfl, hs.copy he room grow (by omega)⟩
  | slot key n =>
    obtain ⟨rfl, rfl⟩ := Prod.mk.inj (Option.some.inj hstep)
    exact ⟨_, rfl, ⟨live, idle, m, hs.slot _⟩⟩

/-! ## A run -/

/-- By induction on the run: the answers are the tree's. -/
theorem Simulated.run (room : ℕ) (grow : ℕ → ℕ) {ops : List (Op S V)} {answers : List (Answer V)}
    (hsim : Simulated hash l t) (hrun : t.run ops = some (u, answers)) :
    ∃ k, l.run hash room grow ops = some (k, answers) ∧ Simulated hash k u := by
  induction ops generalizing l t answers with
  | nil =>
    obtain ⟨rfl, rfl⟩ := Prod.mk.inj (Option.some.inj hrun)
    exact ⟨l, rfl, hsim⟩
  | cons op ops ih =>
    obtain ⟨⟨t', a⟩, hstep, hrest⟩ := Option.bind_eq_some_iff.1 hrun
    obtain ⟨⟨u', answers'⟩, hrest', hr⟩ := Option.map_eq_some_iff.1 hrest
    obtain ⟨rfl, rfl⟩ := Prod.mk.inj hr
    obtain ⟨l', hl', hsim'⟩ := hsim.step room grow hstep
    obtain ⟨k, hk, hku⟩ := ih hsim' hrest'
    refine ⟨k, ?_, hku⟩
    rw [Lisp.run, hl', Option.bind_some]
    dsimp only
    rw [hk, Option.map_some]

theorem simulated_boot (hash : S → ℕ) (room : ℕ) (grow : ℕ → ℕ) (slot : S → ℕ) :
    Simulated hash (Lisp.boot room grow slot) (Tree.root : Tree S V) := by
  refine ⟨[0], [], id, ?_, ?_, rfl, rfl, rfl⟩
  · refine ⟨List.nodup_singleton 0, ?_, ?_, ?_, ?_, rfl, ?_⟩
    · exact List.forall_mem_singleton.2 Nat.one_pos
    · exact List.forall_mem_singleton.2 List.mem_cons_self
    · refine List.forall_mem_singleton.2 fun p hp => ?_
      exact absurd ((Hmap.parent_create (S := S) (V := V) grow room 1).symm.trans hp) (by simp)
    · have hparents : parents (Lisp.boot room grow slot : Lisp S V).env [0] = [] := by
        rw [parents_cons, Lisp.boot, Hmap.parent_create]
        rfl
      refine List.forall_mem_singleton.2 ((Hmap.refs_create grow room 1).trans ?_)
      rw [holders, hparents]
      rfl
    · exact fun e he => absurd he List.not_mem_nil
  · refine ⟨rooted_root, ?_, ?_, ?_, ?_⟩
    · exact fun x _ y _ hxy => hxy
    · exact List.forall_mem_singleton.2 Nat.one_pos
    · exact List.forall_mem_singleton.2 (by rw [Lisp.boot, Hmap.parent_create]; rfl)
    · exact List.forall_mem_singleton.2 (binds_create hash room grow Nat.one_pos)

/-- The hinted lookups of any run answer as plain searches for the nearest binding would, whatever
    the slots say at first. An environment the pool hands out again has nothing bound, and its only
    parent is the task's. -/
theorem run_nearest (hash : S → ℕ) (room : ℕ) (grow : ℕ → ℕ) (slot : S → ℕ) (ops : List (Op S V))
    (answers : List (Answer V)) (hrun : Tree.root.run ops = some (u, answers)) :
    ∃ l, (Lisp.boot room grow slot).run hash room grow ops = some (l, answers) ∧
      ∀ e, l.env_pool = some e →
        (l.envPush room grow).environment = e ∧ ((l.envPush room grow).env e).buckets = [[]] ∧
          (l.envPush room grow).parent e = some l.environment := by
  obtain ⟨l, hl, hsim⟩ := (simulated_boot hash room grow slot).run room grow hrun
  refine ⟨l, hl, fun e he => ?_⟩
  obtain ⟨live, idle, m, hs⟩ := hsim
  obtain ⟨hbuckets, -⟩ := hs.cells.blank e (hs.pool_mem he)
  rw [Lisp.envPush, he, Lisp.parent]
  dsimp only
  rw [Lisp.env_put_self]
  exact ⟨rfl, hbuckets, rfl⟩

theorem run_nearest_rebound :
    ∃ t, Tree.root.run [.define none 3 1, .push, .bind false [(3, 2), (3, 5)], .get none 3, .pop,
        .get none 3, .push, .get none 3, .pop] =
      some (t, [.done, .done, .done, .value (some 5), .done, .value (some 1), .done, .value (some 1),
        .done]) ∧
      ∃ l, (Lisp.boot 8 id id).run id 8 id [.define none 3 1, .push, .bind false [(3, 2), (3, 5)],
          .get none 3, .pop, .get none 3, .push, .get none 3, .pop] =
        some (l, [.done, .done, .done, .value (some 5), .done, .value (some 1), .done, .value (some 1),
          .done]) ∧
        ∀ e, l.env_pool = some e →
          (l.envPush 8 id).environment = e ∧ ((l.envPush 8 id).env e).buckets = [[]] ∧
            (l.envPush 8 id).parent e = some l.environment :=
  ⟨_, rfl, run_nearest id 8 id id _ _ rfl⟩

end ChrysaLisp.Lookup
