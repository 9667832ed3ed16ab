import ChrysaLisp.Route.Ping
import Mathlib.Logic.Relation
import Mathlib.Data.List.Chain

set_option autoImplicit false

/-! # Ways that do not loop

A way of an entry is a peer that had heard of the same session nearer by, when it sent word of it. What
that peer has of it since is of a later session, or nearer still, or it has lost its way (`Ahead`). So
long as no node that has lost its way takes a ping of the session it held, that goes on being so, and
then nobody can go round in a circle (`routes_never_loop`).

Such a ping is taken for a better route, as `+node_hops_none` has it, and then they can: the ping may
have come by way of the very node that takes it (`routes_loop`). -/

namespace ChrysaLisp.Route

open Run Relation

variable {ν : Type*}

/-- A node sends what is for the origin by one of its peers. -/
def Via (net : Net ν) (origin node peer : ν) : Prop :=
  node ≠ origin ∧ ∃ e, net.map node origin = some e ∧ peer ∈ e.vias

/-- A node with no way to the origin does not take a ping of the session it has of it. -/
def Heeds (net : Net ν) : Act ν → Prop
  | .come p => ∀ e, net.map p.dest p.origin = some e → e.vias = [] → e.session ≠ p.session
  | _ => True

instance decidableHeeds [DecidableEq ν] (net : Net ν) : ∀ act, Decidable (Heeds net act)
  | .come p =>
      match h : net.map p.dest p.origin with
      | none => isTrue (fun _ he => nomatch h.symm.trans he)
      | some e => decidable_of_iff (e.vias = [] → e.session ≠ p.session)
          ⟨fun hne _ he => Option.some.inj (h.symm.trans he) ▸ hne, fun hne => hne e h⟩
  | .ping _ _ | .lose _ | .forget _ _ => isTrue trivial

section Ahead

variable {net : Net ν} {origin node peer : ν} {e e' : Entry ν} {s h : ℤ} {p : Ping ν}

/-- A node is ahead of a place on the way to the origin: it is the origin, or what it has of it is of
    a later session, or of the same and nearer, or with no way left. -/
def Ahead (net : Net ν) (origin node : ν) (s h : ℤ) : Prop :=
  node = origin ∨ ∃ e, net.map node origin = some e ∧
    (s < e.session ∨ s = e.session ∧ (e.vias = [] ∨ e.hops < h))

/-- An entry is as far on as another, if what the other was ahead of it is ahead of too. -/
def Entry.Onward (e e' : Entry ν) : Prop :=
  e.session < e'.session ∨
    e.session = e'.session ∧ (e'.vias = [] ∨ e.vias ≠ [] ∧ e'.hops ≤ e.hops)

theorem Ahead.onward (h' : Ahead net origin node s h) {net' : Net ν}
    (hmap : ∀ e, net.map node origin = some e → ∃ e', net'.map node origin = some e' ∧ e.Onward e') :
    Ahead net' origin node s h := by
  rcases h' with rfl | ⟨e, he, hlt⟩
  · exact Or.inl rfl
  · obtain ⟨e', he', hon⟩ := hmap e he
    refine Or.inr ⟨e', he', ?_⟩
    rcases hon with hsession | ⟨hsession, hlost | ⟨hway, hhops⟩⟩
    · omega
    · rcases hlt with hlt | ⟨heq, -⟩
      · omega
      · exact Or.inr ⟨heq.trans hsession, Or.inl hlost⟩
    · rcases hlt with hlt | ⟨heq, hnone | hhop⟩
      · omega
      · exact absurd hnone hway
      · exact Or.inr ⟨heq.trans hsession, Or.inr (by omega)⟩

theorem Entry.Onward.refl (e : Entry ν) : e.Onward e := by
  refine Or.inr ⟨rfl, ?_⟩
  by_cases hnone : e.vias = []
  · exact Or.inl hnone
  · exact Or.inr ⟨hnone, le_rfl⟩

/-- A ping takes an entry on, if it has a way or the ping is not of its session. -/
theorem Entry.onward_take (hheeds : e.vias = [] → e.session ≠ p.session) : e.Onward (e.take p).1 := by
  rcases e.take_cases p with ⟨htake, hlt | ⟨heq, hhops⟩⟩ | ⟨htake, heq, hhops⟩ | ⟨htake, -⟩
  · rw [htake]
    exact Or.inl hlt
  · rw [htake]
    exact Or.inr ⟨heq, Or.inr ⟨fun hnone => hheeds hnone heq, hhops.le⟩⟩
  · rw [htake]
    exact Or.inr ⟨rfl, Or.inr ⟨fun hnone => hheeds hnone heq, le_rfl⟩⟩
  · rw [htake]
    exact .refl e

variable [DecidableEq ν]

/-- Everything `behind_callback` can do to an entry. -/
theorem Entry.behind_cases (peer key : ν) (e : Entry ν) : e.behind peer key = e ∨
    ((e.behind peer key).vias = [] ∧
      ((e.behind peer key).session = e.session ∨ (e.behind peer key).session = nodeSessionGone)) ∨
    (e.behind peer key).session = e.session ∧ (e.behind peer key).hops = e.hops ∧ e.vias ≠ [] ∧
      ∀ via ∈ (e.behind peer key).vias, via ∈ e.vias := by
  unfold Entry.behind
  dsimp only
  split_ifs with hless hnone hkey
  · exact Or.inr (Or.inl ⟨rfl, Or.inr rfl⟩)
  · exact Or.inr (Or.inl ⟨rfl, Or.inl rfl⟩)
  · refine Or.inr (Or.inr ⟨rfl, rfl, fun hnil => ?_, fun via hvia => (List.mem_filter.mp hvia).1⟩)
    rw [hnil] at hless
    exact absurd hless (Nat.not_lt_zero _)
  · exact Or.inl rfl

theorem Entry.onward_behind (peer key : ν) (hgone : e.session ≤ nodeSessionGone) :
    e.Onward (e.behind peer key) := by
  rcases e.behind_cases peer key with hsame | ⟨hnone, hsession⟩ | ⟨hsession, hhops, hway, -⟩
  · rw [hsame]
    exact .refl e
  · unfold Entry.Onward
    rcases hsession with hsession | hsession
    · exact Or.inr ⟨hsession.symm, Or.inl hnone⟩
    · rw [hsession]
      rcases lt_or_eq_of_le hgone with hlt | heq
      · exact Or.inl hlt
      · exact Or.inr ⟨heq, Or.inl hnone⟩
  · exact Or.inr ⟨hsession.symm, Or.inr ⟨hway, hhops.le⟩⟩

end Ahead

/-! ## The invariant -/

/-- Every way of every entry is ahead of it, and the one that sent a ping that is on its way is ahead of
    what it says. -/
structure Net.Ordered (net : Net ν) (origin : ν) : Prop where
  vias : ∀ node e, net.map node origin = some e → ∀ via ∈ e.vias,
    Ahead net origin via e.session e.hops
  flying : ∀ p ∈ net.flying, p.origin = origin → Ahead net origin p.via p.session p.hops
  entries : ∀ node e, net.map node origin = some e → e.session ≤ nodeSessionGone
  pings : ∀ p ∈ net.flying, p.origin = origin → p.session ≤ nodeSessionGone

section Ordered

variable {net : Net ν} {origin : ν}

theorem ordered_start (links : ν → List (Option ν)) (origin : ν) :
    (start links).Ordered origin where
  vias _ _ he := nomatch he
  flying _ hp := nomatch hp
  entries _ _ he := nomatch he
  pings _ hp := nomatch hp

/-- The entry a ping is taken into, with what was so of the one there was. -/
theorem Net.Ordered.entry (h : net.Ordered origin) (node : ν) :
    (∀ via ∈ (net.entry node origin).vias,
      Ahead net origin via (net.entry node origin).session (net.entry node origin).hops) ∧
      (net.entry node origin).session ≤ nodeSessionGone := by
  unfold Net.entry
  cases he : net.map node origin with
  | none =>
      refine ⟨fun via hvia => absurd hvia List.not_mem_nil, ?_⟩
      show (-1 : ℤ) ≤ nodeSessionGone
      decide
  | some e => exact ⟨h.vias node e he, h.entries node e he⟩

variable [DecidableEq ν]

/-- A ping that is heard leaves everyone as far on as they were. -/
theorem onward_hear {p : Ping ν} (hheeds : Heeds net (.come p)) (node : ν) :
    ∀ e, net.map node origin = some e →
      ∃ e', (net.hear p).map node origin = some e' ∧ e.Onward e' := by
  intro e he
  by_cases hhere : node = p.dest ∧ origin = p.origin
  · obtain ⟨rfl, rfl⟩ := hhere
    have hentry : net.entry p.dest p.origin = e := by
      unfold Net.entry
      rw [he, Option.getD_some]
    refine ⟨_, entry_hear_self net p, ?_⟩
    rw [hentry]
    exact Entry.onward_take (hheeds e he)
  · exact ⟨e, (map_hear_of_ne net hhere).trans he, .refl e⟩

theorem Net.Ordered.hear (h : net.Ordered origin) {p : Ping ν} (hp : p ∈ net.flying)
    (hheeds : Heeds net (.come p)) : (net.hear p).Ordered origin := by
  have hon : ∀ {node s k}, Ahead net origin node s k → Ahead (net.hear p) origin node s k :=
    fun {node _ _} ha => ha.onward (onward_hear hheeds node)
  -- what becomes of the entry the ping is taken into
  have htaken : p.origin = origin →
      (∀ via ∈ ((net.entry p.dest p.origin).take p).1.vias, Ahead (net.hear p) origin via
        ((net.entry p.dest p.origin).take p).1.session ((net.entry p.dest p.origin).take p).1.hops) ∧
      ((net.entry p.dest p.origin).take p).1.session ≤ nodeSessionGone := by
    intro horigin
    obtain ⟨hvias, hgone⟩ := h.entry p.dest
    have hpvia := hon (h.flying p hp horigin)
    have hpgone := h.pings p hp horigin
    rw [horigin]
    rcases (net.entry p.dest origin).take_cases p with ⟨htake, hlt⟩ | ⟨htake, hsession, hhops⟩ | ⟨htake, -⟩
    · rw [htake]
      refine ⟨fun via hvia => ?_, hpgone⟩
      rw [List.mem_singleton.mp hvia]
      exact hpvia
    · rw [htake]
      refine ⟨fun via hvia => ?_, hgone⟩
      rcases List.mem_append.mp hvia with hvia | hvia
      · exact hon (hvias via hvia)
      · rw [List.mem_singleton.mp hvia]
        simp only [hsession, ← hhops]
        exact hpvia
    · rw [htake]
      exact ⟨fun via hvia => hon (hvias via hvia), hgone⟩
  have hentry : ∀ node e, (net.hear p).map node origin = some e →
      (∀ via ∈ e.vias, Ahead (net.hear p) origin via e.session e.hops) ∧
        e.session ≤ nodeSessionGone := by
    intro node e he
    by_cases hhere : node = p.dest ∧ origin = p.origin
    · obtain ⟨rfl, rfl⟩ := hhere
      rw [entry_hear_self] at he
      exact Option.some.inj he ▸ htaken rfl
    · rw [map_hear_of_ne net hhere] at he
      exact ⟨fun via hvia => hon (h.vias node e he via hvia), h.entries node e he⟩
  have hflying : ∀ q ∈ (net.hear p).flying, q.origin = origin →
      Ahead (net.hear p) origin q.via q.session q.hops ∧ q.session ≤ nodeSessionGone := by
    intro q hq horigin
    rw [flying_hear, List.mem_append] at hq
    rcases hq with hq | hq
    · have hq := List.mem_of_mem_erase hq
      exact ⟨hon (h.flying q hq horigin), h.pings q hq horigin⟩
    -- it is sent on as the entry was made by it
    · split_ifs at hq with hsend
      · obtain ⟨-, -, hqorigin, hqsession, hqhops, hqvia⟩ := mem_floodFill.mp hq
        have hporigin := hqorigin.symm.trans horigin
        refine ⟨Or.inr ?_, by rw [hqsession]; exact h.pings p hp hporigin⟩
        have hself := entry_hear_self net p
        rcases (net.entry p.dest p.origin).take_cases p with ⟨htake, -⟩ | ⟨htake, -⟩ | ⟨htake, -⟩
        · rw [htake, hporigin] at hself
          refine ⟨_, by rw [hqvia]; exact hself, Or.inr ⟨hqsession, Or.inr ?_⟩⟩
          simp only
          omega
        · rw [htake] at hsend
          exact absurd hsend Bool.false_ne_true
        · rw [htake] at hsend
          exact absurd hsend Bool.false_ne_true
      · exact absurd hq List.not_mem_nil
  exact ⟨fun node e he => (hentry node e he).1, fun q hq ho => (hflying q hq ho).1,
    fun node e he => (hentry node e he).2, fun q hq ho => (hflying q hq ho).2⟩

theorem Net.Ordered.forget (h : net.Ordered origin) (node peer : ν) :
    (step net (.forget node peer)).Ordered origin := by
  have hmap : ∀ n, (step net (.forget node peer)).map n origin
      = if n = node then (net.map n origin).map (Entry.behind peer origin) else net.map n origin :=
    fun _ => rfl
  have hon : ∀ {n s k}, Ahead net origin n s k → Ahead (step net (.forget node peer)) origin n s k := by
    intro n s k ha
    refine ha.onward (fun e he => ?_)
    rw [hmap, he]
    split_ifs
    · exact ⟨_, rfl, Entry.onward_behind peer origin (h.entries n e he)⟩
    · exact ⟨e, rfl, .refl e⟩
  have hentry : ∀ n e, (step net (.forget node peer)).map n origin = some e →
      (∀ via ∈ e.vias, Ahead (step net (.forget node peer)) origin via e.session e.hops) ∧
        e.session ≤ nodeSessionGone := by
    intro n e he
    rw [hmap] at he
    split_ifs at he
    · obtain ⟨e', he', rfl⟩ := Option.map_eq_some_iff.mp he
      have hvias := h.vias n e' he'
      have hgone := h.entries n e' he'
      rcases e'.behind_cases peer origin with hsame | ⟨hnone, hsession⟩ | ⟨hsession, hhops, -, hsub⟩
      · rw [hsame]
        exact ⟨fun via hvia => hon (hvias via hvia), hgone⟩
      · refine ⟨fun via hvia => absurd (hnone ▸ hvia) List.not_mem_nil, ?_⟩
        rcases hsession with hsession | hsession
        · rw [hsession]
          exact hgone
        · exact hsession.le
      · rw [hsession, hhops]
        exact ⟨fun via hvia => hon (hvias via (hsub via hvia)), hgone⟩
    · exact ⟨fun via hvia => hon (h.vias n e he via hvia), h.entries n e he⟩
  exact ⟨fun n e he => (hentry n e he).1, fun q hq ho => hon (h.flying q hq ho),
    fun n e he => (hentry n e he).2, h.pings⟩

/-- Every step that heeds what a node has lost keeps the order. -/
theorem Net.Ordered.step (h : net.Ordered origin) (act : Act ν) (hheeds : Heeds net act) :
    (step net act).Ordered origin := by
  cases act with
  | ping o s =>
      unfold Route.step
      by_cases hs : s < nodeSessionGone
      · dsimp only
        rw [if_pos hs]
        refine ⟨h.vias, fun q hq ho => ?_, h.entries, fun q hq ho => ?_⟩
        · rcases List.mem_append.mp hq with hq | hq
          · exact h.flying q hq ho
          · rw [List.mem_singleton] at hq
            subst hq
            exact Or.inl ho
        · rcases List.mem_append.mp hq with hq | hq
          · exact h.pings q hq ho
          · rw [List.mem_singleton.mp hq]
            exact hs.le
      · dsimp only
        rwa [if_neg hs]
  | come p =>
      unfold Route.step
      by_cases hp : p ∈ net.flying
      · dsimp only
        rw [if_pos hp]
        exact h.hear hp hheeds
      · dsimp only
        rwa [if_neg hp]
  | lose p =>
      exact ⟨h.vias, fun q hq => h.flying q (List.mem_of_mem_erase hq), h.entries,
        fun q hq => h.pings q (List.mem_of_mem_erase hq)⟩
  | forget node peer => exact h.forget node peer

/-! ## Nobody goes round -/

/-- What a node has of the origin is behind what another has: of an earlier session, or further off. -/
def Further (net : Net ν) (origin node other : ν) : Prop :=
  ∃ e e', net.map node origin = some e ∧ net.map other origin = some e' ∧
    (e.session < e'.session ∨ e.session = e'.session ∧ e'.hops < e.hops)

omit [DecidableEq ν] in
theorem Further.trans {a b c : ν} (hab : Further net origin a b) (hbc : Further net origin b c) :
    Further net origin a c := by
  obtain ⟨e, e', he, he', hlt⟩ := hab
  obtain ⟨f', f, hf', hf, hlt'⟩ := hbc
  obtain rfl := Option.some.inj (he'.symm.trans hf')
  exact ⟨e, f, he, hf, by omega⟩

omit [DecidableEq ν] in
theorem Further.irrefl {a : ν} : ¬ Further net origin a a := by
  intro ⟨e, e', he, he', hlt⟩
  obtain rfl := Option.some.inj (he.symm.trans he')
  omega

omit [DecidableEq ν] in
/-- A node sends by one that is nearer, if that has a way to send by. -/
theorem Net.Ordered.further (h : net.Ordered origin) {a b c : ν} (hab : Via net origin a b)
    (hbc : Via net origin b c) : Further net origin a b := by
  obtain ⟨-, e, he, hb⟩ := hab
  obtain ⟨hne, e', he', hc⟩ := hbc
  rcases h.vias a e he b hb with rfl | ⟨f, hf, hlt⟩
  · exact absurd rfl hne
  · obtain rfl := Option.some.inj (he'.symm.trans hf)
    refine ⟨e, e', he, he', ?_⟩
    rcases hlt with hlt | ⟨hsession, hnone | hhops⟩
    · exact Or.inl hlt
    · exact absurd (hnone ▸ hc) List.not_mem_nil
    · exact Or.inr ⟨hsession, hhops⟩

omit [DecidableEq ν] in
theorem Net.Ordered.not_transGen (h : net.Ordered origin) (node : ν) :
    ¬ TransGen (Via net origin) node node := by
  have hfurther : ∀ {b}, TransGen (Via net origin) node b → ∀ c, Via net origin b c →
      Further net origin node b := by
    intro b hb
    induction hb with
    | single hab => exact fun c hbc => h.further hab hbc
    | tail _ hbc ih => exact fun d hcd => (ih _ hbc).trans (h.further hbc hcd)
  intro hround
  obtain ⟨next, hnext, -⟩ := TransGen.head'_iff.mp hround
  exact Further.irrefl (hfurther hround next hnext)

end Ordered

/-- **Ways do not loop**: in every state of every run in which no node that has lost its way takes a
    ping of the session it held, nobody who goes from way to way comes to a node twice. -/
theorem routes_never_loop [DecidableEq ν] (links : ν → List (Option ν)) (origin : ν)
    (acts : List (Act ν)) (hheeds : Each step Heeds (start links) acts) (nodes : List ν)
    (hnodes : nodes.IsChain (Via (run step (start links) acts) origin)) : nodes.Nodup := by
  have hordered : (run step (start links) acts).Ordered origin :=
    inv_of_each (I := fun net => net.Ordered origin) (fun _ act h hact => h.step act hact)
      (ordered_start links origin) hheeds
  have hpairs := List.isChain_iff_pairwise.mp (hnodes.imp (fun _ _ h => TransGen.single h))
  refine hpairs.imp (fun hab heq => ?_)
  exact hordered.not_transGen _ (heq ▸ hab)

/-- Three nodes in a row, and the ways of the last and the next to the first. -/
theorem routes_never_loop_row : [2, 1, 0].Nodup :=
  routes_never_loop (fun n : ℕ => if n = 1 then [some 0, some 2] else [some 1]) 0
    [.ping 0 1, .come ⟨0, 0, 1, 0, 0⟩, .come ⟨1, 0, 1, 1, 0⟩, .come ⟨2, 0, 1, 2, 1⟩]
    (by decide +kernel) [2, 1, 0]
    (.cons_cons ⟨by decide, ⟨1, 2, [1]⟩, by decide +kernel, by decide⟩
      (.cons_cons ⟨by decide, ⟨1, 1, [0]⟩, by decide +kernel, by decide⟩ (.singleton 0)))

/-! ## A ping of the session held

Node 2 hears of node 0 by 1, and sends that on to 3 and 4. Node 4 hears it by 3 first, and sends it on
to 2. Then 1 goes, and 2 with it has lost its way; what 4 sent comes, of the session 2 holds, and is
taken for a better route: 2 sends by 4, which sends by 3, which sends by 2. -/

/-- The links of those nodes. -/
def ringLinks : ℕ → List (Option ℕ)
  | 0 => [some 1]
  | 1 => [some 0, some 2]
  | 2 => [some 1, some 3, some 4]
  | 3 => [some 2, some 4]
  | 4 => [some 3, some 2]
  | _ => []

def ringActs : List (Act ℕ) :=
  [.ping 0 1, .come ⟨0, 0, 1, 0, 0⟩, .come ⟨1, 0, 1, 1, 0⟩, .come ⟨2, 0, 1, 2, 1⟩,
    .come ⟨3, 0, 1, 3, 2⟩, .come ⟨4, 0, 1, 4, 3⟩, .forget 2 1, .come ⟨2, 0, 1, 5, 4⟩]

/-- With a ping of the session that is held, ways do loop. -/
theorem routes_loop : ¬ ∀ (links : ℕ → List (Option ℕ)) (origin : ℕ) (acts : List (Act ℕ))
    (nodes : List ℕ), nodes.IsChain (Via (run step (start links) acts) origin) → nodes.Nodup := by
  intro hnever
  have htwo : (run step (start ringLinks) ringActs).map 2 0 = some ⟨1, 5, [4]⟩ := by decide +kernel
  have hthree : (run step (start ringLinks) ringActs).map 3 0 = some ⟨1, 3, [2]⟩ := by decide +kernel
  have hfour : (run step (start ringLinks) ringActs).map 4 0 = some ⟨1, 4, [3]⟩ := by decide +kernel
  have hchain : [2, 4, 3, 2].IsChain (Via (run step (start ringLinks) ringActs) 0) :=
    .cons_cons ⟨by decide, _, htwo, by decide⟩ (.cons_cons ⟨by decide, _, hfour, by decide⟩
      (.cons_cons ⟨by decide, _, hthree, by decide⟩ (.singleton 2)))
  exact absurd (hnever ringLinks 0 ringActs _ hchain) (by decide)

end ChrysaLisp.Route
