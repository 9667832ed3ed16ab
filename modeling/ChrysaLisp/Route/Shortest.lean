import ChrysaLisp.Route.Ping
import Mathlib.Combinatorics.SimpleGraph.Metric

set_option autoImplicit false

/-! # A flood finds the shortest ways

While a ping of a session is flooded, a node that has heard of it at so many hops has told each of its
peers it is one further, or was told by that peer that it is nearer (`Flooding.told`); no peer is told
the one thing twice (`Flooding.once`), and what it was told is on its way, or is a way of its, or came to
nothing as it had heard of a shorter way. So once nothing is on its way each node has its distance, and
the ways that are as short, each of them once (`flood_shortest`).

The node the ping is from hears it first, of itself: its own entry has no hops, and itself as the one
way. -/

namespace ChrysaLisp.Route

open Run

variable {ν : Type*} [DecidableEq ν] (G : SimpleGraph ν) (o : ν) (s : ℤ)

/-- The links are those of the graph, both ways, as many as may be between two nodes. -/
def Net.LinkedBy (net : Net ν) : Prop := ∀ node peer, some peer ∈ net.links node ↔ G.Adj node peer

/-- Before a session: no node has heard of it, nor of a later one, and no ping of one is on its way. -/
structure Net.Before (net : Net ν) : Prop where
  linked : net.LinkedBy G
  entries : ∀ n e, net.map n o = some e → e.session < s
  pings : ∀ p ∈ net.flying, p.origin = o → p.session < s

/-- What else may happen while the session is flooded: any ping may come, any node may ping but for a
    later session of this one, and a ping of another session may be lost. No link comes or goes. -/
def Apart : Act ν → Prop
  | .ping origin session => origin = o → session < s
  | .come _ => True
  | .lose p => ¬ (p.origin = o ∧ p.session = s)
  | .forget _ _ => False

/-- While the session is flooded, the node it is from having heard it. -/
structure Flooding (net : Net ν) : Prop where
  linked : net.LinkedBy G
  entries : ∀ n e, net.map n o = some e → e.session ≤ s
  pings : ∀ p ∈ net.flying, p.origin = o → p.session ≤ s
  self : net.map o o = some ⟨s, 0, [o]⟩
  far : ∀ n h vias, net.map n o = some ⟨s, h, vias⟩ → (G.dist o n : ℤ) ≤ h
  ways : ∀ n h vias, n ≠ o → net.map n o = some ⟨s, h, vias⟩ → ∀ v ∈ vias,
    G.Adj v n ∧ ∃ h' vias', net.map v o = some ⟨s, h', vias'⟩ ∧ h' + 1 ≤ h
  flying : ∀ p ∈ net.flying, p.origin = o → p.session = s →
    G.Adj p.via p.dest ∧ ∃ h' vias', net.map p.via o = some ⟨s, h', vias'⟩ ∧ h' + 1 ≤ p.hops
  told : ∀ v n h vias, G.Adj v n → net.map v o = some ⟨s, h, vias⟩ →
    ⟨n, o, s, h + 1, v⟩ ∈ net.flying ∨ ∃ h' vias', net.map n o = some ⟨s, h', vias'⟩ ∧
      (h' ≤ h ∨ h' = h + 1 ∧ v ∈ vias')
  once : ∀ p, p.origin = o → p.session = s → net.flying.count p ≤ 1
  nodup : ∀ n h vias, net.map n o = some ⟨s, h, vias⟩ → vias.Nodup
  fresh : ∀ n h vias v, net.map n o = some ⟨s, h, vias⟩ → v ∈ vias → ⟨n, o, s, h, v⟩ ∉ net.flying

/-- Before the node it is from has heard it: it is all there is of the session. -/
structure Waiting (net : Net ν) : Prop where
  linked : net.LinkedBy G
  entries : ∀ n e, net.map n o = some e → e.session < s
  pings : ∀ p ∈ net.flying, p.origin = o → p.session ≤ s
  flying : ∀ p, p.origin = o → p.session = s →
    net.flying.count p = if p = ⟨o, o, s, 0, o⟩ then 1 else 0

/-- Nothing of the session is touched. -/
structure Beside (net net' : Net ν) : Prop where
  links : net'.links = net.links
  entries : (∀ n e, net.map n o = some e → e.session ≤ s) → ∀ n e, net'.map n o = some e → e.session ≤ s
  map : ∀ n h vias, net'.map n o = some ⟨s, h, vias⟩ ↔ net.map n o = some ⟨s, h, vias⟩
  pings : (∀ p ∈ net.flying, p.origin = o → p.session ≤ s) →
    ∀ p ∈ net'.flying, p.origin = o → p.session ≤ s
  flying : ∀ p, p.origin = o → p.session = s → net'.flying.count p = net.flying.count p

section Flood

variable {G o s} {net net' : Net ν} {p : Ping ν}

theorem Beside.mem (h : Beside o s net net') (ho : p.origin = o) (hs : p.session = s) :
    p ∈ net'.flying ↔ p ∈ net.flying := by
  rw [← List.count_pos_iff, ← List.count_pos_iff, h.flying p ho hs]

theorem Flooding.beside (h : Flooding G o s net) (hb : Beside o s net net') : Flooding G o s net' := by
  refine ⟨?_, hb.entries h.entries, hb.pings h.pings, (hb.map ..).mpr h.self, ?_, ?_, ?_, ?_, ?_, ?_, ?_⟩
  · intro node peer
    rw [hb.links]
    exact h.linked node peer
  · intro n k vias hn
    exact h.far n k vias ((hb.map ..).mp hn)
  · intro n k vias hne hn v hv
    obtain ⟨hadj, h', vias', hheard, hle⟩ := h.ways n k vias hne ((hb.map ..).mp hn) v hv
    exact ⟨hadj, h', vias', (hb.map ..).mpr hheard, hle⟩
  · intro q hq ho hs
    obtain ⟨hadj, h', vias', hheard, hle⟩ := h.flying q ((hb.mem ho hs).mp hq) ho hs
    exact ⟨hadj, h', vias', (hb.map ..).mpr hheard, hle⟩
  · intro v n k vias hadj hv
    rcases h.told v n k vias hadj ((hb.map ..).mp hv) with hmem | ⟨h', vias', hheard, hor⟩
    · exact Or.inl ((hb.mem rfl rfl).mpr hmem)
    · exact Or.inr ⟨h', vias', (hb.map ..).mpr hheard, hor⟩
  · intro q ho hs
    rw [hb.flying q ho hs]
    exact h.once q ho hs
  · intro n k vias hn
    exact h.nodup n k vias ((hb.map ..).mp hn)
  · intro n k vias v hn hv hmem
    exact h.fresh n k vias v ((hb.map ..).mp hn) hv ((hb.mem rfl rfl).mp hmem)

theorem Waiting.beside (h : Waiting G o s net) (hb : Beside o s net net') : Waiting G o s net' := by
  refine ⟨?_, ?_, hb.pings h.pings, fun q ho hs => (hb.flying q ho hs).trans (h.flying q ho hs)⟩
  · intro node peer
    rw [hb.links]
    exact h.linked node peer
  · intro n e he
    refine lt_of_le_of_ne (hb.entries (fun m e' he' => (h.entries m e' he').le) n e he) (fun heq => ?_)
    obtain ⟨es, ek, evias⟩ := e
    simp only at heq
    subst heq
    exact absurd (h.entries n _ ((hb.map ..).mp he)) (lt_irrefl es)

/-! ## What is of another session or another node -/

theorem beside_ping (origin : ν) (session : ℤ) (h : origin = o → session < s) :
    Beside o s net (step net (.ping origin session)) := by
  by_cases hs : session < nodeSessionGone
  · have hstep : step net (.ping origin session)
        = { net with flying := net.flying ++ [⟨origin, origin, session, 0, origin⟩] } := if_pos hs
    rw [hstep]
    refine ⟨rfl, id, fun _ _ _ => Iff.rfl, fun hp q hq ho => ?_, fun q ho hqs => ?_⟩
    · rcases List.mem_append.mp hq with hq | hq
      · exact hp q hq ho
      · obtain rfl := List.mem_singleton.mp hq
        exact (h ho).le
    · rw [List.count_append, List.count_eq_zero_of_not_mem (l := [_]), Nat.add_zero]
      intro hq
      obtain rfl := List.mem_singleton.mp hq
      have := h ho
      simp only at hqs
      omega
  · have hstep : step net (.ping origin session) = net := if_neg hs
    rw [hstep]
    exact ⟨rfl, id, fun _ _ _ => Iff.rfl, id, fun _ _ _ => rfl⟩

theorem beside_lose (h : ¬ (p.origin = o ∧ p.session = s)) :
    Beside o s net (step net (.lose p)) := by
  refine ⟨rfl, id, fun _ _ _ => Iff.rfl, fun hp q hq ho => hp q (List.mem_of_mem_erase hq) ho, ?_⟩
  intro q ho hs
  refine List.count_erase_of_ne (fun heq => h ?_)
  rw [← heq]
  exact ⟨ho, hs⟩

/-- A ping of another session is heard: the entries of the session stay. -/
theorem beside_hear (hp : p ∈ net.flying) (hpings : ∀ p ∈ net.flying, p.origin = o → p.session ≤ s)
    (hs : 0 ≤ s) (h : ¬ (p.origin = o ∧ p.session = s)) : Beside o s net (net.hear p) := by
  have hcount : ∀ q, q.origin = o → q.session = s →
      (net.hear p).flying.count q = net.flying.count q := by
    intro q ho hqs
    have hne : p ≠ q := fun heq => h (by rw [heq]; exact ⟨ho, hqs⟩)
    rw [flying_hear, List.count_append, List.count_erase_of_ne hne.symm]
    refine Nat.add_eq_left.mpr (List.count_eq_zero_of_not_mem fun hq => ?_)
    split_ifs at hq
    · obtain ⟨-, -, hqo, hqsession, -⟩ := mem_floodFill.mp hq
      exact h ⟨hqo.symm.trans ho, hqsession.symm.trans hqs⟩
    · exact absurd hq List.not_mem_nil
  have hsessions : (∀ p ∈ net.flying, p.origin = o → p.session ≤ s) →
      ∀ q ∈ (net.hear p).flying, q.origin = o → q.session ≤ s := by
    intro hpings q hq ho
    rw [flying_hear, List.mem_append] at hq
    rcases hq with hq | hq
    · exact hpings q (List.mem_of_mem_erase hq) ho
    · split_ifs at hq
      · obtain ⟨-, -, hqo, hqsession, -⟩ := mem_floodFill.mp hq
        rw [hqsession]
        exact hpings p hp (hqo.symm.trans ho)
      · exact absurd hq List.not_mem_nil
  by_cases horigin : p.origin = o
  · have hlt : p.session < s := lt_of_le_of_ne (hpings p hp horigin) (fun heq => h ⟨horigin, heq⟩)
    -- the entry it is taken into was of an earlier session and is, or it is left alone
    have hentry : ∀ e', net.map p.dest o = some e' ∨ net.map p.dest o = none ∧ e' = .new →
        (e'.take p).1 = e' ∨ e'.session < s ∧ (e'.take p).1.session < s := by
      intro e' _
      rcases e'.take_cases p with ⟨htake, hor⟩ | ⟨htake, hsession, -⟩ | ⟨htake, -⟩
      · rw [htake]
        refine Or.inr ⟨?_, hlt⟩
        omega
      · rw [htake]
        refine Or.inr ⟨?_, ?_⟩
        · omega
        · simp only
          omega
      · exact Or.inl (by rw [htake])
    have hcases : ∀ n, (net.hear p).map n o = net.map n o ∨
        (∀ e, net.map n o = some e → e.session < s) ∧
          ∃ e, (net.hear p).map n o = some e ∧ e.session < s := by
      intro n
      by_cases hn : n = p.dest
      · subst hn
        have hself := entry_hear_self net p
        rw [horigin] at hself
        unfold Net.entry at hself
        cases hmap : net.map p.dest o with
        | none =>
            rw [hmap, Option.getD_none] at hself
            refine Or.inr ⟨fun e he => (Option.some_ne_none e he.symm).elim, _, hself, ?_⟩
            rcases hentry .new (Or.inr ⟨hmap, rfl⟩) with hsame | ⟨-, hless⟩
            · rw [hsame]
              show (-1 : ℤ) < s
              omega
            · exact hless
        | some e' =>
            rw [hmap, Option.getD_some] at hself
            rcases hentry e' (Or.inl hmap) with hsame | ⟨hold, hless⟩
            · rw [hsame] at hself
              exact Or.inl hself
            · exact Or.inr ⟨fun e he => Option.some.inj he ▸ hold, _, hself, hless⟩
      · exact Or.inl (map_hear_of_ne net (fun hh => hn hh.1))
    refine ⟨rfl, fun hle n e he => ?_, fun n k vias => ?_, hsessions, hcount⟩
    · rcases hcases n with hsame | ⟨-, e', he', hless⟩
      · exact hle n e (hsame ▸ he)
      · exact Option.some.inj (he'.symm.trans he) ▸ hless.le
    · rcases hcases n with hsame | ⟨hold, e', he', hless⟩
      · rw [hsame]
      · rw [he']
        refine ⟨fun heq => ?_, fun heq => absurd (hold _ heq) (lt_irrefl s)⟩
        rw [Option.some.inj heq] at hless
        exact absurd hless (lt_irrefl s)
  · have hmap : ∀ n, (net.hear p).map n o = net.map n o :=
      fun n => map_hear_of_ne net (fun hh => horigin hh.2.symm)
    refine ⟨rfl, fun hle n e he => hle n e (hmap n ▸ he), fun n k vias => by rw [hmap], hsessions, hcount⟩

/-! ## A ping of the session is heard -/

variable {n v : ν} {k : ℤ}

omit [DecidableEq ν] in
/-- A link is one hop at most to be further by. -/
theorem dist_le_of_adj (hadj : G.Adj v n) : (G.dist o n : ℤ) ≤ G.dist o v + 1 := by
  have := hadj.diff_dist_adj (u := o)
  omega

/-- The node the ping is from hears it, of itself. -/
theorem Waiting.hear (h : Waiting G o s net) (hs : 0 ≤ s) :
    Flooding G o s (net.hear ⟨o, o, s, 0, o⟩) := by
  have hold : (net.entry o o).session < s := by
    unfold Net.entry
    cases hmap : net.map o o with
    | none => exact lt_of_lt_of_le neg_one_lt_zero hs
    | some e => exact h.entries o e hmap
  have htake : (net.entry o o).take ⟨o, o, s, 0, o⟩ = (⟨s, 0, [o]⟩, true) := by
    simp [Entry.take, hold, hold.le]
  have hself : (net.hear ⟨o, o, s, 0, o⟩).map o o = some ⟨s, 0, [o]⟩ := by
    rw [entry_hear_self, htake]
  have hother : ∀ n, n ≠ o → (net.hear ⟨o, o, s, 0, o⟩).map n o = net.map n o :=
    fun n hn => map_hear_of_ne net (fun hh => hn hh.1)
  have honly : ∀ n h' vias, (net.hear ⟨o, o, s, 0, o⟩).map n o = some ⟨s, h', vias⟩ →
      n = o ∧ h' = 0 ∧ vias = [o] := by
    intro n h' vias hn
    by_cases hno : n = o
    · rw [hno, hself] at hn
      cases hn
      exact ⟨hno, rfl, rfl⟩
    · rw [hother n hno] at hn
      exact absurd (h.entries n _ hn) (lt_irrefl s)
  have hflying : (net.hear ⟨o, o, s, 0, o⟩).flying = net.flying.erase ⟨o, o, s, 0, o⟩
      ++ floodFill o (net.links o) ⟨o, o, s, 0, o⟩ := by
    rw [flying_hear, htake]
    rfl
  have hgone : ∀ q : Ping ν, q.origin = o → q.session = s →
      (net.flying.erase ⟨o, o, s, 0, o⟩).count q = 0 := by
    intro q ho hqs
    rw [List.count_erase, h.flying q ho hqs]
    by_cases hq : q = ⟨o, o, s, 0, o⟩
    · simp [hq]
    · simp [hq]
  have hmem : ∀ q : Ping ν, q.origin = o → q.session = s →
      (q ∈ (net.hear ⟨o, o, s, 0, o⟩).flying ↔ G.Adj o q.dest ∧ q.hops = 1 ∧ q.via = o) := by
    intro q ho hqs
    rw [hflying, List.mem_append, mem_floodFill, h.linked o q.dest]
    have hnot := List.count_eq_zero.mp (hgone q ho hqs)
    have hne : G.Adj o q.dest → q.dest ≠ o := fun hadj => hadj.ne'
    simp only [ho, hqs]
    simp
    tauto
  refine ⟨h.linked, ?_, ?_, hself, ?_, ?_, ?_, ?_, ?_, ?_, ?_⟩
  · intro n e he
    by_cases hno : n = o
    · rw [hno, hself] at he
      cases he
      exact le_rfl
    · rw [hother n hno] at he
      exact (h.entries n e he).le
  · intro q hq ho
    rw [hflying, List.mem_append] at hq
    rcases hq with hq | hq
    · exact h.pings q (List.mem_of_mem_erase hq) ho
    · exact (mem_floodFill.mp hq).2.2.2.1.le
  · intro n k vias hn
    obtain ⟨rfl, rfl, -⟩ := honly n k vias hn
    simp
  · intro n k vias hne hn
    exact absurd (honly n k vias hn).1 hne
  · intro q hq ho hqs
    obtain ⟨hadj, hhops, hvia⟩ := (hmem q ho hqs).mp hq
    rw [hvia, hhops]
    exact ⟨hadj, 0, [o], hself, le_rfl⟩
  · intro v n k vias hadj hv
    obtain ⟨rfl, rfl, -⟩ := honly v k vias hv
    exact Or.inl ((hmem _ rfl rfl).mpr ⟨hadj, rfl, rfl⟩)
  · intro q ho hqs
    rw [hflying, List.count_append, hgone q ho hqs, Nat.zero_add]
    exact List.nodup_iff_count_le_one.mp (nodup_floodFill _ _ _) q
  · intro n k vias hn
    obtain ⟨-, -, rfl⟩ := honly n k vias hn
    exact List.nodup_singleton o
  · intro n k vias v hn hv hmemq
    obtain ⟨rfl, rfl, -⟩ := honly n k vias hn
    exact absurd ((hmem _ rfl rfl).mp hmemq).2.1 zero_ne_one

/-- A ping that comes a shorter way than any before makes the ways again, and is sent on. -/
theorem Flooding.shorter (h : Flooding G o s net) (hp : (⟨n, o, s, k, v⟩ : Ping ν) ∈ net.flying)
    (hnew : ∀ k' vias, net.map n o = some ⟨s, k', vias⟩ → k < k')
    (hmap : ∀ m, net'.map m o = if m = n then some ⟨s, k, [v]⟩ else net.map m o)
    (hlinks : net'.links = net.links)
    (hflying : net'.flying = net.flying.erase ⟨n, o, s, k, v⟩
      ++ floodFill n (net.links n) ⟨n, o, s, k, v⟩) : Flooding G o s net' := by
  obtain ⟨hadj, hv, viasv, hheard, hle⟩ := h.flying _ hp rfl rfl
  simp only at hadj hheard hle
  have hfar := h.far v hv viasv hheard
  have hno : n ≠ o := by
    intro hno
    have := hnew 0 [o] (hno ▸ h.self)
    omega
  have hself : net'.map n o = some ⟨s, k, [v]⟩ := by rw [hmap, if_pos rfl]
  have hother : ∀ m, m ≠ n → net'.map m o = net.map m o := fun m hm => by rw [hmap, if_neg hm]
  -- what was heard of is heard of still, and no further off
  have hstill : ∀ m k' vias, net.map m o = some ⟨s, k', vias⟩ →
      ∃ k'' vias'', net'.map m o = some ⟨s, k'', vias''⟩ ∧ k'' ≤ k' := by
    intro m k' vias hm
    by_cases hmn : m = n
    · subst hmn
      exact ⟨k, [v], hself, (hnew k' vias hm).le⟩
    · exact ⟨k', vias, (hother m hmn).trans hm, le_rfl⟩
  -- nothing of the session is sent by `n` yet that is no nearer than this
  have hsent : ∀ q ∈ net.flying, q.origin = o → q.session = s → q.via = n → q.hops ≠ k + 1 := by
    intro q hq ho hqs hvia hhops
    obtain ⟨-, k', vias, hn, hle'⟩ := h.flying q hq ho hqs
    have := hnew k' vias (hvia ▸ hn)
    omega
  refine ⟨?_, ?_, ?_, ?_, ?_, ?_, ?_, ?_, ?_, ?_, ?_⟩
  · intro node peer
    rw [hlinks]
    exact h.linked node peer
  · intro m e he
    by_cases hmn : m = n
    · rw [hmn, hself] at he
      cases he
      exact le_rfl
    · exact h.entries m e ((hother m hmn) ▸ he)
  · intro q hq ho
    rw [hflying, List.mem_append] at hq
    rcases hq with hq | hq
    · exact h.pings q (List.mem_of_mem_erase hq) ho
    · exact (mem_floodFill.mp hq).2.2.2.1.le
  · exact (hother o hno.symm).trans h.self
  · intro m k' vias hm
    by_cases hmn : m = n
    · rw [hmn, hself] at hm
      cases hm
      rw [hmn]
      have := dist_le_of_adj (o := o) hadj
      omega
    · exact h.far m k' vias ((hother m hmn) ▸ hm)
  · intro m k' vias hmo hm w hw
    by_cases hmn : m = n
    · subst hmn
      rw [hself] at hm
      cases hm
      obtain rfl := List.mem_singleton.mp hw
      exact ⟨hadj, hv, viasv, (hother w hadj.ne).trans hheard, hle⟩
    · obtain ⟨hwm, k'', vias'', hwheard, hle'⟩ := h.ways m k' vias hmo ((hother m hmn) ▸ hm) w hw
      obtain ⟨k₃, vias₃, hw₃, hle₃⟩ := hstill w k'' vias'' hwheard
      exact ⟨hwm, k₃, vias₃, hw₃, by omega⟩
  · intro q hq ho hqs
    rw [hflying, List.mem_append] at hq
    rcases hq with hq | hq
    · obtain ⟨hqadj, k', vias, hqheard, hle'⟩ := h.flying q (List.mem_of_mem_erase hq) ho hqs
      obtain ⟨k₃, vias₃, hw₃, hle₃⟩ := hstill _ k' vias hqheard
      exact ⟨hqadj, k₃, vias₃, hw₃, by omega⟩
    · obtain ⟨hlink, -, -, -, hhops, hvia⟩ := mem_floodFill.mp hq
      rw [hvia, hhops]
      exact ⟨(h.linked n q.dest).mp hlink, k, [v], hself, le_rfl⟩
  · intro w m k' vias hwm hw
    by_cases hwn : w = n
    · subst hwn
      rw [hself] at hw
      cases hw
      by_cases hmv : m = v
      · subst hmv
        exact Or.inr ⟨hv, viasv, (hother m hwm.ne').trans hheard, Or.inl (by omega)⟩
      · refine Or.inl ?_
        rw [hflying, List.mem_append, mem_floodFill]
        exact Or.inr ⟨(h.linked w m).mpr hwm, hmv, rfl, rfl, rfl, rfl⟩
    · rw [hother w hwn] at hw
      rcases h.told w m k' vias hwm hw with hmem | ⟨k'', vias'', hm, hor⟩
      · by_cases hq : (⟨m, o, s, k' + 1, w⟩ : Ping ν) = ⟨n, o, s, k, v⟩
        · cases hq
          exact Or.inr ⟨_, _, hself, Or.inr ⟨rfl, List.mem_singleton_self _⟩⟩
        · refine Or.inl ?_
          rw [hflying]
          exact List.mem_append_left _ ((List.mem_erase_of_ne hq).mpr hmem)
      · by_cases hmn : m = n
        · subst hmn
          have := hnew k'' vias'' hm
          exact Or.inr ⟨k, [v], hself, Or.inl (by omega)⟩
        · exact Or.inr ⟨k'', vias'', (hother m hmn).trans hm, hor⟩
  · intro q ho hqs
    rw [hflying, List.count_append]
    by_cases hq : q ∈ floodFill n (net.links n) ⟨n, o, s, k, v⟩
    · obtain ⟨-, -, -, -, hhops, hvia⟩ := mem_floodFill.mp hq
      have hnot : q ∉ net.flying.erase ⟨n, o, s, k, v⟩ :=
        fun hmem => hsent q (List.mem_of_mem_erase hmem) ho hqs hvia hhops
      rw [List.count_eq_zero.mpr hnot, Nat.zero_add]
      exact List.nodup_iff_count_le_one.mp (nodup_floodFill _ _ _) q
    · rw [List.count_eq_zero.mpr hq, Nat.add_zero]
      exact ((List.erase_sublist).count_le q).trans (h.once q ho hqs)
  · intro m k' vias hm
    by_cases hmn : m = n
    · rw [hmn, hself] at hm
      cases hm
      exact List.nodup_singleton v
    · exact h.nodup m k' vias ((hother m hmn) ▸ hm)
  · intro m k' vias w hm hw hmem
    rw [hflying, List.mem_append] at hmem
    by_cases hmn : m = n
    · subst hmn
      rw [hself] at hm
      cases hm
      rw [List.mem_singleton.mp hw] at hmem
      rcases hmem with hmem | hmem
      · have hone := h.once ⟨m, o, s, k, v⟩ rfl rfl
        have htwo := List.count_pos_iff.mpr hmem
        rw [List.count_erase_self] at htwo
        omega
      · exact ((h.linked m m).mp (mem_floodFill.mp hmem).1).ne rfl
    · rw [hother m hmn] at hm
      rcases hmem with hmem | hmem
      · exact h.fresh m k' vias w hm hw (List.mem_of_mem_erase hmem)
      · obtain ⟨-, -, -, -, hhops, hvia⟩ := mem_floodFill.mp hmem
        simp only at hhops hvia
        by_cases hmo : m = o
        · rw [hmo, h.self] at hm
          cases hm
          exact hno (hvia.symm.trans (List.mem_singleton.mp hw))
        · obtain ⟨-, k'', vias'', hwheard, hle'⟩ := h.ways m k' vias hmo hm w hw
          have := hnew k'' vias'' (hvia ▸ hwheard)
          omega

/-- One that comes as short a way is a way more, and one that comes a longer way is let go of. -/
theorem Flooding.kept (h : Flooding G o s net) (hp : (⟨n, o, s, k, v⟩ : Ping ν) ∈ net.flying)
    {k₀ : ℤ} {vias vias' : List ν} (hn : net.map n o = some ⟨s, k₀, vias⟩)
    (hor : k₀ < k ∧ vias' = vias ∨ k₀ = k ∧ vias' = vias ++ [v])
    (hmap : ∀ m, net'.map m o = if m = n then some ⟨s, k₀, vias'⟩ else net.map m o)
    (hlinks : net'.links = net.links)
    (hflying : net'.flying = net.flying.erase ⟨n, o, s, k, v⟩) : Flooding G o s net' := by
  obtain ⟨hadj, hv, viasv, hheard, hle⟩ := h.flying _ hp rfl rfl
  simp only at hadj hheard hle
  have hfar := h.far v hv viasv hheard
  have hsub : ∀ w ∈ vias, w ∈ vias' := by
    rcases hor with ⟨-, rfl⟩ | ⟨-, rfl⟩
    · exact fun _ hw => hw
    · exact fun _ hw => List.mem_append_left _ hw
  have hadded : ∀ w ∈ vias', w ∈ vias ∨ w = v ∧ k₀ = k := by
    rcases hor with ⟨-, rfl⟩ | ⟨heq, rfl⟩
    · exact fun _ hw => Or.inl hw
    · exact fun w hw => (List.mem_append.mp hw).imp id (fun hw => ⟨List.mem_singleton.mp hw, heq⟩)
  -- what each had heard of it has heard of, with the ways there were and no other hops
  have hstill : ∀ m k' ways, net.map m o = some ⟨s, k', ways⟩ →
      ∃ ways', net'.map m o = some ⟨s, k', ways'⟩ ∧ ∀ w ∈ ways, w ∈ ways' := by
    intro m k' ways hm
    by_cases hmn : m = n
    · subst hmn
      rw [hn] at hm
      cases hm
      exact ⟨vias', by rw [hmap, if_pos rfl], hsub⟩
    · exact ⟨ways, by rw [hmap, if_neg hmn]; exact hm, fun _ hw => hw⟩
  have hback : ∀ m k' ways', net'.map m o = some ⟨s, k', ways'⟩ →
      net.map m o = some ⟨s, k', ways'⟩ ∨ m = n ∧ k' = k₀ ∧ ways' = vias' := by
    intro m k' ways' hm
    by_cases hmn : m = n
    · rw [hmap, if_pos hmn] at hm
      cases hm
      exact Or.inr ⟨hmn, rfl, rfl⟩
    · rw [hmap, if_neg hmn] at hm
      exact Or.inl hm
  refine ⟨?_, ?_, ?_, ?_, ?_, ?_, ?_, ?_, ?_, ?_, ?_⟩
  · intro node peer
    rw [hlinks]
    exact h.linked node peer
  · intro m e he
    by_cases hmn : m = n
    · rw [hmap, if_pos hmn] at he
      cases he
      exact le_rfl
    · rw [hmap, if_neg hmn] at he
      exact h.entries m e he
  · intro q hq ho
    rw [hflying] at hq
    exact h.pings q (List.mem_of_mem_erase hq) ho
  · by_cases hno : o = n
    · subst hno
      have hself := h.self
      rw [hn] at hself
      cases hself
      rcases hor with ⟨-, rfl⟩ | ⟨hk, -⟩
      · rw [hmap, if_pos rfl]
      · omega
    · rw [hmap, if_neg hno]
      exact h.self
  · intro m k' ways' hm
    rcases hback m k' ways' hm with hm | ⟨rfl, rfl, -⟩
    · exact h.far m k' ways' hm
    · exact h.far m k' vias hn
  · intro m k' ways' hmo hm w hw
    have hold : G.Adj w m ∧ ∃ h' ways, net.map w o = some ⟨s, h', ways⟩ ∧ h' + 1 ≤ k' := by
      rcases hback m k' ways' hm with hm | ⟨rfl, rfl, rfl⟩
      · exact h.ways m k' ways' hmo hm w hw
      · rcases hadded w hw with hw | ⟨rfl, rfl⟩
        · exact h.ways m k' vias hmo hn w hw
        · exact ⟨hadj, hv, viasv, hheard, hle⟩
    obtain ⟨hwm, h', ways, hwheard, hle'⟩ := hold
    obtain ⟨ways'', hwstill, -⟩ := hstill w h' ways hwheard
    exact ⟨hwm, h', ways'', hwstill, hle'⟩
  · intro q hq ho hqs
    rw [hflying] at hq
    obtain ⟨hqadj, h', ways, hqheard, hle'⟩ := h.flying q (List.mem_of_mem_erase hq) ho hqs
    obtain ⟨ways', hqstill, -⟩ := hstill _ h' ways hqheard
    exact ⟨hqadj, h', ways', hqstill, hle'⟩
  · intro w m k' ways' hwm hw
    obtain ⟨ways, hwold⟩ : ∃ ways, net.map w o = some ⟨s, k', ways⟩ := by
      rcases hback w k' ways' hw with hw | ⟨rfl, rfl, -⟩
      · exact ⟨ways', hw⟩
      · exact ⟨vias, hn⟩
    rcases h.told w m k' ways hwm hwold with hmem | ⟨k'', ways'', hm, hor'⟩
    · by_cases hq : (⟨m, o, s, k' + 1, w⟩ : Ping ν) = ⟨n, o, s, k, v⟩
      · cases hq
        refine Or.inr ⟨k₀, vias', by rw [hmap, if_pos rfl], ?_⟩
        rcases hor with ⟨hlt, -⟩ | ⟨heq, rfl⟩
        · exact Or.inl (by omega)
        · exact Or.inr ⟨heq, by simp⟩
      · refine Or.inl ?_
        rw [hflying]
        exact (List.mem_erase_of_ne hq).mpr hmem
    · obtain ⟨ways₃, hmstill, hsub'⟩ := hstill m k'' ways'' hm
      exact Or.inr ⟨k'', ways₃, hmstill, hor'.imp id (fun hh => ⟨hh.1, hsub' w hh.2⟩)⟩
  · intro q ho hqs
    rw [hflying]
    exact ((List.erase_sublist).count_le q).trans (h.once q ho hqs)
  · intro m k' ways' hm
    rcases hback m k' ways' hm with hm | ⟨rfl, rfl, rfl⟩
    · exact h.nodup m k' ways' hm
    · rcases hor with ⟨-, rfl⟩ | ⟨rfl, rfl⟩
      · exact h.nodup m k' ways' hn
      · refine List.nodup_append.mpr ⟨h.nodup m k' vias hn, List.nodup_singleton v, ?_⟩
        intro a ha b hb hab
        obtain rfl := List.mem_singleton.mp hb
        exact h.fresh m k' vias b hn (hab ▸ ha) hp
  · intro m k' ways' w hm hw hmem
    rw [hflying] at hmem
    rcases hback m k' ways' hm with hm | ⟨rfl, rfl, rfl⟩
    · exact h.fresh m k' ways' w hm hw (List.mem_of_mem_erase hmem)
    · rcases hadded w hw with hw | ⟨rfl, rfl⟩
      · exact h.fresh m k' vias w hn hw (List.mem_of_mem_erase hmem)
      · have hone := h.once ⟨m, o, s, k', w⟩ rfl rfl
        have htwo := List.count_pos_iff.mpr hmem
        rw [List.count_erase_self] at htwo
        omega

/-- Any ping of the session that comes. -/
theorem Flooding.hear (h : Flooding G o s net) (hs : 0 ≤ s) (hp : p ∈ net.flying)
    (ho : p.origin = o) (hps : p.session = s) : Flooding G o s (net.hear p) := by
  obtain ⟨n, o', s', k, v⟩ := p
  simp only at ho hps
  subst ho hps
  have hself := entry_hear_self net ⟨n, o', s', k, v⟩
  have hflying := flying_hear net ⟨n, o', s', k, v⟩
  have hother : ∀ m, m ≠ n → (net.hear ⟨n, o', s', k, v⟩).map m o' = net.map m o' :=
    fun m hm => map_hear_of_ne net (fun hh => hm hh.1)
  have hmap : ∀ e, (net.hear ⟨n, o', s', k, v⟩).map n o' = some e → ∀ m,
      (net.hear ⟨n, o', s', k, v⟩).map m o' = if m = n then some e else net.map m o' := by
    intro e he m
    by_cases hm : m = n
    · rw [if_pos hm, hm, he]
    · rw [if_neg hm, hother m hm]
  cases hn : net.map n o' with
  | none =>
      have htake : (net.entry n o').take ⟨n, o', s', k, v⟩ = (⟨s', k, [v]⟩, true) := by
        unfold Net.entry
        rw [hn]
        rcases (Entry.new : Entry ν).take_cases ⟨n, o', s', k, v⟩ with ⟨htake, -⟩ | ⟨-, heq, -⟩ | ⟨-, hcase⟩
        · exact htake
        · simp only [Entry.new] at heq
          omega
        · simp only [Entry.new] at hcase
          omega
      rw [htake] at hself hflying
      refine h.shorter hp (fun k' vias hn' => ?_) (hmap _ hself) rfl (hflying.trans (by rfl))
      rw [hn] at hn'
      cases hn'
  | some e =>
      have hentry : net.entry n o' = e := by
        unfold Net.entry
        rw [hn, Option.getD_some]
      rw [hentry] at hself hflying
      have hle := h.entries n e hn
      obtain ⟨es, ek, evias⟩ := e
      simp only at hle
      rcases (⟨es, ek, evias⟩ : Entry ν).take_cases ⟨n, o', s', k, v⟩ with
        ⟨htake, hcase⟩ | ⟨htake, hsession, hhops⟩ | ⟨htake, hcase⟩
      · rw [htake] at hself hflying
        refine h.shorter hp (fun k' vias hn' => ?_) (hmap _ hself) rfl (hflying.trans (by rfl))
        rw [hn] at hn'
        cases hn'
        simp only at hcase
        omega
      · rw [htake] at hself hflying
        simp only at hsession hhops
        subst hsession hhops
        exact h.kept hp hn (Or.inr ⟨rfl, rfl⟩) (hmap _ hself) rfl (hflying.trans (by simp))
      · rw [htake] at hself hflying
        simp only at hcase
        obtain rfl : es = s' := by omega
        exact h.kept hp hn (Or.inl ⟨by omega, rfl⟩) (hmap _ hself) rfl (hflying.trans (by simp))

/-! ## The whole flood -/

/-- The node the ping is from has yet to hear of it, or it is flooded. -/
theorem flood_step (hs : 0 ≤ s) (act : Act ν) (hact : Apart o s act)
    (h : Waiting G o s net ∨ Flooding G o s net) :
    Waiting G o s (step net act) ∨ Flooding G o s (step net act) := by
  have hpings : ∀ p ∈ net.flying, p.origin = o → p.session ≤ s := h.elim (·.pings) (·.pings)
  cases act with
  | ping origin session =>
      have hb : Beside o s net (step net (.ping origin session)) := beside_ping origin session hact
      exact h.imp (·.beside hb) (·.beside hb)
  | lose p =>
      have hb : Beside o s net (step net (.lose p)) := beside_lose hact
      exact h.imp (·.beside hb) (·.beside hb)
  | forget node peer => exact hact.elim
  | come p =>
      by_cases hp : p ∈ net.flying
      · have hstep : step net (.come p) = net.hear p := if_pos hp
        rw [hstep]
        by_cases hof : p.origin = o ∧ p.session = s
        · refine Or.inr (h.elim (fun hw => ?_) (·.hear hs hp hof.1 hof.2))
          have hcount := List.count_pos_iff.mpr hp
          rw [hw.flying p hof.1 hof.2] at hcount
          by_cases hself : p = ⟨o, o, s, 0, o⟩
          · rw [hself]
            exact hw.hear hs
          · rw [if_neg hself] at hcount
            exact absurd hcount (lt_irrefl 0)
        · have hb := beside_hear hp hpings hs hof
          exact h.imp (·.beside hb) (·.beside hb)
      · have hstep : step net (.come p) = net := if_neg hp
        rw [hstep]
        exact h

/-- The node pings. -/
theorem Net.Before.waiting (h : net.Before G o s) (hgone : s < nodeSessionGone) :
    Waiting G o s (step net (.ping o s)) := by
  have hstep : step net (.ping o s)
      = { net with flying := net.flying ++ [⟨o, o, s, 0, o⟩] } := if_pos hgone
  rw [hstep]
  refine ⟨h.linked, h.entries, fun q hq ho => ?_, fun q ho hqs => ?_⟩
  · rcases List.mem_append.mp hq with hq | hq
    · exact (h.pings q hq ho).le
    · obtain rfl := List.mem_singleton.mp hq
      exact le_rfl
  · have hnot : q ∉ net.flying := fun hq => (hqs ▸ h.pings q hq ho).ne rfl
    rw [List.count_append, List.count_eq_zero.mpr hnot, Nat.zero_add]
    by_cases hq : q = ⟨o, o, s, 0, o⟩
    · rw [if_pos hq, hq, List.count_singleton_self]
    · rw [if_neg hq]
      exact List.count_eq_zero.mpr (fun hmem => hq (List.mem_singleton.mp hmem))

/-- With nothing of the session on its way, a node has heard of it by as many hops as a walk has. -/
theorem Flooding.walk (h : Flooding G o s net)
    (hdone : ∀ p ∈ net.flying, ¬ (p.origin = o ∧ p.session = s)) :
    ∀ {n m : ν} (w : G.Walk n m), m = o →
      ∃ k vias, net.map n o = some ⟨s, k, vias⟩ ∧ k ≤ w.length := by
  intro n m w
  induction w with
  | nil =>
      rintro rfl
      exact ⟨0, _, h.self, le_rfl⟩
  | cons hadj w ih =>
      intro hm
      obtain ⟨k, vias, hheard, hle⟩ := ih hm
      rcases h.told _ _ k vias hadj.symm hheard with hmem | ⟨k', vias', hheard', hor⟩
      · exact absurd ⟨rfl, rfl⟩ (hdone _ hmem)
      · refine ⟨k', vias', hheard', ?_⟩
        rw [SimpleGraph.Walk.length_cons, Nat.cast_add_one]
        omega

end Flood

/-- Once no ping of a session is on its way, each node has its distance from the node the session is
    of, and as its ways, each once, the peers that are one nearer; of that node itself, it has itself. -/
theorem flood_shortest (hG : G.Connected) (net : Net ν) (hbefore : net.Before G o s) (hs : 0 ≤ s)
    (hgone : s < nodeSessionGone) (acts : List (Act ν)) (hacts : ∀ act ∈ acts, Apart o s act)
    (hdone : ∀ p ∈ (run step net (.ping o s :: acts)).flying, ¬ (p.origin = o ∧ p.session = s))
    (n : ν) : ∃ vias, (run step net (.ping o s :: acts)).map n o = some ⟨s, G.dist o n, vias⟩ ∧
      vias.Nodup ∧ (n ≠ o → ∀ v, v ∈ vias ↔ G.Adj n v ∧ G.dist o v + 1 = G.dist o n) ∧
      (n = o → vias = [o]) := by
  rw [run_cons] at hdone ⊢
  have hflood : Flooding G o s (run step (step net (.ping o s)) acts) := by
    have hall := inv_of_each (I := fun net => Waiting G o s net ∨ Flooding G o s net)
      (C := fun _ act => Apart o s act) (fun _ act h hact => flood_step hs act hact h)
      (Or.inl (hbefore.waiting hgone)) (each_of_mem (fun act hact _ => hacts act hact) _)
    refine hall.resolve_left (fun hw => ?_)
    have hcount := hw.flying ⟨o, o, s, 0, o⟩ rfl rfl
    rw [if_pos rfl] at hcount
    exact hdone _ (List.count_pos_iff.mp (hcount ▸ Nat.one_pos)) ⟨rfl, rfl⟩
  generalize run step (step net (.ping o s)) acts = net' at hdone hflood
  -- as far as it is, and no further
  have hdist : ∀ m, ∃ vias, net'.map m o = some ⟨s, G.dist o m, vias⟩ := by
    intro m
    obtain ⟨w, hw⟩ := hG.exists_walk_length_eq_dist m o
    obtain ⟨k, vias, hheard, hle⟩ := hflood.walk hdone w rfl
    have hfar := hflood.far m k vias hheard
    rw [hw, SimpleGraph.dist_comm] at hle
    obtain rfl : k = G.dist o m := le_antisymm hle hfar
    exact ⟨vias, hheard⟩
  obtain ⟨vias, hheard⟩ := hdist n
  refine ⟨vias, hheard, hflood.nodup n _ vias hheard, fun hne v => ⟨fun hv => ?_, fun hv => ?_⟩, ?_⟩
  · obtain ⟨hadj, k, vias', hheard', hle⟩ := hflood.ways n _ vias hne hheard v hv
    have hfar := hflood.far v k vias' hheard'
    have hnear := dist_le_of_adj (o := o) hadj
    exact ⟨hadj.symm, by omega⟩
  · obtain ⟨hadj, hnear⟩ := hv
    obtain ⟨viasv, hheard'⟩ := hdist v
    rcases hflood.told v n _ viasv hadj.symm hheard' with hmem | ⟨k, vias', hn, hor⟩
    · exact absurd ⟨rfl, rfl⟩ (hdone _ hmem)
    · rw [hheard] at hn
      cases hn
      rcases hor with hle | ⟨-, hmem⟩
      · omega
      · exact hmem
  · rintro rfl
    exact congrArg Entry.vias (Option.some.inj (hheard.symm.trans hflood.self))

/-! ## Two nodes, and one link -/

def pair : Net (Fin 2) := start fun n => [some (1 - n)]

def pairActs : List (Act (Fin 2)) := [.come ⟨0, 0, 1, 0, 0⟩, .come ⟨1, 0, 1, 1, 0⟩]

theorem pair_before : pair.Before ⊤ 0 1 :=
  ⟨by unfold Net.LinkedBy; decide, fun _ _ h => (nomatch h), fun _ h => (nomatch h)⟩

theorem pairActs_apart : ∀ act ∈ pairActs, Apart 0 1 act := by
  intro act hact
  rcases List.mem_cons.mp hact with rfl | hact
  · trivial
  · rw [List.mem_singleton.mp hact]
    trivial

/-- The other of the two has heard of the first. -/
theorem flood_shortest_pair : ∃ vias, (run step pair (.ping 0 1 :: pairActs)).map 1 0
        = some ⟨1, (⊤ : SimpleGraph (Fin 2)).dist 0 1, vias⟩ ∧
      vias.Nodup ∧ ((1 : Fin 2) ≠ 0 → ∀ v, v ∈ vias ↔ (⊤ : SimpleGraph (Fin 2)).Adj 1 v ∧
        (⊤ : SimpleGraph (Fin 2)).dist 0 v + 1 = (⊤ : SimpleGraph (Fin 2)).dist 0 1) ∧
      ((1 : Fin 2) = 0 → vias = [0]) :=
  flood_shortest ⊤ 0 1 SimpleGraph.connected_top pair pair_before (by decide) (by decide) pairActs
    pairActs_apart (by decide +kernel) 1

/-- The node the ping is from has a way that is no neighbour of it: itself. -/
theorem flood_origin_via : ¬ ∀ (G : SimpleGraph (Fin 2)) (_ : G.Connected) (net : Net (Fin 2))
    (o : Fin 2) (s : ℤ) (_ : net.Before G o s) (_ : 0 ≤ s) (_ : s < nodeSessionGone)
    (acts : List (Act (Fin 2))) (_ : ∀ act ∈ acts, Apart o s act)
    (_ : ∀ p ∈ (run step net (.ping o s :: acts)).flying, ¬ (p.origin = o ∧ p.session = s))
    (n : Fin 2), ∃ vias, (run step net (.ping o s :: acts)).map n o = some ⟨s, G.dist o n, vias⟩ ∧
      vias.Nodup ∧ ∀ v, v ∈ vias ↔ G.Adj n v ∧ G.dist o v + 1 = G.dist o n := by
  intro hall
  obtain ⟨vias, hheard, -, hvias⟩ := hall ⊤ SimpleGraph.connected_top pair 0 1 pair_before
    (by decide) (by decide) pairActs pairActs_apart (by decide +kernel) 0
  have hself : (run step pair (.ping 0 1 :: pairActs)).map 0 0 = some ⟨1, 0, [0]⟩ := by decide +kernel
  have hmem : (0 : Fin 2) ∈ vias := by
    rw [show vias = [0] from congrArg Entry.vias (Option.some.inj (hheard.symm.trans hself))]
    exact List.mem_singleton_self 0
  exact ((hvias 0).mp hmem).1.ne rfl

end ChrysaLisp.Route
