import ChrysaLisp.Library.Run
import Mathlib.Data.List.Nodup
import Mathlib.Algebra.Order.Ring.Int
import Mathlib.Tactic.Push

set_option autoImplicit false

/-! # Routing pings

A node says it is there by a ping, which every node that hears it sends on to its peers. A ping has the
session it is of, a number that the one it is from has used for no other, and how many nodes it has
been through; and what a node keeps of the one it is from, its entry, is the session, how far off that
is, and which peers it heard that from, the ways to it. A ping of a later session makes the entry
again, one that has come a shorter way makes the ways again, one that has come as short a way adds a
way, and any other is let go of.

A peer whose process has gone is taken out of every entry. One that has no way left is kept, with
its session, so that what comes late can be told from what is new.

This is the cluster ping of `:sys_kernel :kernel`, `flood_fill`, and `behind_callback` of
`:sys_link :out`. Of a ping and an entry it has what the ways are made of; the services, the times and
the systems they also have are not read by any of it. -/

namespace ChrysaLisp.Route

/-- `+node_hops_none`. -/
def nodeHopsNone : ℤ := 0x7fffffff

/-- `+node_session_gone`, the greatest number of 64 bits. -/
def nodeSessionGone : ℤ := 0x7fffffffffffffff

/-- An entry of the node map: `+node_session_cluster`, `+node_hops`, and the ways, from `+node_vias`
    on. -/
structure Entry (ν : Type*) where
  session : ℤ
  hops : ℤ
  vias : List ν
deriving DecidableEq

/-- `+kn_msg_ping`, and the node it is on its way to. -/
structure Ping (ν : Type*) where
  dest : ν
  origin : ν
  session : ℤ
  hops : ℤ
  via : ν
deriving DecidableEq

variable {ν : Type*} [DecidableEq ν]

/-- An entry that is made for a node not heard of before. -/
def Entry.new : Entry ν := ⟨-1, -1, []⟩

/-- What a ping does to the entry of the node it is from, and is it sent on. -/
def Entry.take (e : Entry ν) (p : Ping ν) : Entry ν × Bool :=
  if p.session < e.session then (e, false)
  else if e.session < p.session then (⟨p.session, p.hops, [p.via]⟩, true)
  else if p.hops < e.hops then (⟨e.session, p.hops, [p.via]⟩, true)
  else if p.hops = e.hops then ({ e with vias := e.vias ++ [p.via] }, false)
  else (e, false)

/-- The peers that are sent a ping, of the links there are: not one that is not there yet, not the one
    it came from, and not one that a link before it has been sent it by. -/
def floodPeers (via : ν) : List (Option ν) → List (Option ν) → List ν
  | _, [] => []
  | before, none :: links => floodPeers via (before ++ [none]) links
  | before, some peer :: links =>
      if peer = via ∨ some peer ∈ before then floodPeers via (before ++ [some peer]) links
      else peer :: floodPeers via (before ++ [some peer]) links

/-- `flood_fill`, at a node with those links. -/
def floodFill (me : ν) (links : List (Option ν)) (p : Ping ν) : List (Ping ν) :=
  (floodPeers p.via [] links).map (fun peer => { p with dest := peer, hops := p.hops + 1, via := me })

/-- `behind_callback`: a peer is taken out of the ways of an entry, that of the node `key`. -/
def Entry.behind (peer key : ν) (e : Entry ν) : Entry ν :=
  let vias := e.vias.filter (fun via => decide (via ≠ peer))
  if vias.length < e.vias.length then
    if vias = [] then ⟨if key = peer then nodeSessionGone else e.session, nodeHopsNone, []⟩
    else { e with vias := vias }
  else e

/-- The nodes: the links of each, a peer or one not there yet, its node map, and the pings that are on
    their way. -/
structure Net (ν : Type*) where
  links : ν → List (Option ν)
  map : ν → ν → Option (Entry ν)
  flying : List (Ping ν)

/-- What can happen: a node pings, a ping comes, whichever of those on their way, or one is lost, and
    a node sees that the process of a peer has gone. -/
inductive Act (ν : Type*) where
  | ping (origin : ν) (session : ℤ)
  | come (p : Ping ν)
  | lose (p : Ping ν)
  | forget (node peer : ν)

/-- The entry a node has of another, made if there is none. -/
def Net.entry (net : Net ν) (node origin : ν) : Entry ν := (net.map node origin).getD .new

/-- A node hears a ping. -/
def Net.hear (net : Net ν) (p : Ping ν) : Net ν :=
  let (e, onward) := (net.entry p.dest p.origin).take p
  { net with
    map := fun node origin => if node = p.dest ∧ origin = p.origin then some e else net.map node origin
    flying := net.flying.erase p ++ (if onward then floodFill p.dest (net.links p.dest) p else []) }

def step (net : Net ν) : Act ν → Net ν
  | .ping origin session =>
      -- `:sys_mail :ping`: it goes to the node's own kernel first, with that node as its via
      if session < nodeSessionGone then
        { net with flying := net.flying ++ [⟨origin, origin, session, 0, origin⟩] }
      else net
  | .come p => if p ∈ net.flying then net.hear p else net
  | .lose p => { net with flying := net.flying.erase p }
  | .forget node peer =>
      -- `lk-forget-peer`, and the link has no peer now
      { net with
        map := fun n origin =>
          if n = node then (net.map n origin).map (Entry.behind peer origin) else net.map n origin
        links := fun n => if n = node then
          (net.links n).map (fun link => if link = some peer then none else link) else net.links n }

/-- Nodes that have heard nothing yet. -/
def start (links : ν → List (Option ν)) : Net ν := ⟨links, fun _ _ => none, []⟩

/-! ## What each does -/

section Spec

variable {net : Net ν} {p : Ping ν} {e : Entry ν}

omit [DecidableEq ν] in
/-- Everything a ping can do to an entry. -/
theorem Entry.take_cases (e : Entry ν) (p : Ping ν) :
    (e.take p = (⟨p.session, p.hops, [p.via]⟩, true) ∧
      (e.session < p.session ∨ e.session = p.session ∧ p.hops < e.hops)) ∨
    (e.take p = ({ e with vias := e.vias ++ [p.via] }, false) ∧
      e.session = p.session ∧ p.hops = e.hops) ∨
    (e.take p = (e, false) ∧ (p.session < e.session ∨ e.session = p.session ∧ e.hops < p.hops)) := by
  unfold Entry.take
  split_ifs with hold hnew hbetter hequal
  · exact Or.inr (Or.inr ⟨rfl, Or.inl hold⟩)
  · exact Or.inl ⟨rfl, Or.inl hnew⟩
  · have hsession : e.session = p.session := by omega
    exact Or.inl ⟨by rw [hsession], Or.inr ⟨hsession, hbetter⟩⟩
  · exact Or.inr (Or.inl ⟨rfl, by omega, hequal⟩)
  · exact Or.inr (Or.inr ⟨rfl, Or.inr ⟨by omega, by omega⟩⟩)

theorem mem_floodPeers {via peer : ν} {links : List (Option ν)} : ∀ {before : List (Option ν)},
    peer ∈ floodPeers via before links ↔ some peer ∈ links ∧ peer ≠ via ∧ some peer ∉ before := by
  induction links with
  | nil => simp [floodPeers]
  | cons link links ih =>
      intro before
      cases link with
      | none => simp [floodPeers, ih]
      | some other =>
          unfold floodPeers
          split_ifs with hsent
          · rw [ih]
            by_cases heq : peer = other
            · subst heq
              simp only [List.mem_append, List.mem_cons, true_or, or_true, not_true,
                and_false, true_and, false_iff]
              tauto
            · simp [heq]
          · rw [List.mem_cons, ih]
            push Not at hsent
            by_cases heq : peer = other
            · subst heq
              simp [hsent]
            · simp [heq]

theorem nodup_floodPeers (via : ν) (links : List (Option ν)) : ∀ before : List (Option ν),
    (floodPeers via before links).Nodup := by
  induction links with
  | nil => exact fun _ => List.nodup_nil
  | cons link links ih =>
      intro before
      cases link with
      | none => exact ih _
      | some other =>
          unfold floodPeers
          split_ifs
          · exact ih _
          · refine List.nodup_cons.mpr ⟨fun hmem => ?_, ih _⟩
            exact (mem_floodPeers.mp hmem).2.2 (by simp)

/-- What is sent on. -/
theorem mem_floodFill {me : ν} {links : List (Option ν)} {q : Ping ν} : q ∈ floodFill me links p ↔
    some q.dest ∈ links ∧ q.dest ≠ p.via ∧ q.origin = p.origin ∧ q.session = p.session ∧
      q.hops = p.hops + 1 ∧ q.via = me := by
  unfold floodFill
  rw [List.mem_map]
  constructor
  · rintro ⟨peer, hpeer, rfl⟩
    obtain ⟨hlink, hvia, -⟩ := mem_floodPeers.mp hpeer
    exact ⟨hlink, hvia, rfl, rfl, rfl, rfl⟩
  · rintro ⟨hlink, hvia, horigin, hsession, hhops, hme⟩
    refine ⟨q.dest, mem_floodPeers.mpr ⟨hlink, hvia, List.not_mem_nil⟩, ?_⟩
    rw [← horigin, ← hsession, ← hhops, ← hme]

theorem nodup_floodFill (me : ν) (links : List (Option ν)) (p : Ping ν) :
    (floodFill me links p).Nodup :=
  (nodup_floodPeers p.via links []).map (fun _ _ h => congrArg Ping.dest h)

/-- The entry that is heard of, after. -/
theorem entry_hear_self (net : Net ν) (p : Ping ν) :
    (net.hear p).map p.dest p.origin = some ((net.entry p.dest p.origin).take p).1 := by
  simp [Net.hear]

/-- Every other entry is as it was. -/
theorem map_hear_of_ne (net : Net ν) {p : Ping ν} {node origin : ν}
    (h : ¬ (node = p.dest ∧ origin = p.origin)) : (net.hear p).map node origin = net.map node origin := by
  simp [Net.hear, h]

theorem flying_hear (net : Net ν) (p : Ping ν) : (net.hear p).flying = net.flying.erase p ++
    (if ((net.entry p.dest p.origin).take p).2 then floodFill p.dest (net.links p.dest) p else []) :=
  rfl

end Spec

end ChrysaLisp.Route
