import ChrysaLisp.Lisp.Text
import ChrysaLisp.Library.Run

set_option autoImplicit false

/-! # The mesh of the Net services

`service/net/mesh.inc`. A node keeps a peer for each other system it knows of. It hears of one
first hand, by its beacon or its own hello, or in the hello of another. Any number of nodes, on one
clock, say and hear, and forget. -/

namespace ChrysaLisp.NetMesh

open Run

/-- What is known of one other system. -/
structure Peer where
  ip : Str
  port : ℕ
  dialler : Bool
  knows_me : Bool
  said_hello : Bool
  t_dialled : ℕ
  t_wait : ℕ
  t_heard : ℕ
  t_seen : ℕ
  tries : ℕ
  build : Str
  deriving DecidableEq

def meshRedial : ℕ := 10000000

def meshPatience : ℕ := 15000000

def meshAlive : ℕ := 30000000

abbrev Peers := List (Str × Peer)

/-- A peer not known yet, with no address. -/
def newPeer : Peer := ⟨[], 0, false, false, false, 0, 0, 0, 0, 0, []⟩

/-- The peer of that system id, a new one if not known, made to be what `f` says. -/
def meshPeer (peers : Peers) (sys : Str) (f : Peer → Peer) : Peers :=
  match peers with
  | [] => [(sys, f newPeer)]
  | e :: rest => if e.1 = sys then (sys, f e.2) :: rest else e :: meshPeer rest sys f

def meshBeacon (peers : Peers) (sys ip : Str) (port : ℕ) (dials i_beacon : Bool) (now : ℕ)
    (build : Option Str) : Peers :=
  meshPeer peers sys (fun peer =>
    let peer := { peer with build := build.getD peer.build, ip, port, t_heard := now, t_seen := now }
    if peer.said_hello then peer else { peer with dialler := dials, knows_me := dials && i_beacon })

def helloWord : Str := asc "CHRYSA_HELLO"

/-- Is the peer told of in a hello? -/
def toldOf (now : ℕ) (peer : Peer) : Bool :=
  decide (0 < peer.port) && decide ((now : ℤ) - peer.t_heard < meshAlive)

def helloLine (e : Str × Peer) : Str := e.1 ++ 32 :: (e.2.ip ++ 32 :: strNum e.2.port)

def meshHello (peers : Peers) (my_sys : Str) (now : ℕ) : Str :=
  helloWord ++ 32 :: my_sys ++
    10 :: ((peers.filter (fun e => toldOf now e.2)).map (fun e => helloLine e ++ [10])).flatten

/-- A peer that another has heard. -/
def wordOf (ip : Str) (port now : ℕ) (peer : Peer) : Peer :=
  let peer := { peer with t_seen := now }
  if peer.port = 0 then { peer with ip, port } else peer

/-- A line of a hello, after the first. What it adds is if the one whose hello it is knows me. -/
def heardLine (my_sys : Str) (now : ℕ) (st : Peers × Bool) (line : Str) : Peers × Bool :=
  match split line 32 with
  | [sys, ip, port] =>
      if sys = my_sys then (st.1, true)
      else if 0 < strAsNum port then (meshPeer st.1 sys (wordOf ip (strAsNum port) now), st.2)
      else st
  | _ => st

/-- The peer a hello is from. -/
def saidHello (now : ℕ) (knows : Bool) (peer : Peer) : Peer :=
  { peer with t_heard := now, t_seen := now, said_hello := true, dialler := true, knows_me := knows }

def meshHeard (peers : Peers) (my_sys text : Str) (now : ℕ) : Peers × Option Str :=
  let lines := split text 10
  match split (lines.headD []) 32 with
  | [word, sys] =>
      if word = helloWord ∧ sys ≠ my_sys then
        let st := lines.tail.foldl (heardLine my_sys now) (meshPeer peers sys id, false)
        (meshPeer st.1 sys (saidHello now st.2), some sys)
      else (peers, none)
  | _ => (peers, none)

/-- `mesh-dial?`, and the peer as it leaves it. -/
def meshDial (peer : Peer) (my_sys sys : Str) (linked : Bool) (now : ℕ) : Bool × Peer :=
  let dial (peer : Peer) : Bool × Peer :=
    (true, { peer with t_dialled := now, tries := min 4 (peer.tries + 1), t_wait := 0 })
  if sys = my_sys then (false, peer)
  else if linked then (false, { peer with t_wait := 0, tries := 0, t_seen := now })
  else if peer.port = 0 then (false, { peer with t_wait := 0 })
  else if (now : ℤ) - peer.t_dialled < meshRedial <<< (peer.tries - 1) then (false, peer)
  else if peer.dialler && peer.knows_me && decide (sys < my_sys) then
    let peer := if peer.t_wait = 0 then { peer with t_wait := now } else peer
    if (now : ℤ) - peer.t_wait < meshPatience then (false, peer) else dial peer
  else dial peer

/-- A peer as one never met, but for when it was heard and its build. -/
def forgetPeer (now : ℕ) (peer : Peer) : Peer :=
  if 0 < peer.port ∧ (meshAlive : ℤ) < now - peer.t_seen then
    { peer with ip := [], port := 0, dialler := false, knows_me := false, said_hello := false,
                t_dialled := 0, t_wait := 0, tries := 0 }
  else peer

def meshForget (peers : Peers) (now : ℕ) : Peers := peers.map (fun e => (e.1, forgetPeer now e.2))

/-! ## The nodes -/

/-- A hello on its way: which node said it, when, and the text. -/
structure Hello where
  node : ℕ
  time : ℕ
  text : Str

structure State where
  now : ℕ
  peers : ℕ → Peers
  said : List Hello

/-- What a node does, or time goes by. A hello that was said is heard by its place in order. -/
inductive Event
  | tick (dt : ℕ)
  | beacon (i : ℕ) (sys ip : Str) (port : ℕ) (dials i_beacon : Bool) (build : Option Str)
  | hello (i : ℕ)
  | heard (i j : ℕ)
  | dial (i : ℕ) (sys : Str) (linked : Bool)
  | forget (i : ℕ)

variable (ids : ℕ → Str)

def State.set (s : State) (i : ℕ) (peers : Peers) : State :=
  { s with peers := Function.update s.peers i peers }

def step (s : State) : Event → State
  | .tick dt => { s with now := s.now + dt }
  | .beacon i sys ip port dials i_beacon build =>
      s.set i (meshBeacon (s.peers i) sys ip port dials i_beacon s.now build)
  | .hello i => { s with said := s.said ++ [⟨i, s.now, meshHello (s.peers i) (ids i) s.now⟩] }
  | .heard i j =>
      match s.said[j]? with
      | none => s
      | some h => s.set i (meshHeard (s.peers i) (ids i) h.text s.now).1
  | .dial i sys linked =>
      s.set i ((s.peers i).map (fun e =>
        if e.1 = sys then (e.1, (meshDial e.2 (ids i) sys linked s.now).2) else e))
  | .forget i => s.set i (meshForget (s.peers i) s.now)

/-- A text of one word, as an id and an address are. -/
def Word (s : Str) : Prop := s ≠ [] ∧ (32 : Byte) ∉ s ∧ (10 : Byte) ∉ s

instance (s : Str) : Decidable (Word s) := inferInstanceAs (Decidable (_ ∧ _))

/-- What can be when a peer was last heard at `T`: its beacons and its hellos are heard, and a
    link to it is had, till then. A text is no later than `d`. -/
def Can (gone : Str) (T d : ℕ) (s : State) : Event → Prop
  | .beacon _ sys ip _ _ _ _ => Word sys ∧ Word ip ∧ (sys = gone → s.now ≤ T)
  | .heard _ j =>
      ∀ h, s.said[j]? = some h → s.now ≤ h.time + d ∧ (ids h.node = gone → s.now ≤ T)
  | .dial _ sys linked => sys = gone → linked = true → s.now ≤ T
  | _ => True

/-- A line of the text, after the first, is of that system. -/
def Names (text sys : Str) : Prop :=
  ∃ line ∈ (split text 10).tail, (split line 32).head? = some sys

/-- Before any word of any peer. -/
def start (now : ℕ) : State := ⟨now, fun _ => [], []⟩

/-! ## What a hello says -/

/-- Its ids, and the addresses there are, are words. -/
def Worded (e : Str × Peer) : Prop := Word e.1 ∧ (0 < e.2.port → Word e.2.ip)

theorem split_lines {sep : Byte} {ls : List Str} (h : ∀ l ∈ ls, Part sep l) :
    split (ls.map (fun l => l ++ [sep])).flatten sep = ls := by
  induction ls with
  | nil => rfl
  | cons l ls ih =>
    rw [List.map_cons, List.flatten_cons, List.append_assoc, List.singleton_append,
      split_append (h l List.mem_cons_self), ih (fun l hl => h l (List.mem_cons_of_mem _ hl))]

theorem not_digit_of_blank : isDigit 32 = false ∧ isDigit 10 = false := by decide

theorem split_helloLine {e : Str × Peer} (h : Worded e) (hport : 0 < e.2.port) :
    split (helloLine e) 32 = [e.1, e.2.ip, strNum e.2.port] := by
  have hip := h.2 hport
  rw [helloLine, split_append ⟨h.1.1, h.1.2.1⟩, split_append ⟨hip.1, hip.2.1⟩,
    split_part ⟨strNum_ne_nil _, not_mem_strNum not_digit_of_blank.1 _⟩]

theorem part_helloLine {e : Str × Peer} (h : Worded e) (hport : 0 < e.2.port) :
    Part 10 (helloLine e) := by
  have hip := h.2 hport
  refine ⟨by simp [helloLine, h.1.1], ?_⟩
  simp [helloLine, h.1.2.2, hip.2.2, not_mem_strNum not_digit_of_blank.2]

section Hello

variable {peers : Peers} {my_sys : Str} {time : ℕ}

theorem port_of_toldOf {peer : Peer} (h : toldOf time peer = true) : 0 < peer.port :=
  of_decide_eq_true (Bool.and_eq_true_iff.1 h).1

theorem split_meshHello (hsys : Word my_sys) (h : ∀ e ∈ peers, Worded e) :
    split (meshHello peers my_sys time) 10 =
      (helloWord ++ 32 :: my_sys) :: (peers.filter (fun e => toldOf time e.2)).map helloLine := by
  have hhead : Part 10 (helloWord ++ 32 :: my_sys) :=
    ⟨by simp, by simp [hsys.2.2, show (10 : Byte) ∉ helloWord by decide]⟩
  have hlines : ∀ l ∈ (peers.filter (fun e => toldOf time e.2)).map helloLine, Part 10 l := by
    intro l hl
    obtain ⟨e, he, rfl⟩ := List.mem_map.1 hl
    obtain ⟨hmem, htold⟩ := List.mem_filter.1 he
    exact part_helloLine (h e hmem) (port_of_toldOf htold)
  have hmap : (peers.filter (fun e => toldOf time e.2)).map (fun e => helloLine e ++ [10]) =
      ((peers.filter (fun e => toldOf time e.2)).map helloLine).map (fun l => l ++ [10]) := by
    rw [List.map_map]
    rfl
  rw [meshHello, split_append hhead, hmap, split_lines hlines]

theorem split_head (hsys : Word my_sys) :
    split (helloWord ++ 32 :: my_sys) 32 = [helloWord, my_sys] := by
  rw [split_append ⟨by decide, by decide⟩, split_part ⟨hsys.1, hsys.2.1⟩]

/-- A hello names who its node knows an address of and has heard of late. -/
theorem names_meshHello (hsys : Word my_sys) (h : ∀ e ∈ peers, Worded e) {sys : Str}
    (hnames : Names (meshHello peers my_sys time) sys) :
    ∃ e ∈ peers, e.1 = sys ∧ toldOf time e.2 = true := by
  obtain ⟨line, hline, hfirst⟩ := hnames
  rw [split_meshHello hsys h, List.tail_cons] at hline
  obtain ⟨e, he, rfl⟩ := List.mem_map.1 hline
  obtain ⟨hmem, htold⟩ := List.mem_filter.1 he
  rw [split_helloLine (h e hmem) (port_of_toldOf htold)] at hfirst
  exact ⟨e, hmem, Option.some.inj hfirst, htold⟩

end Hello

/-! ## What is so of every peer -/

/-- It is so of every peer. -/
def All (I : Str → Peer → Prop) (peers : Peers) : Prop := ∀ e ∈ peers, I e.1 e.2

section All

variable {I : Str → Peer → Prop} {peers : Peers}

theorem All.meshPeer (h : All I peers) {sys : Str} {f : Peer → Peer} (hnew : I sys newPeer)
    (hf : ∀ p, I sys p → I sys (f p)) : All I (meshPeer peers sys f) := by
  induction peers with
  | nil =>
    intro e he
    rw [List.mem_singleton.1 he]
    exact hf _ hnew
  | cons e rest ih =>
    have hrest : All I rest := fun e he => h e (List.mem_cons_of_mem _ he)
    rw [NetMesh.meshPeer]
    split_ifs with hsys
    · intro e' he'
      rcases List.mem_cons.1 he' with rfl | he'
      · exact hf _ (hsys ▸ h e List.mem_cons_self)
      · exact hrest e' he'
    · intro e' he'
      rcases List.mem_cons.1 he' with rfl | he'
      · exact h e' List.mem_cons_self
      · exact ih hrest e' he'

theorem All.heardLine {my_sys : Str} {now : ℕ} {lines : List Str} (h : All I peers)
    (htold : ∀ line ∈ lines, ∀ sys ip port, split line 32 = [sys, ip, port] → 0 < strAsNum port →
      I sys newPeer ∧ ∀ p, I sys p → I sys (wordOf ip (strAsNum port) now p)) (knows : Bool) :
    All I (lines.foldl (heardLine my_sys now) (peers, knows)).1 := by
  induction lines generalizing peers knows with
  | nil => exact h
  | cons line lines ih =>
    have hrest := fun l hl => htold l (List.mem_cons_of_mem _ hl)
    have hstep : All I (NetMesh.heardLine my_sys now (peers, knows) line).1 := by
      unfold NetMesh.heardLine
      split
      · next sys ip port hparts =>
        split_ifs with hme hport
        · exact h
        · obtain ⟨hnew, hf⟩ := htold line List.mem_cons_self sys ip port hparts hport
          exact h.meshPeer hnew hf
        · exact h
      · exact h
    exact ih hstep hrest _

/-- What a hello may alter: the peer it is from, and those it tells of. -/
theorem All.meshHeard {l : Peers} {my_sys sys : Str} {time now : ℕ} (h : All I peers)
    (hsys : Word sys) (hl : ∀ e ∈ l, Worded e) (hnew : I sys newPeer)
    (hfrom : ∀ p knows, I sys p → I sys (saidHello now knows p))
    (htold : ∀ e ∈ l, toldOf time e.2 = true →
      I e.1 newPeer ∧ ∀ p, I e.1 p → I e.1 (wordOf e.2.ip e.2.port now p)) :
    All I (meshHeard peers my_sys (meshHello l sys time) now).1 := by
  have hlines : ∀ line ∈ (l.filter (fun e => toldOf time e.2)).map helloLine, ∀ sys ip port,
      split line 32 = [sys, ip, port] → 0 < strAsNum port →
      I sys newPeer ∧ ∀ p, I sys p → I sys (wordOf ip (strAsNum port) now p) := by
    intro line hline sys ip port hparts _
    obtain ⟨e, he, rfl⟩ := List.mem_map.1 hline
    obtain ⟨hmem, hof⟩ := List.mem_filter.1 he
    rw [split_helloLine (hl e hmem) (port_of_toldOf hof)] at hparts
    obtain ⟨rfl, rfl, rfl⟩ : e.1 = sys ∧ e.2.ip = ip ∧ strNum e.2.port = port := by
      simpa using hparts
    rw [strAsNum_strNum]
    exact htold e hmem hof
  rw [NetMesh.meshHeard]
  dsimp only
  rw [split_meshHello hsys hl, List.headD_cons, split_head hsys, List.tail_cons]
  dsimp only
  split_ifs
  · exact ((h.meshPeer hnew (fun p hp => hp)).heardLine hlines false).meshPeer hnew
      (fun p hp => hfrom p _ hp)
  · exact h

theorem All.map (h : All I peers) {f : Str × Peer → Str × Peer}
    (hf : ∀ e, I e.1 e.2 → I (f e).1 (f e).2) : All I (peers.map f) := by
  intro e he
  obtain ⟨e', he', rfl⟩ := List.mem_map.1 he
  exact hf e' (h e' he')

end All

/-! ## Word of a peer that has gone -/

section Gone

variable {ids : ℕ → Str} (gone : Str) (T d : ℕ)

/-- The times of the peer that has gone, in any node. -/
structure Ok (sys : Str) (peer : Peer) : Prop where
  word : Word sys
  addr : 0 < peer.port → Word peer.ip
  heard : sys = gone → peer.t_heard ≤ T
  seen : sys = gone → peer.t_seen ≤ T + meshAlive + d

structure Inv (ids : ℕ → Str) (s : State) : Prop where
  peers : ∀ i, All (Ok gone T d) (s.peers i)
  said : ∀ h ∈ s.said, ∃ l, All (Ok gone T d) l ∧ h.text = meshHello l (ids h.node) h.time

variable {gone T d}

theorem Ok.worded {l : Peers} (h : All (Ok gone T d) l) : ∀ e ∈ l, Worded e :=
  fun e he => ⟨(h e he).word, (h e he).addr⟩

theorem Ok.new {sys : Str} (h : Word sys) : Ok gone T d sys newPeer :=
  ⟨h, fun hport => absurd hport (lt_irrefl 0), fun _ => Nat.zero_le _, fun _ => Nat.zero_le _⟩

/-- Only who heard it of late tells of it. -/
theorem time_of_told {l : Peers} (h : All (Ok gone T d) l) {e : Str × Peer} (he : e ∈ l)
    (hgone : e.1 = gone) {time : ℕ} (htold : toldOf time e.2 = true) : time < T + meshAlive := by
  have hlate := of_decide_eq_true (Bool.and_eq_true_iff.1 htold).2
  have hheard := (h e he).heard hgone
  omega

theorem All.set {I : Str → Peer → Prop} {s : State} (h : ∀ i, All I (s.peers i)) {i : ℕ}
    {peers : Peers} (hi : All I peers) (j : ℕ) : All I ((s.set i peers).peers j) := by
  show All I (Function.update s.peers i peers j)
  by_cases hij : j = i
  · rw [hij, Function.update_self]
    exact hi
  · rw [Function.update_of_ne hij]
    exact h j

theorem ok_beacon {s : State} {peers : Peers} (h : All (Ok gone T d) peers) {sys ip : Str}
    {port : ℕ} {dials i_beacon : Bool} {build : Option Str} (hsys : Word sys) (hip : Word ip)
    (hnow : sys = gone → s.now ≤ T) :
    All (Ok gone T d) (meshBeacon peers sys ip port dials i_beacon s.now build) := by
  refine h.meshPeer (Ok.new hsys) (fun p _ => ?_)
  have hseen : sys = gone → s.now ≤ T + meshAlive + d := fun hgone => by have := hnow hgone; omega
  dsimp only
  split_ifs <;> exact ⟨hsys, fun _ => hip, hnow, hseen⟩

theorem ok_heard {s : State} {peers l : Peers} (h : All (Ok gone T d) peers) (my_sys : Str)
    {sys : Str} {time : ℕ} (hsys : Word sys) (hl : All (Ok gone T d) l) (hd : s.now ≤ time + d)
    (hnow : sys = gone → s.now ≤ T) :
    All (Ok gone T d) (meshHeard peers my_sys (meshHello l sys time) s.now).1 := by
  refine h.meshHeard hsys (Ok.worded hl) (Ok.new hsys) (fun p _ hp => ?_) (fun e he htold => ?_)
  · exact ⟨hsys, hp.addr, hnow, fun hgone => by have := hnow hgone; simp only [saidHello]; omega⟩
  · have hword := hl e he
    refine ⟨Ok.new hword.word, fun p hp => ?_⟩
    have hseen : e.1 = gone → s.now ≤ T + meshAlive + d := by
      intro hgone
      have := time_of_told hl he hgone htold
      omega
    unfold wordOf
    dsimp only
    split_ifs with hport
    · exact ⟨hword.word, fun hpos => hword.addr (port_of_toldOf htold), hp.heard, hseen⟩
    · exact ⟨hword.word, hp.addr, hp.heard, hseen⟩

/-- A dial leaves the address, and only a link is to be seen by. -/
theorem meshDial_kept (peer : Peer) (my_sys sys : Str) (linked : Bool) (now : ℕ) :
    let peer' := (meshDial peer my_sys sys linked now).2
    peer'.ip = peer.ip ∧ peer'.port = peer.port ∧ peer'.t_heard = peer.t_heard ∧
      (peer'.t_seen = peer.t_seen ∨ linked = true ∧ peer'.t_seen = now) := by
  unfold meshDial
  dsimp only
  split_ifs <;> simp_all

theorem ok_dial {s : State} {sys my_sys : Str} {peer : Peer} {linked : Bool}
    (h : Ok gone T d sys peer) (hnow : sys = gone → linked = true → s.now ≤ T) :
    Ok gone T d sys (meshDial peer my_sys sys linked s.now).2 := by
  obtain ⟨hip, hport, hheard, hseen⟩ := meshDial_kept peer my_sys sys linked s.now
  refine ⟨h.word, ?_, ?_, fun hgone => ?_⟩
  · rw [hip, hport]
    exact h.addr
  · rw [hheard]
    exact h.heard
  · rcases hseen with hseen | ⟨hlinked, hseen⟩
    · exact hseen ▸ h.seen hgone
    · have := hnow hgone hlinked
      omega

theorem ok_forget {now : ℕ} {sys : Str} {peer : Peer} (h : Ok gone T d sys peer) :
    Ok gone T d sys (forgetPeer now peer) := by
  unfold forgetPeer
  split_ifs
  · exact ⟨h.word, fun hport => absurd hport (lt_irrefl 0), h.heard, h.seen⟩
  · exact h

theorem inv_step (hids : ∀ i, Word (ids i)) (s : State) (e : Event) (hs : Inv gone T d ids s)
    (hcan : Can ids gone T d s e) : Inv gone T d ids (step ids s e) := by
  cases e with
  | tick dt => exact ⟨hs.peers, hs.said⟩
  | beacon i sys ip port dials i_beacon build =>
    exact ⟨All.set hs.peers (ok_beacon (hs.peers i) hcan.1 hcan.2.1 hcan.2.2), hs.said⟩
  | hello i =>
    refine ⟨hs.peers, fun h hh => ?_⟩
    rcases List.mem_append.1 hh with hh | hh
    · exact hs.said h hh
    · rw [List.mem_singleton.1 hh]
      exact ⟨s.peers i, hs.peers i, rfl⟩
  | heard i j =>
    rw [step]
    cases hj : s.said[j]? with
    | none => exact hs
    | some h =>
      obtain ⟨hd, hnow⟩ := hcan h hj
      obtain ⟨l, hl, htext⟩ := hs.said h (List.mem_of_getElem? hj)
      have hpeers := ok_heard (hs.peers i) (ids i) (hids h.node) hl hd hnow
      rw [← htext] at hpeers
      exact ⟨All.set hs.peers hpeers, hs.said⟩
  | dial i sys linked =>
    refine ⟨All.set hs.peers ((hs.peers i).map (fun e he => ?_)), hs.said⟩
    split_ifs with hsys
    · exact hsys ▸ ok_dial (hsys ▸ he) (hsys ▸ hcan)
    · exact he
  | forget i =>
    exact ⟨All.set hs.peers ((hs.peers i).map (fun e he => ok_forget he)), hs.said⟩

theorem inv_run (hids : ∀ i, Word (ids i)) {now : ℕ} {es : List Event}
    (hes : Each (step ids) (Can ids gone T d) (start now) es) :
    Inv gone T d ids (run (step ids) (start now) es) :=
  inv_of_each (inv_step hids) ⟨fun _ _ he => absurd he List.not_mem_nil,
    fun _ hh => absurd hh List.not_mem_nil⟩ hes

/-! ## Forgotten -/

/-- The peer that has gone has no address. -/
def NoAddress (gone sys : Str) (peer : Peer) : Prop := sys = gone → peer.port = 0

/-- A node that has forgotten it, when no word of it can come any more. -/
structure Forgotten (gone : Str) (T d : ℕ) (ids : ℕ → Str) (i : ℕ) (s : State) : Prop where
  inv : Inv gone T d ids s
  late : T + meshAlive + d ≤ s.now
  none : All (NoAddress gone) (s.peers i)

theorem meshDial_noAddress {peer : Peer} (h : peer.port = 0) (my_sys sys : Str) (linked : Bool)
    (now : ℕ) : (meshDial peer my_sys sys linked now).1 = false := by
  unfold meshDial
  dsimp only
  split_ifs <;> simp_all

theorem forgetPeer_noAddress {now : ℕ} {sys : Str} {peer : Peer} (h : NoAddress gone sys peer) :
    NoAddress gone sys (forgetPeer now peer) := by
  intro hgone
  unfold forgetPeer
  split_ifs
  · rfl
  · exact h hgone

/-- Late enough, it is forgotten at once. -/
theorem forgotten_of_forget {s : State} {i : ℕ} (hs : Inv gone T d ids s)
    (hlate : T + 2 * meshAlive + d < s.now) :
    Forgotten gone T d ids i (step ids s (.forget i)) := by
  have hpeers : All (Ok gone T d) (meshForget (s.peers i) s.now) :=
    (hs.peers i).map (fun e he => ok_forget he)
  refine ⟨⟨All.set hs.peers hpeers, hs.said⟩, ?_, ?_⟩
  · show T + meshAlive + d ≤ s.now
    omega
  · show All (NoAddress gone) (Function.update s.peers i (meshForget (s.peers i) s.now) i)
    rw [Function.update_self]
    intro e' he' hgone
    obtain ⟨e, he, rfl⟩ := List.mem_map.1 he'
    have hseen := (hs.peers i e he).seen hgone
    show (forgetPeer s.now e.2).port = 0
    unfold forgetPeer
    split_ifs with hforget
    · rfl
    · omega

theorem forgotten_step (hids : ∀ i, Word (ids i)) {i : ℕ} (s : State) (e : Event)
    (hs : Forgotten gone T d ids i s) (hcan : Can ids gone T d s e) :
    Forgotten gone T d ids i (step ids s e) := by
  have hpos : 0 < meshAlive := by decide
  have hlate := hs.late
  have hset : ∀ (j : ℕ) (peers : Peers), (i = j → All (NoAddress gone) peers) →
      All (NoAddress gone) ((s.set j peers).peers i) := by
    intro j peers hj
    show All (NoAddress gone) (Function.update s.peers j peers i)
    by_cases hij : i = j
    · rw [hij, Function.update_self]
      exact hj hij
    · rw [Function.update_of_ne hij]
      exact hs.none
  refine ⟨inv_step hids s e hs.inv hcan, ?_, ?_⟩
  · cases e with
    | tick dt =>
      show T + meshAlive + d ≤ s.now + dt
      omega
    | heard j k =>
      rw [step]
      split <;> exact hlate
    | _ => exact hlate
  · cases e with
    | tick dt => exact hs.none
    | hello j => exact hs.none
    | beacon j sys ip port dials i_beacon build =>
      refine hset j _ (fun hij => ?_)
      obtain ⟨-, -, hnow⟩ := hcan
      refine (hij ▸ hs.none).meshPeer (fun _ => rfl) (fun p _ hgone => ?_)
      have := hnow hgone
      omega
    | heard j k =>
      rw [step]
      cases hk : s.said[k]? with
      | none => exact hs.none
      | some h =>
        obtain ⟨hd, -⟩ := hcan h hk
        obtain ⟨l, hl, htext⟩ := hs.inv.said h (List.mem_of_getElem? hk)
        refine hset j _ (fun hij => ?_)
        rw [htext]
        refine (hij ▸ hs.none).meshHeard (hids h.node) (Ok.worded hl) (fun _ => rfl)
          (fun p _ hp => hp) (fun e he htold => ⟨fun _ => rfl, fun p _ hgone => ?_⟩)
        have := time_of_told hl he hgone htold
        omega
    | dial j sys linked =>
      refine hset j _ (fun hij => (hij ▸ hs.none).map (fun e he => ?_))
      split_ifs
      · exact fun hgone => ((meshDial_kept _ _ _ _ _).2.1).trans (he hgone)
      · exact he
    | forget j =>
      exact hset j _ (fun hij => (hij ▸ hs.none).map (fun e he => forgetPeer_noAddress he))

/-- Word of a peer that has gone dies out. -/
theorem word_dies_out (ids : ℕ → Str) (hids : ∀ i, Word (ids i)) (gone : Str) (T d now : ℕ)
    (es : List Event) (hes : Each (step ids) (Can ids gone T d) (start now) es) :
    (∀ i peer, (gone, peer) ∈ (run (step ids) (start now) es).peers i →
        peer.t_seen ≤ T + meshAlive + d) ∧
      (∀ h ∈ (run (step ids) (start now) es).said, T + meshAlive ≤ h.time → ¬ Names h.text gone) ∧
      ∀ i before after, es = before ++ Event.forget i :: after →
        T + 2 * meshAlive + d < (run (step ids) (start now) before).now →
        ∀ peer, (gone, peer) ∈ (run (step ids) (start now) es).peers i →
          peer.port = 0 ∧ ∀ linked time, (meshDial peer (ids i) gone linked time).1 = false := by
  have hinv := inv_run hids hes
  refine ⟨fun i peer hpeer => (hinv.peers i _ hpeer).seen rfl, fun h hh htime hnames => ?_, ?_⟩
  · obtain ⟨l, hl, htext⟩ := hinv.said h hh
    rw [htext] at hnames
    obtain ⟨e, he, hgone, htold⟩ := names_meshHello (hids h.node) (Ok.worded hl) hnames
    exact absurd (time_of_told hl he hgone htold) (not_lt.2 htime)
  · rintro i before after rfl hlate peer hpeer
    obtain ⟨hbefore, -, hafter⟩ := each_append.1 hes
    have hforgot := forgotten_of_forget (i := i) (inv_run hids hbefore) hlate
    rw [run_append, run_cons] at hpeer
    have hport := (inv_of_each (forgotten_step hids) hforgot hafter).none _ hpeer rfl
    exact ⟨hport, meshDial_noAddress hport _ _⟩

end Gone

/-! Two nodes, the one with the beacon of a third, the other with word of it. -/

def twoIds (i : ℕ) : Str := if i = 0 then asc "A1" else asc "B2"

def wordEvents : List Event :=
  [.beacon 0 (asc "C3") (asc "10.0.0.3") 3333 true true none, .hello 0, .tick 2, .heard 1 0,
    .tick 60000009]

theorem wordEvents_can : Each (step twoIds) (Can twoIds (asc "C3") 5 7) (start 5)
    (wordEvents ++ [.forget 1]) := by
  refine ⟨⟨?_, ?_, fun _ => le_rfl⟩, trivial, trivial, ?_, trivial, trivial, trivial⟩
  · decide
  · decide
  · rintro h ⟨⟩
    exact ⟨by decide, fun h => absurd h (by decide)⟩

theorem word_dies_out_of_third :
    ((run (step twoIds) (start 5) (wordEvents ++ [.forget 1])).peers 1).all
      (fun e => decide (e.1 = asc "C3" → e.2.port = 0)) = true := by
  have hforgot := (word_dies_out twoIds (fun i => by unfold twoIds; split_ifs <;> decide) (asc "C3")
    5 7 5 (wordEvents ++ [.forget 1]) wordEvents_can).2.2 1 wordEvents [] rfl (by decide)
  rw [List.all_eq_true]
  rintro ⟨sys, peer⟩ he
  refine decide_eq_true (fun hsys => (hforgot peer ?_).1)
  rw [← show sys = asc "C3" from hsys]
  exact he

end ChrysaLisp.NetMesh
