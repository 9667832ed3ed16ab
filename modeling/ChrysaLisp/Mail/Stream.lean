import ChrysaLisp.Library.Run
import ChrysaLisp.Lisp.Str
import Mathlib.Data.List.Perm.Basic
import Mathlib.Data.List.Basic

set_option autoImplicit false

/-! # A stream over mail

The `:out` and the `:in` of a stream that goes by mail. What is written is put in a message, and the message
is sent when it is full, at a flush, or as the state of the stream moves on. Each has the number it is in
the sequence of them and the state the stream was in. The `:in` has those that come early kept in a list,
and takes the one whose turn it is. Of each `2 ^ out_ack_shift` it acknowledges the first, and an `:out`
that is `started` waits for that before it goes on past the end of as many.

Either side is a task: it is told what to do, and does it a step at a time, waiting where it has to. The mail
between them may be late, and come in any order. -/

namespace ChrysaLisp.MailStream

/-- A number of a `uint`. -/
def uint : ℕ := 2 ^ 32

/-- `out_ack_shift`. -/
def outAckShift : ℕ := 5

/-- The bytes a message takes, of the `lk_data_size` it is allocated with: less `+stream_msg_data`, which is
    an id of a mailbox, the number and the state. -/
def room : ℕ := 6104 - (24 + 4 + 4)

/-- `+stream_mail_state`, in order. -/
inductive MailState where
  | started | stopping | stopped | aborted
deriving DecidableEq

def MailState.num : MailState → ℕ
  | .started => 0
  | .stopping => 1
  | .stopped => 2
  | .aborted => 3

/-- A message of a stream: `+stream_msg_seqnum`, `+stream_msg_state`, and the bytes. -/
structure Msg where
  seqnum : ℕ
  state : MailState
  data : Str
deriving DecidableEq

/-- The bytes of messages, in order. -/
def bytes (msgs : List Msg) : Str := msgs.flatMap Msg.data

/-! ## The out -/

/-- What the task of an `:out` has to do next: put a byte in the buffer, `:write_next`, `:flush`, have a
    buffer allocated, `:set_state`, and the store of the state. -/
inductive Act where
  | put (b : Byte)
  | writeNext
  | flush
  | alloc
  | setState (state : MailState)
  | store (state : MailState)
deriving DecidableEq

/-- What is asked of an `:out`. The last is `(out-set-state out +stream_mail_state_aborted)`, which does no
    more than store it. -/
inductive Call where
  | write (data : Str)
  | flush
  | setState (state : MailState)
  | abort
deriving DecidableEq

/-- `:stream :write` puts in a buffer as much as there is room for at a time, which is byte by byte. -/
def Call.acts : Call → List Act
  | .write data => data.map .put
  | .flush => [.flush]
  | .setState state => [.setState state]
  | .abort => [.store .aborted]

def Call.data : Call → Str
  | .write data => data
  | _ => []

/-- An `:out`: its fields; the bytes in its `stream_buffer`, if it has one; the ack number it is at
    `:wait_acks` for, and what it has to do after. -/
structure Out where
  seqnum : ℕ
  ackSeqnum : ℕ
  state : MailState
  buffer : Option Str
  waiting : Option ℕ
  todo : List Act

/-- `next seq num`. -/
def Out.next (o : Out) : Out := { o with waiting := none, seqnum := (o.seqnum + 1) % uint }

/-- `:out :wait_acks`: it is done, or an ack is read if there is one. -/
def Out.waitAcks (o : Out) (ackNum acks : ℕ) : Out × ℕ :=
  if o.ackSeqnum = ackNum then (o.next, acks)
  else if acks = 0 then (o, acks)
  else ({ o with ackSeqnum := (o.ackSeqnum + 1) % uint }, acks - 1)

/-- `:out :flush`, as far as the wait. -/
def Out.flush (o : Out) : Out × List Msg :=
  match o.buffer with
  | none => (o, [])
  | some data =>
      let sent := { o with buffer := none }
      -- acks are waited for only while actively streaming
      (if o.state = .started then { sent with waiting := some (o.seqnum >>> outAckShift) } else sent.next,
        [⟨o.seqnum, o.state, data⟩])

/-- One act, with what has to be done after it. -/
def Out.act (o : Out) (rest : List Act) : Act → Out × List Msg
  | .put b =>
      match o.buffer with
      | some data =>
          if data.length < room then ({ o with buffer := some (data ++ [b]), todo := rest }, [])
          else ({ o with todo := .writeNext :: .put b :: rest }, [])
      | none => ({ o with todo := .writeNext :: .put b :: rest }, [])
  | .writeNext => ({ o with todo := .flush :: .alloc :: rest }, [])
  | .flush => Out.flush { o with todo := rest }
  | .alloc => ({ o with buffer := some [], todo := rest }, [])
  | .setState state =>
      -- only move state forward
      if o.state.num < state.num then
        ({ o with todo := .writeNext :: .store state :: .flush :: rest }, [])
      else ({ o with todo := rest }, [])
  | .store state => ({ o with state := state, todo := rest }, [])

/-- A step of the task of an `:out`, at whose mailbox there are so many acks: what it sends, and how many
    are left. -/
def Out.step (o : Out) (acks : ℕ) : Out × List Msg × ℕ :=
  match o.waiting with
  | some ackNum => ((o.waitAcks ackNum acks).1, [], (o.waitAcks ackNum acks).2)
  | none =>
      match o.todo with
      | [] => (o, [], acks)
      | a :: rest => ((o.act rest a).1, (o.act rest a).2, acks)

/-! ## The in -/

/-- What is asked of an `:in`: to read so many bytes, or `(in-next-msg in)`. -/
inductive Ask where
  | read (left : ℕ)
  | nextMsg
deriving DecidableEq

/-- An `:in`: the list of those that came early, its mailbox, its fields, the bytes of its `stream_buffer`
    that are unread, and what its task is at. -/
structure In where
  list : List Msg
  mbox : List Msg
  seqnum : ℕ
  ackSeqnum : ℕ
  state : MailState
  buffer : Str
  ask : Option Ask

/-- What becomes of a round of `:in :next_msg`: it waits for mail, it leaves as one that is aborted does, or
    it has the next message, having sent an ack or not. -/
inductive Round where
  | wait
  | abort
  | passed (ack : Bool)
deriving DecidableEq

/-- `next_seq`, of the messages there are. -/
def nextSeq (list : List Msg) (seqnum : ℕ) : Option (Msg × List Msg) :=
  match list.find? (fun m => decide (m.seqnum = seqnum)) with
  | some m => some (m, list.erase m)
  | none => none

/-- `:in :next_msg`, once the message is found. -/
def In.pass (i : In) (m : Msg) (list : List Msg) : In × Bool :=
  let ack := decide (i.ackSeqnum = m.seqnum >>> outAckShift)
  let passed : In :=
    { i with
      list := list
      seqnum := (i.seqnum + 1) % uint
      ackSeqnum := if ack then (i.ackSeqnum + 1) % uint else i.ackSeqnum
      -- only move state forwards
      state := if i.state.num < m.state.num then m.state else i.state
      buffer := m.data }
  (match nextSeq list (i.seqnum + 1) with
    -- put in the mailbox, so that a `select` or a `poll` will trigger
    | some (early, rest) => { passed with list := rest, mbox := i.mbox ++ [early] }
    | none => passed, ack)

/-- A round of the loop of `:in :next_msg`. Only a build with its error cases in leaves when it is
    aborted. -/
def In.nextMsg (errors : Bool) (i : In) : In × Round :=
  match nextSeq i.list i.seqnum with
  | some (m, list) => ((i.pass m list).1, .passed (i.pass m list).2)
  | none =>
      if errors = true ∧ i.state = .aborted then ({ i with buffer := [] }, .abort)
      else
        match i.mbox with
        | [] => (i, .wait)
        | m :: rest => ({ i with list := i.list ++ [m], mbox := rest }, .wait)

/-- A step of the task of an `:in`: the bytes it takes, and how it went at `:next_msg`, if it was at that. -/
def In.step (errors : Bool) (i : In) : In × Str × Option Round :=
  match i.ask with
  | none => (i, [], none)
  | some .nextMsg =>
      let next := In.nextMsg errors { i with buffer := [] }
      (if next.2 = .wait then next.1 else { next.1 with ask := none }, [], some next.2)
  | some (.read left) =>
      if left = 0 then ({ i with ask := none }, [], none)
      else if i.buffer ≠ [] then
        let got := i.buffer.take left
        ({ i with buffer := i.buffer.drop left, ask := some (.read (left - got.length)) }, got, none)
      -- `:in :read_next`
      else if i.state ≠ .started then ({ i with ask := none }, [], none)
      else
        let next := i.nextMsg errors
        (if next.1.state = .started then next.1 else { next.1 with ask := none }, [], some next.2)

/-! ## The two, and the mail between them -/

/-- A stream: the two ends of it, the messages and the acks that are on their way, and the acks that have
    come. With that, what has happened: the bytes that were to be written, the messages that were sent, how
    many of them the `:in` has had, and the bytes it was read. -/
structure Stream where
  out : Out
  inp : In
  flying : List Msg
  acksFlying : ℕ
  acks : ℕ
  written : Str
  sent : List Msg
  passed : ℕ
  taken : Str

/-- What can happen: an end that is at nothing is asked for something, or has its task go on; a message, any
    there is, or an ack comes to its mailbox. -/
inductive Event where
  | call (c : Call)
  | write
  | deliver (k : ℕ)
  | ack
  | ask (a : Ask)
  | read
deriving DecidableEq

/-- A round that has the next message. -/
def Round.count : Option Round → ℕ
  | some (.passed _) => 1
  | _ => 0

def Round.acks : Option Round → ℕ
  | some (.passed true) => 1
  | _ => 0

def step (errors : Bool) (s : Stream) : Event → Stream
  | .call c =>
      if s.out.todo = [] ∧ s.out.waiting = none then
        { s with out := { s.out with todo := c.acts }, written := s.written ++ c.data }
      else s
  | .write =>
      let next := s.out.step s.acks
      { s with
        out := next.1, flying := s.flying ++ next.2.1, sent := s.sent ++ next.2.1, acks := next.2.2 }
  | .deliver k =>
      match s.flying[k]? with
      | none => s
      | some m =>
          { s with flying := s.flying.eraseIdx k, inp := { s.inp with mbox := s.inp.mbox ++ [m] } }
  | .ack =>
      if s.acksFlying = 0 then s else { s with acksFlying := s.acksFlying - 1, acks := s.acks + 1 }
  | .ask a => if s.inp.ask = none then { s with inp := { s.inp with ask := some a } } else s
  | .read =>
      let next := s.inp.step errors
      { s with
        inp := next.1
        taken := s.taken ++ next.2.1
        passed := s.passed + Round.count next.2.2
        acksFlying := s.acksFlying + Round.acks next.2.2 }

/-- The ends as `:init` has them. -/
def start : Stream where
  out := ⟨0, 0, .started, none, none, []⟩
  inp := ⟨[], [], 0, 0, .started, [], none⟩
  flying := []
  acksFlying := 0
  acks := 0
  written := []
  sent := []
  passed := 0
  taken := []

/-- The messages that were sent and not had yet. -/
def Stream.ahead (s : Stream) : List Msg := s.sent.drop s.passed

/-- `in-next-msg` is called with nothing unread, for it frees what is; and there are not so many messages on
    their way that two have one number. -/
def Sound (s : Stream) (e : Event) : Prop :=
  (e = .ask .nextMsg → s.inp.buffer = []) ∧ s.ahead.length ≤ uint

end ChrysaLisp.MailStream
