import ChrysaLisp.Mail.StreamOrder

set_option autoImplicit false

/-! # How far ahead an out is

An `:out` that is started has an ack for the first of every `2 ^ out_ack_shift` messages but those it sends
now, so it is never twice that many ahead. It waits for none once its state has moved on: of what it sends
then there may be any number. -/

namespace ChrysaLisp.MailStream

open Run

/-! ## The acks -/

/-- The acks an `:in` has sent that has had so many messages: one for each that is the first of its lot,
    till the numbers start again, which the acks do not. -/
def acked (passed : ℕ) : ℕ := min ((passed + 31) / 32) (2 ^ 27)

def isStarted (m : Msg) : Bool := decide (m.state = .started)

/-- The acks there have been. -/
structure Acked (s : Stream) : Prop where
  had : s.inp.ackSeqnum = acked s.passed
  there : s.out.ackSeqnum + s.acks + s.acksFlying = acked s.passed
  idle : s.out.state = .started → s.out.waiting = none →
    s.sent.length ≤ uint ∧ s.out.ackSeqnum = (s.sent.length - 1) / 32
  waits : ∀ k, s.out.waiting = some k → s.out.state = .started ∧ k = s.out.seqnum >>> outAckShift ∧
    1 ≤ s.sent.length ∧ s.sent.length ≤ uint + 1 ∧ (s.sent.length - 2) / 32 ≤ s.out.ackSeqnum
  ahead : s.out.state ≠ .started → s.ahead.countP isStarted ≤ 2 * 2 ^ outAckShift

section Acked

variable {s : Stream}

theorem acked_start : Acked start := by
  refine ⟨rfl, rfl, fun _ _ => ⟨Nat.zero_le _, rfl⟩, ?_, fun h => absurd rfl h⟩
  intro k h
  simp [start] at h

/-- A started `:out` waits for its acks. -/
theorem Acked.length_ahead (h : Acked s) (hstate : s.out.state = .started) :
    s.ahead.length ≤ 2 * 2 ^ outAckShift := by
  have hthere := h.there
  rw [Stream.ahead, List.length_drop]
  unfold acked at hthere
  unfold outAckShift
  cases hwait : s.out.waiting with
  | none =>
      have hidle := (h.idle hstate hwait).2
      omega
  | some k =>
      obtain ⟨-, -, -, -, hacks⟩ := h.waits k hwait
      omega

theorem Acked.ahead_le (h : Acked s) : s.ahead.countP isStarted ≤ 2 * 2 ^ outAckShift := by
  by_cases hstate : s.out.state = .started
  · exact List.countP_le_length.trans (h.length_ahead hstate)
  · exact h.ahead hstate

/-- One more message is had, and the first of each lot has an ack. -/
theorem acked_succ {i i' : In} {m : Msg} {ack : Bool} {passed : ℕ} (hacks : In.Acks i i' m ack)
    (hnumber : m.seqnum = passed % uint) (hhad : i.ackSeqnum = acked passed) :
    i'.ackSeqnum = acked (passed + 1) ∧
      acked (passed + 1) = acked passed + Round.acks (some (.passed ack)) := by
  have hshift : m.seqnum >>> outAckShift = passed % uint / 32 := by
    rw [hnumber, Nat.shiftRight_eq_div_pow]
    rfl
  rw [In.Acks, hshift, hhad] at hacks
  unfold acked uint at *
  rcases hacks with ⟨hack, rfl, hnext⟩ | ⟨hack, rfl, hnext⟩
  · simp only [Round.acks]
    omega
  · simp only [Round.acks]
    omega

theorem Acked.read (h : Acked s) (horder : Order s) {errors : Bool} : Acked (step errors s .read) := by
  rcases In.step_cases errors horder.asked with
    ⟨i, got, round, hreads, hround, hstep⟩ | ⟨i, m, ack, hpasses, hacks, hstep⟩
  · have hcount : Round.count round = 0 ∧ Round.acks round = 0 := by
      cases round with
      | none => exact ⟨rfl, rfl⟩
      | some r =>
          cases r with
          | passed ack => exact absurd rfl (hround ack)
          | _ => exact ⟨rfl, rfl⟩
    simp only [step, hstep, hcount.1, hcount.2, Nat.add_zero]
    exact ⟨hreads.ackSeqnum.trans h.had, h.there, h.idle, h.waits, h.ahead⟩
  · have hnumber : m.seqnum = s.passed % uint := hpasses.turn.trans horder.inSeq
    obtain ⟨hhad, hmore⟩ := acked_succ hacks hnumber h.had
    simp only [step, hstep, Round.count]
    refine ⟨hhad, ?_, h.idle, h.waits, fun hstate => ?_⟩
    · simp only [← Nat.add_assoc]
      rw [h.there, hmore]
    · refine le_trans ?_ (h.ahead hstate)
      rw [Stream.ahead, Stream.ahead, ← List.drop_drop]
      exact (List.drop_sublist 1 _).countP_le

/-- The ack an `:out` was at a wait for is that of its last message: so the numbers have not started again,
    for that of the first would be no more to wait for. -/
theorem idle_of_acked {seqnum len ackSeqnum : ℕ} (hlt : seqnum < uint)
    (hseq : (seqnum + 1) % uint = len % uint)
    (hone : 1 ≤ len) (hle : len ≤ uint + 1) (hacks : (len - 2) / 32 ≤ ackSeqnum)
    (hack : ackSeqnum = seqnum >>> outAckShift) : len ≤ uint ∧ ackSeqnum = (len - 1) / 32 := by
  rw [Nat.shiftRight_eq_div_pow] at hack
  unfold uint outAckShift at *
  have hlen : len ≠ 2 ^ 32 + 1 := by
    intro hlen
    rw [hlen] at hseq hacks
    omega
  have hlast : seqnum = len - 1 := by omega
  rw [hack, hlast]
  exact ⟨by omega, rfl⟩

theorem Acked.write (h : Acked s) (horder : Order s) {errors : Bool} : Acked (step errors s .write) := by
  have hthere := h.there
  rcases Out.step_cases s.acks horder.tidy with
    ⟨k, hwait, hcases⟩ | ⟨hwait, ⟨o, hgoes, hstep⟩ | ⟨o, data, hsends, hstep⟩⟩
  · obtain ⟨hstate, hk, hone, hle, hacks⟩ := h.waits k hwait
    rcases hcases with ⟨hack, hstep⟩ | hstep | ⟨hpos, hstep⟩
    all_goals simp only [step, hstep, List.append_nil]
    · have hseq := horder.outSeq
      rw [hwait, if_neg (by simp)] at hseq
      rw [hk] at hack
      refine ⟨h.had, hthere, fun _ _ => ?_, fun k' hk' => by simp [Out.next] at hk',
        fun hlater => absurd hstate hlater⟩
      exact idle_of_acked horder.outSeq_lt hseq hone hle hacks hack
    · exact ⟨h.had, hthere, h.idle, h.waits, h.ahead⟩
    · have hmod : (s.out.ackSeqnum + 1) % uint = s.out.ackSeqnum + 1 := by
        unfold acked at hthere
        unfold uint
        omega
      simp only [hmod]
      refine ⟨h.had, ?_, fun _ hnone => ?_, fun k' hk' => ?_, fun hlater => absurd hstate hlater⟩
      · simp only
        omega
      · simp only at hnone
        rw [hwait] at hnone
        simp at hnone
      · obtain ⟨-, hk'', -⟩ := h.waits k' hk'
        exact ⟨hstate, hk'', hone, hle, hacks.trans (Nat.le_succ _)⟩
  · simp only [step, hstep, List.append_nil]
    refine ⟨h.had, by rw [← hthere, hgoes.ackSeqnum], fun hstate _ => ?_, fun k hk => ?_, fun _ => h.ahead_le⟩
    · rw [hgoes.ackSeqnum]
      exact h.idle (hgoes.state.elim (fun hsame => hsame ▸ hstate) (fun hlater => absurd hstate hlater)) hwait
    · simp only at hk
      rw [hgoes.waiting] at hk
      simp at hk
  · simp only [step, hstep]
    by_cases hstate : s.out.state = .started
    · obtain ⟨hwaiting, hseq⟩ := hsends.started hstate
      obtain ⟨hle, hacks⟩ := h.idle hstate hwait
      refine ⟨h.had, by rw [← hthere, hsends.ackSeqnum], fun _ hnone => ?_, fun k hk => ?_, fun hlater => ?_⟩
      · simp only at hnone
        rw [hwaiting] at hnone
        simp at hnone
      · simp only at hk
        rw [hwaiting] at hk
        simp only [List.length_append, List.length_singleton, hseq, hsends.ackSeqnum]
        refine ⟨hsends.state.trans hstate, (Option.some.inj hk).symm, ?_, ?_, ?_⟩ <;> omega
      · simp only at hlater
        rw [hsends.state] at hlater
        exact absurd hstate hlater
    · obtain ⟨hwaiting, -⟩ := hsends.later hstate
      refine ⟨h.had, by rw [← hthere, hsends.ackSeqnum], fun hstarted => ?_, fun k hk => ?_, fun _ => ?_⟩
      · simp only at hstarted
        rw [hsends.state] at hstarted
        exact absurd hstarted hstate
      · simp only at hk
        rw [hwaiting] at hk
        simp at hk
      · simp only [Stream.ahead, ahead_append horder.count]
        rw [List.countP_append, List.countP_singleton]
        have hlater : isStarted ⟨s.out.seqnum, s.out.state, data⟩ = false := decide_eq_false hstate
        rw [hlater]
        exact h.ahead hstate

theorem acked_step (errors : Bool) (s : Stream) (e : Event) (h : Acked s) (horder : Order s) :
    Acked (step errors s e) := by
  cases e with
  | call c =>
      unfold step
      simp only
      split_ifs
      · exact ⟨h.had, h.there, h.idle, h.waits, h.ahead⟩
      · exact h
  | write => exact h.write horder
  | deliver k =>
      unfold step
      simp only
      cases s.flying[k]? with
      | none => exact h
      | some m => exact ⟨h.had, h.there, h.idle, h.waits, h.ahead⟩
  | ack =>
      unfold step
      simp only
      have hthere := h.there
      split_ifs
      · exact h
      · refine ⟨h.had, ?_, h.idle, h.waits, h.ahead⟩
        simp only
        omega
  | ask a =>
      unfold step
      simp only
      split_ifs
      · exact ⟨h.had, h.there, h.idle, h.waits, h.ahead⟩
      · exact h
  | read => exact h.read horder

end Acked

/-! ## A run -/

/-- A stream after what has happened to it. -/
def after (errors : Bool) (es : List Event) : Stream := run (step errors) start es

theorem order_acked {errors : Bool} {es : List Event} (h : Each (step errors) Sound start es) :
    Order (after errors es) ∧ Acked (after errors es) :=
  inv_of_each (I := fun s => Order s ∧ Acked s)
    (fun s e hs he => ⟨order_step errors s e hs.1 he, acked_step errors s e hs.2 hs.1⟩)
    ⟨order_start, acked_start⟩ h

/-- The state an `:in` has is only moved forward. -/
theorem state_le_step {errors : Bool} {s : Stream} (h : Order s) (e : Event) :
    s.inp.state.num ≤ (step errors s e).inp.state.num := by
  cases e with
  | read =>
      rcases In.step_cases errors h.asked with
        ⟨i, got, round, hreads, -, hstep⟩ | ⟨i, m, ack, hpasses, -, hstep⟩
      · simp only [step, hstep, hreads.state]
        exact le_rfl
      · simp only [step, hstep, hpasses.state]
        split_ifs with hlater
        · exact hlater.le
        · exact le_rfl
  | write => exact le_rfl
  | _ =>
      unfold step
      simp only
      split <;> exact le_rfl

theorem state_le_run {errors : Bool} {s : Stream} (hs : Order s) {es : List Event}
    (h : Each (step errors) Sound s es) : s.inp.state.num ≤ (run (step errors) s es).inp.state.num :=
  (inv_of_each (I := fun t => Order t ∧ s.inp.state.num ≤ t.inp.state.num)
    (fun t e ht he => ⟨order_step errors t e ht.1 he, ht.2.trans (state_le_step ht.1 e)⟩)
    ⟨hs, le_rfl⟩ h).2

/-- What is taken is what was written, in order. The state that is seen came with a message, and what was
    sent before that has been taken; it never goes back. And of the messages sent while the stream is
    started, an `:out` is no more than two lots ahead. -/
theorem stream_in_order (errors : Bool) (es fs : List Event)
    (h : Each (step errors) Sound start (es ++ fs)) :
    (after errors es).taken <+: (after errors es).written ∧
      ((after errors es).inp.state = .started ∨
        ∃ k m, k < (after errors es).passed ∧ (after errors es).sent[k]? = some m ∧
          m.state = (after errors es).inp.state ∧
          bytes ((after errors es).sent.take k) <+: (after errors es).taken) ∧
      (after errors es).inp.state.num ≤ (after errors (es ++ fs)).inp.state.num ∧
      (after errors es).ahead.countP isStarted ≤ 2 * 2 ^ outAckShift := by
  obtain ⟨hes, hfs⟩ := each_append.mp h
  obtain ⟨horder, hacked⟩ := order_acked hes
  refine ⟨?_, horder.seen, ?_, hacked.ahead_le⟩
  · have htaken : (after errors es).taken <+: bytes ((after errors es).sent.take (after errors es).passed) :=
      horder.taken ▸ List.prefix_append _ _
    have hbytes : bytes ((after errors es).sent.take (after errors es).passed) <+:
        bytes (after errors es).sent := by
      conv_rhs => rw [← List.take_append_drop (after errors es).passed (after errors es).sent]
      rw [bytes_append]
      exact List.prefix_append _ _
    rw [← horder.written]
    exact (htaken.trans hbytes).trans (List.prefix_append _ _)
  · unfold after
    rw [run_append]
    exact state_le_run horder hfs

instance decidableSound (s : Stream) (e : Event) : Decidable (Sound s e) :=
  inferInstanceAs (Decidable ((e = .ask .nextMsg → s.inp.buffer = []) ∧ s.ahead.length ≤ uint))

/-- A byte is written and flushed, and the stream is to stop; what says so comes first. -/
def turned : List Event :=
  [.call (.write [1]), .write, .write, .write, .write, .write, .call .flush, .write, .write,
    .call (.setState .stopping), .write, .write, .write, .write, .write, .write, .deliver 1, .deliver 0]

/-- Then it is read. -/
def turnedRead : List Event := turned ++ [.ask (.read 9), .read, .read, .read, .read]

theorem stream_in_order_turned :
    (after true turnedRead).taken = [1] ∧ (after true turnedRead).taken <+: (after true turnedRead).written :=
  have hsound : Each (step true) Sound start (turnedRead ++ [.read]) := by decide +kernel
  ⟨by decide +kernel, (stream_in_order true turnedRead [.read] hsound).1⟩

/-! ## A stream that is stopping -/

/-- A byte is written, and flushed. -/
def lot : List Event :=
  [.call (.write [0]), .write, .write, .write, .write, .write, .call .flush, .write]

/-- An `:out` that is stopping sends it, and is as it was. -/
theorem run_lot {s : Stream} {n : ℕ} (h : s.out = ⟨n, 0, .stopping, none, none, []⟩) :
    (run (step true) s lot).out = ⟨(n + 1) % uint, 0, .stopping, none, none, []⟩ ∧
      (run (step true) s lot).sent = s.sent ++ [⟨n, .stopping, [0]⟩] ∧
      (run (step true) s lot).passed = s.passed := by
  obtain ⟨out, inp, flying, acksFlying, acks, written, sent, passed, taken⟩ := s
  simp only at h
  subst h
  refine ⟨rfl, ?_, rfl⟩
  calc _ = sent ++ [] ++ [] ++ [] ++ [] ++ [] ++ [⟨n, .stopping, [0]⟩] := rfl
    _ = sent ++ [⟨n, .stopping, [0]⟩] := by simp only [List.append_nil]

theorem exists_ahead (bound : ℕ) : ∃ es n, (after true es).out = ⟨n, 0, .stopping, none, none, []⟩ ∧
    (after true es).passed = 0 ∧ bound ≤ (after true es).sent.length := by
  induction bound with
  | zero =>
      exact ⟨.call (.setState .stopping) :: List.replicate 6 .write, 1, rfl, rfl, Nat.zero_le _⟩
  | succ bound ih =>
      obtain ⟨es, n, hout, hpassed, hlen⟩ := ih
      obtain ⟨hnext, hsent, hsame⟩ := run_lot hout
      refine ⟨es ++ lot, (n + 1) % uint, ?_, ?_, ?_⟩ <;> unfold after <;> rw [run_append]
      · exact hnext
      · exact hsame.trans hpassed
      · exact hsent ▸ (by rw [List.length_append]; exact Nat.succ_le_succ hlen)

/-- An `:out` that is no more started may be any number of messages ahead. -/
theorem unbounded_when_stopping :
    ¬ ∃ bound, ∀ es, (after true es).ahead.length ≤ bound := by
  rintro ⟨bound, h⟩
  obtain ⟨es, n, -, hpassed, hlen⟩ := exists_ahead (bound + 1)
  have hes := h es
  rw [Stream.ahead, hpassed, List.drop_zero] at hes
  omega

end ChrysaLisp.MailStream
