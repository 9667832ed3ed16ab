import ChrysaLisp.Mail.StreamSteps

set_option autoImplicit false

/-! # What a stream keeps

The messages that were sent and not had are those on their way and those that came early, in some order; the
number of each says its place among all that were sent, as long as there are not so many of them that two
have one number. So the one whose turn it is, is the next there was sent, and the bytes that were taken, with
those unread, are the bytes of the messages that were had.

The acks are counted: how many were sent is told by how many messages were had, and a started `:out` has
had as many of them as the number of its last message asks for. -/

namespace ChrysaLisp.MailStream

open Run

@[simp] theorem bytes_nil : bytes [] = [] := rfl

@[simp] theorem bytes_append (ms ns : List Msg) : bytes (ms ++ ns) = bytes ms ++ bytes ns :=
  List.flatMap_append

@[simp] theorem bytes_singleton (m : Msg) : bytes [m] = m.data := List.flatMap_singleton Msg.data m

/-! ## The order -/

/-- The messages, and the bytes, there have been. -/
structure Order (s : Stream) : Prop where
  tidy : s.out.Tidy
  asked : s.inp.ask = some .nextMsg → s.inp.buffer = []
  count : s.passed ≤ s.sent.length
  queue : s.ahead.Perm (s.flying ++ s.inp.early)
  numbered : ∀ k m, s.sent[k]? = some m → m.seqnum = k % uint
  outSeq : (s.out.seqnum + if s.out.waiting = none then 0 else 1) % uint = s.sent.length % uint
  inSeq : s.inp.seqnum = s.passed % uint
  taken : s.taken ++ s.inp.buffer = bytes (s.sent.take s.passed)
  written : bytes s.sent ++ s.out.content = s.written
  outSeq_lt : s.out.seqnum < uint
  seen : s.inp.state = .started ∨ ∃ k m, k < s.passed ∧ s.sent[k]? = some m ∧
    m.state = s.inp.state ∧ bytes (s.sent.take k) <+: s.taken

section Order

variable {s : Stream}

theorem order_start : Order start := by
  refine ⟨trivial, ?_, le_rfl, List.Perm.refl _, ?_, rfl, rfl, rfl, rfl, by decide, Or.inl rfl⟩
  · intro h
    simp [start] at h
  · intro k m h
    simp [start] at h

/-- Of the messages there are, the one whose turn it is, is the next that was sent. -/
theorem Order.next (h : Order s) (hahead : s.ahead.length ≤ uint) {m : Msg} (hm : m ∈ s.ahead)
    (hturn : m.seqnum = s.inp.seqnum) : s.sent[s.passed]? = some m := by
  obtain ⟨j, hj⟩ := List.mem_iff_getElem?.mp hm
  rw [Stream.ahead, List.getElem?_drop] at hj
  have hlen := (List.getElem?_eq_some_iff.mp hj).1
  have hnumber := h.numbered _ _ hj
  rw [hturn, h.inSeq] at hnumber
  have hzero : j = 0 := by
    rw [Stream.ahead, List.length_drop] at hahead
    unfold uint at *
    omega
  rwa [hzero, Nat.add_zero] at hj

/-- With the next message had, there are the others. -/
theorem ahead_eq_cons {m : Msg} (h : s.sent[s.passed]? = some m) :
    s.ahead = m :: s.sent.drop (s.passed + 1) :=
  (List.drop_eq_getElem?_toList_append ..).trans (by rw [h]; rfl)

theorem take_passed_succ {m : Msg} (h : s.sent[s.passed]? = some m) :
    s.sent.take (s.passed + 1) = s.sent.take s.passed ++ [m] := by
  rw [List.take_add_one, h]
  rfl

theorem seen_append {ms : List Msg} {state : MailState} {n : ℕ} {taken : Str}
    (h : ∃ k m, k < n ∧ s.sent[k]? = some m ∧ m.state = state ∧ bytes (s.sent.take k) <+: taken)
    (hn : n ≤ s.sent.length) : ∃ k m, k < n ∧ (s.sent ++ ms)[k]? = some m ∧ m.state = state ∧
      bytes ((s.sent ++ ms).take k) <+: taken := by
  obtain ⟨k, m, hk, hm, hstate, hprefix⟩ := h
  refine ⟨k, m, hk, ?_, hstate, ?_⟩
  · rw [List.getElem?_append_left (by omega), hm]
  · rwa [List.take_append_of_le_length (by omega)]

/-- More is sent. -/
theorem ahead_append (h : s.passed ≤ s.sent.length) (ms : List Msg) :
    (s.sent ++ ms).drop s.passed = s.ahead ++ ms := List.drop_append_of_le_length h

theorem numbered_append {m : Msg} (h : ∀ k m, s.sent[k]? = some m → m.seqnum = k % uint)
    (hm : m.seqnum = s.sent.length % uint) :
    ∀ k m', (s.sent ++ [m])[k]? = some m' → m'.seqnum = k % uint := by
  intro k m' hk
  rw [List.getElem?_append] at hk
  split at hk
  · exact h k m' hk
  · have hlen := (List.getElem?_eq_some_iff.mp hk).1
    rw [List.length_singleton] at hlen
    have hzero : k = s.sent.length := by omega
    rw [hzero, Nat.sub_self, List.getElem?_cons_zero] at hk
    rw [← Option.some.inj hk, hm, hzero]

/-- The out's step, as what it has left to send and what it sends. -/
theorem Order.write (h : Order s) {errors : Bool} : Order (step errors s .write) := by
  have hsame : ∀ (o : Out) (acks : ℕ), o.Tidy → o.content = s.out.content → o.seqnum < uint →
      (o.seqnum + if o.waiting = none then 0 else 1) % uint = s.sent.length % uint →
      Order { s with out := o, acks := acks } :=
    fun o acks htidy hcontent hlt hseq => ⟨htidy, h.asked, h.count, h.queue, h.numbered, hseq, h.inSeq,
      h.taken, hcontent ▸ h.written, hlt, h.seen⟩
  have hseq := h.outSeq
  have hlt := h.outSeq_lt
  rcases Out.step_cases s.acks h.tidy with
    ⟨k, hwait, ⟨-, hstep⟩ | hstep | ⟨-, hstep⟩⟩ | ⟨hwait, ⟨o, hgoes, hstep⟩ | ⟨o, data, hsends, hstep⟩⟩
  all_goals
    simp only [step, hstep, List.append_nil]
    rw [hwait] at hseq
  · refine hsame s.out.next s.acks h.tidy rfl (Nat.mod_lt _ (by decide)) ?_
    simpa [Out.next] using hseq
  · exact hsame s.out s.acks h.tidy rfl hlt (by rw [hwait]; exact hseq)
  · exact hsame { s.out with ackSeqnum := (s.out.ackSeqnum + 1) % uint } (s.acks - 1) h.tidy rfl hlt
      (by simp only [hwait]; exact hseq)
  · refine hsame o s.acks hgoes.tidy hgoes.content (hgoes.seqnum ▸ hlt) ?_
    rw [hgoes.waiting, hgoes.seqnum]
    exact hseq
  · have hnumber : s.out.seqnum = s.sent.length % uint := by
      rw [← hseq]
      exact (Nat.mod_eq_of_lt hlt).symm
    refine ⟨hsends.tidy, h.asked, ?_, ?_, numbered_append h.numbered hnumber, ?_, h.inSeq, ?_, ?_, ?_, ?_⟩
    · simp only [List.length_append]
      exact h.count.trans (Nat.le_add_right _ _)
    · simp only [Stream.ahead, ahead_append h.count]
      refine (h.queue.append_right _).trans ?_
      rw [List.append_assoc, List.append_assoc]
      exact List.perm_append_comm.append_left s.flying
    · simp only [List.length_append, List.length_singleton]
      by_cases hstate : s.out.state = .started
      · obtain ⟨hwaiting, hsame⟩ := hsends.started hstate
        rw [hwaiting, hsame, hnumber]
        simp [Nat.add_mod]
      · obtain ⟨hwaiting, hsame⟩ := hsends.later hstate
        rw [hwaiting, hsame, hnumber]
        simp [Nat.add_mod]
    · simp only [List.take_append_of_le_length h.count]
      exact h.taken
    · simp only [bytes_append, bytes_singleton, List.append_assoc, ← hsends.content]
      exact h.written
    · by_cases hstate : s.out.state = .started
      · rw [(hsends.started hstate).2]
        exact hlt
      · rw [(hsends.later hstate).2]
        exact Nat.mod_lt _ (by decide)
    · exact h.seen.imp_right fun hseen => seen_append hseen h.count

theorem Order.read (h : Order s) {errors : Bool} (hahead : s.ahead.length ≤ uint) :
    Order (step errors s .read) := by
  rcases In.step_cases errors h.asked with
    ⟨i, got, round, hreads, hround, hstep⟩ | ⟨i, m, ack, hpasses, -, hstep⟩
  · have hcount : Round.count round = 0 := by
      cases round with
      | none => rfl
      | some r =>
          cases r with
          | passed ack => exact absurd rfl (hround ack)
          | _ => rfl
    simp only [step, hstep, hcount, Nat.add_zero]
    refine ⟨h.tidy, hreads.ask, h.count, ?_, h.numbered, h.outSeq, ?_, ?_, h.written, h.outSeq_lt, ?_⟩
    · exact h.queue.trans (hreads.early.append_left _)
    · rw [hreads.seqnum]
      exact h.inSeq
    · rw [List.append_assoc, ← hreads.buffer]
      exact h.taken
    · rw [hreads.state]
      refine h.seen.imp_right ?_
      rintro ⟨k, m, hk, hm, hstate, hprefix⟩
      exact ⟨k, m, hk, hm, hstate, hprefix.trans (List.prefix_append _ _)⟩
  · have hmem : m ∈ s.ahead :=
      h.queue.mem_iff.mpr (List.mem_append_right _ (hpasses.early.mem_iff.mpr List.mem_cons_self))
    have hnext := h.next hahead hmem hpasses.turn
    have htaken : s.taken = bytes (s.sent.take s.passed) := by
      rw [← h.taken, hpasses.unread, List.append_nil]
    simp only [step, hstep, Round.count, List.append_nil]
    refine ⟨h.tidy, fun hask => absurd hask hpasses.ask, ?_, ?_, h.numbered, h.outSeq, ?_, ?_, h.written,
      h.outSeq_lt, ?_⟩
    · exact (List.getElem?_eq_some_iff.mp hnext).1
    · have hqueue := h.queue.trans ((hpasses.early.append_left _).trans List.perm_middle)
      rw [ahead_eq_cons hnext] at hqueue
      exact hqueue.cons_inv
    · rw [hpasses.seqnum, h.inSeq]
      simp
    · rw [take_passed_succ hnext, bytes_append, bytes_singleton, hpasses.buffer, htaken]
    · rw [hpasses.state]
      by_cases hlater : s.inp.state.num < m.state.num
      · rw [if_pos hlater]
        exact Or.inr ⟨s.passed, m, Nat.lt_succ_self _, hnext, rfl, htaken ▸ List.prefix_refl _⟩
      · rw [if_neg hlater]
        refine h.seen.imp_right ?_
        rintro ⟨k, m', hk, hm, hstate, hprefix⟩
        exact ⟨k, m', hk.trans (Nat.lt_succ_self _), hm, hstate, hprefix⟩

theorem order_step (errors : Bool) (s : Stream) (e : Event) (h : Order s) (hsound : Sound s e) :
    Order (step errors s e) := by
  cases e with
  | call c =>
      unfold step
      simp only
      by_cases hidle : s.out.todo = [] ∧ s.out.waiting = none
      · rw [if_pos hidle]
        refine ⟨tidy_acts _ c, h.asked, h.count, h.queue, h.numbered, h.outSeq, h.inSeq, h.taken, ?_,
          h.outSeq_lt, h.seen⟩
        have hwritten := h.written
        rw [Out.content, hidle.1, List.flatMap_nil, List.append_nil] at hwritten
        simp only [Out.content, data_acts]
        rw [← List.append_assoc, hwritten]
      · rw [if_neg hidle]
        exact h
  | write => exact h.write
  | deliver k =>
      unfold step
      simp only
      cases hk : s.flying[k]? with
      | none => exact h
      | some m =>
          refine ⟨h.tidy, h.asked, h.count, h.queue.trans ?_, h.numbered, h.outSeq, h.inSeq, h.taken,
            h.written, h.outSeq_lt, h.seen⟩
          obtain ⟨hlt, rfl⟩ := List.getElem?_eq_some_iff.mp hk
          have hflying := List.getElem_cons_eraseIdx_perm hlt
          simp only [In.early, List.append_assoc]
          refine (hflying.symm.append_right _).trans ?_
          rw [List.cons_append]
          refine List.perm_middle.symm.trans (List.Perm.append_left _ ?_)
          exact List.perm_middle.symm
  | ack =>
      unfold step
      simp only
      split_ifs
      · exact h
      · exact ⟨h.tidy, h.asked, h.count, h.queue, h.numbered, h.outSeq, h.inSeq, h.taken, h.written,
          h.outSeq_lt, h.seen⟩
  | ask a =>
      unfold step
      simp only
      split_ifs
      · refine ⟨h.tidy, fun hask => ?_, h.count, h.queue, h.numbered, h.outSeq, h.inSeq, h.taken, h.written,
          h.outSeq_lt, h.seen⟩
        exact hsound.1 (by rw [Option.some.inj hask])
      · exact h
  | read => exact h.read hsound.2

end Order

end ChrysaLisp.MailStream
