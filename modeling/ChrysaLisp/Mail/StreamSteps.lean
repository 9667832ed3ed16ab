import ChrysaLisp.Mail.Stream

set_option autoImplicit false

/-! # What a step of either end of a stream does

An `:out` is at a wait, of which it has the end or an ack; or it sends its buffer; or it goes on with what it
has to do, and the bytes in its buffer and yet to be put are what they were. An `:in` has the message whose
turn it is, with nothing unread; or it reads what is unread and its mail, and there are the messages there
were. -/

namespace ChrysaLisp.MailStream

/-! ## The out -/

def Act.data : Act → Str
  | .put b => [b]
  | _ => []

/-- The bytes an `:out` has yet to send. -/
def Out.content (o : Out) : Str := o.buffer.getD [] ++ o.todo.flatMap Act.data

/-- A buffer is allocated only where there is none, after a flush or at the start; and the state that is
    stored is not the first. -/
def Tidy : Bool → List Act → Prop
  | _, [] => True
  | empty, .alloc :: rest => empty = true ∧ Tidy false rest
  | _, .flush :: rest => Tidy true rest
  | _, .store state :: rest => state ≠ .started ∧ Tidy false rest
  | _, _ :: rest => Tidy false rest

def Out.Tidy (o : Out) : Prop := MailStream.Tidy o.buffer.isNone o.todo

theorem Tidy.empty {empty : Bool} {todo : List Act} (h : Tidy false todo) : Tidy empty todo := by
  cases todo with
  | nil => trivial
  | cons a rest =>
      cases a with
      | alloc => exact absurd h.1 Bool.false_ne_true
      | _ => exact h

theorem tidy_acts (empty : Bool) (c : Call) : Tidy empty c.acts := by
  cases c with
  | write data =>
      refine Tidy.empty ?_
      induction data with
      | nil => trivial
      | cons b data ih => exact ih
  | flush => trivial
  | setState state => trivial
  | abort => exact ⟨by decide, trivial⟩

@[simp] theorem data_acts (c : Call) : c.acts.flatMap Act.data = c.data := by
  cases c with
  | write data =>
      induction data with
      | nil => rfl
      | cons b data ih => simpa [Call.acts, Call.data, Act.data] using ih
  | _ => rfl

theorem started_of_num {state state' : MailState} (h : state.num < state'.num) : state' ≠ .started := by
  rintro rfl
  exact absurd h (Nat.not_lt_zero _)

/-- What an act does that sends nothing. -/
structure Out.Goes (o o' : Out) : Prop where
  seqnum : o'.seqnum = o.seqnum
  ackSeqnum : o'.ackSeqnum = o.ackSeqnum
  waiting : o'.waiting = none
  state : o'.state = o.state ∨ o'.state ≠ .started
  content : o'.content = o.content
  tidy : o'.Tidy

/-- What a flush does, with a buffer. -/
structure Out.Sends (o o' : Out) (data : Str) : Prop where
  buffer : o.buffer = some data
  ackSeqnum : o'.ackSeqnum = o.ackSeqnum
  state : o'.state = o.state
  started : o.state = .started → o'.waiting = some (o.seqnum >>> outAckShift) ∧ o'.seqnum = o.seqnum
  later : o.state ≠ .started → o'.waiting = none ∧ o'.seqnum = (o.seqnum + 1) % uint
  content : o.content = data ++ o'.content
  tidy : o'.Tidy

variable {o : Out} {rest : List Act} {a : Act}

theorem Out.act_put_full {b : Byte} (h : ¬ ∃ data, o.buffer = some data ∧ data.length < room) :
    o.act rest (.put b) = ({ o with todo := .writeNext :: .put b :: rest }, []) := by
  unfold Out.act
  cases hbuffer : o.buffer with
  | none => rfl
  | some data => exact if_neg fun hroom => h ⟨data, hbuffer, hroom⟩

theorem Out.act_goes (hwait : o.waiting = none) (htodo : o.todo = a :: rest) (htidy : o.Tidy)
    (hflush : a = .flush → o.buffer = none) : Out.Goes o (o.act rest a).1 ∧ (o.act rest a).2 = [] := by
  unfold Out.Tidy at htidy
  rw [htodo] at htidy
  have hcontent : o.content = o.buffer.getD [] ++ (Act.data a ++ rest.flatMap Act.data) := by
    rw [Out.content, htodo, List.flatMap_cons]
  cases a with
  | put b =>
      by_cases hroom : ∃ data, o.buffer = some data ∧ data.length < room
      · obtain ⟨data, hbuffer, hroom⟩ := hroom
        have hact : o.act rest (.put b) = ({ o with buffer := some (data ++ [b]), todo := rest }, []) := by
          simp only [Out.act, hbuffer, if_pos hroom]
        rw [hact]
        refine ⟨⟨rfl, rfl, hwait, Or.inl rfl, ?_, htidy⟩, rfl⟩
        rw [hcontent, hbuffer]
        exact List.append_assoc data [b] _
      · rw [Out.act_put_full hroom]
        exact ⟨⟨rfl, rfl, hwait, Or.inl rfl, by rw [hcontent]; rfl, htidy⟩, rfl⟩
  | writeNext =>
      refine ⟨⟨rfl, rfl, hwait, Or.inl rfl, ?_, ?_⟩, rfl⟩
      · rw [hcontent]
        rfl
      · exact ⟨rfl, htidy⟩
  | flush =>
      have hnone := hflush rfl
      have hact : o.act rest .flush = ({ o with todo := rest }, []) := by
        simp only [Out.act, Out.flush, hnone]
      rw [hact]
      refine ⟨⟨rfl, rfl, hwait, Or.inl rfl, ?_, ?_⟩, rfl⟩
      · rw [hcontent]
        rfl
      · unfold Out.Tidy
        rw [hnone]
        exact htidy
  | alloc =>
      have hnone := Option.isNone_iff_eq_none.mp htidy.1
      refine ⟨⟨rfl, rfl, hwait, Or.inl rfl, ?_, htidy.2⟩, rfl⟩
      rw [hcontent, hnone]
      rfl
  | setState state =>
      unfold Out.act
      simp only
      by_cases hstate : o.state.num < state.num
      · rw [if_pos hstate]
        refine ⟨⟨rfl, rfl, hwait, Or.inl rfl, by rw [hcontent]; rfl, ?_⟩, rfl⟩
        exact ⟨started_of_num hstate, (show MailStream.Tidy false rest from htidy).empty⟩
      · rw [if_neg hstate]
        exact ⟨⟨rfl, rfl, hwait, Or.inl rfl, by rw [hcontent]; rfl, Tidy.empty htidy⟩, rfl⟩
  | store state =>
      exact ⟨⟨rfl, rfl, hwait, Or.inr htidy.1, by rw [hcontent]; rfl, Tidy.empty htidy.2⟩, rfl⟩

theorem Out.act_sends {data : Str} (htodo : o.todo = .flush :: rest)
    (htidy : o.Tidy) (hbuffer : o.buffer = some data) :
    Out.Sends o (o.act rest .flush).1 data ∧ (o.act rest .flush).2 = [⟨o.seqnum, o.state, data⟩] := by
  unfold Out.Tidy at htidy
  rw [htodo] at htidy
  have hcontent : o.content = data ++ rest.flatMap Act.data := by
    rw [Out.content, htodo, hbuffer]
    rfl
  simp only [Out.act, Out.flush, hbuffer]
  by_cases hstate : o.state = .started
  · simp only [if_pos hstate, and_true]
    exact ⟨hbuffer, rfl, rfl, fun _ => ⟨rfl, rfl⟩, fun h => absurd hstate h, hcontent, htidy⟩
  · simp only [if_neg hstate, and_true]
    exact ⟨hbuffer, rfl, rfl, fun h => absurd h hstate, fun _ => ⟨rfl, rfl⟩, hcontent, htidy⟩

/-- What a step of an `:out` can do. -/
theorem Out.step_cases (acks : ℕ) (htidy : o.Tidy) :
    (∃ k, o.waiting = some k ∧
      ((o.ackSeqnum = k ∧ o.step acks = (o.next, [], acks)) ∨
        o.step acks = (o, [], acks) ∨
        (0 < acks ∧ o.step acks = ({ o with ackSeqnum := (o.ackSeqnum + 1) % uint }, [], acks - 1)))) ∨
    (o.waiting = none ∧
      ((∃ o', Out.Goes o o' ∧ o.step acks = (o', [], acks)) ∨
        ∃ o' data, Out.Sends o o' data ∧ o.step acks = (o', [⟨o.seqnum, o.state, data⟩], acks))) := by
  cases hwait : o.waiting with
  | some k =>
      refine Or.inl ⟨k, rfl, ?_⟩
      simp only [Out.step, hwait, Out.waitAcks]
      by_cases hack : o.ackSeqnum = k
      · rw [if_pos hack]
        exact Or.inl ⟨hack, rfl⟩
      · rw [if_neg hack]
        by_cases hzero : acks = 0
        · rw [if_pos hzero]
          exact Or.inr (Or.inl rfl)
        · rw [if_neg hzero]
          exact Or.inr (Or.inr ⟨Nat.pos_of_ne_zero hzero, rfl⟩)
  | none =>
      refine Or.inr ⟨rfl, ?_⟩
      cases htodo : o.todo with
      | nil =>
          refine Or.inl ⟨o, ⟨rfl, rfl, hwait, Or.inl rfl, rfl, htidy⟩, ?_⟩
          simp only [Out.step, hwait, htodo]
      | cons a rest =>
          have hstep : o.step acks = ((o.act rest a).1, (o.act rest a).2, acks) := by
            simp only [Out.step, hwait, htodo]
          by_cases hsend : a = .flush ∧ ∃ data, o.buffer = some data
          · obtain ⟨rfl, data, hbuffer⟩ := hsend
            obtain ⟨hsends, hsent⟩ := Out.act_sends htodo htidy hbuffer
            exact Or.inr ⟨_, data, hsends, by rw [hstep, hsent]⟩
          · have hflush : a = .flush → o.buffer = none := by
              intro ha
              exact Option.eq_none_iff_forall_ne_some.mpr fun data hdata => hsend ⟨ha, data, hdata⟩
            obtain ⟨hgoes, hsent⟩ := Out.act_goes hwait htodo htidy hflush
            exact Or.inl ⟨_, hgoes, by rw [hstep, hsent]⟩

/-! ## The in -/

theorem nextSeq_some {list rest : List Msg} {seqnum : ℕ} {m : Msg}
    (h : nextSeq list seqnum = some (m, rest)) : m.seqnum = seqnum ∧ list.Perm (m :: rest) := by
  unfold nextSeq at h
  cases hfind : list.find? (fun m => decide (m.seqnum = seqnum)) with
  | none => simp [hfind] at h
  | some m' =>
      rw [hfind] at h
      obtain ⟨rfl, rfl⟩ := Prod.mk.inj (Option.some.inj h)
      exact ⟨of_decide_eq_true (List.find?_some (p := fun m : Msg => decide (m.seqnum = seqnum)) hfind),
        List.perm_cons_erase (List.mem_of_find?_eq_some hfind)⟩

/-- The messages an `:in` has had come, and not had their turn. -/
def In.early (i : In) : List Msg := i.mbox ++ i.list

/-- What a message that is passed does. -/
structure In.Passes (i i' : In) (m : Msg) : Prop where
  unread : i.buffer = []
  turn : m.seqnum = i.seqnum
  early : i.early.Perm (m :: i'.early)
  seqnum : i'.seqnum = (i.seqnum + 1) % uint
  state : i'.state = if i.state.num < m.state.num then m.state else i.state
  buffer : i'.buffer = m.data
  ask : i'.ask ≠ some .nextMsg

/-- What reading does, and waiting for mail. -/
structure In.Reads (i i' : In) (got : Str) : Prop where
  early : i.early.Perm i'.early
  seqnum : i'.seqnum = i.seqnum
  ackSeqnum : i'.ackSeqnum = i.ackSeqnum
  state : i'.state = i.state
  buffer : i.buffer = got ++ i'.buffer
  ask : i'.ask = some .nextMsg → i'.buffer = []

/-- The ack number after a message, and was there an ack. -/
def In.Acks (i i' : In) (m : Msg) (ack : Bool) : Prop :=
  (i.ackSeqnum = m.seqnum >>> outAckShift ∧ ack = true ∧ i'.ackSeqnum = (i.ackSeqnum + 1) % uint) ∨
    (i.ackSeqnum ≠ m.seqnum >>> outAckShift ∧ ack = false ∧ i'.ackSeqnum = i.ackSeqnum)

variable {i : In} {m : Msg} {list : List Msg}

theorem In.pass_spec (hunread : i.buffer = []) (h : nextSeq i.list i.seqnum = some (m, list))
    (ask : Option Ask) (hask : ask ≠ some .nextMsg) :
    In.Passes i { (i.pass m list).1 with ask := ask } m ∧
      In.Acks i { (i.pass m list).1 with ask := ask } m (i.pass m list).2 := by
  obtain ⟨hturn, hperm⟩ := nextSeq_some h
  have hearly : i.early.Perm (m :: (i.mbox ++ list)) :=
    (hperm.append_left _).trans List.perm_middle
  have hacks : ∀ i' : In, i'.ackSeqnum = (if decide (i.ackSeqnum = m.seqnum >>> outAckShift) = true
      then (i.ackSeqnum + 1) % uint else i.ackSeqnum) →
      In.Acks i i' m (decide (i.ackSeqnum = m.seqnum >>> outAckShift)) := by
    intro i' hi'
    by_cases hack : i.ackSeqnum = m.seqnum >>> outAckShift
    · exact Or.inl ⟨hack, decide_eq_true hack, by rw [hi', if_pos (decide_eq_true hack)]⟩
    · refine Or.inr ⟨hack, decide_eq_false hack, ?_⟩
      rw [hi', if_neg (by rw [decide_eq_false hack]; exact Bool.false_ne_true)]
  unfold In.pass
  cases hnext : nextSeq list (i.seqnum + 1) with
  | none =>
      simp only
      exact ⟨⟨hunread, hturn, hearly, rfl, rfl, rfl, hask⟩, hacks _ rfl⟩
  | some found =>
      obtain ⟨early, rest⟩ := found
      simp only
      refine ⟨⟨hunread, hturn, hearly.trans (List.Perm.cons m ?_), rfl, rfl, rfl, hask⟩, hacks _ rfl⟩
      have hrest := (nextSeq_some hnext).2
      simp only [In.early, List.append_assoc]
      exact (hrest.append_left _)

theorem In.ask_pass : (i.pass m list).1.ask = i.ask := by
  unfold In.pass
  cases nextSeq list (i.seqnum + 1) <;> rfl

theorem In.ask_nextMsg (errors : Bool) : (i.nextMsg errors).1.ask = i.ask := by
  unfold In.nextMsg
  cases nextSeq i.list i.seqnum with
  | some found => exact In.ask_pass
  | none =>
      simp only
      split_ifs
      · rfl
      · cases i.mbox <;> rfl

/-- What a round of `:next_msg` can do, of an `:in` with nothing unread. -/
theorem In.nextMsg_cases (errors : Bool) (hunread : i.buffer = []) :
    (∃ m ack, (i.nextMsg errors).2 = .passed ack ∧ ∀ ask, ask ≠ some .nextMsg →
      In.Passes i { (i.nextMsg errors).1 with ask := ask } m ∧
        In.Acks i { (i.nextMsg errors).1 with ask := ask } m ack) ∨
    ((∀ ack, (i.nextMsg errors).2 ≠ .passed ack) ∧
      ∀ ask, In.Reads i { (i.nextMsg errors).1 with ask := ask } []) := by
  unfold In.nextMsg
  cases hnext : nextSeq i.list i.seqnum with
  | some found =>
      obtain ⟨m, list⟩ := found
      exact Or.inl ⟨m, _, rfl, fun ask hask => In.pass_spec hunread hnext ask hask⟩
  | none =>
      refine Or.inr ?_
      simp only
      by_cases habort : errors = true ∧ i.state = .aborted
      · rw [if_pos habort]
        exact ⟨fun _ => Round.noConfusion,
          fun ask => ⟨List.Perm.refl _, rfl, rfl, rfl, hunread, fun _ => rfl⟩⟩
      · rw [if_neg habort]
        cases hmbox : i.mbox with
        | nil =>
            exact ⟨fun _ => Round.noConfusion,
              fun ask => ⟨by simp only [In.early, hmbox]; exact List.Perm.refl _, rfl, rfl, rfl, rfl,
                fun _ => hunread⟩⟩
        | cons m rest =>
            refine ⟨fun _ => Round.noConfusion,
              fun ask => ⟨?_, rfl, rfl, rfl, rfl, fun _ => hunread⟩⟩
            simp only [In.early, hmbox]
            rw [← List.append_assoc]
            exact (List.perm_append_singleton m (rest ++ i.list)).symm

theorem In.with_ask {ask : Option Ask} (h : i.ask = ask) : { i with ask := ask } = i := by
  rw [← h]

theorem In.step_nextMsg (errors : Bool) (hask : i.ask = some .nextMsg) (hunread : i.buffer = []) :
    i.step errors = (if (i.nextMsg errors).2 = .wait then (i.nextMsg errors).1
      else { (i.nextMsg errors).1 with ask := none }, [], some (i.nextMsg errors).2) := by
  have hsame : ({ i with buffer := [] } : In) = i := by rw [← hunread]
  unfold In.step
  rw [hask]
  simp only
  rw [← hask, hsame]

/-- What a step of an `:in` can do. -/
theorem In.step_cases (errors : Bool) (hasked : i.ask = some .nextMsg → i.buffer = []) :
    (∃ i' got round, In.Reads i i' got ∧ (∀ ack, round ≠ some (.passed ack)) ∧
      i.step errors = (i', got, round)) ∨
    ∃ i' m ack, In.Passes i i' m ∧ In.Acks i i' m ack ∧
      i.step errors = (i', [], some (.passed ack)) := by
  have hidle : ∀ ask, ask ≠ some .nextMsg → In.Reads i { i with ask := ask } [] :=
    fun ask hask => ⟨List.Perm.refl _, rfl, rfl, rfl, rfl, fun h => absurd h hask⟩
  -- a round, with what the task is at after it
  have hround : ∀ ask, i.buffer = [] → (ask = some .nextMsg → (i.nextMsg errors).2 = .wait) →
      i.step errors = ({ (i.nextMsg errors).1 with ask := ask }, [], some (i.nextMsg errors).2) →
      (∃ i' got round, In.Reads i i' got ∧ (∀ ack, round ≠ some (.passed ack)) ∧
        i.step errors = (i', got, round)) ∨
      ∃ i' m ack, In.Passes i i' m ∧ In.Acks i i' m ack ∧
        i.step errors = (i', [], some (.passed ack)) := by
    intro ask hunread hwait hstep
    rcases In.nextMsg_cases errors hunread with ⟨m, ack, hpassed, hpass⟩ | ⟨hnone, hreads⟩
    · have hask : ask ≠ some .nextMsg := by
        intro hask
        rw [hwait hask] at hpassed
        exact Round.noConfusion hpassed
      obtain ⟨hpasses, hacks⟩ := hpass ask hask
      exact Or.inr ⟨_, m, ack, hpasses, hacks, by rw [hstep, hpassed]⟩
    · exact Or.inl ⟨_, [], _, hreads ask, fun ack h => hnone ack (Option.some.inj h), hstep⟩
  cases hask : i.ask with
  | none =>
      refine Or.inl ⟨i, [], none, ?_, fun _ => by simp, by simp only [In.step, hask]⟩
      exact ⟨List.Perm.refl _, rfl, rfl, rfl, rfl, hasked⟩
  | some a =>
      cases a with
      | nextMsg =>
          have hunread := hasked hask
          have hstep := In.step_nextMsg errors hask hunread
          by_cases hwait : (i.nextMsg errors).2 = .wait
          · refine hround i.ask hunread (fun _ => hwait) ?_
            rw [hstep, if_pos hwait, In.with_ask (In.ask_nextMsg errors)]
          · refine hround none hunread (fun h => by simp at h) ?_
            rw [hstep, if_neg hwait]
      | read left =>
          by_cases hleft : left = 0
          · refine Or.inl ⟨_, [], none, hidle none (by simp), fun _ => by simp, ?_⟩
            simp only [In.step, hask, if_pos hleft]
          by_cases hunread : i.buffer ≠ []
          · refine Or.inl ⟨_, i.buffer.take left, none, ?_, fun _ => by simp,
              by simp only [In.step, hask, if_neg hleft, if_pos hunread]; rfl⟩
            exact ⟨List.Perm.refl _, rfl, rfl, rfl, (List.take_append_drop left i.buffer).symm,
              fun h => by simp at h⟩
          by_cases hstate : i.state ≠ .started
          · refine Or.inl ⟨_, [], none, hidle none (by simp), fun _ => by simp, ?_⟩
            simp only [In.step, hask, if_neg hleft, if_neg hunread, if_pos hstate]
          by_cases hstarted : (i.nextMsg errors).1.state = .started
          · refine hround i.ask (not_not.mp hunread) (fun h => by simp [hask] at h) ?_
            rw [In.with_ask (In.ask_nextMsg errors)]
            simp only [In.step, hask, if_neg hleft, if_neg hunread, if_neg hstate, if_pos hstarted]
          · refine hround none (not_not.mp hunread) (fun h => by simp at h) ?_
            simp only [In.step, hask, if_neg hleft, if_neg hunread, if_neg hstate, if_neg hstarted]

end ChrysaLisp.MailStream
