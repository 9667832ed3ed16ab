import ChrysaLisp.Lisp.ReaderText

set_option autoImplicit false

/-! # However the text is cut

The forms, the errors and the lines that are read of a stream are those of its text, in any buffers, as long
as every number on the way is one that `read_num` has room for and has a char. -/

namespace ChrysaLisp.Forms

open Run

theorem length_takeWhile_take_le (p : Byte → Bool) (text : Str) (n : ℕ) :
    ((text.take n).takeWhile p).length ≤ (text.takeWhile p).length := by
  induction text generalizing n with
  | nil => rw [List.take_nil]
  | cons c text ih =>
    cases n with
    | zero => exact Nat.zero_le _
    | succ n =>
      rw [List.take_succ_cons, List.takeWhile_cons, List.takeWhile_cons]
      split_ifs
      · exact Nat.succ_le_succ (ih n)
      · exact le_rfl

theorem digitsText_written {minus : Bool} {text : Str} {line : ℕ}
    (h : (text.takeWhile isNumChar).length < numSize) :
    ∀ i ∈ (digitsText minus text line).written, i < numSize := by
  intro i hi
  have hle := length_takeWhile_take_le isNumChar text numSize
  have hlt := List.mem_range.1 hi
  omega

theorem numText_written {first : Byte} {text : Str} {line : ℕ}
    (h : ∀ body, numBody (first :: text) = some body → body.length < numSize)
    (hfirst : first = 45 ∨ 48 ≤ first ∧ first ≤ 57) :
    ∀ i ∈ (numText first text line).written, i < numSize := by
  unfold numText
  by_cases hminus : first = 45
  · rw [if_pos hminus]
    cases text with
    | nil => exact fun i hi => absurd hi List.not_mem_nil
    | cons c rest =>
      dsimp only
      split_ifs with hdigit hends
      · refine digitsText_written (h _ ?_)
        rw [numBody, if_neg (by rw [hminus]; decide), if_pos ⟨hminus, c, rfl, hdigit⟩]
      · exact fun i hi => absurd hi List.not_mem_nil
      · exact fun i hi => absurd hi List.not_mem_nil
  · rw [if_neg hminus]
    refine digitsText_written (h _ ?_)
    rw [numBody, if_pos (hfirst.resolve_left hminus)]

/-- A number that has room is written where there is room. -/
theorem lexText_written {text : Str} {line : ℕ} (h : Fine text) :
    ∀ i ∈ (lexText text line).written, i < numSize := by
  have hfine : ∀ body, numBody (skipText false line text).1 = some body → body.length < numSize := by
    rw [skipText_fst]
    exact fun body hbody => (h body hbody).2
  rw [lexText]
  generalize skipText false line text = r at hfine
  obtain ⟨rest, line'⟩ := r
  cases rest with
  | nil => exact fun i hi => absurd hi List.not_mem_nil
  | cons c rest =>
    dsimp only
    split_ifs with hlrb hrrb hdigit hquote hbrace hminus
    · exact fun i hi => absurd hi List.not_mem_nil
    · exact fun i hi => absurd hi List.not_mem_nil
    · exact numText_written hfine (Or.inr hdigit)
    · exact fun i hi => absurd hi List.not_mem_nil
    · exact fun i hi => absurd hi List.not_mem_nil
    · split
      · exact fun i hi => absurd hi List.not_mem_nil
      · exact numText_written hfine (Or.inl hminus)
    · split
      · exact fun i hi => absurd hi List.not_mem_nil
      · exact fun i hi => absurd hi List.not_mem_nil

/-! ## Both ways of reading -/

theorem Held.head {c : Option Byte} {s : Stream} (h : Held c s) : c = (pending c s).head? := by
  cases c with
  | none => rw [h.pending_none]; rfl
  | some b => rfl

theorem Held.tail {c : Option Byte} {s : Stream} (h : Held c s) : s.flat = (pending c s).tail := by
  cases c with
  | none => rw [h.pending_none, h.ended rfl]; rfl
  | some b => rfl

/-- A symbol in the buffer is what it is a char at a time, and so is what is after it. -/
theorem readSymOf_slow {first : Byte} {s : Stream} (hfirst : 32 < first) (hprev : s.prev.head? = some first) :
    (readSymOf first s).1 = (symSlow (some first) s).1 ∧
      (readSymOf first s).2.1 = (symSlow (some first) s).2.1 ∧
      (readSymOf first s).2.2.flat = (symSlow (some first) s).2.2.flat := by
  have hheld : Held (some first) s := ⟨fun b hb _ => hb ▸ hprev, fun h => nomatch h⟩
  obtain ⟨hbody, hrest, hfast⟩ := readSymOf_spec hheld hfirst
  obtain ⟨hbody', hrest', hslow⟩ := symSlow_spec hheld
  have heq := hrest.trans hrest'.symm
  exact ⟨hbody.trans hbody'.symm, by rw [hfast.head, hslow.head, heq], by rw [hfast.tail, hslow.tail, heq]⟩

theorem readStrOf_slow (close : Byte) (s : Stream) (line : ℕ) :
    (readStrOf close s line).1 = (strSlow close s.readChar.1 s.readChar.2 line).1 ∧
      (readStrOf close s line).2.1.flat = (strSlow close s.readChar.1 s.readChar.2 line).2.1.flat ∧
      (readStrOf close s line).2.2 = (strSlow close s.readChar.1 s.readChar.2 line).2.2 := by
  obtain ⟨hbody, hrest, hline⟩ := readStrOf_spec close s line
  obtain ⟨hbody', hrest', hline'⟩ := strSlow_spec close line (held_readChar s)
  rw [pending_readChar] at hbody' hrest' hline'
  exact ⟨hbody.trans hbody'.symm, hrest.trans hrest'.symm, hline.trans hline'.symm⟩

/-! ## A run -/

/-- The reader with what is left to read as a text. -/
def Reader.text (r : Reader (Option Byte × Stream)) : Reader Str :=
  { r with src := pending r.src.1 r.src.2 }

/-- What every turn keeps: the next char is where it is looked for, and no number went outside its buffer. -/
def Reader.Kept (r : Reader (Option Byte × Stream)) : Prop :=
  Held r.src.1 r.src.2 ∧ ∀ i ∈ r.written, i < numSize

theorem turn_text {r : Reader (Option Byte × Stream)} (stack : Str) (h : r.Kept) (hfine : Fine r.text.src) :
    (turn r stack).Kept ∧ (turn r stack).text = r.text.turn lexText := by
  obtain ⟨hlex, hheld⟩ := lexStream_spec h.1 stack r.line fun body hbody => (hfine body hbody).1
  have htok : (lexStream stack r.src r.line).tok = (lexText (pending r.src.1 r.src.2) r.line).tok :=
    congrArg Lexed.tok hlex
  have hwritten : (lexStream stack r.src r.line).written =
      (lexText (pending r.src.1 r.src.2) r.line).written := congrArg Lexed.written hlex
  have hsrc : pending (lexStream stack r.src r.line).src.1 (lexStream stack r.src r.line).src.2 =
      (lexText (pending r.src.1 r.src.2) r.line).src := congrArg Lexed.src hlex
  have hline : (lexStream stack r.src r.line).line = (lexText (pending r.src.1 r.src.2) r.line).line :=
    congrArg Lexed.line hlex
  refine ⟨⟨hheld, fun i hi => ?_⟩, ?_⟩
  · rcases List.mem_append.1 hi with hold | hnew
    · exact h.2 i hold
    · rw [hwritten] at hnew
      exact lexText_written hfine i hnew
  · rw [turn, Reader.turn, Reader.turn, Reader.text, Reader.text]
    dsimp only
    rw [htok, hwritten, hsrc, hline]

/-- **What is read of a stream is what is read of its text.** -/
theorem run_text (s : Stream) (line : ℕ) {held : List Str}
    (hfine : ∀ k < held.length, Fine ((Reader.turn lexText)^[k] (.start (32 :: s.flat) line)).src) :
    (run turn (opened s line) held).Kept ∧
      (run turn (opened s line) held).text =
        (Reader.turn lexText)^[held.length] (.start (32 :: s.flat) line) := by
  have hstart : (opened s line).Kept := by
    refine ⟨⟨fun b hb hlt => ?_, fun hb => nomatch hb⟩, fun i hi => absurd hi List.not_mem_nil⟩
    exact absurd hlt (by rw [← Option.some.inj hb]; decide)
  exact left_of_each (f := Reader.text) (g := Reader.turn lexText) (C := fun r => Fine r.src)
    (fun r stack h hfine => turn_text stack h hfine) hstart hfine

/-- The reader does not depend on the buffers, and its two ways of reading a symbol or a string are one. -/
theorem reader_unbuffered (first close : Byte) (s s' : Stream) (line : ℕ) (held held' : List Str) :
    (32 < first → s.prev.head? = some first →
      (readSymOf first s).1 = (symSlow (some first) s).1 ∧
        (readSymOf first s).2.1 = (symSlow (some first) s).2.1 ∧
        (readSymOf first s).2.2.flat = (symSlow (some first) s).2.2.flat) ∧
    ((readStrOf close s line).1 = (strSlow close s.readChar.1 s.readChar.2 line).1 ∧
      (readStrOf close s line).2.1.flat = (strSlow close s.readChar.1 s.readChar.2 line).2.1.flat ∧
      (readStrOf close s line).2.2 = (strSlow close s.readChar.1 s.readChar.2 line).2.2) ∧
    (s.flat = s'.flat → held.length = held'.length →
      (∀ k < held.length, Fine ((Reader.turn lexText)^[k] (.start (32 :: s.flat) line)).src) →
      (run turn (opened s line) held).out = (run turn (opened s' line) held').out ∧
        (run turn (opened s line) held).line = (run turn (opened s' line) held').line ∧
        (run turn (opened s line) held).text = (run turn (opened s' line) held').text ∧
        (∀ i ∈ (run turn (opened s line) held).written, i < numSize)) := by
  refine ⟨readSymOf_slow, readStrOf_slow close s line, ?_⟩
  intro hflat hlen hfine
  obtain ⟨hkept, htext⟩ := run_text s line hfine
  rw [hflat, hlen] at hfine htext
  obtain ⟨-, htext'⟩ := run_text s' line hfine
  have heq := htext.trans htext'.symm
  exact ⟨congrArg (fun r : Reader Str => r.out) heq, congrArg (fun r : Reader Str => r.line) heq, heq,
    hkept.2⟩

/-- A number of as many chars as the buffer has bytes has its 0 written after the buffer. -/
theorem reader_number_outside :
    ¬ ∀ i ∈ (run turn (opened ⟨[], List.replicate 72 49, []⟩ 1) [[]]).written, i < numSize := by
  intro h
  have hstart : Held (some 32) ⟨[], List.replicate 72 49, []⟩ :=
    ⟨fun b hb hlt => absurd hlt (by rw [← Option.some.inj hb]; decide), fun hb => nomatch hb⟩
  have hpos : ∀ body, numBody (skip false (32 :: List.replicate 72 49)) = some body → 0 < body.length :=
    fun body hbody => by rw [← Option.some.inj hbody]; decide
  obtain ⟨hlex, -⟩ := @lexStream_spec (some 32, ⟨[], List.replicate 72 49, []⟩) hstart [] 1 hpos
  have hwritten := congrArg Lexed.written hlex
  have hmem : 72 ∈ (lexText (pending (some 32) ⟨[], List.replicate 72 49, []⟩) 1).written := by decide +kernel
  rw [← hwritten] at hmem
  exact absurd (h 72 hmem) (by decide)

/-- What a minus and a char that is none of a number's are read as is what the stack held. -/
theorem reader_stack_read :
    (run turn (opened ⟨[], asc "-> ", []⟩ 1) [[]]).out = [.num 0] ∧
      (run turn (opened ⟨[], asc "-> ", []⟩ 1) [asc "0x7"]).out = [.num (-7)] := by
  have hskip : skipOf (some 32) ⟨[], asc "-> ", []⟩ 1 = (some 45, ⟨[45], asc "> ", []⟩, 1) := by
    rw [skipOf, if_pos (by decide), show lineAfter 32 1 = 1 from rfl]
    show skipOf (some 45) ⟨[45], asc "> ", []⟩ 1 = _
    rw [skipOf, if_neg (by decide), if_neg (by decide)]
  have hout : ∀ stack, (run turn (opened ⟨[], asc "-> ", []⟩ 1) [stack]).out =
      [numItem true (numBuffer stack [])] := fun stack => by
    rw [run_cons, run_nil, turn, Reader.turn, opened, Reader.start, lexStream]
    dsimp only
    rw [hskip]
    rfl
  exact ⟨by rw [hout]; rfl, by rw [hout]; rfl⟩

/-- Three forms, cut in two ways. -/
theorem reader_unbuffered_three :
    (run turn (opened ⟨[], asc "a 12 b", []⟩ 1) [[], [], []]).out =
      (run turn (opened ⟨[], asc "a 1", [[], asc "2 ", asc "b"]⟩ 1) [asc "x", asc "y", asc "z"]).out :=
  have hfine : ∀ k < 3, Fine ((Reader.turn lexText)^[k] (.start (32 :: asc "a 12 b") 1)).src := by
    unfold Fine
    decide +kernel
  ((reader_unbuffered 97 34 ⟨[], asc "a 12 b", []⟩ ⟨[], asc "a 1", [[], asc "2 ", asc "b"]⟩ 1 [[], [], []]
    [asc "x", asc "y", asc "z"]).2.2 rfl rfl hfine).1

end ChrysaLisp.Forms
