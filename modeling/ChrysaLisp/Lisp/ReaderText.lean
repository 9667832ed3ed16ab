import ChrysaLisp.Lisp.Reader

set_option autoImplicit false

/-! # What is read of a text

The reader over a text, with no buffers and nothing on the stack. A turn over a stream is a turn over the
text that is left of it, if what it reads is no number that is too long for the number buffer or of no
chars at all. -/

namespace ChrysaLisp.Forms

/-! ## Numbers -/

theorem numLoop_spec (room : ℕ) {c : Option Byte} {s : Stream} (h : Held c s) :
    (numLoop room c s).1 = ((pending c s).take room).takeWhile isNumChar ∧
      pending (numLoop room c s).2.1 (numLoop room c s).2.2 =
        (pending c s).drop (((pending c s).take room).takeWhile isNumChar).length ∧
      Held (numLoop room c s).2.1 (numLoop room c s).2.2 := by
  induction room generalizing c s with
  | zero => exact ⟨rfl, rfl, h⟩
  | succ room ih =>
    cases c with
    | none =>
      rw [numLoop, h.pending_none]
      exact ⟨rfl, List.drop_nil.symm, h⟩
    | some b =>
      have htext : pending (some b) s = b :: s.flat := rfl
      rw [numLoop, htext, List.take_succ_cons, List.takeWhile_cons]
      by_cases hb : isNumChar b = true
      · obtain ⟨hbody, hrest, hheld⟩ := ih (held_readChar s)
        rw [pending_readChar] at hbody hrest
        rw [if_pos hb, if_pos hb]
        exact ⟨congrArg (b :: ·) hbody, hrest, hheld⟩
      · rw [if_neg hb, if_neg hb]
        exact ⟨rfl, rfl, h⟩

theorem cString_append {body : Str} (h : ∀ c ∈ body, c ≠ 0) (rest : Str) :
    cString (body ++ 0 :: rest) = body := by
  rw [cString, List.takeWhile_append_of_pos fun c hc => decide_eq_true (h c hc), List.takeWhile_cons,
    decide_eq_false (not_not.2 rfl)]
  exact List.append_nil body

theorem ne_zero_of_isNumChar {c : Byte} (h : isNumChar c = true) : c ≠ 0 := by
  rintro rfl
  exact absurd h (by decide)

/-- Where a number begins in the buffer, and with what base, is all of its own chars. -/
theorem pickBase_buffer {body : Str} (h : body ≠ []) :
    ∃ base k, k ≤ body.length ∧
      ∀ stack, pickBase (numBuffer stack body) = (base, (numBuffer stack body).drop k) := by
  match body with
  | [b] =>
    -- the 0 after the char is no letter of a base
    have hzero : ∀ n ∈ [120, 111, 98], ¬ (0 : Byte).val ||| 32 = n := by decide
    exact ⟨10, 0, Nat.zero_le _, fun _ => (if_neg (hzero 120 (by decide))).trans
      ((if_neg (hzero 111 (by decide))).trans (if_neg (hzero 98 (by decide))))⟩
  | b :: d :: more =>
    have hle : 2 ≤ (b :: d :: more).length := by rw [List.length_cons, List.length_cons]; omega
    by_cases h16 : d.val ||| 32 = 120
    · exact ⟨16, 2, hle, fun _ => if_pos h16⟩
    by_cases h8 : d.val ||| 32 = 111
    · exact ⟨8, 2, hle, fun _ => (if_neg h16).trans (if_pos h8)⟩
    by_cases h2 : d.val ||| 32 = 98
    · exact ⟨2, 2, hle, fun _ => (if_neg h16).trans ((if_neg h8).trans (if_pos h2))⟩
    · exact ⟨10, 0, Nat.zero_le _, fun _ => (if_neg h16).trans ((if_neg h8).trans (if_neg h2))⟩

/-- A number of any chars is not changed by what the stack held. -/
theorem numItem_buffer (minus : Bool) {body : Str} (hne : body ≠ []) (hbody : ∀ c ∈ body, isNumChar c = true)
    (stack : Str) : numItem minus (numBuffer stack body) = numItem minus (numBuffer [] body) := by
  obtain ⟨base, k, hk, hpick⟩ := pickBase_buffer hne
  have hstring : ∀ stack, cString ((numBuffer stack body).drop k) = body.drop k := fun stack => by
    rw [numBuffer, List.drop_append_of_le_length hk]
    exact cString_append (fun c hc => ne_zero_of_isNumChar (hbody c (List.mem_of_mem_drop hc))) _
  rw [numItem, numItem, hpick, hpick, hstring, hstring]

/-! ## What is next of a text -/

def digitsText (minus : Bool) (text : Str) (line : ℕ) : Lexed Str :=
  let body := (text.take numSize).takeWhile isNumChar
  ⟨.item (numItem minus (numBuffer [] body)), List.range (body.length + 1), text.drop body.length, line⟩

def numText (first : Byte) (text : Str) (line : ℕ) : Lexed Str :=
  if first = 45 then
    match text with
    | [] => ⟨.item (.sym [45]), [], [], line⟩
    | c :: rest =>
        if 48 ≤ c then digitsText true (c :: rest) line
        else if endsSym c then ⟨.item (.sym [45]), [], c :: rest, line⟩
        else ⟨.item (.sym (45 :: (readSym (c :: rest)).1)), [], (readSym (c :: rest)).2, line⟩
  else digitsText false (first :: text) line

def strText (close : Byte) (text : Str) (line : ℕ) : Lexed Str :=
  let r := closed close text
  ⟨.item (.str (unescape r.1)), [], r.2, line + lines r.1⟩

def lexText (text : Str) (line : ℕ) : Lexed Str :=
  match skipText false line text with
  | ([], line) => ⟨.eof, [], [], line⟩
  | (c :: text, line) =>
      if c = 40 then ⟨.lrb, [], text, line⟩
      else if c = 41 then ⟨.rrb, [], text, line⟩
      else if 48 ≤ c ∧ c ≤ 57 then numText c text line
      else if c = 34 then strText 34 text line
      else if c = 123 then strText 125 text line
      else
        match marks.find? (fun m => m.char = c) with
        | some m => ⟨.mark m, [], text, line⟩
        | none =>
            if c = 45 then numText c text line
            else ⟨.item (.sym (readSym (c :: text)).1), [], (readSym (c :: text)).2, line⟩

/-- The chars of the number that is next, if it is one. -/
def numBody (text : Str) : Option Str :=
  match text with
  | [] => none
  | c :: rest =>
      if 48 ≤ c ∧ c ≤ 57 then some (text.takeWhile isNumChar)
      else if c = 45 ∧ (∃ d ∈ rest.head?, 48 ≤ d) then some (rest.takeWhile isNumChar)
      else none

/-- The number that is next, if it is one, has a char or more, and room in the buffer for a 0 after it. -/
def Fine (text : Str) : Prop :=
  ∀ body ∈ numBody (skip false text), 0 < body.length ∧ body.length < numSize

/-! ## A stream and its text -/

/-- What is left to read as a text. -/
def Lexed.text (l : Lexed (Option Byte × Stream)) : Lexed Str :=
  ⟨l.tok, l.written, pending l.src.1 l.src.2, l.line⟩

theorem skipText_fst (comment : Bool) (line : ℕ) (text : Str) :
    (skipText comment line text).1 = skip comment text := by
  induction text generalizing comment line with
  | nil => rfl
  | cons c text ih =>
    rw [skipText, skip]
    cases comment with
    | false =>
      rw [if_neg (fun hc => Bool.false_ne_true hc.1), if_neg Bool.false_ne_true]
      by_cases hblank : c ≤ 32
      · rw [if_pos hblank, if_pos hblank]
        exact ih _ _
      by_cases hsemi : c = 59
      · rw [if_neg hblank, if_neg hblank, if_pos hsemi, if_pos hsemi]
        exact ih _ _
      · rw [if_neg hblank, if_neg hblank, if_neg hsemi, if_neg hsemi]
    | true =>
      by_cases hlf : c = 10
      · rw [if_neg (fun hc => hc.2 hlf), if_pos (hlf ▸ by decide), if_pos rfl,
          decide_eq_false (not_not.2 hlf)]
        exact ih _ _
      · rw [if_pos ⟨rfl, hlf⟩, if_pos rfl, decide_eq_true hlf]
        exact ih _ _

/-- A number is of the chars that are next, and its last byte has room. -/
theorem readDigitsOf_spec {c : Option Byte} {s : Stream} (h : Held c s) (minus : Bool) (stack : Str)
    (line : ℕ) (hpos : 0 < ((pending c s).takeWhile isNumChar).length) :
    (readDigitsOf stack minus c s line).text = digitsText minus (pending c s) line ∧
      Held (readDigitsOf stack minus c s line).src.1 (readDigitsOf stack minus c s line).src.2 := by
  obtain ⟨hbody, hrest, hheld⟩ := numLoop_spec numSize h
  refine ⟨?_, hheld⟩
  rw [digitsText, readDigitsOf, Lexed.text]
  dsimp only
  rw [hbody, hrest, numItem_buffer minus ?_ (List.all_eq_true.1 List.all_takeWhile)]
  intro hnil
  cases hp : pending c s with
  | nil => rw [hp] at hpos; exact absurd hpos (by decide)
  | cons b text =>
    rw [hp, numSize, List.take_succ_cons, List.takeWhile_cons] at hnil
    rw [hp, List.takeWhile_cons] at hpos
    split_ifs at hnil hpos
    exact absurd hpos (by decide)

theorem readNumOf_spec {first : Byte} {s : Stream} (h : Held (some first) s) (stack : Str) (line : ℕ)
    (hfirst : first = 45 ∨ 48 ≤ first ∧ first ≤ 57)
    (hpos : ∀ body, numBody (first :: s.flat) = some body → 0 < body.length) :
    (readNumOf stack first s line).text = numText first s.flat line ∧
      Held (readNumOf stack first s line).src.1 (readNumOf stack first s line).src.2 := by
  unfold readNumOf numText
  by_cases hminus : first = 45
  · rw [if_pos hminus, if_pos hminus]
    have hheld := held_readChar s
    have hpend := pending_readChar s
    generalize s.readChar = p at hheld hpend
    obtain ⟨c, s'⟩ := p
    cases c with
    | none =>
      rw [← hpend, hheld.pending_none]
      exact ⟨by rw [Lexed.text]; dsimp only; rw [hheld.pending_none], hheld⟩
    | some c =>
      rw [← hpend, show pending (some c) s' = c :: s'.flat from rfl]
      dsimp only
      by_cases hdigit : 48 ≤ c
      · rw [if_pos hdigit, if_pos hdigit]
        refine readDigitsOf_spec hheld true stack line (hpos _ ?_)
        rw [numBody, if_neg (by rw [hminus]; decide), if_pos ⟨hminus, c, by rw [← hpend]; rfl, hdigit⟩, hpend]
      rw [if_neg hdigit, if_neg hdigit]
      by_cases hends : endsSym c = true
      · rw [if_pos hends, if_pos hends]
        exact ⟨rfl, hheld⟩
      · rw [if_neg hends, if_neg hends]
        have hblank : 32 < c := by
          by_contra hle
          exact hends (by rw [endsSym, decide_eq_true (not_lt.1 hle), Bool.true_or, Bool.true_or])
        obtain ⟨hbody, hrest, hheld'⟩ := readSymOf_spec hheld hblank
        refine ⟨?_, hheld'⟩
        rw [Lexed.text]
        dsimp only
        rw [hbody, hrest]
  · rw [if_neg hminus, if_neg hminus]
    have hrange := hfirst.resolve_left hminus
    refine readDigitsOf_spec h false stack line (hpos _ ?_)
    rw [numBody, if_pos hrange]
    rfl

theorem readStrOf_text (close : Byte) (s : Stream) (line : ℕ) :
    (⟨.item (.str (unescape (readStrOf close s line).1)), [], (readStrOf close s line).2.1.readChar,
        (readStrOf close s line).2.2⟩ : Lexed (Option Byte × Stream)).text = strText close s.flat line := by
  obtain ⟨hbody, hrest, hline⟩ := readStrOf_spec close s line
  rw [Lexed.text, strText]
  dsimp only
  rw [pending_readChar, hbody, hrest, hline]

/-- **What is next of a stream is what is next of its text.** -/
theorem lexStream_spec {src : Option Byte × Stream} (h : Held src.1 src.2) (stack : Str) (line : ℕ)
    (hpos : ∀ body, numBody (skip false (pending src.1 src.2)) = some body → 0 < body.length) :
    (lexStream stack src line).text = lexText (pending src.1 src.2) line ∧
      Held (lexStream stack src line).src.1 (lexStream stack src line).src.2 := by
  obtain ⟨htext, hline, hheld, hblank⟩ := skipOf_spec line h
  rw [← skipText_fst false line, ← htext] at hpos
  have hskip : skipText false line (pending src.1 src.2) =
      (pending (skipOf src.1 src.2 line).1 (skipOf src.1 src.2 line).2.1, (skipOf src.1 src.2 line).2.2) :=
    Prod.ext htext.symm hline.symm
  rw [lexStream, lexText, hskip]
  generalize skipOf src.1 src.2 line = r at hheld hblank hpos
  obtain ⟨c, s, line'⟩ := r
  dsimp only at hheld hblank hpos
  cases c with
  | none =>
    rw [hheld.pending_none]
    exact ⟨by rw [Lexed.text]; dsimp only; rw [hheld.pending_none], hheld⟩
  | some c =>
    have hnext : ∀ tok, (⟨tok, [], s.readChar, line'⟩ : Lexed (Option Byte × Stream)).text =
        ⟨tok, [], s.flat, line'⟩ := fun tok => by rw [Lexed.text]; dsimp only; rw [pending_readChar]
    rw [show pending (some c) s = c :: s.flat from rfl] at hpos ⊢
    dsimp only
    by_cases hlrb : c = 40
    · rw [if_pos hlrb, if_pos hlrb]
      exact ⟨hnext _, held_readChar s⟩
    by_cases hrrb : c = 41
    · rw [if_neg hlrb, if_neg hlrb, if_pos hrrb, if_pos hrrb]
      exact ⟨hnext _, held_readChar s⟩
    rw [if_neg hlrb, if_neg hlrb, if_neg hrrb, if_neg hrrb]
    by_cases hdigit : 48 ≤ c ∧ c ≤ 57
    · rw [if_pos hdigit, if_pos hdigit]
      exact readNumOf_spec hheld stack line' (Or.inr hdigit) hpos
    rw [if_neg hdigit, if_neg hdigit]
    by_cases hquote : c = 34
    · rw [if_pos hquote, if_pos hquote]
      exact ⟨readStrOf_text 34 s line', held_readChar _⟩
    rw [if_neg hquote, if_neg hquote]
    by_cases hbrace : c = 123
    · rw [if_pos hbrace, if_pos hbrace]
      exact ⟨readStrOf_text 125 s line', held_readChar _⟩
    rw [if_neg hbrace, if_neg hbrace]
    cases hmark : marks.find? (fun m => m.char = c) with
    | some m => exact ⟨hnext _, held_readChar s⟩
    | none =>
      dsimp only
      by_cases hminus : c = 45
      · rw [if_pos hminus, if_pos hminus]
        exact readNumOf_spec hheld stack line' (Or.inl hminus) hpos
      · rw [if_neg hminus, if_neg hminus]
        obtain ⟨hbody, hrest, hheld'⟩ := readSymOf_spec hheld (hblank c rfl)
        refine ⟨?_, hheld'⟩
        rw [Lexed.text]
        dsimp only
        rw [hbody, hrest]

end ChrysaLisp.Forms
