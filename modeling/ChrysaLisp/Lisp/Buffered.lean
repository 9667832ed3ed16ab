import ChrysaLisp.Lisp.Form

set_option autoImplicit false

/-! # A stream in buffers

`class/stream/class.vp`, and what `:lisp :read` reads of a stream: white space and comments, symbols,
strings and numbers. A stream has what is left of its buffer and the buffers there are to come. Symbols
and strings are taken from the buffer where they are whole in it, and else a char at a time. Each of them
comes to what it is of the bytes of the stream, however they are cut. -/

namespace ChrysaLisp.Forms

structure Stream where
  /-- What is before `bufp` in the buffer, the last byte first. -/
  prev : Str
  /-- From `bufp` to `bufe`. -/
  buf : Str
  /-- What `:read_next` has to come. -/
  more : List Str

namespace Stream

/-- The bytes there are to read. -/
def flat (s : Stream) : Str := s.buf ++ s.more.flatten

/-- The next byte of the buffers to come. -/
def nextChar (prev : Str) : List Str → Option Byte × Stream
  | [] => (none, ⟨prev, [], []⟩)
  | [] :: more => nextChar [] more
  | (c :: buf) :: more => (some c, ⟨[c], buf, more⟩)

/-- `:stream :read_char` -/
def readChar (s : Stream) : Option Byte × Stream :=
  match s.buf with
  | c :: buf => (some c, ⟨c :: s.prev, buf, s.more⟩)
  | [] => nextChar s.prev s.more

theorem nextChar_spec (prev : Str) (more : List Str) :
    (nextChar prev more).1 = more.flatten.head? ∧ (nextChar prev more).2.flat = more.flatten.tail ∧
      ∀ c, (nextChar prev more).1 = some c → (nextChar prev more).2.prev.head? = some c := by
  induction more generalizing prev with
  | nil => exact ⟨rfl, rfl, fun _ h => nomatch h⟩
  | cons b more ih =>
    cases b with
    | nil => exact ih []
    | cons c buf => exact ⟨rfl, rfl, fun _ h => h⟩

theorem readChar_spec (s : Stream) :
    s.readChar.1 = s.flat.head? ∧ s.readChar.2.flat = s.flat.tail ∧
      ∀ c, s.readChar.1 = some c → s.readChar.2.prev.head? = some c := by
  obtain ⟨prev, buf, more⟩ := s
  cases buf with
  | nil => exact nextChar_spec prev more
  | cons c buf => exact ⟨rfl, rfl, fun _ h => h⟩

@[simp] theorem readChar_char (s : Stream) : s.readChar.1 = s.flat.head? := s.readChar_spec.1

@[simp] theorem flat_readChar (s : Stream) : s.readChar.2.flat = s.flat.tail := s.readChar_spec.2.1

/-- `skip_not`, up to the char, which is not gone over. -/
def skipNot (ch : Byte) (prev : Str) : Str → List Str → Stream
  | c :: buf, more => if c = ch then ⟨prev, c :: buf, more⟩ else skipNot ch (c :: prev) buf more
  | [], [] => ⟨prev, [], []⟩
  | [], buf :: more => skipNot ch [] buf more
  termination_by buf more => more.flatten.length + more.length + buf.length
  decreasing_by all_goals simp only [List.length_cons, List.flatten_cons, List.length_append]; omega

theorem flat_skipNot (ch : Byte) (prev buf : Str) (more : List Str) :
    (skipNot ch prev buf more).flat = (buf ++ more.flatten).dropWhile (fun c => decide (c ≠ ch)) := by
  induction prev, buf, more using skipNot.induct ch with
  | case1 prev buf more =>
    rw [skipNot, if_pos rfl, List.cons_append, List.dropWhile_cons, decide_eq_false (not_not.2 rfl)]
    rfl
  | case2 prev c buf more h ih =>
    rw [skipNot, if_neg h, ih, List.cons_append, List.dropWhile_cons, decide_eq_true h]
    rfl
  | case3 prev => rw [skipNot]; rfl
  | case4 prev buf more ih => rw [skipNot, ih]; rfl

end Stream

/-- The text that is left to read, the next char first. -/
def pending (c : Option Byte) (s : Stream) : Str := c.toList ++ s.flat

/-- The next char is the one before `bufp`, or none a symbol begins with, or there is none and no more. -/
structure Held (c : Option Byte) (s : Stream) : Prop where
  last : ∀ b, c = some b → 32 < b → s.prev.head? = some b
  ended : c = none → s.flat = []

theorem held_readChar (s : Stream) : Held s.readChar.1 s.readChar.2 where
  last b hb _ := s.readChar_spec.2.2 b hb
  ended h := by
    rw [Stream.readChar_char, List.head?_eq_none_iff] at h
    rw [Stream.flat_readChar, h, List.tail_nil]

@[simp] theorem pending_readChar (s : Stream) : pending s.readChar.1 s.readChar.2 = s.flat := by
  rw [pending, Stream.readChar_char, Stream.flat_readChar]
  cases s.flat <;> rfl

theorem Held.pending_none {s : Stream} (h : Held none s) : pending none s = [] := h.ended rfl

/-- A char less is left after one is read. -/
theorem left_readChar (b : Byte) (s : Stream) :
    (pending s.readChar.1 s.readChar.2).length < (pending (some b) s).length := by
  rw [pending_readChar]
  exact Nat.lt_succ_self _

/-! ## Symbols -/

/-- The chars of a symbol that are in the buffer and the char that ends it, what that is, and what is after
    it, if it is in the buffer. -/
def symLoop (c : Byte) : Str → Option (Str × Byte × Str)
  | [] => if endsSym c then some ([], c, []) else none
  | b :: buf =>
      if endsSym c then some ([], c, b :: buf) else (symLoop b buf).map fun r => (b :: r.1, r.2)

/-- A char at a time. -/
def symSlow (c : Option Byte) (s : Stream) : Str × Option Byte × Stream :=
  match c with
  | none => ([], none, s)
  | some b =>
      if endsSym b then ([], some b, s)
      else
        let r := symSlow s.readChar.1 s.readChar.2
        (b :: r.1, r.2)
  termination_by (pending c s).length
  decreasing_by exact left_readChar b s

/-- `:read_sym`, with the first char, which was read last. In the buffer a symbol is from the byte before
    `bufp` to the one before the char that ends it. -/
def readSymOf (first : Byte) (s : Stream) : Str × Option Byte × Stream :=
  match symLoop first s.buf with
  | some (bytes, c, buf) =>
      ((s.prev.take 1 ++ bytes).dropLast, some c, ⟨bytes.reverse ++ s.prev, buf, s.more⟩)
  | none => symSlow (some first) s

theorem symSlow_spec {c : Option Byte} {s : Stream} (h : Held c s) :
    (symSlow c s).1 = (readSym (pending c s)).1 ∧
      pending (symSlow c s).2.1 (symSlow c s).2.2 = (readSym (pending c s)).2 ∧
      Held (symSlow c s).2.1 (symSlow c s).2.2 := by
  induction c, s using symSlow.induct with
  | case1 s =>
    rw [symSlow, h.pending_none]
    exact ⟨rfl, rfl, h⟩
  | case2 s b hb =>
    rw [symSlow, if_pos hb]
    have htext : pending (some b) s = b :: s.flat := rfl
    rw [htext, readSym, List.takeWhile_cons, List.dropWhile_cons, hb]
    exact ⟨rfl, rfl, h⟩
  | case3 s b hb ih =>
    obtain ⟨hbody, hrest, hheld⟩ := ih (held_readChar s)
    rw [pending_readChar] at hbody hrest
    have htext : pending (some b) s = b :: s.flat := rfl
    rw [symSlow, if_neg hb, htext, readSym, List.takeWhile_cons, List.dropWhile_cons,
      eq_false_of_ne_true hb]
    exact ⟨congrArg (b :: ·) hbody, hrest, hheld⟩

theorem symLoop_spec {c d : Byte} {buf bytes rest : Str} (h : symLoop c buf = some (bytes, d, rest))
    (more : Str) :
    (c :: bytes).dropLast = (readSym (c :: (buf ++ more))).1 ∧
      d :: (rest ++ more) = (readSym (c :: (buf ++ more))).2 ∧
      ∀ prev : Str, prev.head? = some c → (bytes.reverse ++ prev).head? = some d := by
  induction buf generalizing c bytes with
  | nil =>
    rw [symLoop] at h
    split_ifs at h with hc
    cases h
    rw [readSym, List.takeWhile_cons, List.dropWhile_cons, hc]
    exact ⟨rfl, rfl, fun _ hprev => hprev⟩
  | cons b buf ih =>
    rw [symLoop] at h
    split_ifs at h with hc
    · cases h
      rw [readSym, List.takeWhile_cons, List.dropWhile_cons, hc]
      exact ⟨rfl, rfl, fun _ hprev => hprev⟩
    · obtain ⟨⟨bytes', d', rest'⟩, hloop, heq⟩ := Option.map_eq_some_iff.1 h
      cases heq
      obtain ⟨hbody, hrest, hlast⟩ := ih hloop
      rw [readSym, List.takeWhile_cons, List.dropWhile_cons, eq_false_of_ne_true hc]
      refine ⟨congrArg (c :: ·) hbody, hrest, fun prev _ => ?_⟩
      rw [List.reverse_cons, List.append_assoc]
      exact hlast (b :: prev) rfl

theorem readSymOf_spec {first : Byte} {s : Stream} (h : Held (some first) s) (hfirst : 32 < first) :
    (readSymOf first s).1 = (readSym (first :: s.flat)).1 ∧
      pending (readSymOf first s).2.1 (readSymOf first s).2.2 = (readSym (first :: s.flat)).2 ∧
      Held (readSymOf first s).2.1 (readSymOf first s).2.2 := by
  have hprev := h.last first rfl hfirst
  rw [readSymOf]
  cases hloop : symLoop first s.buf with
  | none => exact symSlow_spec h
  | some r =>
    obtain ⟨bytes, d, rest⟩ := r
    obtain ⟨hbody, hrest, hlast⟩ := symLoop_spec hloop s.more.flatten
    have htake : s.prev.take 1 = [first] := by
      cases hp : s.prev with
      | nil => rw [hp] at hprev; exact nomatch hprev
      | cons b prev => rw [hp] at hprev; rw [← Option.some.inj hprev]; rfl
    refine ⟨?_, hrest, ⟨fun b hb _ => ?_, fun hb => nomatch hb⟩⟩
    · rw [htake]
      exact hbody
    · rw [← Option.some.inj hb]
      exact hlast s.prev hprev

/-! ## Strings -/

/-- A string in the buffer, on one line, and what is after the char that closes it. -/
def strLoop (close : Byte) : Str → Option (Str × Str)
  | [] => none
  | b :: buf =>
      if b = 10 then none
      else if b = close then some ([], buf)
      else (strLoop close buf).map fun r => (b :: r.1, r.2)

/-- The line after a char, as `:lisp :read_char` counts them. -/
def lineAfter (last : Byte) (line : ℕ) : ℕ := if last = 10 then line + 1 else line

/-- A char at a time, lines counted. -/
def strSlow (close : Byte) (c : Option Byte) (s : Stream) (line : ℕ) : Str × Stream × ℕ :=
  match c with
  | none => ([], s, line)
  | some b =>
      if b = close then ([], s, line)
      else
        let r := strSlow close s.readChar.1 s.readChar.2 (lineAfter b line)
        (b :: r.1, r.2)
  termination_by (pending c s).length
  decreasing_by exact left_readChar b s

/-- `:read_str`, of what is between the quotes, and the stream after them. -/
def readStrOf (close : Byte) (s : Stream) (line : ℕ) : Str × Stream × ℕ :=
  match strLoop close s.buf with
  | some (bytes, buf) => (bytes, ⟨close :: (bytes.reverse ++ s.prev), buf, s.more⟩, line)
  | none => strSlow close s.readChar.1 s.readChar.2 line

/-- How many lines there are in some bytes. -/
def lines (text : Str) : ℕ := text.countP (fun c => decide (c = 10))

/-- The bytes up to the char that closes them, and those after it. -/
def closed (close : Byte) (text : Str) : Str × Str :=
  (text.takeWhile (fun c => decide (c ≠ close)), (text.dropWhile (fun c => decide (c ≠ close))).drop 1)

theorem closed_cons {close b : Byte} (h : b ≠ close) (text : Str) :
    closed close (b :: text) = (b :: (closed close text).1, (closed close text).2) := by
  rw [closed, List.takeWhile_cons, List.dropWhile_cons, decide_eq_true h]
  rfl

theorem closed_close (close : Byte) (text : Str) : closed close (close :: text) = ([], text) := by
  rw [closed, List.takeWhile_cons, List.dropWhile_cons, decide_eq_false (not_not.2 rfl)]
  rfl

theorem strSlow_spec (close : Byte) {c : Option Byte} {s : Stream} (line : ℕ) (h : Held c s) :
    (strSlow close c s line).1 = (closed close (pending c s)).1 ∧
      (strSlow close c s line).2.1.flat = (closed close (pending c s)).2 ∧
      (strSlow close c s line).2.2 = line + lines (closed close (pending c s)).1 := by
  induction c, s, line using strSlow.induct close with
  | case1 s line =>
    rw [strSlow, h.pending_none]
    exact ⟨rfl, h.ended rfl, rfl⟩
  | case2 s line =>
    rw [strSlow, if_pos rfl, show pending (some close) s = close :: s.flat from rfl, closed_close]
    exact ⟨rfl, rfl, rfl⟩
  | case3 s line b hb ih =>
    obtain ⟨hbody, hrest, hline⟩ := ih (held_readChar s)
    rw [pending_readChar] at hbody hrest hline
    rw [strSlow, if_neg hb, show pending (some b) s = b :: s.flat from rfl, closed_cons hb]
    refine ⟨congrArg (b :: ·) hbody, hrest, hline.trans ?_⟩
    rw [lines, lines, List.countP_cons]
    by_cases hlf : b = 10
    · rw [lineAfter, if_pos hlf, if_pos (decide_eq_true hlf), Nat.add_assoc, Nat.add_comm 1]
    · rw [lineAfter, if_neg hlf, if_neg (by rw [decide_eq_true_eq]; exact hlf), Nat.add_zero]

theorem strLoop_spec {close : Byte} {buf bytes rest : Str} (h : strLoop close buf = some (bytes, rest))
    (more : Str) :
    bytes = (closed close (buf ++ more)).1 ∧ rest ++ more = (closed close (buf ++ more)).2 ∧
      lines bytes = 0 := by
  induction buf generalizing bytes with
  | nil => exact nomatch h
  | cons b buf ih =>
    rw [strLoop] at h
    split_ifs at h with hlf hclose
    · cases h
      rw [hclose, List.cons_append, closed_close]
      exact ⟨rfl, rfl, rfl⟩
    · obtain ⟨⟨bytes', rest'⟩, hloop, heq⟩ := Option.map_eq_some_iff.1 h
      cases heq
      obtain ⟨hbody, hrest, hline⟩ := ih hloop
      rw [List.cons_append, closed_cons hclose]
      refine ⟨congrArg (b :: ·) hbody, hrest, ?_⟩
      rw [lines, List.countP_cons, decide_eq_false hlf]
      exact hline

theorem readStrOf_spec (close : Byte) (s : Stream) (line : ℕ) :
    (readStrOf close s line).1 = (closed close s.flat).1 ∧
      (readStrOf close s line).2.1.flat = (closed close s.flat).2 ∧
      (readStrOf close s line).2.2 = line + lines (closed close s.flat).1 := by
  rw [readStrOf]
  cases hloop : strLoop close s.buf with
  | none =>
    have hspec := strSlow_spec close line (held_readChar s)
    rwa [pending_readChar] at hspec
  | some r =>
    obtain ⟨hbody, hrest, hline⟩ := strLoop_spec hloop s.more.flatten
    refine ⟨hbody, hrest, ?_⟩
    rw [Stream.flat, ← hbody, hline]
    rfl

/-! ## White space and comments -/

theorem left_skipNot (b : Byte) (s : Stream) :
    let t := Stream.skipNot 10 s.prev s.buf s.more
    (pending t.readChar.1 t.readChar.2).length < (pending (some b) s).length := by
  intro t
  rw [pending_readChar, Stream.flat_skipNot]
  exact Nat.lt_succ_of_le (List.dropWhile_suffix _).length_le

/-- To the next form, lines counted. A comment is gone over to the end of its line. -/
def skipOf (c : Option Byte) (s : Stream) (line : ℕ) : Option Byte × Stream × ℕ :=
  match c with
  | none => (none, s, line)
  | some b =>
      if b ≤ 32 then skipOf s.readChar.1 s.readChar.2 (lineAfter b line)
      else if b = 59 then
        let t := Stream.skipNot 10 s.prev s.buf s.more
        skipOf t.readChar.1 t.readChar.2 line
      else (some b, s, line)
  termination_by (pending c s).length
  decreasing_by
    · exact left_readChar b s
    · exact left_skipNot b s

/-- The text from the next form on, and the line it is in. -/
def skipText (comment : Bool) (line : ℕ) : Str → Str × ℕ
  | [] => ([], line)
  | c :: text =>
      if comment ∧ c ≠ 10 then skipText true line text
      else if c ≤ 32 then skipText false (lineAfter c line) text
      else if c = 59 then skipText true line text
      else (c :: text, line)

theorem skipText_comment (line : ℕ) (text : Str) :
    skipText true line text = skipText false line (text.dropWhile (fun c => decide (c ≠ 10))) := by
  induction text with
  | nil => rfl
  | cons c text ih =>
    by_cases hlf : c = 10
    · rw [hlf]
      rfl
    · rw [skipText, if_pos ⟨rfl, hlf⟩, List.dropWhile_cons, decide_eq_true hlf]
      exact ih

theorem skipOf_spec {c : Option Byte} {s : Stream} (line : ℕ) (h : Held c s) :
    pending (skipOf c s line).1 (skipOf c s line).2.1 = (skipText false line (pending c s)).1 ∧
      (skipOf c s line).2.2 = (skipText false line (pending c s)).2 ∧
      Held (skipOf c s line).1 (skipOf c s line).2.1 ∧ ∀ b, (skipOf c s line).1 = some b → 32 < b := by
  induction c, s, line using skipOf.induct with
  | case1 s line =>
    rw [skipOf, h.pending_none]
    exact ⟨rfl, rfl, h, fun _ hb => nomatch hb⟩
  | case2 s line b hb ih =>
    have hskip := ih (held_readChar s)
    rw [pending_readChar] at hskip
    rw [skipOf, if_pos hb, show pending (some b) s = b :: s.flat from rfl, skipText,
      if_neg (fun hc => nomatch hc.1), if_pos hb]
    exact hskip
  | case3 s line t hb ih =>
    have hskip := ih (held_readChar _)
    rw [pending_readChar, Stream.flat_skipNot, ← skipText_comment] at hskip
    rw [skipOf, if_neg hb, if_pos rfl, show pending (some 59) s = 59 :: s.flat from rfl, skipText,
      if_neg (fun hc => nomatch hc.1), if_neg hb, if_pos rfl]
    exact hskip
  | case4 s line b hb h59 =>
    rw [skipOf, if_neg hb, if_neg h59, show pending (some b) s = b :: s.flat from rfl, skipText,
      if_neg (fun hc => nomatch hc.1), if_neg hb, if_neg h59]
    exact ⟨rfl, rfl, h, fun _ heq => Option.some.inj heq ▸ not_le.1 hb⟩

end ChrysaLisp.Forms
