import Mathlib.Data.Nat.Bitwise
import ChrysaLisp.Lisp.Str

set_option autoImplicit false

/-! # Forms, read and printed

`class/lisp/read.vp` with `read_num`, `read_str`, `read_sym` and `read_quasi`, `class/lisp/repl_print.vp`,
and the escapes of `class/str`. Of the forms these are the whole numbers, the strings, the symbols
and the lists. A text that is read is what is left of a stream, from the next char on. -/

namespace ChrysaLisp.Forms

inductive Form
  | num (n : BitVec 64)
  | str (s : Str)
  | sym (name : Str)
  | list (items : List Form)

/-- What stands before a form for a list of two. -/
inductive Mark
  | quote
  | qquote
  | unquote
  | splicing
  deriving DecidableEq

def Mark.name : Mark → Str
  | .quote => asc "quote"
  | .qquote => asc "quasi-quote"
  | .unquote => asc "unquote"
  | .splicing => asc "unquote-splicing"

def Mark.char : Mark → Byte
  | .quote => 39
  | .qquote => 96
  | .unquote => 44
  | .splicing => 126

def marks : List Mark := [.quote, .qquote, .unquote, .splicing]

/-! ## Escapes -/

def escCodes : List Byte := [13, 12, 11, 10, 9, 34, 8, 92]

def escChars : List Byte := asc "rfvntqb\\"

/-- What an escaped byte is written with after the backslash. -/
def escOf (c : Byte) : Option Byte := ((escCodes.zip escChars).find? (fun p => p.1 = c)).map Prod.snd

def unescOf (c : Byte) : Option Byte := ((escChars.zip escCodes).find? (fun p => p.1 = c)).map Prod.snd

def escape (s : Str) : Str :=
  s.flatMap fun c =>
    match escOf c with
    | some e => [92, e]
    | none => [c]

/-- A digit of hex put after those there are, whatever char it is. -/
def hexNibble (ch : ℕ) (c : Byte) : ℕ := (ch <<< 4) + ((c.val &&& 15) + 9 * (c.val >>> 6))

def hexNibbles (s : Str) : ℕ := s.foldl hexNibble 0

/-- A char in UTF-8, from the 2 bytes of it on. -/
def utf8 (ch : ℕ) : Str :=
  let more (shift : ℕ) : Byte := Fin.ofNat 256 ((ch >>> shift &&& 63) ||| 128)
  if ch < 0x800 then [Fin.ofNat 256 (ch >>> 6 ||| 192), more 0]
  else if ch < 0x10000 then [Fin.ofNat 256 (ch >>> 12 ||| 224), more 6, more 0]
  else [Fin.ofNat 256 (ch >>> 18 ||| 240), more 12, more 6, more 0]

/-- What `\u` stands for, given what is after it, of 4 chars or more, and how many of those it takes. -/
def unescapeU (s : Str) : Str × ℕ :=
  let ch := hexNibbles (s.take 4)
  let low := hexNibbles ((s.drop 6).take 4)
  if 0xd800 ≤ ch ∧ ch ≤ 0xdbff ∧ 10 ≤ s.length ∧ (s.drop 4).take 2 = [92, 117] ∧ 0xdc00 ≤ low ∧
      low ≤ 0xdfff then
    (utf8 (((ch - 0xd800) <<< 10) + (low - 0xdc00) + 0x10000), 10)
  else if ch ≤ 0x7f then ([Fin.ofNat 256 ch], 4)
  else if ch < 0x800 then (utf8 ch, 4)
  else ([Fin.ofNat 256 (ch >>> 12 ||| 224), Fin.ofNat 256 ((ch >>> 6 &&& 63) ||| 128),
    Fin.ofNat 256 ((ch &&& 63) ||| 128)], 4)

def unescape : Str → Str
  | [] => []
  | c :: s =>
      if c ≠ 92 then c :: unescape s
      else
        match s with
        | [] => [c]
        | e :: s =>
            if e = 120 ∧ 2 ≤ s.length then
              Fin.ofNat 256 (hexNibbles (s.take 2)) :: unescape (s.drop 2)
            else if e = 117 ∧ 4 ≤ s.length then
              (unescapeU s).1 ++ unescape (s.drop (unescapeU s).2)
            else (unescOf e).getD e :: unescape s
  termination_by s => s.length
  decreasing_by all_goals simp only [List.length_cons, List.length_drop]; omega

/-! ## `:read` -/

/-- A char that ends a symbol. -/
def endsSym (c : Byte) : Bool := decide (c ≤ 32) || decide (c = 40) || decide (c = 41)

/-- White space and comments are gone over, from inside of a comment if that is where it is. -/
def skip (comment : Bool) (s : Str) : Str :=
  match s with
  | [] => []
  | c :: rest =>
      if comment then skip (decide (c ≠ 10)) rest
      else if c ≤ 32 then skip false rest
      else if c = 59 then skip true rest
      else c :: rest

def readSym (s : Str) : Str × Str := (s.takeWhile (fun c => !endsSym c), s.dropWhile (fun c => !endsSym c))

/-- Up to the char that closes it, which is gone over. -/
def readStr (close : Byte) (s : Str) : Str × Str :=
  (unescape (s.takeWhile (fun c => decide (c ≠ close))),
    (s.dropWhile (fun c => decide (c ≠ close))).drop 1)

/-- A char of a number, the point too. -/
def isNumChar (c : Byte) : Bool :=
  decide (48 ≤ c ∧ c ≤ 57) || decide (97 ≤ c ∧ c ≤ 122) || decide (c = 46) || decide (65 ≤ c ∧ c ≤ 90)

/-- `:sys_str :to_long`, of what has no point. -/
def toLong (base : ℕ) (s : Str) : ℕ :=
  s.foldl (fun num c =>
    let c := c.val ||| 32
    num * base + ((if 97 ≤ c then c - 39 else c) - 48)) 0

/-- The digits of a number after its base, if it says one. -/
def numBase (s : Str) : ℕ × Str :=
  match s with
  | _ :: b :: digits =>
      if b.val ||| 32 = 120 then (16, digits)
      else if b.val ||| 32 = 111 then (8, digits)
      else if b.val ||| 32 = 98 then (2, digits)
      else (10, s)
  | _ => (10, s)

/-- The number the next chars say. It is no whole number, and nothing is said of it, where there is a
    point, or no digit at all. -/
def readDigits (minus : Bool) (s : Str) : Option Form × Str :=
  let body := (s.take 72).takeWhile isNumChar
  let num := BitVec.ofNat 64 (toLong (numBase body).1 (numBase body).2)
  (if body = [] ∨ (numBase body).2.any (fun c => decide (c = 46)) then none
    else some (.num (if minus then -num else num)),
    s.drop body.length)

/-- A minus with no digit after it begins a symbol. -/
def readNum (s : Str) : Option Form × Str :=
  match s with
  | [] => (none, [])
  | first :: rest =>
      if first = 45 then
        match rest with
        | [] => (some (.sym [45]), [])
        | c :: _ =>
            if 48 ≤ c then readDigits true rest
            else if endsSym c then (some (.sym [45]), rest)
            else (some (.sym (45 :: (readSym rest).1)), (readSym rest).2)
      else readDigits false s

/-- What is read next. -/
inductive Token
  | lrb
  | rrb
  | mark (m : Mark)
  | atom (f : Option Form)

/-- What are we reading? -/
def token (s : Str) : Option (Token × Str) :=
  match s with
  | [] => none
  | c :: rest =>
      if c = 40 then some (.lrb, rest)
      else if c = 41 then some (.rrb, rest)
      else if 48 ≤ c ∧ c ≤ 57 then some (.atom (readNum s).1, (readNum s).2)
      else if c = 34 then some (.atom (some (.str (readStr 34 rest).1)), (readStr 34 rest).2)
      else if c = 123 then some (.atom (some (.str (readStr 125 rest).1)), (readStr 125 rest).2)
      else
        match marks.find? (fun m => m.char = c) with
        | some m => some (.mark m, rest)
        | none =>
            if c = 45 then some (.atom (readNum s).1, (readNum s).2)
            else some (.atom (some (.sym (readSym s).1)), (readSym s).2)

def symNil : Form := .sym (asc ":nil")

/-- An item is put on the list that is read, which is the form if it is not in another. -/
def pushItem (next : List (List Form) → List Form → Str → Option (Form × Str))
    (stack : List (List Form)) (list : List Form) (item : Form) (s : Str) : Option (Form × Str) :=
  match stack with
  | [] => some (item, s)
  | _ :: _ => next stack (list ++ [item]) s

/-- The loop of `:read`, with the lists that are open and the one that is read. It comes to nothing
    where a form is not of the ones there are here, as an error is not. -/
def readLoop : ℕ → List (List Form) → List Form → Str → Option (Form × Str)
  | 0, _, _, _ => none
  | fuel + 1, stack, list, s =>
      match token (skip false s) with
      | none => if stack.isEmpty then some (symNil, []) else none
      | some (.lrb, s) => readLoop fuel (list :: stack) [] s
      | some (.rrb, s) =>
          match stack with
          | [] => none
          | up :: stack => pushItem (readLoop fuel) stack up (.list list) s
      | some (.mark m, s) =>
          (readLoop fuel [] [] s).bind fun r =>
            pushItem (readLoop fuel) stack list (.list [.sym m.name, r.1]) r.2
      | some (.atom f, s) => f.bind fun f => pushItem (readLoop fuel) stack list f s

/-- `:read`, from the first char. Each turn of its loop takes one char or more. -/
def read (s : Str) : Option (Form × Str) := readLoop (s.length + 1) [] [] s

/-! ## `:repl_print` -/

def printNum (n : BitVec 64) : Str := if n.msb then 45 :: strNum (-n).toNat else strNum n.toNat

/-- The mark a list is printed with: that of the symbol it begins with. -/
def markOf (items : List Form) : Option Mark :=
  match items with
  | .sym name :: _ => marks.find? (fun m => m.name = name)
  | _ => none

mutual

/-- `:repl_print`, of the whole form. -/
def print : Form → Str
  | .num n => printNum n
  | .str s => 34 :: (escape s ++ [34])
  | .sym name => name
  | .list items =>
      match markOf items with
      | some m => m.char :: printSecond items
      | none => 40 :: (printItems items ++ [41])

/-- The form quoted, if there is one. -/
def printSecond : List Form → Str
  | [] => []
  | [_] => []
  | _ :: x :: _ => print x

def printItems : List Form → Str
  | [] => []
  | [x] => print x
  | x :: y :: rest => print x ++ 32 :: printItems (y :: rest)

end

end ChrysaLisp.Forms
