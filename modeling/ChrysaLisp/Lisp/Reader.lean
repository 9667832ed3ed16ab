import ChrysaLisp.Library.Run
import ChrysaLisp.Lisp.Buffered

set_option autoImplicit false

/-! # The reader

`:lisp :read` with `read_num` and `read_quasi`, over a stream in buffers and over a text. A turn is one of
its loop: to the next thing there is to read, that thing, and what it does to the lists that are open. A
number is gathered in a buffer on the stack that is not cleared before, so what the stack held is one of a
turn's arguments. -/

namespace ChrysaLisp.Forms

/-- What is read: a form, or the error that is in a form's place. -/
inductive Item
  | num (n : BitVec 64)
  | fixed (n : BitVec 64)
  | str (s : Str)
  | sym (name : Str)
  | list (items : List Item)
  | error (text : Str) (line : ℕ) (payload : Item)

/-! ## Numbers -/

/-- The bytes of the number buffer. -/
def numSize : ℕ := 72

/-- The chars of a number, as many as there is room for. -/
def numLoop : (room : ℕ) → Option Byte → Stream → Str × Option Byte × Stream
  | 0, c, s => ([], c, s)
  | _ + 1, none, s => ([], none, s)
  | room + 1, some b, s =>
      if isNumChar b then
        let r := numLoop room s.readChar.1 s.readChar.2
        (b :: r.1, r.2)
      else ([], some b, s)

/-- The stack from the buffer on, with the chars in it and a 0 after them. -/
def numBuffer (stack body : Str) : Str := body ++ 0 :: stack.drop (body.length + 1)

def cString (mem : Str) : Str := mem.takeWhile (fun c => decide (c ≠ 0))

/-- The loop of `:sys_str :to_long`, which ends after enough digits after the point. -/
def toLongLoop (base : BitVec 64) : Str → (num dot : BitVec 64) → BitVec 64 × BitVec 64
  | [], num, dot => (num, dot)
  | c :: s, num, dot =>
      let digit := BitVec.ofNat 64 (c.val ||| 32)
      let r :=
        if c = 46 then (num, 1)
        else (num * base + ((if 97 ≤ c.val ||| 32 then digit - 39 else digit) - 48), dot * base)
      if 10000000 ≤ r.2.toInt then r else toLongLoop base s r.1 r.2

/-- The number a C string says, and its point. -/
def sysToLong (base : BitVec 64) (s : Str) : BitVec 64 × BitVec 64 :=
  let r := toLongLoop base s 0 0
  if r.2 ≠ 0 then ((r.1 <<< 16) / r.2, r.2) else r

/-- The base a number says and where it begins. -/
def pickBase (mem : Str) : BitVec 64 × Str :=
  let base := ((mem.drop 1).headD 0).val ||| 32
  if base = 120 then (16, mem.drop 2)
  else if base = 111 then (8, mem.drop 2)
  else if base = 98 then (2, mem.drop 2)
  else (10, mem)

def numItem (minus : Bool) (mem : Str) : Item :=
  let r := sysToLong (pickBase mem).1 (cString (pickBase mem).2)
  let num := if minus then r.1 * -1 else r.1
  if r.2 ≠ 0 then .fixed num else .num num

/-! ## What is next -/

inductive Tok
  | lrb
  | rrb
  | mark (m : Mark)
  | item (x : Item)
  | eof

/-- What was read, where in the number buffer was written, what is left to read and the line. -/
structure Lexed (α : Type) where
  tok : Tok
  written : List ℕ
  src : α
  line : ℕ

/-- The digits of a number and what is after them. -/
def readDigitsOf (stack : Str) (minus : Bool) (c : Option Byte) (s : Stream) (line : ℕ) :
    Lexed (Option Byte × Stream) :=
  let r := numLoop numSize c s
  ⟨.item (numItem minus (numBuffer stack r.1)), List.range (r.1.length + 1), r.2, line⟩

/-- `:read_num`. A symbol that starts with a minus is read by `:read_sym`. -/
def readNumOf (stack : Str) (first : Byte) (s : Stream) (line : ℕ) : Lexed (Option Byte × Stream) :=
  if first = 45 then
    match s.readChar with
    | (none, s) => ⟨.item (.sym [45]), [], (none, s), line⟩
    | (some c, s) =>
        if 48 ≤ c then readDigitsOf stack true (some c) s line
        else if endsSym c then ⟨.item (.sym [45]), [], (some c, s), line⟩
        else
          let r := readSymOf c s
          ⟨.item (.sym (45 :: r.1)), [], r.2, line⟩
  else readDigitsOf stack false (some first) s line

/-- What are we reading? -/
def lexStream (stack : Str) (src : Option Byte × Stream) (line : ℕ) : Lexed (Option Byte × Stream) :=
  match skipOf src.1 src.2 line with
  | (none, s, line) => ⟨.eof, [], (none, s), line⟩
  | (some c, s, line) =>
      if c = 40 then ⟨.lrb, [], s.readChar, line⟩
      else if c = 41 then ⟨.rrb, [], s.readChar, line⟩
      else if 48 ≤ c ∧ c ≤ 57 then readNumOf stack c s line
      else if c = 34 then
        let r := readStrOf 34 s line
        ⟨.item (.str (unescape r.1)), [], r.2.1.readChar, r.2.2⟩
      else if c = 123 then
        let r := readStrOf 125 s line
        ⟨.item (.str (unescape r.1)), [], r.2.1.readChar, r.2.2⟩
      else
        match marks.find? (fun m => m.char = c) with
        | some m => ⟨.mark m, [], s.readChar, line⟩
        | none =>
            if c = 45 then readNumOf stack c s line
            else
              let r := readSymOf c s
              ⟨.item (.sym r.1), [], r.2, line⟩

/-! ## The lists that are open -/

/-- A call of `:read`: the mark it was called for, the lists that are open and the one that is read. -/
structure Call where
  mark : Option Mark
  stack : List (List Item)
  list : List Item

structure Reader (α : Type) where
  src : α
  line : ℕ
  /-- The call that reads. -/
  call : Call
  /-- Those that wait for it. -/
  calls : List Call
  /-- What there was read. -/
  out : List Item
  /-- Where in the number buffer was written. -/
  written : List ℕ

/-- An item is put on the list that is read, or is what the call comes to, and then, after its mark, an item
    for the call that waits. -/
def deliver (x : Item) (call : Call) : List Call → List Item → Call × List Call × List Item
  | calls, out =>
      match call.stack, call.mark, calls with
      | _ :: _, _, calls => ({ call with list := call.list ++ [x] }, calls, out)
      | [], some m, up :: calls => deliver (.list [.sym m.name, x]) up calls out
      | [], _, _ => (⟨none, [], []⟩, [], out ++ [x])

/-- What is read does to the lists. -/
def Tok.act (t : Tok) (line : ℕ) (call : Call) (calls : List Call) (out : List Item) :
    Call × List Call × List Item :=
  match t with
  | .lrb => ({ call with stack := call.list :: call.stack, list := [] }, calls, out)
  | .rrb =>
      match call.stack with
      | [] => deliver (.error (asc "unexpected )") line (.list call.list)) call calls out
      | up :: stack => deliver (.list call.list) { call with stack := stack, list := up } calls out
  | .mark m => (⟨some m, [], []⟩, call :: calls, out)
  | .item x => deliver x call calls out
  | .eof =>
      match call.stack with
      | [] => deliver (.sym (asc ":nil")) call calls out
      | _ :: _ =>
          deliver (.error (asc "missing )") line (.list call.list)) { call with stack := [] } calls out

/-- A turn of the loop of `:read`. -/
def Reader.turn {α : Type} (lex : α → ℕ → Lexed α) (r : Reader α) : Reader α :=
  let l := lex r.src r.line
  let after := l.tok.act l.line r.call r.calls r.out
  ⟨l.src, l.line, after.1, after.2.1, after.2.2, r.written ++ l.written⟩

def Reader.start {α : Type} (src : α) (line : ℕ) : Reader α := ⟨src, line, ⟨none, [], []⟩, [], [], []⟩

/-- A turn over a stream, given what the stack holds. -/
def turn (r : Reader (Option Byte × Stream)) (stack : Str) : Reader (Option Byte × Stream) :=
  r.turn (lexStream stack)

/-- Reading from a stream begins with a blank for the last char. -/
def opened (s : Stream) (line : ℕ) : Reader (Option Byte × Stream) := .start (some 32, s) line

end ChrysaLisp.Forms
