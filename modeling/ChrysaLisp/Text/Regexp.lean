import ChrysaLisp.Lisp.Str
import Mathlib.Data.List.Sort

set_option autoImplicit false

/-! # Regular expressions

`lib/text/regexp.inc`: a pattern is tokenized, put into postfix order and compiled to elements. An
element that takes a character has a test of it, and goes on at its one offset. One that takes none,
a split, goes on at all of its offsets, the last of them first. The search has a thread for each
element that is waited at, each with a trace: starts and ends of the groups, and then the index of
the element. -/

namespace ChrysaLisp.Regexp

local instance lawfulBEq_char : LawfulBEq Byte := inferInstance

/-! ## Tokens -/

/-- `+op_chars`, three of them with a `?` after them too, and `+op_cat` and `+op_tac`. -/
inductive Op
  | plus | star | quest | bar | plusLazy | starLazy | questLazy | cat | tac
deriving DecidableEq

/-- `(is-op-char? c)`. -/
def isOpChar (c : Byte) : Option Op :=
  if c = 43 then some .plus else if c = 42 then some .star else if c = 63 then some .quest
  else if c = 124 then some .bar else none

/-- The operator with a `?` after it. -/
def lazyOp : Op → Option Op
  | .plus => some .plusLazy
  | .star => some .starLazy
  | .quest => some .questLazy
  | _ => none

inductive Token
  | op (op : Op)
  | lrb
  | rrb
  | assert (c : Byte)
  | wild
  | lit (c : Byte)
  | cls (token : Str)
deriving DecidableEq

/-- `state`, and `token` where it is in use. -/
inductive State
  | space
  | cls (token : Str)
  | esc

/-- What a character after a backslash is. -/
def escaped (c : Byte) : Token :=
  if c = 113 then .lit 34 else if c = 114 then .lit 13 else if c = 102 then .lit 12
  else if c = 118 then .lit 11 else if c = 110 then .lit 10 else if c = 116 then .lit 9
  else if c = 115 then .cls [32, 9]
  else if c = 83 then .cls [94, 32, 13, 12, 11, 10, 9]
  else if c = 100 then .cls (asc "0-9")
  else if c = 68 then .cls (asc "^0-9")
  else if c = 108 then .cls (asc "a-z")
  else if c = 117 then .cls (asc "A-Z")
  else if c = 97 then .cls (asc "A-Za-z")
  else if c = 112 then .cls (asc "A-Za-z0-9")
  else if c = 119 then .cls (asc "A-Za-z0-9_")
  else if c = 87 then .cls (asc "^A-Za-z0-9_")
  else if c = 120 then .cls (asc "A-Fa-f0-9")
  else .lit c

/-- `(concat?)`, of the operator to join with or none. -/
def concat (o : Option Op) : List Token := (o.map Token.op).toList

/-- The loop of `tokenize`. -/
def tokenizeLoop : State → Option Op → Str → Option (List Token)
  | .space, _, [] => some []
  | .cls _, _, [] => none
  | .esc, _, [] => none
  | .space, o, c :: line =>
      if c = 92 then (concat o ++ ·) <$> tokenizeLoop .esc o line
      else match isOpChar c with
        | some op =>
            let next := if op = .bar then none else some Op.cat
            match lazyOp op, line with
            | some lazyOne, d :: rest =>
                if d = 63 then (.op lazyOne :: ·) <$> tokenizeLoop .space next rest
                else (.op op :: ·) <$> tokenizeLoop .space next (d :: rest)
            | _, line => (.op op :: ·) <$> tokenizeLoop .space next line
        | none =>
            if c = 40 then (concat o ++ .lrb :: ·) <$> tokenizeLoop .space (some .tac) line
            else if c = 41 then (concat (o.map fun _ => .tac) ++ .rrb :: ·) <$> tokenizeLoop .space
              (some .cat) line
            else if c = 94 ∨ c = 36 ∨ c = 33 then
              (concat o ++ .assert c :: ·) <$> tokenizeLoop .space (some .cat) line
            else if c = 91 then (concat o ++ ·) <$> tokenizeLoop (.cls []) o line
            else if c = 46 then (concat o ++ .wild :: ·) <$> tokenizeLoop .space (some .cat) line
            else (concat o ++ .lit c :: ·) <$> tokenizeLoop .space (some .cat) line
  | .cls token, o, c :: line =>
      if c = 93 then
        -- `(cat)` of nothing is an error
        if token = [] then none else (.cls token :: ·) <$> tokenizeLoop .space (some .cat) line
      else tokenizeLoop (.cls (token ++ [c])) o line
  | .esc, _, c :: line => (escaped c :: ·) <$> tokenizeLoop .space (some .cat) line

def tokenize (line : Str) : Option (List Token) := tokenizeLoop .space none line

/-! ## Postfix order -/

inductive Item
  | op (op : Op)
  | lrb (label : ℕ)
  | rrb (label : ℕ)
  | assert (c : Byte)
  | wild
  | lit (c : Byte)
  | cls (token : Str)
deriving DecidableEq

/-- Where it is in `+op_presidence`; none is the bracket. -/
def precedence : Option Op → ℕ
  | some .plus | some .plusLazy => 0
  | some .star | some .starLazy => 1
  | some .quest | some .questLazy => 2
  | some .cat => 3
  | some .bar => 4
  | some .tac => 5
  | none => 6

/-- `stack`, the top first, `parens` likewise, the label of the next group, and what is output. -/
structure Postfix where
  stack : List (Option Op)
  parens : List ℕ
  label : ℕ
  out : List Item

/-- The operators on top that go before one of a precedence. -/
def popOps (p : ℕ) : List (Option Op) → List Item × List (Option Op)
  | some op :: stack =>
      if precedence (some op) ≤ p then (.op op :: (popOps p stack).1, (popOps p stack).2)
        else ([], some op :: stack)
  | stack => ([], stack)

/-- The operators down to the bracket. -/
def popBracket : List (Option Op) → Option (List Item × List (Option Op))
  | [] => none
  | none :: stack => some ([], stack)
  | some op :: stack => (popBracket stack).map fun popped => (.op op :: popped.1, popped.2)

def postfixStep (st : Postfix) : Token → Option Postfix
  | .lrb => some ⟨none :: st.stack, st.label :: st.parens, st.label + 2, st.out ++ [.lrb st.label]⟩
  | .rrb =>
      match st.parens with
      | [] => none
      | label :: parens => (popBracket st.stack).map fun popped =>
          ⟨popped.2, parens, st.label, st.out ++ .rrb (label + 1) :: popped.1⟩
  | .op op =>
      let popped := popOps (precedence (some op)) st.stack
      some ⟨some op :: popped.2, st.parens, st.label, st.out ++ popped.1⟩
  | .assert c => some { st with out := st.out ++ [.assert c] }
  | .wild => some { st with out := st.out ++ [.wild] }
  | .lit c => some { st with out := st.out ++ [.lit c] }
  | .cls token => some { st with out := st.out ++ [.cls token] }

/-- `(postfix tokenize_output)`. -/
def postfixOrder (tokens : List Token) : Option (List Item) := do
  let st ← tokens.foldlM postfixStep ⟨[], [], 0, []⟩
  if st.parens = [] then some (st.out ++ (st.stack.filterMap id).map .op) else none

/-! ## Elements -/

/-- The test of a character. -/
inductive Test
  | wild
  | among (cls : Str)
  | notAmong (cls : Str)
deriving DecidableEq

/-- An offset, or what is evaluated to one: the asserts, and the marks of a group. -/
inductive Offset
  | num (n : ℤ)
  | assert (c : Byte)
  | lrb (label : ℕ)
  | rrb (label : ℕ)
deriving DecidableEq

structure Elem where
  test : Option Test
  offsets : List Offset
deriving DecidableEq

/-- The characters of a class, as `char-class` takes them by three. -/
def charClassOf : Str → Str
  | first :: 45 :: third :: rest =>
      -- `range` counts down where its end is before its start
      (((if first.val ≤ third.val + 1 then List.range' first.val (third.val + 1 - first.val)
        else List.range' (third.val + 2) (first.val - (third.val + 1))).map (Fin.ofNat 256)) :
          Str) ++ charClassOf rest
  | first :: second :: third :: rest => first :: second :: third :: charClassOf rest
  | rest => rest

/-- `(char-class key)`, nothing where there is no character. -/
def charClass (key : Str) : Option Str :=
  let chars := ((charClassOf key).dedup.insertionSort (· ≤ ·))
  if chars = [] then none else some chars

/-- What an operator makes of the programs on the stack, the top first. -/
def compileOp (op : Op) : List (List Elem) → Option (List (List Elem))
  | [] => none
  | a :: stack =>
      let la : ℤ := a.length
      if op ≠ .cat ∧ op ≠ .tac ∧ ∀ elem ∈ a, elem.test = none then none
      else match op with
        | .cat | .tac =>
            match stack with
            | [] => none
            | b :: stack => some ((b ++ a) :: stack)
        | .bar =>
            match stack with
            | [] => none
            | b :: stack => some ((⟨none, [.num (b.length + 2), .num 1]⟩ :: b ++
                ⟨none, [.num (la + 1)]⟩ :: a) :: stack)
        | .quest => some ((⟨none, [.num (la + 1), .num 1]⟩ :: a) :: stack)
        | .questLazy => some ((⟨none, [.num 1, .num (la + 1)]⟩ :: a) :: stack)
        | .star => some ((⟨none, [.num (la + 2), .num 1]⟩ :: a ++ [⟨none, [.num (-(la + 1))]⟩]) :: stack)
        | .starLazy => some ((⟨none, [.num 1, .num (la + 2)]⟩ :: a ++ [⟨none, [.num (-(la + 1))]⟩]) :: stack)
        | .plus => some ((a ++ [⟨none, [.num 1, .num (-la)]⟩]) :: stack)
        | .plusLazy => some ((a ++ [⟨none, [.num (-la), .num 1]⟩]) :: stack)

def compileStep (stack : List (List Elem)) : Item → Option (List (List Elem))
  | .lit c => some ([⟨some (.among [c]), [.num 1]⟩] :: stack)
  | .wild => some ([⟨some .wild, [.num 1]⟩] :: stack)
  | .cls token =>
      if token.head? = some 94 then (charClass token.tail).map fun cls =>
        [⟨some (.notAmong cls), [.num 1]⟩] :: stack
      else (charClass token).map fun cls => [⟨some (.among cls), [.num 1]⟩] :: stack
  | .assert c => some ([⟨none, [.assert c]⟩] :: stack)
  | .lrb label => some ([⟨none, [.lrb label]⟩] :: stack)
  | .rrb label => some ([⟨none, [.rrb label]⟩] :: stack)
  | .op op => compileOp op stack

/-- `(compile postfix_output)`. -/
def compileItems (items : List Item) : Option (List Elem) := do (← items.foldlM compileStep []).head?

/-- `:compile`: the pattern is made group 0, whole words outside of it. Where anything is thrown
    there is no program. -/
def compile (pattern : Str) (wholeWords : Bool) : Option (List Elem) := do
  let tokens ← tokenize (if wholeWords then asc "!(" ++ pattern ++ asc ")!"
    else asc "(" ++ pattern ++ asc ")")
  compileItems (← postfixOrder tokens)

/-! ## The closure over splits -/

/-- Why there is no result: the turns are used up, or an error is thrown. -/
inductive Halt
  | turns
  | thrown
deriving DecidableEq

abbrev Run := Except Halt

theorem bind_eq_ok {α β : Type} {x : Run α} {f : α → Run β} {b : β} :
    x >>= f = .ok b ↔ ∃ a, x = .ok a ∧ f a = .ok b := by
  cases x with
  | error e => simp [bind, Except.bind]
  | ok a => simp [bind, Except.bind]

/-- The text, `si`, and the character `s`. -/
structure Place where
  text : Str
  si : ℕ
  s : Byte

def Test.holds (s : Byte) : Test → Bool
  | .wild => true
  | .among cls => decide (s ∈ cls)
  | .notAmong cls => decide (s ∉ cls)

/-- `+char_class_not_whole_word`. -/
def notWholeWord : Str := [32, 46, 44, 59, 39, 96, 40, 41, 91, 93, 47, 13, 12, 11, 10, 9, 34, 123, 125]

def assertHolds (here : Place) (c : Byte) : Bool :=
  if c = 94 then decide (here.si = 0)
  else if c = 36 then here.text[here.si]?.all fun next => decide (next = 10)
  else decide (here.si = 0) || here.text[here.si]?.all fun next =>
    decide (here.s ∈ notWholeWord ∨ next ∈ notWholeWord)

/-- Zeros pushed by twos until there is a label's place. -/
def pushZeros (label : ℕ) (trace : List ℕ) : List ℕ :=
  trace ++ List.replicate (2 * ((label + 2 - trace.length) / 2)) 0

/-- What an offset is evaluated to, if it is not `:nil`, and the trace after that. -/
def evalOffset (here : Place) (trace : List ℕ) : Offset → Run (Option ℤ × List ℕ)
  | .num n => .ok (some n, trace)
  | .assert c => .ok (if assertHolds here c then some 1 else none, trace)
  | .lrb label => .ok (some 1, (pushZeros label trace.dropLast ++ [trace.getLastD 0]).set label here.si)
  | .rrb label => if label < trace.length then .ok (some 1, trace.set label here.si) else .error .thrown

/-- The offsets of a split, pushed one after another. -/
def pushOffsets (here : Place) (offset : ℤ) : List Offset → List Offset → List ℕ → Run (List Offset × List ℕ)
  | [], stack, trace => .ok (stack, trace)
  | o :: offsets, stack, trace => do
      let (value, trace) ← evalOffset here trace o
      pushOffsets here offset offsets (value.elim stack fun n => .num (offset + n) :: stack) trace

/-- `next`, `seen`, and the trace, which is written in place. -/
structure Closure where
  next : List (List ℕ)
  seen : List ℕ
  trace : List ℕ

/-- A thread to wait at an element, if there is none. -/
def Closure.wait (c : Closure) (newIndex : ℕ) (trace : List ℕ) : Closure :=
  if newIndex ∈ c.seen then { c with trace }
  else ⟨c.next ++ [trace.dropLast ++ [newIndex]], c.seen ++ [newIndex], trace⟩

/-- What a turn of the loop of `insertelem` comes to. -/
inductive Turn
  | goesOn (stack : List Offset) (c : Closure)
  | matched (c : Closure)

/-- A turn of the loop of `insertelem`, of what is popped. -/
def insertTurn (prog : List Elem) (here : Place) (index : ℤ) (o : Offset) (stack : List Offset)
    (c : Closure) : Run Turn := do
  let (value, trace) ← evalOffset here c.trace o
  match value with
  | none => .ok (.goesOn stack { c with trace })
  | some offset =>
      let newIndex := (index + offset).toNat
      -- no offset of `compile` goes back before the first element
      if index + offset < 0 then .error .thrown
      else if newIndex = prog.length then .ok (.matched { c with trace })
      else match prog[newIndex]? with
        | none => .error .thrown
        | some ⟨some _, _⟩ => .ok (.goesOn stack (c.wait newIndex trace))
        | some ⟨none, offsets⟩ => do
            let (stack, trace) ← pushOffsets here offset offsets stack trace
            .ok (.goesOn stack { c with trace })

/-- The loop of `insertelem`, for at most so many turns, with the top of the stack first: what there
    is after it, and whether it matched. -/
def insertLoop (prog : List Elem) (here : Place) (index : ℤ) :
    ℕ → List Offset → Closure → Run (Closure × Bool)
  | 0, _, _ => .error .turns
  | _ + 1, [], c => .ok (c, false)
  | turns + 1, o :: stack, c => do
      match ← insertTurn prog here index o stack c with
      | .matched c => .ok (c, true)
      | .goesOn stack c => insertLoop prog here index turns stack c

def insertelem (prog : List Elem) (here : Place) (turns : ℕ) (next : List (List ℕ)) (seen : List ℕ)
    (trace : List ℕ)
    (elem : Elem) : Run (Closure × Bool) :=
  insertLoop prog here (trace.getLastD 0) turns elem.offsets.reverse ⟨next, seen, trace⟩

/-! ## The search -/

/-- `end` and `end_trace`. -/
structure Found where
  stop : ℤ
  trace : List ℕ

/-- The threads of the first element, and what is found by it. -/
def firstelem (prog : List Elem) (here : Place) (turns : ℕ) : Run (List (List ℕ) × Found) :=
  match prog with
  | [] => .error .thrown
  | elem :: _ =>
      if elem.test.isSome then .ok ([[0]], ⟨-1, [0]⟩)
      else do
        let (c, matched) ← insertelem prog here turns [] [] [0] elem
        .ok (c.next, if matched then ⟨here.si, c.trace⟩ else ⟨-1, [0]⟩)

/-- Each of the threads, until one has matched: those of the next character, and the trace of that one. -/
def stepThreads (prog : List Elem) (here : Place) (turns : ℕ) :
    List (List ℕ) → List (List ℕ) → List ℕ → Run (List (List ℕ) × Option (List ℕ))
  | [], next, _ => .ok (next, none)
  | tr :: current, next, seen =>
      match prog[tr.getLastD 0]? with
      | none => .error .thrown
      | some elem =>
          if elem.test.any (Test.holds here.s) then do
            let (c, matched) ← insertelem prog here turns next seen tr elem
            if matched then .ok (c.next, some c.trace) else stepThreads prog here turns current c.next c.seen
          else stepThreads prog here turns current next seen

/-- The loop of `search` over the characters that are left. -/
def searchLoop (prog : List Elem) (text : Str) (turns : ℕ) : Str → ℕ → List (List ℕ) → Found → Run Found
  | [], _, _, found => .ok found
  | s :: rest, k, current, found => do
      let (next, matched) ← stepThreads prog ⟨text, k + 1, s⟩ turns current [] []
      let found := matched.elim found fun trace => ⟨k + 1, trace⟩
      if next = [] then .ok found else searchLoop prog text turns rest (k + 1) next found

/-- `(partition end_trace 2)`. -/
def partitionTwo : List ℕ → List (ℕ × ℕ)
  | a :: b :: rest => (a, b) :: partitionTwo rest
  | _ => []

/-- `(search text meta start)`. -/
def search (prog : List Elem) (text : Str) (turns start : ℕ) : Run (List (ℕ × ℕ) × ℤ) := do
  let (current, found) ← firstelem prog ⟨text, start, if start = 0 then 32 else text.getD (start - 1) 0⟩ turns
  let found ← searchLoop prog text turns (text.drop start) start current found
  .ok (partitionTwo found.trace.dropLast, found.stop)

/-- The next place from `j` with a character of the class, or the end. -/
def bskipn (cls text : Str) (j : ℕ) : ℕ := j + ((text.drop j).takeWhile fun c => decide (c ∉ cls)).length

/-- The next place from `j` with a character not of the class, or the end. -/
def bskip (cls text : Str) (j : ℕ) : ℕ := j + ((text.drop j).takeWhile fun c => decide (c ∈ cls)).length

/-- The loops of `:search`, which differ in what they skip. -/
def scan (prog : List Elem) (text : Str) (turns : ℕ) (skip : ℕ → ℕ) :
    ℕ → ℕ → List (List (ℕ × ℕ)) → Run (List (List (ℕ × ℕ)))
  | 0, _, _ => .error .turns
  | left + 1, j, out => do
      let i := skip j
      if i < text.length then
        let (l, stop) ← search prog text turns i
        if i ≤ stop then scan prog text turns skip left (if i = stop then i + 1 else stop.toNat) (out ++ [l])
        else scan prog text turns skip left (i + 1) out
      else .ok out

/-- What `:search` and `:match?` skip, by the test of the second element. -/
def skipBy (prog : List Elem) (text : Str) : Option (ℕ → ℕ) :=
  match prog[1]?.bind Elem.test with
  | some (.among cls) => some (bskipn cls text)
  | some (.notAmong cls) => some (bskip cls text)
  | _ => none

/-- `(second (first (last out)))`, where there is a last match. -/
def lastStop (out : List (List (ℕ × ℕ))) : Run (Option ℕ) :=
  match out.getLast? with
  | none => .ok none
  | some [] => .error .thrown
  | some (whole :: _) => .ok (some whole.2)

/-- `:search`: the matches of a program, each with its groups. -/
def searchAll (prog : List Elem) (text : Str) (turns : ℕ) : Run (List (List (ℕ × ℕ))) :=
  if text = [] then do
    let (l, stop) ← search prog [] turns 0
    .ok (if 0 ≤ stop then [l] else [])
  else match skipBy prog text with
    | some skip => scan prog text turns skip (text.length + 1) 0 []
    | none => do
        let out ← scan prog text turns id (text.length + 1) 0 []
        let last ← lastStop out
        if last = some text.length then .ok out
        else do
          let (l, stop) ← search prog text turns text.length
          .ok (if text.length ≤ stop then out ++ [l] else out)

/-- The loops of `:match?`. -/
def scanAny (prog : List Elem) (text : Str) (turns : ℕ) (skip : ℕ → ℕ) : ℕ → ℕ → Run Bool
  | 0, _ => .error .turns
  | left + 1, j => do
      let i := skip j
      if i < text.length then
        let (_, stop) ← search prog text turns i
        if i ≤ stop then .ok true else scanAny prog text turns skip left (i + 1)
      else .ok false

/-- `:match?`. -/
def matchAny (prog : List Elem) (text : Str) (turns : ℕ) : Run Bool :=
  if text = [] then do
    let (_, stop) ← search prog [] turns 0
    .ok (decide (0 ≤ stop))
  else match skipBy prog text with
    | some skip => scanAny prog text turns skip (text.length + 1) 0
    | none => do
        if ← scanAny prog text turns id (text.length + 1) 0 then .ok true
        else do
          let (_, stop) ← search prog text turns text.length
          .ok (decide (0 ≤ stop))

end ChrysaLisp.Regexp
