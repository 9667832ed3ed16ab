import ChrysaLisp.Lisp.Text
import Mathlib.Data.List.Chain
import Mathlib.Tactic.Linarith

set_option autoImplicit false

/-! # The difference of two texts, line by line

`stream-diff` looks for a way from the start of both texts to the end of both, a place on it being how
many lines of each are behind. A line of the second that is not of the first is one step, a line of
the first that is not of the second another, and a line they both have is a step of both. It goes on
with every way at once, keeps those that are nearest the end when there are too many of them, and
takes the shortest of those it has when one has come to it. What it writes of that way is a script of
commands, and `stream-patch` makes the second text of the first by it.

This module is the code of both, `lib/streams/diff.inc`. What `sort` does with paths that are as good
as one another, and what the regular expression of a command is matched by, are not for this code to
say: `sortBy` and `matches'` stand for them. -/

namespace ChrysaLisp

/-! ## Lines of a stream -/

/-- `(read-line stream)`, and what of the stream is then left. A line feed is not of the line, and the
    last line need not have one. -/
def readLine (s : Str) : Option (Str × Str) :=
  if s = [] then none
  else some (s.takeWhile (fun c => decide (c ≠ 10)), (s.dropWhile (fun c => decide (c ≠ 10))).drop 1)

/-- `(write-line stream line)`. -/
def writeLine (line : Str) : Str := line ++ [10]

/-- The lines `lines!` gives of a stream, in so many turns at most. -/
def linesIn : ℕ → Str → List Str
  | 0, _ => []
  | turns + 1, s =>
      match readLine s with
      | none => []
      | some (line, rest) => line :: linesIn turns rest

/-- `(lines! f stream)`: a turn takes a byte at the least. -/
def linesOf (s : Str) : List Str := linesIn s.length s

/-- Lines, written. -/
def textOf (ls : List Str) : Str := ls.flatMap writeLine

/-! ## The search -/

/-- A place: how many lines of each text are behind it. -/
abbrev DiffPlace := ℕ × ℕ

/-- The places a way has been at, from the first. -/
abbrev Path := List DiffPlace

def minPaths : ℕ := 4

def maxPaths : ℕ := 16

section Search

variable (sortBy : (Path → ℤ) → List Path → List Path) (al bl : List Str)

/-- `(slice p -3 -1)`. -/
def Path.last (p : Path) : DiffPlace := p.getLastD (0, 0)

def Path.atGoal (p : Path) : Bool := decide (Path.last p = (al.length, bl.length))

/-- `(goal-distance p)`, squared as it is. -/
def goalDistance (p : Path) : ℤ :=
  ((al.length : ℤ) - (Path.last p).1) ^ 2 + ((bl.length : ℤ) - (Path.last p).2) ^ 2

/-- Where a path goes on to: on along an edge, over a line they both have, or both ways. -/
def stepPath (p : Path) : List Path :=
  let (a, b) := Path.last p
  if a ≠ al.length ∨ b ≠ bl.length then
    if a = al.length then [p ++ [(a, b + 1)]]
    else if b = bl.length then [p ++ [(a + 1, b)]]
    else if al[a]? = bl[b]? then [p ++ [(a + 1, b + 1)]]
    else [p ++ [(a, b + 1)], p ++ [(a + 1, b)]]
  else [p]

/-- The paths of the next turn, the nearest the end of them if there are too many. -/
def stepPaths (ps : List Path) : List Path :=
  let nps := ps.flatMap (stepPath al bl)
  if maxPaths < nps.length then (sortBy (goalDistance al bl) nps).take minPaths else nps

/-- The search, until a turn had a path that was at the end. -/
def searchPaths : ℕ → List Path → Option (List Path)
  | 0, _ => none
  | turns + 1, ps =>
      if ps.any (Path.atGoal al bl) then some (stepPaths sortBy al bl ps)
      else searchPaths turns (stepPaths sortBy al bl ps)

end Search

/-! ## The path, ironed -/

/-- What `iron` has: the path so far, where it is, where the run it is in began, and of what kind it
    is. It starts at -1, where no place is. -/
structure Ironing where
  out : Path
  a : ℤ
  b : ℤ
  x : ℕ
  y : ℕ
  flat : Bool

/-- Lines gone from the first text, and then lines come of the second. -/
def flatRun (x y a b : ℕ) : Path :=
  (List.range (a - x)).map (fun i => (x + i, y)) ++ (List.range (b - y)).map (fun j => (a, y + j))

/-- Lines they both have. -/
def diagRun (x y a : ℕ) : Path := (List.range (a - x)).map (fun i => (x + i, y + i))

/-- The run it is in, written. -/
def Ironing.run (s : Ironing) : Path :=
  if s.flat then flatRun s.x s.y s.a.toNat s.b.toNat else diagRun s.x s.y s.a.toNat

def Ironing.place (s : Ironing) (p : DiffPlace) : Ironing :=
  let s' :=
    if (p.1 : ℤ) ≠ s.a ∧ (p.2 : ℤ) ≠ s.b then
      if s.flat then { s with out := s.out ++ s.run, x := s.a.toNat, y := s.b.toNat, flat := false }
      else s
    else
      if s.flat then s
      else { s with out := s.out ++ s.run, x := s.a.toNat, y := s.y + (s.a.toNat - s.x), flat := true }
  { s' with a := p.1, b := p.2 }

/-- `(iron p)`. -/
def iron (p : Path) : Path :=
  let s := p.foldl Ironing.place ⟨[], -1, -1, 0, 0, false⟩
  s.out ++ s.run ++ [(s.a.toNat, s.b.toNat)]

/-! ## The script -/

/-- `(diff-range lo hi)`. -/
def diffRange (lo hi : ℕ) : Str :=
  if lo = hi then strNum lo else strNum lo ++ asc "," ++ strNum hi

/-- The line a change starts with. -/
def diffCommand (ha hb na nb : ℕ) : Str :=
  if na = 0 ∧ nb = 0 then []
  else if nb = 0 then writeLine (diffRange (ha + 1) (ha + na) ++ asc "d" ++ strNum hb)
  else if na = 0 then writeLine (strNum ha ++ asc "a" ++ diffRange (hb + 1) (hb + nb))
  else writeLine (diffRange (ha + 1) (ha + na) ++ asc "c" ++ diffRange (hb + 1) (hb + nb))

/-- `(diff-hunk c ha hb dels adds)`: what it writes. -/
def diffHunk (ha hb : ℕ) (dels adds : List Str) : Str :=
  diffCommand ha hb dels.length adds.length
    ++ dels.flatMap (fun l => writeLine (asc "< " ++ l))
    ++ (if 0 < dels.length ∧ 0 < adds.length then writeLine (asc "---") else [])
    ++ adds.flatMap (fun l => writeLine (asc "> " ++ l))

/-- Where the writing of a path is: the place, that of the last line they both have, and what has gone
    and come since. -/
structure Hunking where
  a : ℤ
  b : ℤ
  ha : ℕ
  hb : ℕ
  dels : List Str
  adds : List Str
  out : Str

def Hunking.place (al bl : List Str) (s : Hunking) (p : DiffPlace) : Hunking :=
  let s' :=
    if (p.1 : ℤ) ≠ s.a ∧ (p.2 : ℤ) ≠ s.b then
      { s with out := s.out ++ diffHunk s.ha s.hb s.dels s.adds, dels := [], adds := [],
               ha := p.1, hb := p.2 }
    else if (p.1 : ℤ) = s.a then { s with adds := s.adds ++ (bl[s.b.toNat]?).toList }
    else { s with dels := s.dels ++ (al[s.a.toNat]?).toList }
  { s' with a := p.1, b := p.2 }

/-- The script of a path. -/
def pathScript (al bl : List Str) (p : Path) : Str :=
  let s := p.foldl (Hunking.place al bl) ⟨-1, -1, 0, 0, [], [], []⟩
  s.out ++ diffHunk s.ha s.hb s.dels s.adds

/-- `(stream-diff a b c)`: what it writes to `c`. -/
def streamDiff (sortBy : (Path → ℤ) → List Path → List Path) (a b : Str) : Option Str :=
  let al := linesOf a
  let bl := linesOf b
  if al.length = 0 ∧ bl.length = 0 then some []
  else if al.length = 0 then some (diffHunk 0 0 [] bl)
  else if bl.length = 0 then some (diffHunk 0 0 al [])
  else
    -- a path that is not at the end gains a line a turn, so there are no more turns than this
    (searchPaths sortBy al bl (al.length + bl.length + 1) [[(0, 0)]]).map (fun ps =>
      pathScript al bl (iron ((sortBy (fun p => (p.length : ℤ)) ps).headD [])))

/-! ## The patch -/

/-- `(read-line stream)` so many times, for nothing of it. -/
def skipLines : ℕ → Str → Str
  | 0, s => s
  | n + 1, s => skipLines n (((readLine s).map Prod.snd).getD [])

/-- Lines read from one stream and written to another, but for what is before `from'`: what is
    written, and what is left. With no line to read it throws. -/
def copyLines (from' : ℕ) : ℕ → Str → Option (Str × Str)
  | 0, s => some ([], s)
  | n + 1, s => do
      let (line, s) ← readLine s
      let (out, s) ← copyLines from' n s
      some (writeLine (line.drop from') ++ out, s)

/-- Where `stream-patch` is: the line of `a` that is next, what is left of `a` and of the script, and
    what is written. -/
structure Patching where
  ln : ℕ
  a : Str
  b : Str
  c : Str

/-- `(slice s x1 x2)`. -/
def sliceStr (s : Str) (x1 x2 : ℕ) : Str := (s.take x2).drop x1

/-- The second number of a part of a command, if it has one: a part that is not there has an end before
    its start. -/
def rangeEnd (p : Str) (x1 x2 first : ℕ) : ℕ :=
  if x2 ≤ x1 then first else strAsNum (sliceStr p (x1 + 1) x2)

/-- A count of `times`, none of a negative one: that is not a count of lines any text has. -/
def timesOf (first last : ℕ) : Option ℕ := if last + 1 < first then none else some (last + 1 - first)

/-- A command, done: the lines before it are as they were. -/
def patchCommand (op : Str) (s1 e1 s2 e2 : ℕ) (s : Patching) : Option Patching := do
  let target := if op = asc "a" then s1 + 1 else s1
  let (kept, a) ← copyLines 0 (target - s.ln) s.a
  let s := { s with ln := max s.ln target, a := a, c := s.c ++ kept }
  if op = asc "a" then
    let n ← timesOf s2 e2
    let (out, b) ← copyLines 2 n s.b
    some { s with b := b, c := s.c ++ out }
  else if op = asc "d" then
    let n ← timesOf s1 e1
    some { s with ln := s.ln + n, a := skipLines n s.a, b := skipLines n s.b }
  else if op = asc "c" then
    let n ← timesOf s1 e1
    let m ← timesOf s2 e2
    let (out, b) ← copyLines 2 m (skipLines (n + 1) s.b)
    some { ln := s.ln + n, a := skipLines n s.a, b := b, c := s.c ++ out }
  else some s

section Patch

variable (matches' : Str → List (List (ℕ × ℕ)))

/-- The commands of a script, each line of it a command until one is not. -/
def patchCommands : ℕ → Patching → Option Patching
  | 0, _ => none
  | turns + 1, s =>
      match readLine s.b with
      | none => some s
      | some (p, b) =>
          match matches' p with
          | [] =>
              if (asc "---").isPrefixOf p ∨ (asc "+++").isPrefixOf p then
                patchCommands turns { s with b := b }
              else some { s with b := b }
          | (_ :: (x1, x2) :: (x3, x4) :: (x5, x6) :: (x7, x8) :: (x9, x10) :: _) :: _ => do
              let s1 := strAsNum (sliceStr p x1 x2)
              let s2 := strAsNum (sliceStr p x7 x8)
              let s' ← patchCommand (sliceStr p x5 x6) s1 (rangeEnd p x3 x4 s1) s2 (rangeEnd p x9 x10 s2)
                { s with b := b }
              patchCommands turns s'
          | _ => none

/-- `(stream-patch a b c)`: what it writes to `c`. -/
def streamPatch (a b : Str) : Option Str :=
  (patchCommands matches' (b.length + 1) ⟨1, a, b, []⟩).map
    (fun s => s.c ++ textOf (linesOf s.a))

end Patch

end ChrysaLisp
