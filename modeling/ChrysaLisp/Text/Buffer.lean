import ChrysaLisp.Text.Cursor
import Mathlib.Logic.Function.Iterate

set_option autoImplicit false

/-! # A text buffer

The lines of a text, its cursors, and what it has to undo and to redo. All that changes the lines is
an insert at a place and a delete from one place to another (`iinsert`, `idelete`), each of which
says what would take it back; an operation on the buffer is such edits, one after another, as one that
can be undone (`Edit`).

The cursors are a list that is changed in place by some of what moves them, so lists of cursors have
numbers here and what is to be undone has the number of one. What the screen needs of a line, and the
focus, are left out: no edit reads them. -/

namespace ChrysaLisp

/-! ## Lines -/

/-- `(csr-line-end y)`. -/
def lineEnd (lines : List Str) (y : ℕ) : ℕ := (lines[y]?.getD []).length - 1

/-- `(last-line)`: there is an empty line at the end. -/
def lastLine (lines : List Str) : List Str :=
  if lines.getLast? = some [10] then lines else lines ++ [[10]]

/-- A place of `(clip_cursor cx cy ax ay)`. -/
def clip (lines : List Str) (cx cy : ℤ) : ℕ × ℕ :=
  let h := lines.length - 1
  if cy < 0 then (0, 0)
  else if cy > h then (lineEnd lines h, h)
  else ((min (max cx 0) (lineEnd lines cy.toNat)).toNat, cy.toNat)

/-- Two places, the top one first. -/
def sortPlaces (cx cy ax ay : ℕ) : ℕ × ℕ × ℕ × ℕ :=
  if cy < ay ∨ (cy = ay ∧ cx ≤ ax) then (cx, cy, ax, ay) else (ax, ay, cx, cy)

/-- What `idelete` does to the lines, from (cx cy) to (ax ay): the lines but the last of them are
    erased, and what is left of the first is put before what is left of the last. -/
def deleteText (lines : List Str) (cx cy ax ay : ℕ) : List Str :=
  let line := lines[cy]?.getD []
  if cy = ay then lines.set cy (line.take cx ++ line.drop ax)
  else
    let lines := (fun ls => ls.eraseIdx cy)^[ay - cy] lines
    lines.set cy (line.take cx ++ (lines[cy]?.getD []).drop ax)

/-- Where the lines of a text end, each after its line feed. -/
def breaksFrom : Str → ℕ → List ℕ
  | [], _ => []
  | c :: text, i => if c = 10 then (i + 1) :: breaksFrom text (i + 1) else breaksFrom text (i + 1)

/-- What `iinsert` does to the lines: the line has the text in it, and then is cut after each line
    feed of the text, the last first. -/
def insertText (lines : List Str) (cx cy : ℕ) (text : Str) : List Str :=
  let line := lines[cy]?.getD []
  let line := line.take cx ++ text ++ line.drop cx
  let (lines, ei) := (breaksFrom text 0).foldr
    (fun b (acc : List Str × ℕ) => (acc.1.insertIdx (cy + 1) ((line.take acc.2).drop (cx + b)), cx + b))
    (lines.set cy line, line.length)
  lines.set cy (line.take ei)

/-- Where text inserted at a place ends. -/
def insertEnd (cx cy : ℕ) (text : Str) : ℕ × ℕ :=
  let breaks := breaksFrom text 0
  ((match breaks.getLast? with
    | none => cx + text.length
    | some last => text.length - last), cy + breaks.length)

/-- `(icopy cx cy ax ay)`, the top place first. -/
def icopy (lines : List Str) (cx cy ax ay : ℕ) : Str :=
  if cx = ax ∧ cy = ay then []
  else if cy = ay then ((lines[cy]?.getD []).take ax).drop cx
  else (lines[cy]?.getD []).drop cx ++ ((lines.drop (cy + 1)).take (ay - cy - 1)).flatten
    ++ (lines[ay]?.getD []).take ax

example : insertText [asc "ab\n", asc "\n"] 1 0 (asc "x\ny") = [asc "ax\n", asc "yb\n", asc "\n"] := by
  decide

example : deleteText [asc "ab\n", asc "cd\n", asc "\n"] 1 0 1 1 = [asc "ad\n", asc "\n"] := by decide

/-! ## The buffer -/

/-- What is on the undo and the redo stacks. -/
inductive Record where
  | mark (mark : ℤ)
  | cursors (list : ℕ)
  | insert (cx cy : ℕ) (text : Str)
  | delete (cx cy ax ay : ℕ)
  deriving DecidableEq

/-- A `Buffer`. The tops of the stacks are first, `undos` is `+buffer_flag_undo`. -/
structure Buffer where
  lines : List Str
  lists : List (List Csr)
  cursors : ℕ
  undoStack : List Record
  redoStack : List Record
  mark : ℤ
  undos : Bool

/-- `(Buffer flags)`. -/
def Buffer.new (undos : Bool) : Buffer := ⟨[[10]], [[⟨0, 0, 0, 0, -1⟩]], 0, [], [], -1, undos⟩

namespace Buffer

variable (b : Buffer)

/-- `(get :cursors this)`. -/
def csrs : List Csr := b.lists[b.cursors]?.getD []

/-- `(lower (:cursors csrs))`, a list of its own. -/
def setCursors (csrs : List Csr) : Buffer :=
  { b with lists := b.lists ++ [csrs], cursors := b.lists.length }

/-- `(push_undo record ...)`. -/
def pushUndo (records : List Record) : Buffer :=
  if b.undos then { b with undoStack := records.reverse ++ b.undoStack } else b

/-- `(stream_load stream)`, of the lines the stream has. -/
def load (texts : List Str) : Buffer :=
  { b with lines := lastLine (texts.map (· ++ [10])), undoStack := [], redoStack := [] }

/-- `(clear_undo)`. -/
def clearUndo : Buffer := { b with undoStack := [], redoStack := [] }

/-- `(idelete cx cy ax ay)`. -/
def idelete (cx cy ax ay : ℤ) : Buffer :=
  let (cx, cy) := clip b.lines cx cy
  let (ax, ay) := clip b.lines ax ay
  if cx = ax ∧ cy = ay then b
  else
    let (cx, cy, ax, ay) := sortPlaces cx cy ax ay
    let b := b.pushUndo [.insert cx cy (icopy b.lines cx cy ax ay)]
    let b := { b with lines := lastLine (deleteText b.lines cx cy ax ay), redoStack := [] }
    match moveCursors b.lines.length b.csrs cy ay (cy - ay) (fun csr =>
        let (x, y) := csrMapDelete csr.cx csr.cy cx cy ax ay
        let (x', y') := csrMapDelete csr.ax csr.ay cx cy ax ay
        ⟨x, y, x', y', csr.sx⟩) with
    | none => b
    | some csrs => b.setCursors csrs

/-- `(iinsert cx cy text)`. -/
def iinsert (cx cy : ℤ) (text : Str) : Buffer :=
  let (cx, cy) := clip b.lines cx cy
  if text = [] then b
  else
    let (ecx, ecy) := insertEnd cx cy text
    let b := b.pushUndo [.delete cx cy ecx ecy]
    let b := { b with lines := lastLine (insertText b.lines cx cy text), redoStack := [] }
    match moveCursors b.lines.length b.csrs cy cy (ecy - cy) (fun csr =>
        let (x, y) := csrMapInsert csr.cx csr.cy cx cy ecx ecy (ecy - cy) csr.ax csr.ay
        let (x', y') := csrMapInsert csr.ax csr.ay cx cy ecx ecy (ecy - cy) csr.cx csr.cy
        ⟨x, y, x', y', csr.sx⟩) with
    | none => b
    | some csrs => b.setCursors csrs

end Buffer

/-! ## Edits -/

/-- Calls of `iinsert` and `idelete`, and of them in an `undoable`, that may be in another. -/
inductive Edit where
  | iinsert (cx cy : ℤ) (text : Str)
  | idelete (cx cy ax ay : ℤ)
  | undoable (edits : List Edit)

namespace Buffer

/-- `(undoable buffer ...)` as it starts: a mark that is new, and the cursors. -/
def opened (b : Buffer) : Buffer :=
  { b with mark := b.mark + 1 }.pushUndo [.mark (b.mark + 1), .cursors b.cursors]

end Buffer

mutual

/-- An edit of a buffer. -/
def Edit.run : Edit → Buffer → Buffer
  | .iinsert cx cy text, b => b.iinsert cx cy text
  | .idelete cx cy ax ay, b => b.idelete cx cy ax ay
  | .undoable edits, b => (Edit.runAll edits b.opened).pushUndo [.mark (b.mark + 1)]

/-- Edits one after another. -/
def Edit.runAll : List Edit → Buffer → Buffer
  | [], b => b
  | edit :: edits, b => Edit.runAll edits (edit.run b)

end

/-! ## The operations

Each is the edit that it is of the buffer as it is. The cursors are gone through from the last to the
first, and where they are does not change as they are, the buffer does. -/

namespace Buffer

/-- A call takes lines out, and the list of lines is then another. -/
def joins (b : Buffer) : Edit → Bool
  | .idelete _ cy _ ay => decide ((clip b.lines 0 cy).2 ≠ (clip b.lines 0 ay).2)
  | _ => false

/-- A call for each cursor. `delete` and `backspace` look at the lines as they got hold of them: what
    is done to a line is seen, but not that lines were taken out, nor what is done from then on. -/
def eachCursor (call : List Str → Csr → Edit) : List Csr → Buffer → Option (List Str) → List Edit
  | [], _, _ => []
  | csr :: csrs, b, held =>
      let edit := call (held.getD b.lines) csr
      let held := if held = none ∧ b.joins edit then some b.lines else held
      edit :: eachCursor call csrs (edit.run b) held

/-- A text for each cursor, put in at its top end. -/
def insertEach : List (Csr × Str) → List Edit :=
  List.map (fun x => let (cx, cy, _) := csrSort x.1; .iinsert cx cy x.2)

/-- Every selection is deleted. -/
def deleteEach (b : Buffer) : List Edit :=
  b.csrs.reverse.map (fun csr => .idelete csr.cx csr.cy csr.ax csr.ay)

/-- A text for each cursor put in, and then every selection deleted. -/
def replaceEach (b : Buffer) (texts : List (Csr × Str)) : Edit :=
  let edits := insertEach texts.reverse
  .undoable (edits ++ (Edit.runAll edits b).deleteEach)

/-- `(delete)`. -/
def delete (b : Buffer) : Edit :=
  .undoable (eachCursor (fun lines csr =>
    let (ax, ay) := if csr.cx = csr.ax ∧ csr.cy = csr.ay then
        if csr.cx < lineEnd lines csr.cy.toNat then (csr.cx + 1, csr.ay)
        else if csr.cy < lines.length - 1 then (0, csr.cy + 1)
        else (csr.ax, csr.ay)
      else (csr.ax, csr.ay)
    .idelete csr.cx csr.cy ax ay) b.csrs.reverse b none)

/-- `(backspace)`. -/
def backspace (b : Buffer) : Edit :=
  .undoable (eachCursor (fun lines csr =>
    let (cx, cy) := if csr.cx = csr.ax ∧ csr.cy = csr.ay then
        if csr.cx > 0 then (csr.cx - 1, csr.cy)
        else if csr.cy > 0 then ((lineEnd lines (csr.cy - 1).toNat : ℤ), csr.cy - 1)
        else (csr.cx, csr.cy)
      else (csr.cx, csr.cy)
    .idelete cx cy csr.ax csr.ay) b.csrs.reverse b none)

/-- `(insert text)`. -/
def insert (b : Buffer) (text : Str) : Edit := b.replaceEach (b.csrs.map (fun csr => (csr, text)))

/-- `(cut)`, but for the text it gives. -/
def cut (b : Buffer) : Edit := .undoable b.deleteEach

/-- `(paste_parts parts)`. -/
def pasteParts (b : Buffer) (parts : List Str) : Edit := b.replaceEach (b.csrs.zip parts)

/-- `(paste text)`. -/
def paste (b : Buffer) (text : Str) : Edit :=
  let parts := split text 12
  if parts = [] then .undoable []
  else if parts.length = b.csrs.length then b.pasteParts parts
  else b.insert ((parts.map (· ++ [10])).flatten)

end Buffer

/-- An operation that can be undone: one of these, or any other that makes edits. -/
inductive Op where
  | insert (text : Str)
  | delete
  | backspace
  | cut
  | pasteParts (parts : List Str)
  | paste (text : Str)
  | edit (made : Edit)

/-- The edit an operation is of a buffer. -/
def Op.of : Op → Buffer → Edit
  | .insert text, b => b.insert text
  | .delete, b => b.delete
  | .backspace, b => b.backspace
  | .cut, b => b.cut
  | .pasteParts parts, b => b.pasteParts parts
  | .paste text, b => b.paste text
  | .edit made, _ => made

/-- An operation on a buffer. -/
def Op.run (op : Op) (b : Buffer) : Buffer := (op.of b).run b

/-! ## Undo and redo -/

namespace Buffer

/-- `(redo)` of a record: it is done, and what would take it back is put on the undo stack. -/
def redoRecord (record : Record) (b : Buffer) : Buffer :=
  match record with
  | .mark _ => { b with undoStack := record :: b.undoStack }
  | .insert cx cy text => b.iinsert cx cy text
  | .delete cx cy ax ay => b.idelete cx cy ax ay
  | .cursors list => { b with undoStack := record :: b.undoStack, cursors := list }

/-- `(undo)` of a record: it is done, and what was then put on the undo stack goes on the redo one. -/
def undoRecord (record : Record) (b : Buffer) (redos : List Record) : Buffer × List Record :=
  let done := redoRecord record b
  let count := done.undoStack.length - b.undoStack.length
  ({ done with undoStack := done.undoStack.drop count },
    (done.undoStack.take count).reverse ++ redos)

/-- The loop of `undo`, up to a mark; `none` if there is no such mark, as it then has no end. -/
def undoLoop (outer : ℤ) : ℕ → Buffer → List Record → Option (Buffer × List Record)
  | 0, _, _ => none
  | turns + 1, b, redos =>
      match b.undoStack with
      | [] => none
      | record :: rest =>
          let (b, redos) := undoRecord record { b with undoStack := rest } redos
          if record = .mark outer then some (b, redos) else undoLoop outer turns b redos

/-- `(. buffer :undo)`. -/
def undo (b : Buffer) : Option Buffer :=
  match b.undoStack with
  | [] => some b
  | record :: rest =>
      let (b', redos) := undoRecord record { b with undoStack := rest } b.redoStack
      let done := match record with
        | .mark outer => undoLoop outer rest.length b' redos
        | _ => some (b', redos)
      done.map (fun x => { x.1 with redoStack := x.2 })

/-- The loop of `redo`, up to a mark; `none` if there is no such mark. -/
def redoLoop (outer : ℤ) : List Record → Buffer → Option (Buffer × List Record)
  | [], _ => none
  | record :: redos, b =>
      let b := redoRecord record b
      if record = .mark outer then some (b, redos) else redoLoop outer redos b

/-- `(. buffer :redo)`. -/
def redo (b : Buffer) : Option Buffer :=
  match b.redoStack with
  | [] => some b
  | record :: redos =>
      let b' := redoRecord record { b with redoStack := redos }
      let done := match record with
        | .mark outer => redoLoop outer redos b'
        | _ => some (b', redos)
      done.map (fun x => { x.1 with redoStack := x.2 })

end Buffer

end ChrysaLisp
