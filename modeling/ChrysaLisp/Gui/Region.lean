import Mathlib.Algebra.Order.Ring.Int
import ChrysaLisp.Library.Linked

set_option autoImplicit false

/-! # Regions

`gui/region/class.vp`. A region is a list of rectangle cells, linked from a head, and the cells are
of the one heap of the GUI, `sys/heap`: its free list, or cells carved from a block the host maps
when that is empty. Registers are integers, and what is stored in a cell is an `int`.

A loop over a list is a walk of so many steps at most. `rect-overlap` picks one of its sixteen
branches by where the edges of the two rectangles are, which touch or overlap by then. -/

namespace ChrysaLisp.Region

open Linked

structure Rect where
  x : ℤ
  y : ℤ
  x1 : ℤ
  y1 : ℤ
  deriving DecidableEq

/-- What an `int` field has of what is stored to it. -/
def int (v : ℤ) : ℤ := v.bmod (2 ^ 32)

def Rect.int (r : Rect) : Rect := ⟨Region.int r.x, Region.int r.y, Region.int r.x1, Region.int r.y1⟩

/-- The rectangle, moved. -/
def Rect.move (r : Rect) (dx dy : ℤ) : Rect := ⟨r.x + dx, r.y + dy, r.x1 + dx, r.y1 + dy⟩

/-! ## The heap -/

/-- The words that link the cells, and their rectangles, and how many blocks have been mapped. -/
structure Mem where
  next : ℕ → ℕ
  rect : ℕ → Rect
  blocks : ℕ

/-- The cells of the blocks the host maps, each block's as they lie in it. -/
structure Host where
  cells : ℕ → List ℕ

/-- The loop of `:sys_heap :alloc` over a new block: each cell links to the one before it. -/
def carve (next : ℕ → ℕ) (cells : List ℕ) : (ℕ → ℕ) × ℕ :=
  cells.foldl (fun s cell => (Function.update s.1 cell s.2, cell)) (next, 0)

/-- `:sys_heap :alloc` -/
def alloc (H : Host) (heap : ℕ) (m : Mem) : Mem × ℕ :=
  let cell := m.next heap
  if cell ≠ 0 then
    ({ m with next := Function.update m.next heap (m.next cell) }, cell)
  else
    let (next, cell) := carve m.next (H.cells m.blocks)
    ({ m with next := Function.update next heap (next cell), blocks := m.blocks + 1 }, cell)

/-- `ln-add-fnode` -/
def addFnode (list node : ℕ) (m : Mem) : Mem :=
  { m with next := Function.update (Function.update m.next node (m.next list)) list node }

/-- `ln-remove-fnode`, which leaves off at the last node. -/
def removeFnode (node last : ℕ) (m : Mem) : Mem :=
  { m with next := Function.update m.next last (m.next node) }

/-- `hp-freecell` -/
def freecell (heap cell : ℕ) (m : Mem) : Mem := addFnode heap cell m

/-- Fields of a cell stored. -/
def store (cell : ℕ) (f : Rect → Rect) (m : Mem) : Mem :=
  { m with rect := Function.update m.rect cell (f (m.rect cell)) }

/-- A cell of this rectangle, put at the head of a list. -/
def newCell (H : Host) (heap list : ℕ) (m : Mem) (r : Rect) : Mem :=
  let (m, cell) := alloc H heap m
  store cell (fun _ => r.int) (addFnode list cell m)

/-! ## Overlaps -/

/-- `rect-overlap`, of the rectangle of a cell and the one given, with the branches as they come in
    the source. -/
def rectOverlap {α : Type} (r i : Rect) (a b c d e f g h rect_xyx1 rect_encl rect_x rect_y rect_xy
    rect_x1 rect_xx1 rect_yx1 : α) : α :=
  if r.x ≥ i.x then
    if r.y ≥ i.y then
      if i.x1 ≥ r.x1 then if i.y1 ≥ r.y1 then rect_encl else h
      else if i.y1 ≥ r.y1 then rect_x1 else d
    else
      if i.x1 ≥ r.x1 then if i.y1 ≥ r.y1 then rect_y else f
      else if i.y1 ≥ r.y1 then rect_yx1 else b
  else
    if r.y ≥ i.y then
      if i.x1 ≥ r.x1 then if i.y1 ≥ r.y1 then rect_x else g
      else if i.y1 ≥ r.y1 then rect_xx1 else c
    else
      if i.x1 ≥ r.x1 then if i.y1 ≥ r.y1 then rect_xy else e
      else if i.y1 ≥ r.y1 then rect_xyx1 else a

/-- The part copied or cut. -/
def cutPart : Rect → Rect → Rect
  | ⟨x, y, x1, y1⟩, ⟨ix, iy, ix1, iy1⟩ =>
      rectOverlap ⟨x, y, x1, y1⟩ ⟨ix, iy, ix1, iy1⟩
        ⟨ix, iy, ix1, iy1⟩
        ⟨x, iy, ix1, iy1⟩
        ⟨ix, y, ix1, iy1⟩
        ⟨x, y, ix1, iy1⟩
        ⟨ix, iy, x1, iy1⟩
        ⟨x, iy, x1, iy1⟩
        ⟨ix, y, x1, iy1⟩
        ⟨x, y, x1, iy1⟩
        ⟨ix, iy, ix1, y1⟩
        ⟨x, y, x1, y1⟩
        ⟨ix, y, x1, y1⟩
        ⟨x, iy, x1, y1⟩
        ⟨ix, iy, x1, y1⟩
        ⟨x, y, ix1, y1⟩
        ⟨ix, y, ix1, y1⟩
        ⟨x, iy, ix1, y1⟩

/-- What is stored to the cell, and the cells added, or nothing where it is enclosed. -/
abbrev Parts := Option ((Rect → Rect) × List Rect)

/-- The parts left over, of `:cut_rect` and of `:remove_rect`. -/
def leftOver : Rect → Rect → Parts
  | ⟨x, y, x1, y1⟩, ⟨ix, iy, ix1, iy1⟩ =>
      let bottom : Rect → Rect := fun s => { s with y := int iy1 }
      rectOverlap ⟨x, y, x1, y1⟩ ⟨ix, iy, ix1, iy1⟩
        (some (bottom, [⟨ix1, iy, x1, iy1⟩, ⟨x, iy, ix, iy1⟩, ⟨x, y, x1, iy⟩]))
        (some (bottom, [⟨ix1, iy, x1, iy1⟩, ⟨x, y, x1, iy⟩]))
        (some (bottom, [⟨ix1, y, x1, iy1⟩, ⟨x, y, ix, iy1⟩]))
        (some (bottom, [⟨ix1, y, x1, iy1⟩]))
        (some (bottom, [⟨x, iy, ix, iy1⟩, ⟨x, y, x1, iy⟩]))
        (some (bottom, [⟨x, y, x1, iy⟩]))
        (some (bottom, [⟨x, y, ix, iy1⟩]))
        (some (bottom, []))
        (some (fun s => { s with y := int iy, x1 := int ix }, [⟨ix1, iy, x1, y1⟩, ⟨x, y, x1, iy⟩]))
        none
        (some (fun s => { s with x1 := int ix }, []))
        (some (fun s => { s with y1 := int iy }, []))
        (some (fun s => { s with y := int iy, x1 := int ix }, [⟨x, y, x1, iy⟩]))
        (some (fun s => { s with x := int ix1 }, []))
        (some (fun s => { s with x := int ix1 }, [⟨x, y, ix, y1⟩]))
        (some (fun s => { s with x := int ix1, y := int iy }, [⟨x, y, x1, iy⟩]))

/-- What `:paste_rect` does where two rectangles overlap. -/
inductive Paste
  /-- The cell has all of it. -/
  | covered
  /-- What is pasted is less. -/
  | less (i : Rect)
  /-- What is in the cell is less, and these cells are added. -/
  | keep (f : Rect → Rect) (cells : List Rect)
  /-- The cell goes. -/
  | enclosed

def pasteOverlap : Rect → Rect → Paste
  | ⟨x, y, x1, y1⟩, ⟨ix, iy, ix1, iy1⟩ =>
      let bottom : Rect → Rect := fun s => { s with y := int iy1 }
      rectOverlap ⟨x, y, x1, y1⟩ ⟨ix, iy, ix1, iy1⟩
        .covered
        (.less ⟨ix, iy, x, iy1⟩)
        (.less ⟨ix, iy, ix1, y⟩)
        (.keep bottom [⟨ix1, y, x1, iy1⟩])
        (.less ⟨x1, iy, ix1, iy1⟩)
        (.keep bottom [⟨x, y, x1, iy⟩])
        (.keep bottom [⟨x, y, ix, iy1⟩])
        (.keep bottom [])
        (.less ⟨ix, y1, ix1, iy1⟩)
        .enclosed
        (.keep (fun s => { s with x1 := int ix }) [])
        (.keep (fun s => { s with y1 := int iy }) [])
        (.keep (fun s => { s with y := int iy, x1 := int ix }) [⟨x, y, x1, iy⟩])
        (.keep (fun s => { s with x := int ix1 }) [])
        (.keep (fun s => { s with x := int ix1 }) [⟨x, y, ix, y1⟩])
        (.keep (fun s => { s with x := int ix1, y := int iy }) [⟨x, y, x1, iy⟩])

/-! ## The methods -/

section Methods

variable (H : Host) (heap : ℕ)

/-- `check for any obvious errors in inputs` -/
def valid (i : Rect) : Bool := decide (i.x1 > i.x) && decide (i.y1 > i.y)

/-- `not in contact ?` -/
def apart (r i : Rect) : Bool :=
  decide (r.x ≥ i.x1) || decide (r.y ≥ i.y1) || decide (i.x ≥ r.x1) || decide (i.y ≥ r.y1)

/-- A loop over a list, which ends with the list or by a return. -/
def loopFlist (body : Mem → ℕ → ℕ → Option (Step Mem)) (fuel list : ℕ) (m : Mem) : Option Mem :=
  match walk Mem.next body fuel m list with
  | some (.ended m) | some (.left m) => some m
  | none => none

/-- One cell of the loop of `:copy_rect`. -/
def copyStep (dregion : ℕ) (i : Rect) (m : Mem) (srec : ℕ) : Step Mem :=
  let r := m.rect srec
  if apart r i then .go m srec
  else .go (newCell H heap dregion m (cutPart r i)) srec

def copyRect (fuel sregion dregion : ℕ) (i : Rect) (m : Mem) : Option Mem :=
  if valid i then
    loopFlist (fun m srec _ => some (copyStep H heap dregion i m srec)) fuel sregion m
  else some m

/-- One cell of the loop of `:cut_rect`. -/
def cutStep (sregion dregion : ℕ) (i : Rect) (m : Mem) (srec prec : ℕ) : Step Mem :=
  let r := m.rect srec
  if apart r i then .go m srec
  else
    match leftOver r i with
    | some (f, cells) =>
        let m := newCell H heap dregion (store srec f m) (cutPart r i)
        .go (cells.foldl (newCell H heap sregion) m) srec
    | none => .go (addFnode dregion srec (removeFnode srec prec m)) prec

def cutRect (fuel sregion dregion : ℕ) (i : Rect) (m : Mem) : Option Mem :=
  if valid i then
    loopFlist (fun m srec prec => some (cutStep H heap sregion dregion i m srec prec)) fuel sregion m
  else some m

/-- One cell of the loop of `:remove_rect`. -/
def removeStep (sregion : ℕ) (i : Rect) (m : Mem) (srec prec : ℕ) : Step Mem :=
  let r := m.rect srec
  if apart r i then .go m srec
  else
    match leftOver r i with
    | some (f, cells) => .go (cells.foldl (newCell H heap sregion) (store srec f m)) srec
    | none => .go (freecell heap srec (removeFnode srec prec m)) prec

def removeRect (fuel sregion : ℕ) (i : Rect) (m : Mem) : Option Mem :=
  if valid i then
    loopFlist (fun m srec prec => some (removeStep H heap sregion i m srec prec)) fuel sregion m
  else some m

/-- One cell of the loop of `:paste_rect`, with the rectangle as it is by then. -/
def pasteStep (dregion : ℕ) (s : Mem × Rect) (drec prec : ℕ) : Step (Mem × Rect) :=
  let (m, i) := s
  let r := m.rect drec
  let enclosed (i : Rect) : Step (Mem × Rect) :=
    .go (freecell heap drec (removeFnode drec prec m), i) prec
  -- not touching ?
  if r.x > i.x1 ∨ r.y > i.y1 ∨ i.x > r.x1 ∨ i.y > r.y1 then .go (m, i) drec
  -- test for merges
  else if i.y = r.y ∧ i.y1 = r.y1 then enclosed { i with x := min r.x i.x, x1 := max r.x1 i.x1 }
  else if i.x = r.x ∧ i.x1 = r.x1 then enclosed { i with y := min r.y i.y, y1 := max r.y1 i.y1 }
  -- not overlapping ?
  else if r.x = i.x1 ∨ r.y = i.y1 ∨ i.x = r.x1 ∨ i.y = r.y1 then .go (m, i) drec
  else
    match pasteOverlap r i with
    | .covered => .out (m, i)
    | .less i => .go (m, i) drec
    | .keep f cells => .go (cells.foldl (newCell H heap dregion) (store drec f m), i) drec
    | .enclosed => enclosed i

def pasteRect (fuel dregion : ℕ) (i : Rect) (m : Mem) : Option Mem :=
  if valid i then
    match walk (fun s => s.1.next) (fun s drec prec => some (pasteStep H heap dregion s drec prec))
        fuel (m, i) dregion with
    | some (.ended (m, i)) =>
        -- create new region ?
        if i.x ≠ i.x1 ∧ i.y ≠ i.y1 then some (newCell H heap dregion m i) else some m
    | some (.left (m, _)) => some m
    | none => none
  else some m

/-- One cell of the loop of `:clip_rect`. -/
def clipStep (c : Rect) (m : Mem) (rec prec : ℕ) : Step Mem :=
  let r := m.rect rec
  if r.x < c.x1 ∧ r.y < c.y1 ∧ r.x1 > c.x ∧ r.y1 > c.y then
    let r : Rect := ⟨max c.x r.x, max c.y r.y, min c.x1 r.x1, min c.y1 r.y1⟩
    .go (store rec (fun _ => r.int) m) rec
  else .go (freecell heap rec (removeFnode rec prec m)) prec

def clipRect (fuel region : ℕ) (c : Rect) (m : Mem) : Option Mem :=
  if valid c then
    loopFlist (fun m rec prec => some (clipStep heap c m rec prec)) fuel region m
  else some m

/-! ### The region forms -/

/-- A method on the rectangle of each cell, moved, of a list. The translation is kept in `int`s. -/
def eachRect (method : ℕ → Rect → Mem → Option Mem) (fuel region : ℕ) (dx dy : ℤ) (m : Mem) :
    Option Mem :=
  loopFlist (fun m rec _ =>
    (method fuel ((m.rect rec).move (int dx) (int dy)) m).map (fun m => .go m rec)) fuel region m

def removeRegion (fuel region dregion : ℕ) (dx dy : ℤ) (m : Mem) : Option Mem :=
  eachRect (fun fuel => removeRect H heap fuel dregion) fuel region dx dy m

def copyRegion (fuel sregion dregion cregion : ℕ) (dx dy : ℤ) (m : Mem) : Option Mem :=
  eachRect (fun fuel => copyRect H heap fuel sregion dregion) fuel cregion dx dy m

def pasteRegion (fuel region dregion : ℕ) (dx dy : ℤ) (m : Mem) : Option Mem :=
  eachRect (fun fuel => pasteRect H heap fuel dregion) fuel region dx dy m

end Methods

end ChrysaLisp.Region
