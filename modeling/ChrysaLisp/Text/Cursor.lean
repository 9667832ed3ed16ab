import ChrysaLisp.Lisp.Text

set_option autoImplicit false

/-! # The cursors of a text buffer

A cursor is where it is, where its other end is, and the column it would like to be in on lines that
are long enough, or -1 (`Csr`). `csr-sort`, `csr-cmp` and the two `csr-map-` functions are as their
native versions have them, which are the ones that run. `sort` is not stable, so how `pivot` moves
things about is in it too. -/

namespace ChrysaLisp

/-- `(nums cx cy ax ay sx)`. -/
structure Csr where
  cx : ℤ
  cy : ℤ
  ax : ℤ
  ay : ℤ
  sx : ℤ
  deriving DecidableEq

/-- `(csr-sort csr)`, its two ends the top one first. -/
def csrSort (csr : Csr) : ℤ × ℤ × ℤ × ℤ :=
  if csr.cy < csr.ay ∨ (csr.cy = csr.ay ∧ csr.cx ≤ csr.ax) then (csr.cx, csr.cy, csr.ax, csr.ay)
  else (csr.ax, csr.ay, csr.cx, csr.cy)

/-- `(csr-cmp csr1 csr2)`: by the line of the top end, and of the same line by the lesser column of
    the two ends, whichever of them that is of. -/
def csrCmp (a b : Csr) : ℤ :=
  if min a.cy a.ay - min b.cy b.ay = 0 then min a.cx a.ax - min b.cx b.ax
  else min a.cy a.ay - min b.cy b.ay

/-- `(csr-map-delete px py cx cy ax ay)`: a point, with what is from (cx cy) to (ax ay) deleted. -/
def csrMapDelete (px py cx cy ax ay : ℤ) : ℤ × ℤ :=
  let nx := if py < cy then px
    else if py > ay then px
    else if py = cy ∧ px < cx then px
    else if py = ay then (if px ≥ ax then px - (ax - cx) else cx)
    else cx
  let ny := if py ≤ cy then py
    else if py > ay then py - (ay - cy)
    else cy
  (nx, ny)

/-- `(csr-map-insert px py icx icy ecx ecy dy ax ay)`: a point, with text inserted from (icx icy) to
    (ecx ecy). The other end of its cursor is (ax ay). -/
def csrMapInsert (px py icx icy ecx ecy dy ax ay : ℤ) : ℤ × ℤ :=
  if py < icy then (px, py)
  else if py > icy then (px, py + dy)
  else if px < icx then (px, py)
  else if px = icx then
    -- the end of a selection stays put, its start moves and so does a cursor with none
    if py > ay ∨ (py = ay ∧ px > ax) then (px, py) else (ecx, ecy)
  else if dy = 0 then (px + (ecx - icx), py)
  else (ecx + (px - icx), py + dy)

/-! ## Sorting -/

section Sorting

variable {α : Type}

/-- Two elements change places. -/
def swap (l : List α) (i j : ℕ) : List α :=
  match l[i]?, l[j]? with
  | some a, some b => (l.set i b).set j a
  | _, _ => l

/-- `(pivot fcmp list start end)`: the middle one is put first, those that are less than it are put
    after it, and it then goes after them. Where it ends up is said. -/
def pivot (cmp : α → α → ℤ) (l : List α) (lo hi : ℕ) : List α × ℕ :=
  let l := swap l lo (lo + (hi - lo) / 2)
  let (l, p) := (List.range' (lo + 1) (hi - lo - 1)).foldl (fun (acc : List α × ℕ) i =>
    match acc.1[i]?, acc.1[lo]? with
    | some a, some b => if cmp a b ≥ 0 then acc else (swap acc.1 (acc.2 + 1) i, acc.2 + 1)
    | _, _ => acc) (l, lo)
  (swap l p lo, p)

/-- The loop of `sort`, so many levels down at most. -/
def sortFrom (cmp : α → α → ℤ) : ℕ → List α → ℕ → ℕ → List α
  | 0, l, _, _ => l
  | levels + 1, l, lo, hi =>
      if lo < hi then
        let (l, p) := pivot cmp l lo hi
        sortFrom cmp levels (sortFrom cmp levels l (p + 1) hi) lo p
      else l

/-- `(sort list fcmp)`. -/
def sort (cmp : α → α → ℤ) (l : List α) : List α := sortFrom cmp (l.length + 1) l 0 l.length

example : sort (fun a b : ℤ => a - b) [3, 1, 2, 3, 0] = [0, 1, 2, 3, 3] := by decide

end Sorting

/-- `(sort-bucket buffer lst csr-cmp)`, in a buffer of so many lines: few are just sorted, of many
    those of each line are. -/
def sortBucket (lines : ℕ) (lst : List Csr) : List Csr :=
  if lst.length ≤ 1 then lst
  else if lst.length < 32 then sort csrCmp lst
  else (List.range lines).flatMap (fun y =>
    sort csrCmp (lst.filter (fun csr => decide (min csr.cy csr.ay = y))))

/-- One more cursor, that is made one with the last of those before it if the two overlap. -/
def mergeStep (out : List Csr) (csr : Csr) : List Csr :=
  match out.getLast? with
  | none => [csr]
  | some o =>
      let (cx, cy, ax, ay) := csrSort o
      let (cx1, cy1, ax1, ay1) := csrSort csr
      if ay > cy1 ∨ (ay = cy1 ∧ (ax > cx1 ∨ (ax = cx1 ∧
          ((cx = ax ∧ cy = ay) ∨ (cx1 = ax1 ∧ cy1 = ay1))))) then
        -- the way the old one points, or if it is a point the way the new one does
        let fwd := if o.cx = o.ax ∧ o.cy = o.ay then
            decide (csr.cy > csr.ay ∨ (csr.cy = csr.ay ∧ csr.cx > csr.ax))
          else decide (o.cy > o.ay ∨ (o.cy = o.ay ∧ o.cx > o.ax))
        let (ex, ey) := if ay1 > ay ∨ (ay1 = ay ∧ ax1 > ax) then (ax1, ay1) else (ax, ay)
        out.dropLast ++ [if fwd then ⟨ex, ey, cx, cy, -1⟩ else ⟨cx, cy, ex, ey, -1⟩]
      else out ++ [csr]

/-- What `merge_cursors` does with cursors that are sorted. -/
def mergeSorted : List Csr → List Csr
  | [] => []
  | csr :: rest => rest.foldl mergeStep [csr]

/-- `(bracket-cursors cursors start_y end_y)`: the cursors that meet the lines from one to another,
    with one more before them and one more after. -/
def bracketCursors (cursors : List Csr) (start stop : ℤ) : ℕ × ℕ :=
  match cursors.findIdx? (fun csr => decide ((csrSort csr).2.2.2 ≥ start)) with
  | none => (cursors.length, cursors.length)
  | some si =>
      let ei := ((cursors.drop si).findIdx? (fun csr => decide ((csrSort csr).2.1 > stop))).map (· + si)
      (si - 1, min cursors.length (ei.getD cursors.length + 1))

/-- The cursors an edit meets are each mapped by it, sorted and merged, those after are moved down by
    so many lines; `none` if there is nothing to do. -/
def moveCursors (lines : ℕ) (cursors : List Csr) (start stop dy : ℤ) (f : Csr → Csr) :
    Option (List Csr) :=
  if cursors = [] then none
  else
    let (si, ei) := bracketCursors cursors start stop
    if si = cursors.length ∧ ei = cursors.length then none
    else
      let tail := if dy = 0 then cursors.drop ei
        else (cursors.drop ei).map (fun csr => { csr with cy := csr.cy + dy, ay := csr.ay + dy })
      let mid := ((cursors.take ei).drop si).map f
      some (cursors.take si ++ mergeSorted (sortBucket lines mid) ++ tail)

end ChrysaLisp
