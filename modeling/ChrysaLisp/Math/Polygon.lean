import Mathlib.Data.List.Sort
import Mathlib.Data.List.Dedup
import Mathlib.Data.Int.Order.Basic
import Mathlib.Logic.Function.Basic

set_option autoImplicit false

/-! # Set logic of polygons

`lib/math/polygon.inc`, with `poly_setup` of `lib/math/lisp.vp`: a scan from the top to the bottom, in
bands that no two edges cross in. The fixed numbers are the whole numbers they are held as. Those here
have no width: the code is for points so near each other that a product of two differences fits 64 bits.
Where numbers of 64 bits matter all the same, the ends `+min_long` and `+max_long` and the key of a
point, they are as the source has them. -/

namespace ChrysaLisp.Polygon

abbrev Point := ℤ × ℤ

/-- `+min_long` and `+max_long`. -/
def minLong : ℤ := -0x8000000000000000

def maxLong : ℤ := 0x7fffffffffffffff

/-- `(usort list (const -))`. -/
def usort (l : List ℤ) : List ℤ := (l.insertionSort (· ≤ ·)).dedup

/-! ## Edges -/

/-- What `edges` has of an edge, from `+poly_yt` to `+poly_key`. -/
structure Edge where
  yt : ℤ
  yb : ℤ
  xt : ℤ
  xb : ℤ
  wind : ℤ
  set : ℕ
  id : ℕ
  x0 : ℤ
  x1 : ℤ
  key : ℤ

/-- The edges from each point of a path to the next, but those that lie flat. -/
def edgesFrom (set : ℕ) : Point → List Point → List Edge
  | _, [] => []
  | (x0, y0), (x1, y1) :: path =>
      (if y0 < y1 then [⟨y0, y1, x0, x1, 1, set, 0, 0, 0, 0⟩]
        else if y1 < y0 then [⟨y1, y0, x1, x0, -1, set, 0, 0, 0, 0⟩] else []) ++ edgesFrom set (x1, y1) path

/-- `poly_setup`: paths of less than three points have none. -/
def setEdges (set : ℕ) (paths : List (List Point)) : List Edge :=
  (paths.filter (3 ≤ ·.length)).flatMap fun path => edgesFrom set (path.getLastD (0, 0)) path

def setHeights (paths : List (List Point)) : List ℤ :=
  (paths.filter (3 ≤ ·.length)).flatMap fun path => path.map Prod.snd

/-- The highest first, each with its place for a number. -/
def polyEdges (a b : List (List Point)) : List Edge :=
  ((setEdges 0 a ++ setEdges 1 b).insertionSort fun e e' => e.yt ≤ e'.yt).mapIdx fun i e => { e with id := i }

def polyHeights (a b : List (List Point)) : List ℤ := usort (setHeights a ++ setHeights b)

/-! ## Bands -/

inductive Op
  | union
  | intersect
  | difference
  | xor

/-- `mode`: the op, and for each set whether it is filled by non zero. -/
structure Mode where
  op : Op
  modeA : Bool
  modeB : Bool

/-- `+poly_near`. -/
def polyNear : ℤ := 2

/-- Where an edge is at a height, its ends as they are. -/
def Edge.along (e : Edge) (y : ℤ) : ℤ :=
  if y = e.yt then e.xt
  else if y = e.yb then e.xb
  else e.xt + ((e.xb - e.xt) * (y - e.yt)).tdiv (e.yb - e.yt)

def Edge.place (byMiddle : Bool) (y0 y1 : ℤ) (e : Edge) : Edge :=
  { e with x0 := e.along y0, x1 := e.along y1, key := if byMiddle then e.along y0 + e.along y1
    else e.along y0 }

def Edge.before (u v : Edge) : Bool := u.key < v.key || (u.key == v.key && u.x1 ≤ v.x1)

/-- Put back past those after it, the last of them first. -/
def putBack (v : Edge) : List Edge → List Edge
  | [] => [v]
  | u :: done => if u.before v then v :: u :: done else u :: putBack v done

def inOrder (active : List Edge) : List Edge := (active.foldl (fun done v => putBack v done) []).reverse

/-- Is one further left at the bottom than one before it. -/
def crosses : ℤ → List Edge → Bool
  | _, [] => false
  | top, e :: active => if e.x1 < top then true else crosses e.x1 active

/-- A piece of the answer in a band: its left at the top and the bottom, its right, and their edges. -/
structure Piece where
  xl0 : ℤ
  xl1 : ℤ
  xr0 : ℤ
  xr1 : ℤ
  idl : ℕ
  idr : ℕ

/-- What a band is gone along with. `gid` is `none` for -1. -/
structure Sweep where
  wa : ℤ := 0
  wb : ℤ := 0
  inside : Bool := false
  px0 : ℤ := minLong
  px1 : ℤ := minLong
  gx0 : ℤ := 0
  gx1 : ℤ := 0
  gid : Option ℕ := none
  lx0 : ℤ := 0
  lx1 : ℤ := 0
  lid : ℕ := 0
  out : List Piece := []

/-- Is what is wound round in the answer. -/
def Mode.wanted (mode : Mode) (wa wb : ℤ) : Bool :=
  let ia := if mode.modeA then wa != 0 else wa % 2 == 1
  let ib := if mode.modeB then wb != 0 else wb % 2 == 1
  match mode.op with
  | .union => ia || ib
  | .intersect => ia && ib
  | .difference => ia && !ib
  | .xor => ia ^^ ib

/-- The last edge that was gone by, of number `gid`, begins a piece, ends one or does neither. -/
def Sweep.turn (mode : Mode) (s : Sweep) (gid : ℕ) : Sweep :=
  let now := mode.wanted s.wa s.wb
  if now = s.inside then s
  else if now then { s with lx0 := s.gx0, lx1 := s.gx1, lid := gid, inside := true }
  else { s with out := s.out ++ [⟨s.lx0, s.lx1, s.gx0, s.gx1, s.lid, gid⟩], inside := false }

def Sweep.edge (mode : Mode) (s : Sweep) (e : Edge) : Sweep :=
  -- none is to the left of the one before it, at either end
  let x0 := max e.x0 s.px0
  let x1 := max e.x1 s.px1
  let s := { s with px0 := x0, px1 := x1 }
  let s := match s.gid with
    | some gid =>
        if x0 - s.gx0 ≤ polyNear ∧ x1 - s.gx1 ≤ polyNear then { s with gid := some (min gid e.id) }
        else { s.turn mode gid with gx0 := x0, gx1 := x1, gid := some e.id }
    | none => { s with gx0 := x0, gx1 := x1, gid := some e.id }
  if e.set = 0 then { s with wa := s.wa + e.wind } else { s with wb := s.wb + e.wind }

/-- After the last edge nothing is wound round, so a piece that is open ends at it. -/
def Sweep.pieces (s : Sweep) : List Piece :=
  match s.gid with
  | some gid => if s.inside then s.out ++ [⟨s.lx0, s.lx1, s.gx0, s.gx1, s.lid, gid⟩] else s.out
  | none => s.out

/-- `poly-band-ref`: the edges that are still in the band, in order, and the pieces, none if two cross. -/
def polyBand (active : List Edge) (y0 y1 : ℤ) (mode : Mode) (byMiddle : Bool) :
    List Edge × Option (List Piece) :=
  let active := inOrder ((active.filter (y0 < ·.yb)).map (Edge.place byMiddle y0 y1))
  if !byMiddle && crosses minLong active then (active, none)
  else (active, some (active.foldl (Sweep.edge mode) {}).pieces)

/-- The height two edges cross at, the first before the other at the top. -/
def cutAt (ya yb : ℤ) (e e' : Edge) : Option ℤ :=
  if e'.x1 < e.x1 then
    let num := e'.x0 - e.x0
    let den := num + (e.x1 - e'.x1)
    let y := ya + ((yb - ya) * num).tdiv den
    if ya < y ∧ y < yb then some y else none
  else none

/-- `poly-cuts-ref`. -/
def polyCuts (ya yb : ℤ) : List Edge → List ℤ
  | [] => []
  | e :: active => active.filterMap (cutAt ya yb e) ++ polyCuts ya yb active

/-! ## Lines -/

/-- A line: where it starts and stops, and the edge it is along, `none` for -1. -/
structure Seg where
  start : Point
  stop : Point
  id : Option ℕ

/-- The lines there are, and for each edge where its last left and its last right are. -/
structure Lines where
  segs : List Seg := []
  openl : ℕ → Option ℕ := fun _ => none
  openr : ℕ → Option ℕ := fun _ => none

/-- The line at a place, if it has its end there. -/
def Lines.goesOn (s : Lines) (place : Option ℕ) (fin : Seg → Point) (p : Point) : Option (ℕ × Seg) :=
  place.bind fun i => s.segs[i]?.bind fun seg => if fin seg = p then some (i, seg) else none

/-- Down the left of a piece. -/
def Lines.left (s : Lines) (id : ℕ) (top bottom : Point) : Lines :=
  match s.goesOn (s.openl id) Seg.stop top with
  | some (i, seg) => { s with segs := s.segs.set i { seg with stop := bottom } }
  | none => { s with
      segs := s.segs ++ [⟨top, bottom, some id⟩], openl := Function.update s.openl id (some s.segs.length) }

/-- And up its right. -/
def Lines.right (s : Lines) (id : ℕ) (top bottom : Point) : Lines :=
  match s.goesOn (s.openr id) Seg.start top with
  | some (i, seg) => { s with segs := s.segs.set i { seg with start := bottom } }
  | none => { s with
      segs := s.segs ++ [⟨bottom, top, some id⟩], openr := Function.update s.openr id (some s.segs.length) }

def Lines.piece (y0 y1 : ℤ) (s : Lines) (p : Piece) : Lines :=
  (s.left p.idl (p.xl0, y0) (p.xl1, y1)).right p.idr (p.xr0, y0) (p.xr1, y1)

/-- The line across from one end to the next. -/
def acrossSeg (y : ℤ) (ia ib : Bool) (px x : ℤ) : List Seg :=
  if px < x then
    if ia && !ib then [⟨(px, y), (x, y), none⟩]
    else if ib && !ia then [⟨(x, y), (px, y), none⟩]
    else []
  else []

/-- Along the ends of what is above and of the tops of what is below, each in order, a turn for each. -/
def across (y : ℤ) : ℕ → Bool → Bool → ℤ → List ℤ → List ℤ → List Seg
  | 0, _, _, _, _, _ => []
  | n + 1, ia, ib, px, above, tops =>
      let xa := above.headD maxLong
      let xb := tops.headD maxLong
      let x := min xa xb
      acrossSeg y ia ib px x ++
        if xa ≤ xb then across y n (!ia) ib x above.tail tops else across y n ia (!ib) x above tops.tail

/-- What the bands are gone down with. -/
structure Scan where
  above : List ℤ := []
  lines : Lines := {}

/-- `poly-lines-ref`: the lines of a band, and what is above the next. -/
def Scan.band (s : Scan) (out : List Piece) (y0 y1 : ℤ) : Scan :=
  let lines := out.foldl (Lines.piece y0 y1) s.lines
  let tops := out.flatMap fun p => [p.xl0, p.xr0]
  { above := out.flatMap fun p => [p.xl1, p.xr1],
    lines := { lines with
      segs := lines.segs ++ across y0 (s.above.length + tops.length) false false 0 s.above tops } }

/-- A band that is cut, by the middle. -/
def cutBands (mode : Mode) : List ℤ → List Edge → Scan → List Edge × Scan
  | y0 :: y1 :: cuts, active, s =>
      let (active, out) := polyBand active y0 y1 mode true
      cutBands mode (y1 :: cuts) active (s.band (out.getD []) y0 y1)
  | _, active, s => (active, s)

/-- `poly-scan-ref`, with the edges that are still to come. -/
def polyScan (mode : Mode) : List ℤ → List Edge → List Edge → Scan → Scan
  | ya :: yb :: ys, edges, active, s =>
      let active := active ++ edges.takeWhile (·.yt = ya)
      let edges := edges.dropWhile (·.yt = ya)
      match polyBand active ya yb mode false with
      | (active, some out) => polyScan mode (yb :: ys) edges active (s.band out ya yb)
      | (active, none) =>
          let (active, s) := cutBands mode (usort (ya :: yb :: polyCuts ya yb active)) active s
          polyScan mode (yb :: ys) edges active s
  | [y], _, _, s => s.band [] y y
  | [], _, _, s => s

/-- `poly-segs`. -/
def polySegs (mode : Mode) (a b : List (List Point)) : List Seg :=
  (polyScan mode (polyHeights a b) (polyEdges a b) [] {}).lines.segs

/-! ## Rings -/

/-- A point as one number. -/
def pointKey (p : Point) : ℤ := (p.1 * 0x100000000 + (p.2 + 0x80000000)) % 0x10000000000000000

/-- The lines that start at each point, the last of them first, and which are used. -/
structure Walk where
  starts : ℤ → List ℕ
  used : ℕ → Bool

def segAt (segs : List Seg) (i : ℕ) : Seg := segs.getD i ⟨(0, 0), (0, 0), none⟩

def Walk.push (segs : List Seg) (starts : ℤ → List ℕ) (s : ℕ) : ℤ → List ℕ :=
  let key := pointKey (segAt segs s).start
  Function.update starts key (s :: starts key)

def Walk.new (segs : List Seg) : Walk :=
  { starts := (List.range segs.length).foldl (Walk.push segs) fun _ => [], used := fun _ => false }

/-- Lines are taken off till one is not used. -/
def nextUnused (used : ℕ → Bool) : List ℕ → Option ℕ × List ℕ
  | [] => (none, [])
  | j :: l => if used j then nextUnused used l else (some j, l)

/-- From a line on till none that is left starts where the last stops, one line at a turn. -/
def walk (segs : List Seg) : ℕ → ℕ → Walk → List ℕ × Walk
  | 0, _, w => ([], w)
  | n + 1, i, w =>
      let used := Function.update w.used i true
      let key := pointKey (segAt segs i).stop
      let next := nextUnused used (w.starts key)
      let w : Walk := { starts := Function.update w.starts key next.2, used := used }
      match next.1 with
      | none => ([i], w)
      | some j =>
          let (trail, w) := walk segs n j w
          (i :: trail, w)

/-- The lines that do not go on along the one before, which is of edge `last`. -/
def turnsFrom (last : Option ℕ) : List Seg → List Seg
  | [] => []
  | seg :: trail => if seg.id = last then turnsFrom last trail else seg :: turnsFrom seg.id trail

def turns : List Seg → List Seg
  | [] => []
  | seg :: trail => seg :: turnsFrom seg.id trail

/-- The points of a ring. The last line may go on along the first. -/
def corners (trail : List Seg) : List Point :=
  let ring := (turns trail).map Seg.start
  if 1 < (turns trail).length ∧ (turns trail).head?.map Seg.id = (turns trail).getLast?.map Seg.id
    then ring.tail
  else ring

def isCorner (a b c : Point) : Bool := (b.1 - a.1) * (c.2 - a.2) - (b.2 - a.2) * (c.1 - a.1) != 0

/-- Without the points that are on the line from the one before to the one after. -/
def tidy (ring : List Point) : List Point :=
  let before := ring.getLast?.toList ++ ring.dropLast
  let after := ring.tail ++ ring.head?.toList
  ((before.zip (ring.zip after)).filter fun p => isCorner p.1 p.2.1 p.2.2).map fun p => p.2.1

def ringOf (trail : List Seg) : Option (List Point) :=
  if 3 ≤ (tidy (corners trail)).length then some (tidy (corners trail)) else none

/-- A trail from each line that is not in one before. -/
def trailsFrom (segs : List Seg) : List ℕ → Walk → List (List ℕ)
  | [], _ => []
  | s :: rest, w =>
      if w.used s then trailsFrom segs rest w
      else
        let (trail, w) := walk segs segs.length s w
        trail :: trailsFrom segs rest w

def polyTrails (segs : List Seg) : List (List Seg) :=
  (trailsFrom segs (List.range segs.length) (Walk.new segs)).map (List.map (segAt segs))

/-- `poly-rings-ref`. -/
def polyRings (segs : List Seg) : List (List Point) := (polyTrails segs).filterMap ringOf

/-- `poly-op`. -/
def polyOp (mode : Mode) (a b : List (List Point)) : List (List Point) := polyRings (polySegs mode a b)

end ChrysaLisp.Polygon
