import ChrysaLisp.Streams.Deflate
import Mathlib.Data.Nat.Log

set_option autoImplicit false

/-! # LZ4

`(lz4-compress)` and `(lz4-decompress)` of `lib/streams/lz4.inc`, and the native `(lz4-encode)`,
`(lz4-decode)`, `(lz4-read)` and `(lz4-write)`. Each side has a ring of its own and the place it is
at, counted from the start of the stream, its cell the place mod the length of the ring, a power of
two.

A block is turns of some bytes as they are and a length and a distance back to where the bytes that
come next were before, and at its end bytes as they are. -/

namespace ChrysaLisp

/-! ## A block written -/

/-- What a `uint`, 32 bits, holds of a number of 64. -/
def uint (x : ℤ) : ℕ := (x % 4294967296).toNat

/-- `(read-uint32 (vpx buf mask i))`: four bytes of the ring, the low one first. -/
def readUint32 (ring : Str) (i : ℕ) : ℕ :=
  (ringElem ring i).val + (ringElem ring (i + 1)).val <<< 8 + (ringElem ring (i + 2)).val <<< 16
    + (ringElem ring (i + 3)).val <<< 24

/-- The slot of the hash table of four bytes. -/
def lz4Slot (val : ℕ) : ℕ := (val * 2654435761) >>> 19 &&& 8191

/-- What a length is over what its nibble says: 255 while there is so much of it, and the rest. -/
def lz4More (v : ℕ) : Str := List.replicate (v / 255) 255 ++ [Fin.ofNat 256 (v % 255)]

/-- The subroutine `'literals`: a token, bytes of the ring as they are from `anchor` on, and a match
if `offset` is not 0. -/
def lz4Literals (ring : Str) (anchor litLen offset mLen : ℕ) : Str :=
  let matchNibble := if 0 < offset then min 15 (mLen - 4) else 0
  [Fin.ofNat 256 (min 15 litLen <<< 4 ||| matchNibble)] ++
    (if 15 ≤ litLen then lz4More (litLen - 15) else []) ++
    (if 0 < litLen then Ring.read ring (anchor % ring.length) litLen else []) ++
    (if 0 < offset then [Fin.ofNat 256 (offset &&& 255), Fin.ofNat 256 (offset >>> 8)] ++
      (if 19 ≤ mLen then lz4More (mLen - 19) else []) else [])

/-- What `(lz4-encode)` is at: `i` in 32 bits, `anchor` in 64, the hash table, and what it has put. -/
structure Lz4Turns where
  i : ℕ
  anchor : ℕ
  table : List ℤ
  out : Str

/-- A turn of the loop. What was at this hash is looked at if it is no more than 65535 back, and
said if it is the same four bytes, with as many after them as are. -/
def lz4Turn (ring : Str) (matchLimit : ℕ) (t : Lz4Turns) : Lz4Turns :=
  let val := readUint32 ring t.i
  let mPos := t.table.getD (lz4Slot val) (-65536)
  let table := t.table.set (lz4Slot val) t.i
  let back := (t.i : ℤ) - mPos
  if back ≤ 65535 ∧ val = readUint32 ring mPos.toNat then
    let mLen := matchLen ring mPos.toNat t.i (matchLimit - (t.i + 4)) 4
    { i := uint (t.i + mLen), anchor := t.i + mLen, table := table
      out := t.out ++ lz4Literals ring t.anchor (uint (t.i - t.anchor)) (uint back) mLen }
  else { t with i := uint (t.i + 1), table := table }

/-- The turns of the loop, while `i` is before `endLimit`. -/
def lz4Loop (ring : Str) (endLimit matchLimit : ℕ) : (turns : ℕ) → Lz4Turns → Lz4Turns
  | 0, t => t
  | turns + 1, t =>
    if t.i < endLimit then lz4Loop ring endLimit matchLimit turns (lz4Turn ring matchLimit t) else t

/-- What is kept from block to block. -/
structure Lz4Encoder where
  ring : Str
  pos : ℕ
  table : List ℤ

/-- `(lz4-encode ring_buf pos chunk hash_table)`. A turn goes on by a byte or more, so there are no
more than the chunk has. -/
def lz4Encode (e : Lz4Encoder) (chunk : Str) : Str × Lz4Encoder :=
  let ring := copyToRing e.ring e.pos chunk
  let long := 12 ≤ chunk.length
  let endLimit := if long then uint (e.pos + chunk.length - 12) else uint e.pos
  let matchLimit := if long then uint (e.pos + chunk.length - 5) else uint e.pos
  let t := lz4Loop ring endLimit matchLimit chunk.length ⟨uint e.pos, e.pos, e.table, []⟩
  (t.out ++ lz4Literals ring t.anchor (uint (e.pos + chunk.length - t.anchor)) 0 0,
    ⟨ring, e.pos + chunk.length, t.table⟩)

/-! ## A block read -/

/-- What `(lz4-decode)` is at. `touched` is every part of the ring that is read or written, from
which cell and how many of them. -/
structure Lz4Decoder where
  ring : Str
  pos : ℕ
  touched : List (ℕ × ℕ)

/-- The parts of a ring of `w` cells that are touched by `n` of them from `start` on, cut where the
ring ends. -/
def cutParts (w start n : ℕ) : List (ℕ × ℕ) :=
  if w < start + n then [(start, w - start), (0, start + n - w)] else [(start, n)]

/-- A length that goes on: bytes are added to it, to the first that is not 255. -/
def lz4LenMore : (rest : Str) → ℕ → ℕ × Str
  | [], len => (len, [])
  | v :: rest, len => if v = 255 then lz4LenMore rest (len + 255) else (len + v.val, rest)

/-- A length of a nibble, that is so much and goes on if the nibble is 15. -/
def lz4Len (nibble least : ℕ) (rest : Str) : ℕ × Str :=
  if nibble = 15 then lz4LenMore rest (nibble + least) else (nibble + least, rest)

namespace Lz4Decoder

variable (d : Lz4Decoder)

/-- Bytes as they are: `:sys_mem :copy_to_ring`. -/
def put (m : Str) : Lz4Decoder where
  ring := copyToRing d.ring d.pos m
  pos := d.pos + m.length
  touched := d.touched ++ cutParts d.ring.length (d.pos % d.ring.length) m.length

/-- A byte at a time: what is copied is there to be copied again. -/
def copyBytes (m : ℤ) : ℕ → Lz4Decoder → Lz4Decoder
  | 0, d => d
  | n + 1, d =>
    let from' := (m % d.ring.length).toNat
    copyBytes (m + 1) n
      { ring := d.ring.set (d.pos % d.ring.length) (d.ring.getD from' 0)
        pos := d.pos + 1
        touched := d.touched ++ [(from', 1), (d.pos % d.ring.length, 1)] }

/-- `:sys_mem :copy_in_ring`: what is copied from is cut where the ring ends, and each part of it
put as `copy_to_ring` does. -/
def copyIn (m : ℤ) (n : ℕ) : Lz4Decoder :=
  let w := d.ring.length
  let from' := (m % w).toNat
  let to' := d.pos % w
  { ring := Ring.write d.ring to' (Ring.read d.ring from' n)
    pos := d.pos + n
    touched := d.touched ++
      if w < from' + n then
        let first := w - from'
        let next := if w < to' + first then to' + first - w else to' + first
        (from', first) :: cutParts w to' first ++ (0, n - first) :: cutParts w next (n - first)
      else (from', n) :: cutParts w to' n }

/-- A match: all at once where it does not reach into itself. -/
def copy (offset n : ℕ) : Lz4Decoder :=
  if n ≤ offset then d.copyIn (d.pos - offset) n else copyBytes (d.pos - offset) n d

end Lz4Decoder

/-- The loop of `(lz4-decode)`. Bytes there are too few of are as many as there are; an offset of
which a byte is missing is the end. -/
def lz4Decode : (turns : ℕ) → Str → Lz4Decoder → Lz4Decoder
  | 0, _, d => d
  | _ + 1, [], d => d
  | turns + 1, token :: chunk, d =>
    let lit := lz4Len (token.val >>> 4) 0 chunk
    let d := if lit.2.take lit.1 = [] then d else d.put (lit.2.take lit.1)
    match lit.2.drop lit.1 with
    | low :: high :: rest =>
      let len := lz4Len (token.val &&& 15) 4 rest
      lz4Decode turns len.2 (d.copy (high.val <<< 8 ||| low.val) len.1)
    | _ => d

/-! ## A frame -/

/-- `+lz4_magic`, `+lz4_flags`, `+lz4_sizes`, `+lz4_bd` and `+lz4_hc`. -/
def lz4Magic : ℕ := 0x184D2204
def lz4Flags : ℕ := 0x40
def lz4Sizes : List ℕ := [65536, 262144, 1048576, 4194304]
def lz4Bd : List ℕ := [0x40, 0x50, 0x60, 0x70]
def lz4Hc : List ℕ := [0xc0, 0x77, 0x96, 0xdf]

/-- `(write-int stream n)`, the low byte first. -/
def intBytes (n : ℕ) : Str := [n, n >>> 8, n >>> 16, n >>> 24].map (Fin.ofNat 256)

/-- `(read-uint stream)`: `none` where there are not four bytes. -/
def readInt : Str → Option (ℕ × Str)
  | a :: b :: c :: d :: rest =>
    some (a.val + b.val <<< 8 + c.val <<< 16 + d.val <<< 24, rest)
  | _ => none

/-- A block of a frame: as it is, if it does not pack. -/
def lz4Block (chunk comp : Str) : Str :=
  if chunk.length ≤ comp.length then intBytes (0x80000000 ||| chunk.length) ++ chunk
  else intBytes comp.length ++ comp

/-- The loop of `(lz4-compress)`, over the blocks read. -/
def lz4Blocks : List Str → Lz4Encoder → Str
  | [], _ => []
  | chunk :: rest, e =>
    let done := lz4Encode e chunk
    lz4Block chunk done.1 ++ lz4Blocks rest done.2

/-- Which of the four sizes a window is made. -/
def lz4Size (window : ℕ) : ℕ := (lz4Sizes.findIdx? (fun size => decide (window ≤ size))).getD 3

/-- `(lz4-compress in_stream out_stream window_size)`, from the bytes of the one to those of the
other. -/
def lz4Compress (window : ℕ) (s : Str) : Str :=
  let i := lz4Size window
  let size := lz4Sizes.getD i 0
  intBytes lz4Magic ++ [lz4Flags, lz4Bd.getD i 0, lz4Hc.getD i 0].map (Fin.ofNat 256) ++
    lz4Blocks (readBlks size s)
      ⟨List.replicate (size * 2) 0, 0, List.replicate 8192 (-65536)⟩ ++ intBytes 0

/-- What comes of `(lz4-decompress)`: what it returns, or that it throws. -/
inductive Lz4Ended where
  | returned (ok : Bool)
  | threw
  deriving DecidableEq

/-- `(lz4-read ring_buf pos in_stream len)`: the bytes go in the ring as far as there are any. -/
def lz4Read (len : ℕ) (s : Str) (d : Lz4Decoder) : Lz4Decoder where
  ring := copyToRing d.ring d.pos (s.take len)
  pos := d.pos + len
  touched := d.touched ++ cutParts d.ring.length (d.pos % d.ring.length) len

/-- `(lz4-write ring_buf pos out_stream len)`: what is written, as far as it is of the ring, and the
parts of the ring it is read from. -/
def lz4Write (len : ℕ) (d : Lz4Decoder) : Str × List (ℕ × ℕ) :=
  let start := (d.pos - len) % d.ring.length
  (Ring.read d.ring start len, cutParts d.ring.length start len)

/-- What `(lz4-decompress)` is at: the decoder, what it has written, and what of the ring that was
read from. -/
structure Lz4Reading where
  d : Lz4Decoder
  out : Str
  written : List (ℕ × ℕ)

/-- A block written out, from where it began. -/
def Lz4Reading.flush (r : Lz4Reading) (d : Lz4Decoder) : Lz4Reading where
  d := d
  out := r.out ++ (lz4Write (d.pos - r.d.pos) d).1
  written := r.written ++ (lz4Write (d.pos - r.d.pos) d).2

/-- The loop of `(lz4-decompress)`. Where a size can not be read the frame is taken to be at its end;
where a block can not, `lz4-decode` is given no string, and throws. -/
def lz4Frame (most : ℕ) (sums : Bool) : (turns : ℕ) → Str → Lz4Reading → Lz4Ended × Lz4Reading
  | 0, _, r => (.returned true, r)
  | turns + 1, s, r =>
    match readInt s with
    | none => (.returned true, r)
    | some (size, s) =>
      if size = 0 then (.returned true, r)
      else
        let len := size &&& 0x7fffffff
        let next := (s.drop len).drop (if sums then 4 else 0)
        if most < len then (.returned false, r)
        else if size.testBit 31 then
          lz4Frame most sums turns next (r.flush (lz4Read len s r.d))
        else if s = [] then (.threw, r)
        else lz4Frame most sums turns next (r.flush (lz4Decode len (s.take len) r.d))

/-- The ring of `(lz4-decompress)`: the least power of two that is no less. -/
def lz4Ring (n : ℕ) : ℕ := 2 ^ Nat.clog 2 n

/-- `(lz4-decompress in_stream out_stream window_size)`, `dirt` what is in the ring as it is made. -/
def lz4Decompress (dirt : ℕ → Byte) (window : ℕ) (s : Str) : Lz4Ended × Lz4Reading :=
  let nothing : Lz4Reading := ⟨⟨[], 0, []⟩, [], []⟩
  match readInt s with
  | some (magic, flg :: bd :: s) =>
    if magic = lz4Magic ∧ flg.val &&& 0xc0 = 0x40 then
      let most := 1 <<< (8 + 2 * (bd.val >>> 4 &&& 7))
      let s := s.drop (if flg.val.testBit 3 then 8 else 0)
      let s := s.drop (if flg.val.testBit 0 then 4 else 0)
      let ring := (List.range (lz4Ring (max window most))).map dirt
      lz4Frame most (flg.val.testBit 4) (s.drop 1).length (s.drop 1) ⟨⟨ring, 0, []⟩, [], []⟩
    else (.returned false, nothing)
  | _ => (.returned false, nothing)

end ChrysaLisp
