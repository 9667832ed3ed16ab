import ChrysaLisp.Library.Bytes
import ChrysaLisp.Library.Checked
import ChrysaLisp.Lisp.Str
import Mathlib.Algebra.BigOperators.Group.Finset.Basic

set_option autoImplicit false

/-! # Poly1305

A tag of a message and a key that is for that message alone: the message in blocks of 16 bytes, each with
a bit above its last byte, is the coefficients of a polynomial, which is worked out at the first half
of the key, less some of its bits, in the numbers below `2 ^ 130 - 5`; the other half of the key is
added to what that comes to.

The sum is kept as five numbers of 26 bits. A sum or a product that left 64 bits would be no number
here (`Checked.fit`), so that what comes to a tag at all has kept within them.

This is `poly1305_blocks` of `lib/crypto/lisp.vp` and `lib/crypto/poly1305.inc`. -/

namespace ChrysaLisp.Poly1305

open Bytes Checked

/-- `+poly1305_mask`, and `+pl_mask`. -/
def mask : ℕ := 0x3ffffff

/-- `+poly1305_slice`. -/
def polySlice : ℕ := 4096

/-- `+poly1305_zeros`. -/
def zeros : Str := List.replicate 16 0

/-- What a register holds. -/
def word : ℕ := 2 ^ 64

/-- `get-long`, as the 64 bits it is. -/
def getLong (s : Str) (at' : ℕ) : ℕ := ofBytes ((s.drop at').take 8)

/-- `get-uint`. -/
def getUint (s : Str) (at' : ℕ) : ℕ := ofBytes ((s.drop at').take 4)

/-- Five numbers, each of 26 bits or some more. -/
structure Limbs where
  x0 : ℕ
  x1 : ℕ
  x2 : ℕ
  x3 : ℕ
  x4 : ℕ
deriving DecidableEq

/-- The number they are. -/
def Limbs.value (x : Limbs) : ℕ :=
  x.x0 + 2 ^ 26 * x.x1 + 2 ^ 52 * x.x2 + 2 ^ 78 * x.x3 + 2 ^ 104 * x.x4

/-- 128 bits, cut so: the key is in `poly1305-start`, and a block of the message in `pl_block`. -/
def Limbs.cut (lo hi : ℕ) : Limbs where
  x0 := lo &&& mask
  x1 := (lo >>> 26) &&& mask
  x2 := ((lo >>> 52) ||| ((hi <<< 12) % word)) &&& mask
  x3 := (hi >>> 14) &&& mask
  x4 := hi >>> 40

/-- The state of the native code: `h`, `r`, and the top four of `r` times 5. -/
structure State where
  h : Limbs
  r : Limbs
  s1 : ℕ
  s2 : ℕ
  s3 : ℕ
  s4 : ℕ

/-- What a block is to add to: `h`, with the block added. -/
def addBlock (h : Limbs) (data : Str) (top : ℕ) : Option Limbs := do
  let m := Limbs.cut (getLong data 0) (getLong data 8)
  let h0 ← fit word (h.x0 + m.x0)
  let h1 ← fit word (h.x1 + m.x1)
  let h2 ← fit word (h.x2 + m.x2)
  let h3 ← fit word (h.x3 + m.x3)
  let h4 ← fit word (h.x4 + m.x4)
  let h4 ← fit word (h4 + top <<< 24)
  return ⟨h0, h1, h2, h3, h4⟩

/-- `h` times `r`. -/
def mulBlock (st : State) (h : Limbs) : Option Limbs := do
  let d0 ← dot word 0 [(h.x0, st.r.x0), (h.x1, st.s4), (h.x2, st.s3), (h.x3, st.s2), (h.x4, st.s1)]
  let d1 ← dot word 0 [(h.x0, st.r.x1), (h.x1, st.r.x0), (h.x2, st.s4), (h.x3, st.s3), (h.x4, st.s2)]
  let d2 ← dot word 0 [(h.x0, st.r.x2), (h.x1, st.r.x1), (h.x2, st.r.x0), (h.x3, st.s4), (h.x4, st.s3)]
  let d3 ← dot word 0
    [(h.x0, st.r.x3), (h.x1, st.r.x2), (h.x2, st.r.x1), (h.x3, st.r.x0), (h.x4, st.s4)]
  let d4 ← dot word 0
    [(h.x0, st.r.x4), (h.x1, st.r.x3), (h.x2, st.r.x2), (h.x3, st.r.x1), (h.x4, st.r.x0)]
  return ⟨d0, d1, d2, d3, d4⟩

/-- What is above 26 bits of each goes on to the next, and of the last, times 5, to the first. -/
def carryBlock (d : Limbs) : Option Limbs := do
  let h0 := d.x0 &&& mask
  let d1 ← fit word (d.x1 + d.x0 >>> 26)
  let h1 := d1 &&& mask
  let d2 ← fit word (d.x2 + d1 >>> 26)
  let h2 := d2 &&& mask
  let d3 ← fit word (d.x3 + d2 >>> 26)
  let h3 := d3 &&& mask
  let d4 ← fit word (d.x4 + d3 >>> 26)
  let h4 := d4 &&& mask
  let t ← fit word ((d4 >>> 26) <<< 2 % word + d4 >>> 26)
  let h0 ← fit word (h0 + t)
  let h1 ← fit word (h1 + h0 >>> 26)
  return ⟨h0 &&& mask, h1, h2, h3, h4⟩

/-- `pl_block`, once. -/
def polyBlock (st : State) (data : Str) (top : ℕ) : Option State := do
  let h ← addBlock st.h data top
  let d ← mulBlock st h
  let h ← carryBlock d
  return { st with h := h }

/-- `pl_block`, as many times as there are blocks. -/
def polyLoop (top : ℕ) : ℕ → State → Str → Option State
  | 0, st, _ => some st
  | count + 1, st, data => do
      let st ← polyBlock st data top
      polyLoop top count st (data.drop 16)

/-- `poly1305-blocks`, where the blocks must be within the data. -/
def polyBlocks (st : State) (data : Str) (offset count top : ℕ) : Option State :=
  if offset + count <<< 4 ≤ data.length then polyLoop top count st (data.drop offset) else none

/-- A `ctx`. -/
structure Ctx where
  state : State
  pending : Str
  pad : Str

/-- `poly1305-start`. -/
def polyStart (key : Str) : Option Ctx :=
  if key.length = 32 then
    let lo := getLong key 0 &&& 0x0ffffffc0fffffff
    let hi := getLong key 8 &&& 0x0ffffffc0ffffffc
    let r := Limbs.cut lo hi
    some ⟨⟨⟨0, 0, 0, 0, 0⟩, r, r.x1 * 5, r.x2 * 5, r.x3 * 5, r.x4 * 5⟩, [], (key.drop 16).take 16⟩
  else none

/-- The loop of `poly1305-add`. -/
def addLoop (data : Str) (blocks at' : ℕ) (st : State) : Option State :=
  if hblocks : 0 < blocks then
    let some_blocks := min blocks polySlice
    (polyBlocks st data at' some_blocks 1).bind fun st =>
      addLoop data (blocks - some_blocks) (at' + some_blocks * 16) st
  else some st
termination_by blocks
decreasing_by
  have hslice : 0 < polySlice := by decide
  omega

/-- `poly1305-add`. -/
def polyAdd (ctx : Ctx) (data : Str) : Option Ctx := do
  let data := if ctx.pending ≠ [] then ctx.pending ++ data else data
  let blocks := data.length / 16
  let st ← addLoop data blocks 0 ctx.state
  return { ctx with state := st, pending := data.drop (blocks * 16) }

/-- What is left is a last block, a bit above its last byte, then 0. -/
def lastBlock (ctx : Ctx) : Option State :=
  if ctx.pending ≠ [] then
    polyBlocks ctx.state (ctx.pending ++ [1] ++ zeros.take (15 - ctx.pending.length)) 0 1 0
  else some ctx.state

/-- Every part of `h` down to 26 bits, what is over going on to the next. -/
def settle (h : Limbs) : Limbs :=
  let c := h.x1 >>> 26
  let h1 := h.x1 &&& mask
  let h2 := h.x2 + c
  let c := h2 >>> 26
  let h2 := h2 &&& mask
  let h3 := h.x3 + c
  let c := h3 >>> 26
  let h3 := h3 &&& mask
  let h4 := h.x4 + c
  let c := h4 >>> 26
  let h4 := h4 &&& mask
  let h0 := h.x0 + c * 5
  let c := h0 >>> 26
  let h0 := h0 &&& mask
  let h1 := h1 + c
  ⟨h0, h1, h2, h3, h4⟩

/-- `h` less the prime, where it is not below it. -/
def lessPrime (h : Limbs) : Limbs :=
  let g0 := h.x0 + 5
  let c := g0 >>> 26
  let g0 := g0 &&& mask
  let g1 := h.x1 + c
  let c := g1 >>> 26
  let g1 := g1 &&& mask
  let g2 := h.x2 + c
  let c := g2 >>> 26
  let g2 := g2 &&& mask
  let g3 := h.x3 + c
  let c := g3 >>> 26
  let g3 := g3 &&& mask
  let g4 : ℤ := (h.x4 + c : ℕ) - 2 ^ 26
  if 0 ≤ g4 then ⟨g0, g1, g2, g3, g4.toNat⟩ else h

/-- As four numbers of 32 bits. -/
def words (h : Limbs) : List ℕ :=
  [h.x0 ||| (h.x1 <<< 26), (h.x1 >>> 6) ||| (h.x2 <<< 20), (h.x2 >>> 12) ||| (h.x3 <<< 14),
    (h.x3 >>> 18) ||| (h.x4 <<< 8)]

/-- To which the other half of the key is added. -/
def addPad (pad : Str) : List ℕ → ℕ → ℕ → Str
  | [], _, _ => []
  | w :: ws, i, carry =>
      let carry := (w &&& 0xffffffff) + getUint pad (i * 4) + carry >>> 32
      toBytes 4 (carry &&& 0xffffffff) ++ addPad pad ws (i + 1) carry

/-- `poly1305-end`. -/
def polyEnd (ctx : Ctx) : Option Str := do
  let st ← lastBlock ctx
  return addPad ctx.pad (words (lessPrime (settle st.h))) 0 0

/-- The adds of a message that comes in parts. -/
def polyAdds : Ctx → List Str → Option Ctx
  | ctx, [] => some ctx
  | ctx, data :: rest => do
      let ctx ← polyAdd ctx data
      polyAdds ctx rest

/-- `poly1305` of a message in those parts. -/
def poly1305 (key : Str) (parts : List Str) : Option Str := do
  let ctx ← polyStart key
  let ctx ← polyAdds ctx parts
  polyEnd ctx

/-! ## What it is to be -/

/-- The prime. -/
def prime : ℕ := 2 ^ 130 - 5

/-- The first half of the key, less some of its bits. -/
def clamp (key : Str) : ℕ := ofBytes (key.take 16) &&& 0x0ffffffc0ffffffc0ffffffc0fffffff

/-- A block of 16 bytes or, of the last, fewer. -/
def block (m : Str) (i : ℕ) : Str := (m.drop (16 * i)).take 16

/-- A block with the bit above its last byte. -/
def blockValue (b : Str) : ℕ := ofBytes b + 256 ^ b.length

/-- How many blocks there are. -/
def blockCount (m : Str) : ℕ := (m.length + 15) / 16

/-- The tag of a message. -/
def polyTag (key m : Str) : Str :=
  toBytes 16 (((∑ i ∈ Finset.range (blockCount m),
    blockValue (block m i) * clamp key ^ (blockCount m - i)) % prime + ofBytes (key.drop 16)) % 2 ^ 128)

end ChrysaLisp.Poly1305
