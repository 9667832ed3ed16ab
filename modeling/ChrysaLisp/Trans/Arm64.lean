import ChrysaLisp.Library.Memory
import ChrysaLisp.Trans.Emit

set_option autoImplicit false

/-! # ARM64

The instructions `lib/trans/arm64.inc` makes constants and addresses with, what a word is and what it
does. Register 31 is the stack pointer where an instruction has one and else reads as 0. -/

namespace ChrysaLisp.Trans.Arm64

open Fields

inductive Instr
  | movn (hw imm rd : ℕ)
  | movz (hw imm rd : ℕ)
  | movk (hw imm rd : ℕ)
  | orrImm (n immr imms rn rd : ℕ)
  | addImm (sh imm rn rd : ℕ)
  | subImm (sh imm rn rd : ℕ)
  | addReg (rm rn rd : ℕ)
  | eorReg (rm rn rd : ℕ)
  | ubfm (immr imms rn rd : ℕ)
  /-- A load or store of 2 to the `size` bytes. `opc` is 0 for a store, 1 for a load and 2 for a load
      with its sign. -/
  | access (size opc : ℕ) (offset : ℤ) (base reg : ℕ)
  deriving DecidableEq

def decode (w : ℕ) : Option Instr :=
  let rd := field w 0 5
  let rn := field w 5 5
  let rm := field w 16 5
  if field w 23 9 = 0b100100101 then some (.movn (field w 21 2) (field w 5 16) rd)
  else if field w 23 9 = 0b110100101 then some (.movz (field w 21 2) (field w 5 16) rd)
  else if field w 23 9 = 0b111100101 then some (.movk (field w 21 2) (field w 5 16) rd)
  else if field w 23 9 = 0b101100100 then
    some (.orrImm (field w 22 1) (field w 16 6) (field w 10 6) rn rd)
  else if field w 23 9 = 0b100100010 then some (.addImm (field w 22 1) (field w 10 12) rn rd)
  else if field w 23 9 = 0b110100010 then some (.subImm (field w 22 1) (field w 10 12) rn rd)
  else if field w 21 11 = 0b10001011000 ∧ field w 10 6 = 0 then some (.addReg rm rn rd)
  else if field w 21 11 = 0b11001010000 ∧ field w 10 6 = 0 then some (.eorReg rm rn rd)
  else if field w 22 10 = 0b1101001101 then some (.ubfm (field w 16 6) (field w 10 6) rn rd)
  else if field w 24 6 = 0b111000 ∧ field w 21 1 = 0 ∧ field w 10 2 = 0 then
    some (.access (field w 30 2) (field w 22 2) (signed 9 (field w 12 9)) rn rd)
  else if field w 24 6 = 0b111001 then
    some (.access (field w 30 2) (field w 22 2) (field w 10 12 * 2 ^ field w 30 2 : ℕ) rn rd)
  else none

/-- `DecodeBitMasks`: ones in elements of a size, rotated right, over and over. -/
def decodeBitMask (n immr imms : ℕ) : Option Num :=
  let len := Nat.log2 (n * 64 + (63 - imms))
  let esize := 2 ^ len
  if len = 0 ∨ imms % esize = esize - 1 then none
  else
    some (BitVec.ofNat 64
      (ofBits (fun j => decide ((j % esize + immr % esize) % esize ≤ imms % esize)) 64))

/-! ## What they do -/

structure State where
  regs : ℕ → Num
  mem : ℕ → Fin 256

namespace State

variable (st : State)

/-- A register, or the stack pointer. -/
def set (r : ℕ) (v : Num) : State := { st with regs := Function.update st.regs r v }

/-- A register, or 0. -/
def get0 (r : ℕ) : Num := if r = 31 then 0 else st.regs r

def set0 (r : ℕ) (v : Num) : State := if r = 31 then st else st.set r v

def load (size : ℕ) (a : Num) : ℕ := Memory.numOf (Memory.load st.mem a.toNat (2 ^ size))

def store (size : ℕ) (a v : Num) : State :=
  { st with mem := Memory.store st.mem a.toNat (Memory.bytesOf (2 ^ size) v.toNat) }

/-- A load or store at an address. -/
def access (size opc : ℕ) (a : Num) (reg : ℕ) : Option State :=
  match opc with
  | 0 => some (st.store size a (st.get0 reg))
  | 1 => some (st.set0 reg (BitVec.ofNat 64 (st.load size a)))
  | 2 =>
      if size = 3 then none
      else some (st.set0 reg ((BitVec.ofNat (8 * 2 ^ size) (st.load size a)).signExtend 64))
  | _ => none

end State

/-- The halfword of a number replaced. -/
def insert (v : Num) (hw imm : ℕ) : Num :=
  BitVec.ofNat 64 (v.toNat - field v.toNat (16 * hw) 16 * 2 ^ (16 * hw) + imm * 2 ^ (16 * hw))

def exec (st : State) : Instr → Option State
  | .movn hw imm rd => some (st.set0 rd (~~~BitVec.ofNat 64 (imm * 2 ^ (16 * hw))))
  | .movz hw imm rd => some (st.set0 rd (BitVec.ofNat 64 (imm * 2 ^ (16 * hw))))
  | .movk hw imm rd => some (st.set0 rd (insert (st.get0 rd) hw imm))
  | .orrImm n immr imms rn rd =>
      (decodeBitMask n immr imms).map fun m => st.set rd (st.get0 rn ||| m)
  | .addImm sh imm rn rd => some (st.set rd (st.regs rn + BitVec.ofNat 64 (imm * 2 ^ (12 * sh))))
  | .subImm sh imm rn rd => some (st.set rd (st.regs rn - BitVec.ofNat 64 (imm * 2 ^ (12 * sh))))
  | .addReg rm rn rd => some (st.set0 rd (st.get0 rn + st.get0 rm))
  | .eorReg rm rn rd => some (st.set0 rd (st.get0 rn ^^^ st.get0 rm))
  | .ubfm immr imms rn rd =>
      if immr = 0 then some (st.set0 rd (BitVec.ofNat 64 (field (st.get0 rn).toNat 0 (imms + 1))))
      else none
  | .access size opc offset base reg => st.access size opc (st.regs base + BitVec.ofInt 64 offset) reg

/-- What words do, one after the other. -/
def run : List ℕ → State → Option State
  | [], st => some st
  | w :: ws, st => ((decode w).bind (exec st)).bind (run ws)

/-! ## Moves of halfwords -/

def arm64MovCr (c : Num) (r : ℕ) : List ℕ :=
  let x := c &&& 0xffff00000000
  let y := c &&& 0xffff0000
  let z := c &&& 0xffff
  let r := BitVec.ofNat 64 r
  if c.toInt < 0 then
    if -0x10000 ≤ c.toInt then emitmInt (0x92800000 + (~~~c <<< 5) + r)
    else if -0x100000000 ≤ c.toInt then
      emitmInt (0x92a00000 + ((~~~c &&& 0xffff0000) >>> 11) + r) ++
        if z ≠ 0xffff then emitmInt (0xf2800000 + (z <<< 5) + r) else []
    else if -0x1000000000000 ≤ c.toInt then
      emitmInt (0x92c00000 + ((~~~c &&& 0xffff00000000) >>> 27) + r) ++
        (if y ≠ 0xffff0000 then emitmInt (0xf2a00000 + (y >>> 11) + r) else []) ++
        if z ≠ 0xffff then emitmInt (0xf2800000 + (z <<< 5) + r) else []
    else
      emitmInt (0x92e00000 + ((~~~c &&& 0xffff000000000000) >>> 43) + r) ++
        (if x ≠ 0xffff00000000 then emitmInt (0xf2c00000 + (x >>> 27) + r) else []) ++
        (if y ≠ 0xffff0000 then emitmInt (0xf2a00000 + (y >>> 11) + r) else []) ++
        if z ≠ 0xffff then emitmInt (0xf2800000 + (z <<< 5) + r) else []
  else if c.toInt ≤ 0xffff then emitmInt (0xd2800000 + (c <<< 5) + r)
  else if c.toInt ≤ 0xffffffff then
    emitmInt (0xd2a00000 + ((c &&& 0xffff0000) >>> 11) + r) ++
      if z ≠ 0 then emitmInt (0xf2800000 + (z <<< 5) + r) else []
  else if c.toInt ≤ 0xffffffffffff then
    emitmInt (0xd2c00000 + ((c &&& 0xffff00000000) >>> 27) + r) ++
      (if y ≠ 0 then emitmInt (0xf2a00000 + (y >>> 11) + r) else []) ++
      if z ≠ 0 then emitmInt (0xf2800000 + (z <<< 5) + r) else []
  else
    emitmInt (0xd2e00000 + ((c &&& 0xffff000000000000) >>> 43) + r) ++
      (if x ≠ 0 then emitmInt (0xf2c00000 + (x >>> 27) + r) else []) ++
      (if y ≠ 0 then emitmInt (0xf2a00000 + (y >>> 11) + r) else []) ++
      if z ≠ 0 then emitmInt (0xf2800000 + (z <<< 5) + r) else []

end ChrysaLisp.Trans.Arm64
