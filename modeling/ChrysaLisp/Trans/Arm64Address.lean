import ChrysaLisp.Trans.Limm

set_option autoImplicit false

/-! # Addresses on ARM64

Loads, stores, `lea`, `add` and `sub` of a constant. A small offset of a load or a store has its sign and
any value. A large one is counted in units of what is loaded or stored, and the code that puts it in its
field does not look whether it is a whole number of them: what is over goes to the field of the base. -/

namespace ChrysaLisp.Trans.Arm64

open Fields

/-- What is emitted, or the text and the number that are thrown. -/
abbrev Emitted := Except (String × Num) (List ℕ)

def arm64Rrr (o : Num) (m n d : ℕ) : List ℕ :=
  emitmInt (o + (BitVec.ofNat 64 m <<< 16) + (BitVec.ofNat 64 n <<< 5) + BitVec.ofNat 64 d)

def arm64Ux (x s d : ℕ) : List ℕ :=
  emitmInt ((0xd3400000 : Num) + (BitVec.ofNat 64 x <<< 10) + (BitVec.ofNat 64 s <<< 5) + BitVec.ofNat 64 d)

def emitXorRr (s d : ℕ) : List ℕ := arm64Rrr 0xca000000 s d d

def arm64Ri (w : ℕ) (o : Num) (s d : ℕ) (c : Num) : Emitted :=
  if -0x100 ≤ c.toInt ∧ c.toInt ≤ 0xff then
    .ok (emitmInt (o + ((c &&& 0x1ff) <<< 12) + (BitVec.ofNat 64 d <<< 5) + BitVec.ofNat 64 s))
  else if 0 ≤ c.toInt ∧ c.toInt ≤ 0xfff * 2 ^ w then
    .ok (emitmInt ((0x1000000 : Num) + o + (c <<< (10 - w)) + (BitVec.ofNat 64 d <<< 5) + BitVec.ofNat 64 s))
  else .error ("arm64-ri/ir constant out of range !", c)

def arm64Ir (w : ℕ) (o : Num) (s : ℕ) (c : Num) (d : ℕ) : Emitted := arm64Ri w o d s c

def arm64Iru (w : ℕ) (o : Num) (s : ℕ) (c : Num) (d : ℕ) : Emitted :=
  (arm64Ir w o s c d).map fun ws =>
    (if s ≠ d then emitXorRr d d else []) ++ ws ++
      if s = d then arm64Ux ([7, 15, 31].getD w 0) d d else []

def emitCpyIr (s : ℕ) (c : Num) (d : ℕ) : Emitted := arm64Ir 3 0xf8400000 s c d
def emitCpyRi (s d : ℕ) (c : Num) : Emitted := arm64Ri 3 0xf8000000 s d c
def emitCpyIrB (s : ℕ) (c : Num) (d : ℕ) : Emitted := arm64Ir 0 0x38800000 s c d
def emitCpyIrS (s : ℕ) (c : Num) (d : ℕ) : Emitted := arm64Ir 1 0x78800000 s c d
def emitCpyIrI (s : ℕ) (c : Num) (d : ℕ) : Emitted := arm64Ir 2 0xb8800000 s c d
def emitCpyRiB (s d : ℕ) (c : Num) : Emitted := arm64Ri 0 0x38000000 s d c
def emitCpyRiS (s d : ℕ) (c : Num) : Emitted := arm64Ri 1 0x78000000 s d c
def emitCpyRiI (s d : ℕ) (c : Num) : Emitted := arm64Ri 2 0xb8000000 s d c
def emitCpyIrUb (s : ℕ) (c : Num) (d : ℕ) : Emitted := arm64Iru 0 0x38400000 s c d
def emitCpyIrUs (s : ℕ) (c : Num) (d : ℕ) : Emitted := arm64Iru 1 0x78400000 s c d
def emitCpyIrUi (s : ℕ) (c : Num) (d : ℕ) : Emitted := arm64Ir 2 0xb8400000 s c d

/-- `+arm64_rtmp` -/
def rtmp : ℕ := 29

def emitLeaI (s : ℕ) (c : Num) (d : ℕ) : List ℕ :=
  if c = 0 ∧ s = d then []
  else if -0x1000 ≤ c.toInt ∧ c.toInt ≤ 0xfff then
    if 0 ≤ c.toInt then
      emitmInt ((0x91000000 : Num) + ((c &&& 0xfff) <<< 10) + (BitVec.ofNat 64 s <<< 5) + BitVec.ofNat 64 d)
    else emitmInt ((0xd1000000 : Num) + ((-c &&& 0xfff) <<< 10) + (BitVec.ofNat 64 s <<< 5) +
      BitVec.ofNat 64 d)
  else emitCpyCr c rtmp ++ arm64Rrr 0x8b000000 s rtmp d

/-- The two parts of a constant, with the word for the low one and the word for the high one. -/
def arm64Split (lo hi c : Num) (r : ℕ) : List ℕ :=
  let f := c &&& 0xfff
  let c := c &&& 0xfff000
  (if f ≠ 0 then emitmInt (lo + (f <<< 10) + (BitVec.ofNat 64 r <<< 5) + BitVec.ofNat 64 r) else []) ++
    if c ≠ 0 then emitmInt (hi + (c >>> 2) + (BitVec.ofNat 64 r <<< 5) + BitVec.ofNat 64 r) else []

def emitAddCr (c : Num) (r : ℕ) : Emitted :=
  if c = 0 then .ok []
  else if c.toInt < 0 then
    if (-c).toInt ≤ 0xffffff then .ok (arm64Split 0xd1000000 0xd1400000 (-c) r)
    else .error ("emit-add-cr constant out of range !", -c)
  else if c.toInt ≤ 0xffffff then .ok (arm64Split 0x91000000 0x91400000 c r)
  else .error ("emit-add-cr constant out of range !", c)

def emitSubCr (c : Num) (r : ℕ) : Emitted :=
  if c = 0 then .ok []
  else if c.toInt < 0 then
    if (-c).toInt ≤ 0xffffff then .ok (arm64Split 0x91000000 0x91400000 (-c) r)
    else .error ("emit-sub-cr constant out of range !", -c)
  else if c.toInt ≤ 0xffffff then .ok (arm64Split 0xd1000000 0xd1400000 c r)
  else .error ("emit-sub-cr constant out of range !", c)

/-! ## What is asked for -/

/-- The loads and stores of a register at an offset. -/
inductive Access
  | ir | irB | irS | irI | irUb | irUs | irUi | ri | riB | riS | riI
  deriving DecidableEq

namespace Access

/-- What is loaded or stored is 2 to this bytes. -/
def size : Access → ℕ
  | irB | irUb | riB => 0
  | irS | irUs | riS => 1
  | irI | irUi | riI => 2
  | ir | ri => 3

/-- A store is 0, a load with its sign 2 and any other load 1. -/
def opc : Access → ℕ
  | ri | riB | riS | riI => 0
  | ir | irUb | irUs | irUi => 1
  | irB | irS | irI => 2

def emit (a : Access) (base : ℕ) (c : Num) (reg : ℕ) : Emitted :=
  match a with
  | ir => emitCpyIr base c reg
  | irB => emitCpyIrB base c reg
  | irS => emitCpyIrS base c reg
  | irI => emitCpyIrI base c reg
  | irUb => emitCpyIrUb base c reg
  | irUs => emitCpyIrUs base c reg
  | irUi => emitCpyIrUi base c reg
  | ri => emitCpyRi reg base c
  | riB => emitCpyRiB reg base c
  | riS => emitCpyRiS reg base c
  | riI => emitCpyRiI reg base c

end Access

def Instr.isAccess : Instr → Bool
  | access .. => true
  | _ => false

/-- The loads and stores among some words. -/
def accesses (ws : List ℕ) : List Instr := (ws.filterMap decode).filter Instr.isAccess

/-- One load or store is emitted, of the base, the register and the offset asked for, and what is emitted
    does what it does. -/
def Reaches (size opc base : ℕ) (c : Num) (reg : ℕ) (ws : List ℕ) : Prop :=
  accesses ws = [.access size opc c.toInt base reg] ∧
    ∀ st : State, run ws st = st.access size opc (st.regs base + c) reg

/-- The constant is added to the base in the register. -/
def Adds (base : ℕ) (c : Num) (reg : ℕ) (ws : List ℕ) : Prop :=
  ∀ st : State, run ws st = some (st.set reg (st.regs base + c))

/-- So it is, and no other register but the scratch one is changed. -/
def AddsUp (base : ℕ) (c : Num) (reg : ℕ) (ws : List ℕ) : Prop :=
  ∀ st : State, ∃ st', run ws st = some st' ∧ st'.regs reg = st.regs base + c ∧
    (∀ x, x ≠ reg → x ≠ rtmp → st'.regs x = st.regs x) ∧ st'.mem = st.mem

end ChrysaLisp.Trans.Arm64
