import ChrysaLisp.Trans.Vp64
import Mathlib.Data.Sym.Sym2

set_option autoImplicit false

/-! # The code of VP64

Every emit function of `lib/trans/vp64.inc`, what it writes, and the loop of `vp64` in
`src/host/vp64.cpp`, what it takes of that for one instruction. The emit functions of a group write
alike, so they are one with the one of the group it is, which is told by its name.

The opcodes are counted twice: by `next-opcode` as the emit functions come, and by the `Opcodes` of the
emulator. -/

namespace ChrysaLisp.Trans.Vp64

open Fields

/-- A register, of the one kind or the other. -/
abbrev Reg := Fin 16

/-! ## The operations -/

/-- With a constant of any size: `emit-<op>-cr`, and `vp64-cmp-cr`. -/
inductive Cr where
  | cpy | add | sub | cmp | mul | and | or | xor | min | max
deriving DecidableEq

/-- With a constant that fits: `emit-<op>-cr`. -/
inductive Scr where
  | seq | sne | slt | sle | sgt | sge
deriving DecidableEq

/-- Of two registers: `emit-<op>-rr`, `vp64-cmp-r`, `vp64-cmp-f`, `emit-<op>-ff`, and those from the
    one kind of register to the other. -/
inductive Rr where
  | cpy | add | sub | cmp | mul | and | or | xor
  | shl | shr | asr | lnot | land | swp | ext
  | min | max | abs
  | seq | sne | slt | sle | sgt | sge
  | cmpF
  | addF | subF | mulF | divF | minF | maxF | sqrtF | absF | negF | cpyF
  | cvtRf | cvtFr | cpyRf | cpyFr
deriving DecidableEq

inductive Shift where
  | shl | shr | asr
deriving DecidableEq

inductive Div where
  | rrr | rrrU
deriving DecidableEq

/-- From memory at an offset: `emit-cpy-ir`, its types, `emit-lea-i`, and `emit-cpy-if`. -/
inductive Ir where
  | l | b | s | i | ub | us | ui | lea | f
deriving DecidableEq

/-- To memory at an offset: `emit-cpy-ri`, its types, and `emit-cpy-fi`. -/
inductive Ri where
  | l | b | s | i | f
deriving DecidableEq

/-- To memory at two registers: `emit-cpy-rd`, and its types. -/
inductive Rd where
  | l | b | s | i
deriving DecidableEq

/-- From memory at two registers: `emit-cpy-dr`, its types, `emit-lea-d`, and `emit-cpy-df`. -/
inductive Dr where
  | l | b | s | i | ub | us | ui | lea | f
deriving DecidableEq

inductive Cond where
  | beq | bne | bge | blt | ble | bgt
deriving DecidableEq

/-- To a label: `emit-call`, `emit-jmp`, `emit-call-p`, `emit-jmp-p`. -/
inductive Jump where
  | call | jmp | callP | jmpP
deriving DecidableEq

/-- By a register: `emit-call-r`, `emit-jmp-r`, `emit-call-i`, `emit-jmp-i`. -/
inductive Via where
  | call | jmp
deriving DecidableEq

/-- By a label: `emit-cpy-pr`, `emit-lea-p`. -/
inductive Pr where
  | cpy | lea
deriving DecidableEq

/-! ## The opcodes -/

/-- An opcode, with the form it is, where a constant or a distance can be of several sizes. -/
inductive Opcode where
  | cr (o : Cr) (form : ℕ)
  | scr (o : Scr) (form : ℕ)
  | rr (o : Rr)
  | shift (o : Shift)
  | div (o : Div)
  | ir (o : Ir)
  | ri (o : Ri)
  | rd (o : Rd)
  | dr (o : Dr)
  | fd
  | branch (float : Bool) (o : Cond) (form : ℕ)
  | jump (o : Jump) (form : ℕ)
  | viaR (o : Via)
  | viaI (o : Via)
  | pr (o : Pr)
  | callAbi
  | ret
  | sync
  | brk
deriving DecidableEq

def crs (o : Cr) : List Opcode := [.cr o 0, .cr o 1, .cr o 2, .cr o 3]

def scrs (o : Scr) : List Opcode := [.scr o 0, .scr o 1, .scr o 2]

def branches (float : Bool) (o : Cond) : List Opcode := [.branch float o 0, .branch float o 1]

def jumps (o : Jump) : List Opcode := [.jump o 0, .jump o 1]

/-- `enum Opcodes`. -/
def opcodes : List Opcode := List.flatten [
  -- Group 1: ALU (CR)
  crs .cpy, crs .add, crs .sub, crs .cmp, crs .mul, crs .and, crs .or, crs .xor,
  -- Group 2: ALU (RR)
  [.rr .cpy, .rr .add, .rr .sub, .rr .cmp, .rr .mul, .rr .and, .rr .or, .rr .xor],
  -- Group 3: Shift/Logic
  [.shift .shl, .shift .shr, .shift .asr, .rr .shl, .rr .shr, .rr .asr, .rr .lnot, .rr .land, .rr .swp,
    .rr .ext],
  -- Group 4: Division
  [.div .rrr, .div .rrrU],
  -- Group 5: Min/Max/Abs
  crs .min, crs .max, [.rr .min, .rr .max, .rr .abs],
  -- Group 6: Set-on-Comparison (CR)
  scrs .seq, scrs .sne, scrs .slt, scrs .sle, scrs .sgt, scrs .sge,
  -- Group 7: Set-on-Comparison (RR)
  [.rr .seq, .rr .sne, .rr .slt, .rr .sle, .rr .sgt, .rr .sge],
  -- Group 11: Load/Store (Indexed I)
  [.ir .l, .ir .b, .ir .s, .ir .i, .ir .ub, .ir .us, .ir .ui, .ir .lea, .ri .l, .ri .b, .ri .s, .ri .i],
  -- Group 12: Load/Store (Indexed D)
  [.rd .l, .rd .b, .rd .s, .rd .i, .dr .l, .dr .b, .dr .s, .dr .i, .dr .ub, .dr .us, .dr .ui, .dr .lea],
  -- Group 16: Float Memory/Cmp
  [.ir .f, .ri .f, .dr .f, .fd, .rr .cmpF],
  -- Group 8: Branch (Conditional)
  branches false .beq, branches false .bne, branches false .bge, branches false .blt,
    branches false .ble, branches false .bgt,
  -- Group 9: Branch (Float)
  branches true .beq, branches true .bne, branches true .bge, branches true .blt,
    branches true .ble, branches true .bgt,
  -- Group 10: Jump/Call
  jumps .call, jumps .jmp, jumps .callP, jumps .jmpP,
    [.viaR .call, .viaR .jmp, .viaI .call, .viaI .jmp],
  -- Group 13: PC Relative / System
  [.pr .cpy, .pr .lea, .callAbi, .ret, .sync, .brk],
  -- Group 14: Float ALU
  [.rr .addF, .rr .subF, .rr .mulF, .rr .divF, .rr .minF, .rr .maxF, .rr .sqrtF, .rr .absF, .rr .negF,
    .rr .cpyF],
  -- Group 15: Float Convert/Copy
  [.rr .cvtRf, .rr .cvtFr, .rr .cpyRf, .rr .cpyFr]]

/-- What `next-opcode` counts, with how many it takes, in the order of the emit functions. -/
def counted : List (Opcode × ℕ) :=
  [(.cr .cpy 0, 4), (.cr .add 0, 4), (.cr .sub 0, 4), (.cr .cmp 0, 4), (.cr .mul 0, 4), (.cr .and 0, 4),
    (.cr .or 0, 4), (.cr .xor 0, 4),
    (.rr .cpy, 1), (.rr .add, 1), (.rr .sub, 1), (.rr .cmp, 1), (.rr .mul, 1), (.rr .and, 1), (.rr .or, 1),
    (.rr .xor, 1),
    (.shift .shl, 1), (.shift .shr, 1), (.shift .asr, 1), (.rr .shl, 1), (.rr .shr, 1), (.rr .asr, 1),
    (.rr .lnot, 1), (.rr .land, 1), (.rr .swp, 1), (.rr .ext, 1),
    (.div .rrr, 1), (.div .rrrU, 1),
    (.cr .min 0, 4), (.cr .max 0, 4), (.rr .min, 1), (.rr .max, 1), (.rr .abs, 1),
    (.scr .seq 0, 3), (.scr .sne 0, 3), (.scr .slt 0, 3), (.scr .sle 0, 3), (.scr .sgt 0, 3),
    (.scr .sge 0, 3),
    (.rr .seq, 1), (.rr .sne, 1), (.rr .slt, 1), (.rr .sle, 1), (.rr .sgt, 1), (.rr .sge, 1),
    (.ir .l, 1), (.ir .b, 1), (.ir .s, 1), (.ir .i, 1), (.ir .ub, 1), (.ir .us, 1), (.ir .ui, 1),
      (.ir .lea, 1),
    (.ri .l, 1), (.ri .b, 1), (.ri .s, 1), (.ri .i, 1),
    (.rd .l, 1), (.rd .b, 1), (.rd .s, 1), (.rd .i, 1), (.dr .l, 1), (.dr .b, 1), (.dr .s, 1), (.dr .i, 1),
    (.dr .ub, 1), (.dr .us, 1), (.dr .ui, 1), (.dr .lea, 1),
    (.ir .f, 1), (.ri .f, 1), (.dr .f, 1), (.fd, 1), (.rr .cmpF, 1),
    (.branch false .beq 0, 2), (.branch false .bne 0, 2), (.branch false .bge 0, 2),
      (.branch false .blt 0, 2),
    (.branch false .ble 0, 2), (.branch false .bgt 0, 2),
    (.branch true .beq 0, 2), (.branch true .bne 0, 2), (.branch true .bge 0, 2), (.branch true .blt 0, 2),
    (.branch true .ble 0, 2), (.branch true .bgt 0, 2),
    (.jump .call 0, 2), (.jump .jmp 0, 2), (.jump .callP 0, 2), (.jump .jmpP 0, 2), (.viaR .call, 1),
    (.viaR .jmp, 1), (.viaI .call, 1), (.viaI .jmp, 1),
    (.pr .cpy, 1), (.pr .lea, 1), (.callAbi, 1), (.ret, 1), (.sync, 1), (.brk, 1),
    (.rr .addF, 1), (.rr .subF, 1), (.rr .mulF, 1), (.rr .divF, 1), (.rr .minF, 1), (.rr .maxF, 1),
    (.rr .sqrtF, 1), (.rr .absF, 1), (.rr .negF, 1), (.rr .cpyF, 1),
    (.rr .cvtRf, 1), (.rr .cvtFr, 1), (.rr .cpyRf, 1), (.rr .cpyFr, 1)]

def nextFrom (o : Opcode) : List (Opcode × ℕ) → ℕ
  | [] => 0
  | (o', n) :: rest => if o' = o then 0 else n + nextFrom o rest

/-- The opcode an emit function has from `(next-opcode)`, the first of its forms. -/
def nextOpcode (o : Opcode) : ℕ := nextFrom o counted

/-! ## What is emitted -/

/-- What is thrown: "<function> constant out of range !", with the function it is of. -/
inductive Thrown where
  | shiftCr | scr | ir | ri | branch | callJmpP | callJmpI | p | callAbi
deriving DecidableEq

/-- A register as a number of Lisp. -/
def num (r : Reg) : Num := BitVec.ofNat 64 r.val

/-- `(+ o (<< d 8) (<< s 12))` -/
def word (o : ℕ) (d s : Num) : Num := BitVec.ofNat 64 o + (d <<< 8) + (s <<< 12)

def vp64Scr (o : ℕ) (c : Num) (d : Reg) : Except Thrown (List ℕ) :=
  if within c 4 then .ok (emitmShort [word o (num d) c])
  else if within c 20 then .ok (emitmShort [word (o + 1) (num d) c, c.sshiftRight 4])
  else if within c 36 then .ok (emitmShort [word (o + 2) (num d) c, c.sshiftRight 4, c.sshiftRight 20])
  else .error .scr

def vp64ShiftCr (o : ℕ) (c : Num) (r : Reg) : Except Thrown (List ℕ) :=
  if c = 0 then .ok []
  else if 1 ≤ c.toInt ∧ c.toInt ≤ 63 then .ok (emitmShort [word o (num r) 0, c])
  else .error .shiftCr

def vp64Ir (o : ℕ) (s : Reg) (c : Num) (d : Reg) : Except Thrown (List ℕ) :=
  if within c 16 then .ok (emitmShort [word o (num d) (num s), c]) else .error .ir

def vp64Ri (o : ℕ) (s d : Reg) (c : Num) : Except Thrown (List ℕ) :=
  if within c 16 then .ok (emitmShort [word o (num d) (num s), c]) else .error .ri

def vp64Rd (o : ℕ) (s d1 d2 : Reg) : List ℕ := emitmShort [word o (num d1) (num d2), num s]

def vp64Dr (o : ℕ) (s1 s2 d : Reg) : List ℕ := emitmShort [word o (num d) (num s1), num s2]

/-- The distance that goes with a branch: the one that is in `*offsets*`, or that of this pass, if
    it is not the first and this is longer. -/
def farthest (pass : ℕ) (m l : Num) : Num := if 0 < pass ∧ m.abs.slt l.abs then l else m

/-- A short with a distance above the opcode. -/
def far (o : ℕ) (c : Num) : Num := BitVec.ofNat 64 o + (c <<< 8)

def vp64Branch (o : ℕ) (pass : ℕ) (m pc l : Num) : Except Thrown (List ℕ) :=
  let l := l - pc
  let m := farthest pass m l
  if within (m - 2) 8 then .ok (emitmShort [far o (l - 2)])
  else if within (m - 4) 24 then .ok (emitmShort [far (o + 1) (l - 4), (l - 4).sshiftRight 8])
  else .error .branch

def vp64CallJmpP (o : ℕ) (pc l : Num) : Except Thrown (List ℕ) :=
  if within (l - pc - 2) 8 then .ok (emitmShort [far o (l - pc - 2)])
  else if within (l - pc - 4) 24 then
    .ok (emitmShort [far (o + 1) (l - pc - 4), (l - pc - 4).sshiftRight 8])
  else .error .callJmpP

def vp64CallJmpI (o : ℕ) (r : Reg) (c : Num) : Except Thrown (List ℕ) :=
  if within c 20 then .ok (emitmShort [word o (num r) c, c.sshiftRight 4]) else .error .callJmpI

def vp64P (o : ℕ) (pc : Num) (r : Reg) (l : Num) : Except Thrown (List ℕ) :=
  if within (l - pc - 4) 20 then .ok (emitmShort [word o (num r) (l - pc - 4), (l - pc - 4).sshiftRight 4])
  else .error .p

/-- The constant an operation leaves a register as it is with. -/
def Cr.idle : Cr → Option Num
  | .add | .sub | .or | .xor => some 0
  | .mul => some 1
  | .and => some (-1)
  | .cpy | .cmp | .min | .max => none

/-- What leaves a register as it is that is both of its own. -/
def Rr.idle : Rr → Bool
  | .cpy | .and | .or | .swp | .min | .max | .cpyF => true
  | _ => false

/-- An emit function with its operands. A label is where it stands, and a branch goes with what
    `*offsets*` has for it. -/
inductive Emit where
  | cr (o : Cr) (c : Num) (r : Reg)
  | scr (o : Scr) (c : Num) (d : Reg)
  | rr (o : Rr) (s d : Reg)
  | shift (o : Shift) (c : Num) (r : Reg)
  | div (o : Div) (s d2 d1 : Reg)
  | ir (o : Ir) (s : Reg) (c : Num) (d : Reg)
  | ri (o : Ri) (s d : Reg) (c : Num)
  | rd (o : Rd) (s b i : Reg)
  | dr (o : Dr) (b i d : Reg)
  | fd (s b i : Reg)
  | branchCr (o : Cond) (c : Num) (d : Reg) (l m : Num)
  | branchRr (o : Cond) (s d : Reg) (l m : Num)
  | branchFf (o : Cond) (s d : Reg) (l m : Num)
  | jump (o : Jump) (l : Num)
  | viaR (o : Via) (r : Reg)
  | viaI (o : Via) (r : Reg) (c : Num)
  | pr (o : Pr) (l : Num) (r : Reg)
  | callAbi (b : Reg) (c n : Num)
  | ret
  | sync (n : Num)
  | brk (n : Num)

/-- The place after so many shorts. -/
def past (pc : Num) (shorts : List ℕ) : Num := pc + BitVec.ofNat 64 (2 * shorts.length)

def emitBranch (float : Bool) (o : Cond) (pass : ℕ) (m pc l : Num) (cmp : List ℕ) : Except Thrown (List ℕ) :=
  (vp64Branch (nextOpcode (.branch float o 0)) pass m (past pc cmp) l).map (cmp ++ ·)

/-- What is written on a pass, with `*pc*` where it is. -/
def emit (pass : ℕ) (pc : Num) : Emit → Except Thrown (List ℕ)
  | .cr o c r => .ok (if o.idle = some c then [] else vp64Cr (nextOpcode (.cr o 0)) c r)
  | .scr o c d => vp64Scr (nextOpcode (.scr o 0)) c d
  | .rr o s d =>
      .ok (if o.idle = true ∧ s = d then [] else emitmShort [word (nextOpcode (.rr o)) (num d) (num s)])
  | .shift o c r => vp64ShiftCr (nextOpcode (.shift o)) c r
  | .div o s d2 d1 => .ok (emitmShort [word (nextOpcode (.div o)) (num d1) (num d2), num s])
  -- there is no check of the offset for a float
  | .ir .f s c d => .ok (emitmShort [word (nextOpcode (.ir .f)) (num d) (num s), c])
  | .ir o s c d => vp64Ir (nextOpcode (.ir o)) s c d
  | .ri .f s d c => .ok (emitmShort [word (nextOpcode (.ri .f)) (num d) (num s), c])
  | .ri o s d c => vp64Ri (nextOpcode (.ri o)) s d c
  | .rd .l s d1 d2 => .ok (vp64Rd (nextOpcode (.rd .l)) s d1 d2)
  -- the typed ones name the two the other way round
  | .rd o s d2 d1 => .ok (vp64Rd (nextOpcode (.rd o)) s d1 d2)
  | .dr o s1 s2 d => .ok (vp64Dr (nextOpcode (.dr o)) s1 s2 d)
  | .fd s d1 d2 => .ok (vp64Dr (nextOpcode .fd) d1 d2 s)
  | .branchCr o c d l m => emitBranch false o pass m pc l (vp64Cr (nextOpcode (.cr .cmp 0)) c d)
  | .branchRr o s d l m =>
      emitBranch false o pass m pc l (emitmShort [word (nextOpcode (.rr .cmp)) (num d) (num s)])
  | .branchFf o s d l m =>
      emitBranch true o pass m pc l (emitmShort [word (nextOpcode (.rr .cmpF)) (num d) (num s)])
  | .jump o l => vp64CallJmpP (nextOpcode (.jump o 0)) pc l
  | .viaR o r => .ok (emitmShort [word (nextOpcode (.viaR o)) (num r) 0])
  | .viaI o r c => vp64CallJmpI (nextOpcode (.viaI o)) r c
  | .pr o l r => vp64P (nextOpcode (.pr o)) pc r l
  | .callAbi b c n =>
      if 0 ≤ c.toInt ∧ c.toInt ≤ 0x10000 - 8 then .ok (emitmShort [word (nextOpcode .callAbi) (num b) n, c])
      else .error .callAbi
  | .ret => .ok (emitmShort [BitVec.ofNat 64 (nextOpcode .ret)])
  | .sync n => .ok (emitmShort [far (nextOpcode .sync) n])
  | .brk n => .ok (emitmShort [far (nextOpcode .brk) n])

/-! ## What is taken -/

/-- An instruction, with what its `vp_` macro is given. An address is the sum of two registers, either way
    round; a distance is from where the next instruction is, so it is given as the place it goes to. -/
inductive Instr where
  | cr (o : Cr) (c : Num) (r : ℕ)
  | scr (o : Scr) (c : Num) (d : ℕ)
  | rr (o : Rr) (s d : ℕ)
  | shift (o : Shift) (c : Num) (r : ℕ)
  | div (o : Div) (s d2 d1 : ℕ)
  | ir (o : Ir) (s : ℕ) (c : Num) (d : ℕ)
  | ri (o : Ri) (s d : ℕ) (c : Num)
  | rd (o : Rd) (s : ℕ) (address : Sym2 ℕ)
  | dr (o : Dr) (address : Sym2 ℕ) (d : ℕ)
  | fd (s : ℕ) (address : Sym2 ℕ)
  | branch (float : Bool) (o : Cond) (target : Num)
  | jump (o : Jump) (target : Num)
  | viaR (o : Via) (r : ℕ)
  | viaI (o : Via) (r : ℕ) (c : Num)
  | pr (o : Pr) (place : Num) (r : ℕ)
  | callAbi (n b : ℕ) (c : Num)
  | ret
  | sync (n : Num)
  | brk (n : Num)
deriving DecidableEq

/-- `vd_o0` -/
def o0 (ir : ℕ) : Num := BitVec.ofInt 64 (signed 8 (field ir 8 8))

/-- `vd_o1` -/
def o1 (ir i : ℕ) : Num := BitVec.ofNat 64 (field ir 8 8) + (sx i <<< 8)

/-- A distance of a form, and what follows it. -/
def distance : ℕ → ℕ → List ℕ → Option (Num × List ℕ)
  | 0, ir, pc => some (o0 ir, pc)
  | 1, ir, i :: pc => some (o1 ir i, pc)
  | _, _, _ => none

/-- The next short, by what it is for. -/
def nextShort : List ℕ → Option (ℕ × List ℕ)
  | [] => none
  | i :: pc => some (i, pc)

/-- The instruction of an opcode; its own short, and those after it. `pc` is where it stands. -/
def decodeAt (pc : Num) (ir : ℕ) (rest : List ℕ) : Opcode → Option (Instr × List ℕ)
  | .cr o form => (constant form ir rest).map fun p => (.cr o p.1 (dr ir), p.2)
  | .scr o form => (constant form ir rest).map fun p => (.scr o p.1 (dr ir), p.2)
  | .rr o => some (.rr o (sr ir) (dr ir), rest)
  | .shift o => (nextShort rest).map fun p => (.shift o (sc p.1) (dr ir), p.2)
  | .div o => (nextShort rest).map fun p => (.div o p.1 (sr ir) (dr ir), p.2)
  | .ir o => (nextShort rest).map fun p => (.ir o (sr ir) (sx p.1) (dr ir), p.2)
  | .ri o => (nextShort rest).map fun p => (.ri o (sr ir) (dr ir) (sx p.1), p.2)
  | .rd o => (nextShort rest).map fun p => (.rd o p.1 s(dr ir, sr ir), p.2)
  | .dr o => (nextShort rest).map fun p => (.dr o s(sr ir, p.1) (dr ir), p.2)
  | .fd => (nextShort rest).map fun p => (.fd (dr ir) s(sr ir, p.1), p.2)
  | .branch float o form =>
      (distance form ir rest).map fun p =>
        (.branch float o (pc + BitVec.ofNat 64 (2 * (1 + form)) + p.1), p.2)
  | .jump o form =>
      (distance form ir rest).map fun p => (.jump o (pc + BitVec.ofNat 64 (2 * (1 + form)) + p.1), p.2)
  | .viaR o => some (.viaR o (dr ir), rest)
  | .viaI o => (nextShort rest).map fun p => (.viaI o (dr ir) (c1 ir p.1), p.2)
  | .pr o => (nextShort rest).map fun p => (.pr o (pc + 4 + c1 ir p.1) (dr ir), p.2)
  | .callAbi => (nextShort rest).map fun p => (.callAbi (sr ir) (dr ir) (sc p.1), p.2)
  | .ret => some (.ret, rest)
  | .sync => some (.sync (BitVec.ofInt 64 (signed 8 (field ir 8 8))), rest)
  | .brk => some (.brk (BitVec.ofNat 64 (field ir 8 8)), rest)

/-- A turn of the loop. -/
def decode (pc : Num) : List ℕ → Option (Instr × List ℕ)
  | [] => none
  | ir :: rest =>
      match opcodes[ir % 256]? with
      | none => none
      | some o => decodeAt pc ir rest o

/-- So many turns. -/
def decodes : ℕ → Num → List ℕ → Option (List Instr × List ℕ)
  | 0, _, shorts => some ([], shorts)
  | n + 1, pc, shorts =>
      match decode pc shorts with
      | none => none
      | some (i, rest) =>
          (decodes n (pc + BitVec.ofNat 64 (2 * (shorts.length - rest.length))) rest).map
            fun p => (i :: p.1, p.2)

/-- The instructions an emit function is to be: none, where what it does leaves everything as it is, and a
    compare and a branch for those that are both. -/
def Emit.means : Emit → List Instr
  | .cr o c r => if o.idle = some c then [] else [.cr o c r]
  | .scr o c d => [.scr o c d]
  | .rr o s d => if o.idle = true ∧ s = d then [] else [.rr o s d]
  | .shift o c r => if c = 0 then [] else [.shift o c r]
  | .div o s d2 d1 => [.div o s d2 d1]
  | .ir o s c d => [.ir o s c d]
  | .ri o s d c => [.ri o s d c]
  | .rd o s b i => [.rd o s s(b.val, i.val)]
  | .dr o b i d => [.dr o s(b.val, i.val) d]
  | .fd s b i => [.fd s s(b.val, i.val)]
  | .branchCr o c d l _ => [.cr .cmp c d, .branch false o l]
  | .branchRr o s d l _ => [.rr .cmp s d, .branch false o l]
  | .branchFf o s d l _ => [.rr .cmpF s d, .branch true o l]
  | .jump o l => [.jump o l]
  | .viaR o r => [.viaR o r]
  | .viaI o r c => [.viaI o r c]
  | .pr o l r => [.pr o l r]
  | .callAbi b c n => [.callAbi n.toNat b c]
  | .ret => [.ret]
  | .sync n => [.sync n]
  | .brk n => [.brk n]

end ChrysaLisp.Trans.Vp64
