import ChrysaLisp.Library.Memory
import ChrysaLisp.Lisp.Str
import Mathlib.Data.BitVec
import Mathlib.Data.List.Basic

set_option autoImplicit false

/-! # Assignment

`lib/asm/assign.inc`, from lists to lists: each source is copied to the destination that is at its place. What
is to be ignored is left out, the copies are sorted so that no register is written that a later one uses, and
of each an instruction is emitted, by what kinds its two sides are.

What the instructions do is here, too: a register has 64 bits, and memory its bytes, the low one first. -/

namespace ChrysaLisp.Asm

open Memory

/-- A register: `:r0` to `:r14` and `:rsp`, or `:f0` to `:f15`. -/
inductive Reg where
  | r (n : Fin 16)
  | f (n : Fin 16)
deriving DecidableEq

/-- How a memory reference is typed: a long, or `i`, `ui`, `s`, `us`, `b` or `ub`. -/
inductive Ty where
  | l | i | ui | s | us | b | ub
deriving DecidableEq

def Ty.size : Ty → ℕ
  | .l => 8
  | .i | .ui => 4
  | .s | .us => 2
  | .b | .ub => 1

/-- What `assign-src-type` tells apart. A constant is what it is evaluated to; a label, what is bound and a
    string are by name. -/
inductive Src where
  | reg (r : Reg)
  | c (c : BitVec 64)
  | s (s : Str)
  | label (l : Str)
  | bind (p : Str)
  | addrI (b : Fin 16) (i : BitVec 64)
  | addrD (b i : Fin 16)
  | i (t : Ty) (b : Fin 16) (i : BitVec 64)
  | d (t : Ty) (b i : Fin 16)
deriving DecidableEq

/-- What `assign-dst-type` tells apart, and `_`. -/
inductive Dst where
  | ignored
  | reg (r : Reg)
  | i (t : Ty) (b : Fin 16) (i : BitVec 64)
  | d (t : Ty) (b i : Fin 16)
deriving DecidableEq

structure Copy where
  src : Src
  dst : Dst
deriving DecidableEq

/-- The registers of a source, be it one or a list of what it is made of. -/
def Src.regs : Src → List Reg
  | .reg r => [r]
  | .addrI b _ => [.r b]
  | .addrD b x => [.r b, .r x]
  | .i _ b _ => [.r b]
  | .d _ b x => [.r b, .r x]
  | _ => []

/-- The registers of a destination that is a list. -/
def Dst.regs : Dst → List Reg
  | .i _ b _ => [.r b]
  | .d _ b x => [.r b, .r x]
  | _ => []

/-- Is what is written a register, and one that a copy uses. -/
def Copy.uses (c : Copy) : Dst → Bool
  | .reg r => decide (r ∈ c.src.regs ∨ r ∈ c.dst.regs)
  | _ => false

/-! ## The order -/

/-- `assign-ignored-to-asm`: the pairs that stay. -/
def Copy.kept (c : Copy) : Bool :=
  match c.src, c.dst with
  | _, .ignored => false
  | .reg r, .reg r' => decide (r ≠ r')
  | _, _ => true

/-- The last that uses what `x` writes, and the others. -/
def lastUse (x : Copy) : List Copy → Option (Copy × List Copy)
  | [] => none
  | c :: cs =>
      match lastUse x cs with
      | some (r, others) => some (r, c :: others)
      | none => if c.uses x.dst then some (c, cs) else none

/-- The loop of `assign-topology-sort`, from where `i` is: `rotate` brings the last use to the
    front, `c` times at most, and `i` goes on where there is none. With it goes what is left of `c`.
    -/
def sortFrom : ℕ → ℕ → List Copy → ℕ × List Copy
  | n + 1, c, x :: y :: rest =>
      if c = 0 then (0, x :: y :: rest)
      else
        match lastUse x (y :: rest) with
        | some (r, others) => sortFrom n (c - 1) (r :: x :: others)
        | none => ((sortFrom n c (y :: rest)).1, x :: (sortFrom n c (y :: rest)).2)
  | _, c, l => (c, l)

/-- What is thrown: "Mismatching number of src/dst parameters !", "Copy cycle detected !" and "Invalid dst
    parameter !". -/
inductive Thrown where
  | mismatch
  | cycle
  | invalidDst
deriving DecidableEq

def assignTopologySort (l : List Copy) : Except Thrown (List Copy) :=
  let sorted := sortFrom (l.length - 1 + 1000) 1000 l
  if sorted.1 = 0 then .error .cycle else .ok sorted.2

/-! ## The instructions -/

inductive Inst where
  | cpyRr (s d : Fin 16)
  | cpyRf (s d : Fin 16)
  | cpyFr (s d : Fin 16)
  | cpyFf (s d : Fin 16)
  | cpyCr (c : BitVec 64) (d : Fin 16)
  | cpyPr (p : Str) (d : Fin 16)
  | leaP (l : Str) (d : Fin 16)
  | leaString (s : Str) (d : Fin 16)
  | leaI (b : Fin 16) (i : BitVec 64) (d : Fin 16)
  | leaD (b i d : Fin 16)
  | cpyIr (t : Ty) (b : Fin 16) (i : BitVec 64) (d : Fin 16)
  | cpyDr (t : Ty) (b i d : Fin 16)
  | cpyRi (size : ℕ) (s b : Fin 16) (i : BitVec 64)
  | cpyRd (size : ℕ) (s b i : Fin 16)
  | cpyIf (b : Fin 16) (i : BitVec 64) (d : Fin 16)
  | cpyDf (b i d : Fin 16)
  | cpyFi (s b : Fin 16) (i : BitVec 64)
  | cpyFd (s b i : Fin 16)
deriving DecidableEq

/-- What is emitted of a copy: an instruction; nothing, where the two kinds have none; an instruction no
    target has, of a destination it can not have; or it throws. -/
inductive Emitted where
  | inst (i : Inst)
  | nothing
  | malformed
  | throws
deriving DecidableEq

/-- What goes to a register of the `:r` only, whatever the destination is. -/
def toReg (inst : Fin 16 → Inst) : Dst → Emitted
  | .reg (.r d) => .inst (inst d)
  | _ => .malformed

def emit (c : Copy) : Emitted :=
  match c.src with
  | .reg (.r s) =>
      match c.dst with
      | .reg (.r d) => .inst (.cpyRr s d)
      | .reg (.f d) => .inst (.cpyRf s d)
      | .i t b i => .inst (.cpyRi t.size s b i)
      | .d t b i => .inst (.cpyRd t.size s b i)
      | .ignored => .throws
  | .reg (.f s) =>
      match c.dst with
      | .reg (.r d) => .inst (.cpyFr s d)
      | .reg (.f d) => .inst (.cpyFf s d)
      | .i .l b i => .inst (.cpyFi s b i)
      | .d .l b i => .inst (.cpyFd s b i)
      | _ => .throws
  | .i .l b i =>
      match c.dst with
      | .reg (.r d) => .inst (.cpyIr .l b i d)
      | .reg (.f d) => .inst (.cpyIf b i d)
      | _ => .nothing
  | .d .l b i =>
      match c.dst with
      | .reg (.r d) => .inst (.cpyDr .l b i d)
      | .reg (.f d) => .inst (.cpyDf b i d)
      | _ => .nothing
  | .i t b i => toReg (.cpyIr t b i) c.dst
  | .d t b i => toReg (.cpyDr t b i) c.dst
  | .c v => toReg (.cpyCr v) c.dst
  | .s str => toReg (.leaString str) c.dst
  | .label l => toReg (.leaP l) c.dst
  | .bind p => toReg (.cpyPr p) c.dst
  | .addrI b i => toReg (.leaI b i) c.dst
  | .addrD b i => toReg (.leaD b i) c.dst

/-- The copies there are to do. -/
def copies (src : List Src) (dst : List Dst) : List Copy :=
  ((src.zip dst).map (fun p => ⟨p.1, p.2⟩)).filter Copy.kept

/-- `assign-asm-to-asm`, as far as what is emitted of each copy. -/
def assignAsmToAsm (src : List Src) (dst : List Dst) : Except Thrown (List Emitted) :=
  if src.length ≠ dst.length then .error .mismatch
  else
    match (if 1 < (copies src dst).length then assignTopologySort (copies src dst)
      else .ok (copies src dst)) with
    | .error e => .error e
    | .ok sorted =>
        let out := sorted.map emit
        if Emitted.throws ∈ out then .error .invalidDst else .ok out

/-! ## What they do -/

/-- The registers and memory. -/
structure State where
  r : Fin 16 → BitVec 64
  f : Fin 16 → BitVec 64
  mem : BitVec 64 → Byte

/-- Where labels, strings and functions come to be. -/
structure Places where
  label : Str → BitVec 64
  string : Str → BitVec 64
  bind : Str → BitVec 64

/-- So many bytes, as the number they are. -/
def State.load (st : State) (a : BitVec 64) (n : ℕ) : ℕ :=
  numOf ((List.range n).map (fun k => st.mem (a + BitVec.ofNat 64 k)))

def State.store (st : State) (a : BitVec 64) (n : ℕ) (v : BitVec 64) : State :=
  { st with mem := fun p => (bytesOf n v.toNat).getD (p - a).toNat (st.mem p) }

/-- What is loaded of a type fills a register, with its sign if it has one. -/
def Ty.extend (t : Ty) (v : ℕ) : BitVec 64 :=
  match t with
  | .l | .ui | .us | .ub => BitVec.ofNat 64 v
  | .i => (BitVec.ofNat 32 v).signExtend 64
  | .s => (BitVec.ofNat 16 v).signExtend 64
  | .b => (BitVec.ofNat 8 v).signExtend 64

def State.setR (st : State) (d : Fin 16) (v : BitVec 64) : State :=
  { st with r := Function.update st.r d v }

def State.setF (st : State) (d : Fin 16) (v : BitVec 64) : State :=
  { st with f := Function.update st.f d v }

def exec (places : Places) (st : State) : Inst → State
  | .cpyRr s d => st.setR d (st.r s)
  | .cpyRf s d => st.setF d (st.r s)
  | .cpyFr s d => st.setR d (st.f s)
  | .cpyFf s d => st.setF d (st.f s)
  | .cpyCr c d => st.setR d c
  | .cpyPr p d => st.setR d (places.bind p)
  | .leaP l d => st.setR d (places.label l)
  | .leaString s d => st.setR d (places.string s)
  | .leaI b i d => st.setR d (st.r b + i)
  | .leaD b i d => st.setR d (st.r b + st.r i)
  | .cpyIr t b i d => st.setR d (t.extend (st.load (st.r b + i) t.size))
  | .cpyDr t b i d => st.setR d (t.extend (st.load (st.r b + st.r i) t.size))
  | .cpyRi size s b i => st.store (st.r b + i) size (st.r s)
  | .cpyRd size s b i => st.store (st.r b + st.r i) size (st.r s)
  | .cpyIf b i d => st.setF d (Ty.l.extend (st.load (st.r b + i) 8))
  | .cpyDf b i d => st.setF d (Ty.l.extend (st.load (st.r b + st.r i) 8))
  | .cpyFi s b i => st.store (st.r b + i) 8 (st.f s)
  | .cpyFd s b i => st.store (st.r b + st.r i) 8 (st.f s)

/-- What was emitted, one after another; what is no instruction does nothing. -/
def execAll (places : Places) (st : State) (out : List Emitted) : State :=
  out.foldl (fun st e => match e with | .inst i => exec places st i | _ => st) st

end ChrysaLisp.Asm
