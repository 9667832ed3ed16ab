import ChrysaLisp.Library.Memory
import ChrysaLisp.Lisp.Form

set_option autoImplicit false

/-! # The inputs of a shader

`lib/gpu/shader.inc`: the values of the inputs for a frame travel as one block of bytes. Where each
lies in it is `shaderLayout`, `shaderPack` writes them and `shaderUnpack` reads them. A float is
made of a real on the bits of the two formats (`shRealToFloat`, `shFloatToReal`), a matrix is turned
from rows to columns on the way in and back on the way out. A real is the 64 bits of it. -/

namespace ChrysaLisp.Shader

inductive InputType
  | float
  | int
  | vec2
  | vec3
  | vec4
  | mat4
deriving DecidableEq

/-- A number: a `:num`, a `:fixed` by its 65536ths, a `:real` by its bits. -/
inductive Num
  | int (val : BitVec 64)
  | fixed (raw : BitVec 64)
  | real (bits : BitVec 64)
deriving DecidableEq

/-- What is given for an input: a number, or a sequence of them. -/
inductive Val
  | num (val : Num)
  | seq (elems : List Num)
deriving DecidableEq

/-- An input of a program, with its default. -/
structure Input where
  name : Str
  type : InputType
  val : Val

structure Field where
  name : Str
  type : InputType
  offset : ℕ
deriving DecidableEq

/-! ## The layout -/

def shaderDim : InputType → Option ℕ
  | .vec2 => some 2
  | .vec3 => some 3
  | .vec4 => some 4
  | _ => none

/-- How many numbers a value of the type is. -/
def shaderSize (type : InputType) : ℕ :=
  if type = .mat4 then 16 else (shaderDim type).getD 1

def align (num div : ℕ) : ℕ := if num % div = 0 then num else num / div * div + div

/-- What an input is aligned to, of how many numbers it is. -/
def alignTo (d : ℕ) : ℕ := if d = 16 then 16 else [0, 4, 8, 16, 16].getD d 0

/-- The fields of inputs from `offset` on, and where they end. -/
def layoutFrom (offset : ℕ) : List Input → ℕ × List Field
  | [] => (offset, [])
  | input :: inputs =>
      let d := shaderSize input.type
      let o := align offset (alignTo d)
      let rest := layoutFrom (o + d * 4) inputs
      (rest.1, ⟨input.name, input.type, o⟩ :: rest.2)

/-- The size of the block, and its fields. -/
def shaderLayout (inputs : List Input) : ℕ × List Field :=
  let laid := layoutFrom 0 inputs
  (align laid.1 16, laid.2)

/-! ## Numbers -/

/-- What the machine makes of a real and of an int, and `str-to-real`. -/
structure Conversions where
  cvtFr : BitVec 64 → BitVec 64
  cvtRf : BitVec 64 → BitVec 64
  strToReal : Str → BitVec 64

/-- `(sh-decimal form)` of a fixed, to 4 decimal places. -/
def shDecimal (raw : BitVec 64) : Str :=
  let abs := if raw.msb then -raw else raw
  let n := ((abs * 655360000).sshiftRight 16 + 32768).sshiftRight 16
  let low := Forms.printNum (n.srem 10000)
  (if raw.msb then [45] else []) ++ Forms.printNum (n.sdiv 10000) ++ [46] ++
    ((List.replicate 4 48).take (4 - low.length) ++ low)

variable (c : Conversions)

/-- `(n2i num)`. -/
def n2i : Num → BitVec 64
  | .int val => val
  | .fixed raw => raw.sshiftRight 16
  | .real bits => c.cvtFr bits

/-- `(shader-real num)`. -/
def shaderReal : Num → BitVec 64
  | .real bits => bits
  | .fixed raw => c.strToReal (shDecimal raw)
  | .int val => c.cvtRf val

/-- The bits of a 32 bit float, of the bits of a real. -/
def shRealToFloat (val : BitVec 64) : BitVec 64 :=
  let e := ((val >>> 52) &&& 0x7ff) - 896
  let m := ((val &&& 0xfffffffffffff) + 0x10000000) >>> 29
  -- a tie rounds to even, then the mantissa may have carried
  let m := if val &&& 0x1fffffff = 0x10000000 ∧ m &&& 1 = 1 then m - 1 else m
  let (m, e) := if m = 0x800000 then (0, e + 1) else (m, e)
  if e.sle 0 then 0
  else if (255 : BitVec 64).sle e then ((val >>> 63) <<< 31) ||| 0x7f800000
  else ((val >>> 63) <<< 31) ||| (e <<< 23) ||| m

/-- A real of the bits of a 32 bit float. -/
def shFloatToReal (val : BitVec 64) : BitVec 64 :=
  let e := (val >>> 23) &&& 0xff
  if e = 0 then 0
  else (((val >>> 31) &&& 1) <<< 63) ||| ((e + 896) <<< 52) ||| ((val &&& 0x7fffff) <<< 29)

/-! ## The block -/

/-- `(set-int str idx num)`, the low 32 bits of it. -/
def setInt (block : ℕ → Byte) (idx : ℕ) (val : BitVec 64) : ℕ → Byte :=
  Memory.store block idx (Memory.bytesOf 4 val.toNat)

/-- `(get-uint str idx)`. -/
def getUint (block : Str) (idx : ℕ) : BitVec 64 := BitVec.ofNat 64 (Memory.numOf ((block.drop idx).take 4))

/-- `(get-int str idx)`. -/
def getInt (block : Str) (idx : ℕ) : BitVec 64 := ((getUint block idx).setWidth 32).signExtend 64

/-- The value of an input: the first that is given under its name, else its default. -/
def given (vals : List (Str × Val)) (input : Input) : Val :=
  ((vals.find? fun val => decide (val.1 = input.name)).map Prod.snd).getD input.val

/-- One turn of `shader-pack`. A number where a vector is wanted is left out, and a sequence where a
    number is wanted is an error, as a vector of the wrong size is. -/
def packField (vals : List (Str × Val)) (block : ℕ → Byte) (field : Field) (input : Input) :
    Option (ℕ → Byte) :=
  match field.type, given vals input with
  | .int, .num val => some (setInt block field.offset (n2i c val))
  | .int, .seq _ => none
  | .float, .num val => some (setInt block field.offset (shRealToFloat (shaderReal c val)))
  | .float, .seq _ => none
  | _, .num _ => some block
  | type, .seq elems =>
      if elems.length ≠ shaderSize type then none
      else if type = .mat4 then
        -- a row at a time to a column at a time
        some (elems.zipIdx.foldl (fun block (elem, i) =>
          setInt block (field.offset + (i % 4 * 4 + i / 4) * 4) (shRealToFloat (shaderReal c elem))) block)
      else
        some (elems.zipIdx.foldl (fun block (elem, i) =>
          setInt block (field.offset + i * 4) (shRealToFloat (shaderReal c elem))) block)

/-- `(shader-pack program [((name val) ...)])`. -/
def shaderPack (inputs : List Input) (vals : List (Str × Val)) : Option Str :=
  let (size, fields) := shaderLayout inputs
  ((fields.zip inputs).foldlM (fun block pair => packField c vals block pair.1 pair.2) fun _ => 0).map
    fun block => Memory.load block 0 size

/-- The value of a field of a block. -/
def unpackField (block : Str) (field : Field) : Val :=
  match field.type with
  | .int => .num (.int (getInt block field.offset))
  | .float => .num (.real (shFloatToReal (getUint block field.offset)))
  | .mat4 => .seq ((List.range 16).map fun i =>
      .real (shFloatToReal (getUint block (field.offset + (i % 4 * 4 + i / 4) * 4))))
  | type => .seq ((List.range ((shaderDim type).getD 0)).map fun i =>
      .real (shFloatToReal (getUint block (field.offset + i * 4))))

/-- `(shader-unpack program block)`. -/
def shaderUnpack (inputs : List Input) (block : Str) : List (Str × Val) :=
  (shaderLayout inputs).2.map fun field => (field.name, unpackField block field)

end ChrysaLisp.Shader
