import ChrysaLisp.Lisp.Str
import Mathlib.Data.List.DropRight

set_option autoImplicit false

/-! # Big numbers

`lib/math/bignum.inc`. A big number is limbs of 26 bits, the lowest first, in a `nums` of 64 bit numbers;
what is not yet put right in one may be more than a limb or less than 0.

Every sum, difference and product of parts is one of 63 bits with its sign or is none (`word`), a number
that has gone under 0 is none, the error of `bn-norm`, and neither is what a loop comes to that has not
ended in the turns it has. So what comes of these at all has kept within the 63 bits, and its loops have
ended. -/

namespace ChrysaLisp.Bignum

/-- A `nums`. -/
abbrev Nums := List ℤ

/-- `+bn_base`. -/
def base : ℤ := 2 ^ 26

/-- A number that has not left 63 bits, with its sign. -/
def word (v : ℤ) : Option ℤ := if -2 ^ 63 ≤ v ∧ v < 2 ^ 63 then some v else none

/-! ## `nums` -/

/-- `(nums-add a b)`. -/
def numsAdd (a b : Nums) : Option Nums :=
  if a ≠ [] ∧ a.length ≤ b.length then (List.zipWith (· + ·) a b).mapM word else none

/-- `(nums-sub a b)`. -/
def numsSub (a b : Nums) : Option Nums :=
  if a ≠ [] ∧ a.length ≤ b.length then (List.zipWith (· - ·) a b).mapM word else none

/-- `(nums-scale a k)`. -/
def numsScale (a : Nums) (k : ℤ) : Option Nums :=
  if a ≠ [] then (a.map (· * k)).mapM word else none

/-- Products, each added in turn to what is there. -/
def dotOnto : ℤ → List (ℤ × ℤ) → Option ℤ
  | acc, [] => some acc
  | acc, (x, y) :: rest => do
      let t ← word (x * y)
      let acc ← word (acc + t)
      dotOnto acc rest

/-- `(nums-dot a b)`. -/
def numsDot (a b : Nums) : Option ℤ :=
  if a ≠ [] ∧ a.length ≤ b.length then dotOnto 0 (a.zip b) else none

/-! ## Limbs -/

/-- `(bn-zeros n)`. -/
def bnZeros (n : ℕ) : Nums := List.replicate n 0

/-- `(bn-trim a)`. -/
def bnTrim (a : Nums) : Nums :=
  match a.rdropWhile (fun d => decide (d = 0)) with
  | [] => a.take 1
  | d :: l => d :: l

/-- The loop of `bn-norm` over the limbs there are: `logand` with the mask is what is left over the base,
and `>>>` by its bits how often it goes, down for a number below 0. -/
def normLoop : ℤ → Nums → Option (Nums × ℤ)
  | c, [] => some ([], c)
  | c, d :: l => do
      let v ← word (d + c)
      let (l, c) ← normLoop (v / base) l
      return (v % base :: l, c)

/-- New limbs at the top for a carry that is over, in so many turns. -/
def overLoop : (turns : ℕ) → ℤ → Option Nums
  | 0, _ => none
  | turns + 1, c =>
      if 0 < c then do
        let rest ← overLoop turns (c / base)
        return c % base :: rest
      else some []

/-- `(bn-norm a from)`. -/
def bnNorm (a : Nums) (from' : ℕ) : Option Nums := do
  let (l, c) ← normLoop 0 (a.drop from')
  if c < 0 then none
  else
    let over' ← overLoop 64 c
    return a.take from' ++ l ++ over'

/-- `(bn-from-num n)`. -/
def bnFromNum (n : ℤ) : Option Nums := bnNorm [n] 0

/-- `(bn-zero? a)`. -/
def bnZero (a : Nums) : Bool := a.all (fun d => decide (d = 0))

/-- The loop of `bn-cmp`, from the top down. -/
def cmpTop : List ℤ → List ℤ → ℤ
  | x :: a, y :: b => if x < y then -1 else if y < x then 1 else cmpTop a b
  | _, _ => 0

/-- `(bn-cmp a b)`. -/
def bnCmp (a b : Nums) : ℤ :=
  let a := bnTrim a
  let b := bnTrim b
  if a.length < b.length then -1
  else if b.length < a.length then 1
  else cmpTop a.reverse b.reverse

/-- `(bn-pad a n)`. -/
def bnPad (a : Nums) (n : ℕ) : Nums := if a.length < n then a ++ bnZeros (n - a.length) else a

/-! ## Bytes and bits -/

/-- The loop of `bn-from-bytes`, over the bytes from the last of them. -/
def fromBytesLoop : List Byte → (acc bits : ℕ) → Nums → Nums × ℕ × ℕ
  | [], acc, bits, out => (out, acc, bits)
  | c :: rest, acc, bits, out =>
      let acc := acc ||| c.val <<< bits
      let bits := bits + 8
      if 26 ≤ bits then fromBytesLoop rest (acc >>> 26) (bits - 26) (out ++ [((acc &&& 0x3ffffff : ℕ) : ℤ)])
      else fromBytesLoop rest acc bits out

/-- `(bn-from-bytes data)`. -/
def bnFromBytes (data : Str) : Nums :=
  let (out, acc, bits) := fromBytesLoop data.reverse 0 0 []
  bnTrim (if 0 < bits ∨ out = [] then out ++ [(acc : ℤ)] else out)

/-- The bytes there are in so many bits, in so many turns. -/
def bytesLoop : (turns : ℕ) → (acc bits : ℕ) → List ℕ → Option (List ℕ × ℕ × ℕ)
  | 0, _, _, _ => none
  | turns + 1, acc, bits, out =>
      if 8 ≤ bits then bytesLoop turns (acc >>> 8) (bits - 8) (out ++ [acc &&& 0xff])
      else some (out, acc, bits)

/-- The bytes of each limb in turn. -/
def limbsLoop : Nums → (acc bits : ℕ) → List ℕ → Option (List ℕ × ℕ × ℕ)
  | [], acc, bits, out => some (out, acc, bits)
  | d :: l, acc, bits, out => do
      let (out, acc, bits) ← bytesLoop 8 (acc ||| d.toNat <<< bits) (bits + 26) out
      limbsLoop l acc bits out

/-- `(bn-bytes a len)`. -/
def bnBytes (a : Nums) (len : ℕ) : Option Str := do
  let (out, acc, bits) ← limbsLoop a 0 0 []
  let out := if 0 < bits then out ++ [acc] else out
  let out := out ++ List.replicate (len - out.length) 0
  return ((out.take len).reverse).map (Fin.ofNat 256)

/-- How many bits a limb has, to the top one that is set, in so many turns. -/
def topLoop : (turns : ℕ) → ℤ → ℕ → Option ℕ
  | 0, _, _ => none
  | turns + 1, top, n => if 0 < top then topLoop turns (top / 2) (n + 1) else some n

/-- `(bn-bits a)`. -/
def bnBits (a : Nums) : Option ℕ := do
  let a := bnTrim a
  let top ← a.getLast?
  let n ← topLoop 64 top 0
  return (a.length - 1) * 26 + n

/-- `(bn-bit a i)`. -/
def bnBit (a : Nums) (i : ℕ) : ℤ :=
  let limb := i / 26
  if limb < a.length then a.getD limb 0 / 2 ^ (i % 26) % 2 else 0

/-! ## Arithmetic -/

/-- `(bn-add a b)`. -/
def bnAdd (a b : Nums) : Option Nums := do
  let n := max a.length b.length
  let s ← numsAdd (bnPad a n) (bnPad b n)
  bnNorm s 0

/-- `(bn-sub a b)`. -/
def bnSub (a b : Nums) : Option Nums := do
  let n := max a.length b.length
  let d ← numsSub (bnPad a n) (bnPad b n)
  let d ← bnNorm d 0
  return bnTrim d

/-- A limb of a product before the carries: the dot of a part of `a` and a part of `b` turned round. -/
def mulLimb (a rb : Nums) (k : ℕ) : Option ℤ :=
  let lo := k + 1 - rb.length
  let hi := min k (a.length - 1)
  let off : ℤ := rb.length - 1 - k
  numsDot ((a.take (hi + 1)).drop lo) ((rb.take (off + hi + 1).toNat).drop (off + lo).toNat)

/-- `(bn-mul a b)`. -/
def bnMul (a b : Nums) : Option Nums := do
  let out ← (List.range (a.length + b.length - 1)).mapM (mulLimb a b.reverse)
  bnNorm (out ++ [0]) 0

/-- `(bn-shl a s)`. -/
def bnShl (a : Nums) (s : ℕ) : Option Nums :=
  if s = 0 then some a
  else do
    let l ← numsScale a (2 ^ s)
    bnNorm l 0

/-- The limbs of what is moved down: each with what falls from the next one into it. -/
def shrLimbs (s : ℕ) : Nums → Nums
  | [] => []
  | d :: l =>
      let low := (l.headD 0).toNat &&& (2 ^ s - 1)
      ((d.toNat >>> s ||| low <<< (26 - s) : ℕ) : ℤ) :: shrLimbs s l

/-- `(bn-shr a s)`. -/
def bnShr (a : Nums) (s : ℕ) : Nums := if s = 0 then a else bnTrim (shrLimbs s a)

/-- `(m up shift k)`. -/
structure Modulus where
  m : Nums
  up : Nums
  shift : ℕ
  k : ℕ
deriving DecidableEq

/-- How far the top limb is moved up till its top bit is set, in so many turns. -/
def shiftLoop : (turns : ℕ) → ℤ → ℕ → Option ℕ
  | 0, _, _ => none
  | turns + 1, top, s => if top < 2 ^ 25 then shiftLoop turns (top * 2) (s + 1) else some s

/-- `(bn-modulus m)`. -/
def bnModulus (m : Nums) : Option Modulus := do
  let m := bnTrim m
  let top ← m.getLast?
  let s ← shiftLoop 64 top 0
  let up ← bnShl m s
  return ⟨m, up, s, m.length⟩

/-- The turns of `bn-reduce` that take a digit of the quotient. -/
def digitLoop (up : Nums) (top1 : ℤ) : (turns : ℕ) → Nums → Option Nums
  | 0, _ => none
  | turns + 1, x =>
      if up.length < x.length then do
        let j := x.length - 1
        let v ← word (x.getD j 0 * base)
        let v ← word (v + x.getD (j - 1) 0)
        let q := v / top1
        let off := j - up.length
        let part ← numsScale up q
        let x' ← numsSub x (bnZeros off ++ part ++ bnZeros (x.length - off - up.length))
        let x' ← bnNorm x' off
        digitLoop up top1 turns (bnTrim x')
      else some x

/-- The turns of `bn-reduce` that are left. -/
def lessLoop (up : Nums) : (turns : ℕ) → Nums → Option Nums
  | 0, _ => none
  | turns + 1, x =>
      if 0 ≤ bnCmp x up then do
        let x ← bnSub x up
        lessLoop up turns x
      else some x

/-- How many turns there may be: no more than what is left to take away. -/
def turnsOf (x : Nums) : ℕ := (x.foldr (fun d n => d + base * n) 0).toNat + 1

/-- `(bn-reduce x up)`. -/
def bnReduce (x up : Nums) : Option Nums := do
  let top ← up.getLast?
  let x := bnTrim x
  let x ← digitLoop up (top + 1) (turnsOf x) x
  lessLoop up (turnsOf x) x

/-- `(bn-mod x modulus)`. -/
def bnMod (x : Nums) (modulus : Modulus) : Option Nums := do
  let x ← bnShl x modulus.shift
  let x ← bnReduce x modulus.up
  return bnShr x modulus.shift

/-- `(bn-mulmod a b modulus)`. -/
def bnMulmod (a b : Nums) (modulus : Modulus) : Option Nums := do
  let p ← bnMul a b
  bnMod p modulus

/-- `(bn-addmod a b modulus)`. -/
def bnAddmod (a b : Nums) (modulus : Modulus) : Option Nums := do
  let s ← bnAdd a b
  if 0 ≤ bnCmp s modulus.m then bnSub s modulus.m else return bnTrim s

/-- `(bn-submod a b modulus)`. -/
def bnSubmod (a b : Nums) (modulus : Modulus) : Option Nums :=
  if 0 ≤ bnCmp a b then bnSub a b
  else do
    let s ← bnAdd a modulus.m
    bnSub s b

/-- What a bit of `e` adds to the power. -/
def powBit (a e : Nums) (modulus : Modulus) (i : ℕ) (out : Nums) : Option Nums :=
  if bnBit e i = 1 then bnMulmod out a modulus else some out

/-- The loop of `bn-powmod`, a bit of `e` a turn, from so many of them down. -/
def powLoop (a e : Nums) (modulus : Modulus) : (i : ℕ) → Nums → Option Nums
  | 0, out => some out
  | i + 1, out => do
      let out ← bnMulmod out out modulus
      let out ← powBit a e modulus i out
      powLoop a e modulus i out

/-- `(bn-powmod a e modulus)`. -/
def bnPowmod (a e : Nums) (modulus : Modulus) : Option Nums := do
  let out ← bnFromNum 1
  let i ← bnBits e
  let a ← bnMod a modulus
  powLoop a e modulus i out

/-- `(bn-invmod a modulus)`. -/
def bnInvmod (a : Nums) (modulus : Modulus) : Option Nums := do
  let two ← bnFromNum 2
  let e ← bnSub modulus.m two
  bnPowmod a e modulus

end ChrysaLisp.Bignum
