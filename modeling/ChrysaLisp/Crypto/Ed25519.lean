import ChrysaLisp.Math.Bignum
import Mathlib.Data.List.GetD

set_option autoImplicit false

/-! # Ed25519, the field and the order

`lib/crypto/ed25519.inc`, the numbers of the field of 2 to the 255 less 19, each 16 parts of 16 bits or so in
a `nums`, and those less than the order of the base point, in bytes. `gf25519_mul` of `lib/crypto/lisp.vp`
is the native multiply, whose output may be either of its inputs: where a `nums` is, is a place of a store.

As of the big numbers, every sum, difference and product is one of 63 bits with its sign or is none. -/

namespace ChrysaLisp.Ed25519

open Bignum

/-- The `nums` there are, each at its place. -/
abbrev Store := ℕ → Nums

/-! ## The field -/

/-- `*ed_zero*`. -/
def edZero : Nums := List.replicate 16 0

/-- The turns of `ed-car`, with what the one before has added to a part: what is left is under 16 bits, and
what is over, less 1, is for the next. -/
def carLoop : ℤ → Nums → Option (Nums × ℤ)
  | c, [] => some ([], c)
  | c, d :: l => do
      let d ← word (d + c)
      let v ← word (d + 65536)
      let c := v / 65536
      let s ← word (c * 65536)
      let low ← word (v - s)
      let (l, c) ← carLoop (c - 1) l
      return (low :: l, c)

/-- `(ed-car o)`. -/
def edCar (o : Nums) : Option Nums := do
  if o.length < 16 then none
  else
    let (l, c) ← carLoop 0 (o.take 16)
    let c ← word (38 * c)
    let d ← word (l.getD 0 0 + c)
    return l.set 0 d ++ o.drop 16

/-- A part times each of the parts of a number, each product added in where it goes. -/
def mulRow (ai : ℤ) : (b acc : Nums) → Option Nums
  | [], acc => some acc
  | _ :: _, [] => none
  | d :: b, x :: acc => do
      let v ← word (ai * d)
      let u ← word (x + v)
      let acc ← mulRow ai b acc
      return u :: acc

/-- The parts of the one in turn, each a place further up. -/
def mulRows : (a b acc : Nums) → Option Nums
  | [], _, acc => some acc
  | ai :: a, b, acc => do
      let acc ← mulRow ai b acc
      match acc with
      | [] => none
      | x :: acc => do
          let acc ← mulRows a b acc
          return x :: acc

/-- Two sums of which the second is 16 places up: it comes back in 38 times. -/
def fold38 (p : ℤ × ℤ) : Option ℤ := do
  let v ← word (38 * p.2)
  word (p.1 + v)

/-- The 31 sums, and the top 15 of them back in. -/
def products (a b : Nums) : Option Nums := do
  let acc ← mulRows (a.take 16) (b.take 16) (List.replicate 31 0)
  let low ← ((acc.take 15).zip (acc.drop 16)).mapM fold38
  return low ++ [acc.getD 15 0]

/-- `(ed-mul-ref o a b)`: the sums are put into `o`, and `o` carried. -/
def edMulRef (o a b : ℕ) (h : Store) : Option Store := do
  if (h o).length < 16 ∨ (h a).length < 16 ∨ (h b).length < 16 then none
  else
    let low ← products (h a) (h b)
    let h := Function.update h o (low ++ (h o).drop 16)
    let once ← edCar (h o)
    let h := Function.update h o once
    let twice ← edCar (h o)
    return Function.update h o twice

/-- `(ed-mul o a b)`, the native `gf25519_mul`: the sums are carried where they are, on the stack, and the low
16 of them put into `o` last. -/
def edMul (o a b : ℕ) (h : Store) : Option Store := do
  if (h o).length < 16 ∨ (h a).length < 16 ∨ (h b).length < 16 then none
  else
    let sums ← products (h a) (h b)
    let sums ← edCar sums
    let sums ← edCar sums
    return Function.update h o (sums ++ (h o).drop 16)

/-- The prime, as `ed-pack` takes it off. -/
def edPrime : Nums := 0xffed :: List.replicate 14 0xffff ++ [0x7fff]

/-- A number less another part by part, what is borrowed from each taken off the next. The last keeps what it
is under 0. -/
def offLoop : ℤ → List (ℤ × ℤ) → Option (Nums × ℤ)
  | _, [] => none
  | b, [(u, p)] => do
      let m ← word (u - p)
      let m ← word (m - b)
      return ([m], m / 65536 % 2)
  | b, (u, p) :: l => do
      let m ← word (u - p)
      let m ← word (m - b)
      let (l, out) ← offLoop (m / 65536 % 2) l
      return (m % 65536 :: l, out)

/-- The prime off a number, if it comes off with nothing borrowed. -/
def takeOff (u : Nums) : Option Nums := do
  let (m, borrow) ← offLoop 0 (u.zip edPrime)
  return if borrow = 0 then m else u

/-- `(ed-pack n)`. -/
def edPack (n : Nums) : Option Str := do
  let u ← numsAdd n edZero
  let u ← edCar u
  let u ← edCar u
  let u ← edCar u
  let u ← takeOff u
  let u ← takeOff u
  return u.flatMap (fun d => [Fin.ofNat 256 (d % 256).toNat, Fin.ofNat 256 (d / 256 % 256).toNat])

/-! ## The order -/

/-- `*ed_l*`, a byte at a time, the low one first. -/
def edL : Nums := [237, 211, 245, 92, 26, 99, 18, 88, 214, 156, 247, 162, 222, 249, 222, 20, 0, 0,
    0, 0, 0, 0, 0, 0,
  0, 0, 0, 0, 0, 0, 0, 16]

/-- The turns that take 16 times a number at the top, of the order, off the 20 numbers from 32 under it. What
is left of each is of 8 bits with a sign. -/
def offTop (xi : ℤ) : ℤ → List (ℤ × ℤ) → Option (Nums × ℤ)
  | carry, [] => some ([], carry)
  | carry, (xj, l) :: rest => do
      let t ← word (16 * xi)
      let t ← word (t * l)
      let d ← word (carry - t)
      let v ← word (xj + d)
      let w ← word (v + 128)
      let carry := w / 256
      let s ← word (carry * 256)
      let low ← word (v - s)
      let (out, carry) ← offTop xi carry rest
      return (low :: out, carry)

/-- A turn of `ed-mod-l`, of the number at a place that is over the 32. -/
def modStep (x : Nums) (i : ℕ) : Option Nums := do
  let (low, carry) ← offTop (x.getD i 0) 0 (((x.drop (i - 32)).take 20).zip edL)
  let t ← word (x.getD (i - 12) 0 + carry)
  return (x.take (i - 32) ++ low ++ t :: x.drop (i - 11)).set i 0

/-- The turns of `ed-mod-l` down to the 32. -/
def modLoop : ℕ → Nums → Option Nums
  | 0, x => some x
  | n + 1, x => do
      let x ← modStep x (32 + n)
      modLoop n x

/-- So many times the order off, each number down to 8 bits. -/
def offBytes (q : ℤ) : ℤ → List (ℤ × ℤ) → Option (Nums × ℤ)
  | carry, [] => some ([], carry)
  | carry, (xj, l) :: rest => do
      let t ← word (q * l)
      let d ← word (carry - t)
      let v ← word (xj + d)
      let (out, carry) ← offBytes q (v / 256) rest
      return (v % 256 :: out, carry)

/-- What is over 8 bits on to the next, and the bytes there are. -/
def outBytes : ℤ → Nums → Option Str
  | _, [] => some []
  | carry, d :: l => do
      let v ← word (d + carry)
      let rest ← outBytes (v / 256) l
      return Fin.ofNat 256 (v % 256).toNat :: rest

/-- A number less so many of a part of the order. -/
def lessTimes (carry : ℤ) (p : ℤ × ℤ) : Option ℤ := do
  let t ← word (carry * p.2)
  word (p.1 - t)

/-- `(ed-mod-l x)`. -/
def edModL (x : Nums) : Option Str := do
  if x.length < 64 then none
  else
    let x ← modLoop 32 x
    let (low, carry) ← offBytes (x.getD 31 0 / 16) 0 ((x.take 32).zip edL)
    let low ← (low.zip edL).mapM (lessTimes carry)
    outBytes 0 low

/-- `(ed-reduce hash)`. -/
def edReduce (hash : Str) : Option Str := edModL (hash.map (fun b => (b.val : ℤ)))

end ChrysaLisp.Ed25519
