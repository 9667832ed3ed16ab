import ChrysaLisp.Math.Bignum

set_option autoImplicit false

/-! # ECDSA, the check of a signature

`lib/crypto/ecdsa.inc`: the points of the curves as Jacobian `x y z` of big numbers, `:nil` the one at
infinity, and `ecdsa-verify`. As of the big numbers, what comes of these at all has kept within the 63
bits. -/

namespace ChrysaLisp.Ecdsa

open Bignum

/-- `x y z`, or `:nil`. -/
abbrev Pt := Option (Nums × Nums × Nums)

/-- What `ecdsa-curve` puts together: the two moduli, b, the base point, and the bytes of a number. -/
structure Curve where
  fm : Modulus
  nm : Modulus
  b : Nums
  g : Pt
  len : ℕ

/-- `(ec-small a k fm)`. -/
def ecSmall (a : Nums) (k : ℤ) (fm : Modulus) : Option Nums := do
  let l ← numsScale a k
  let l ← bnNorm l 0
  bnMod l fm

/-- `(ec-dbl pt fm)`. -/
def ecDbl : Pt → Modulus → Option Pt
  | none, _ => some none
  | some (x, y, z), fm =>
      if bnZero y then some none
      else do
        let delta ← bnMulmod z z fm
        let gamma ← bnMulmod y y fm
        let beta ← bnMulmod x gamma fm
        let down ← bnSubmod x delta fm
        let up ← bnAddmod x delta fm
        let both ← bnMulmod down up fm
        let alpha ← ecSmall both 3 fm
        let square ← bnMulmod alpha alpha fm
        let beta8 ← ecSmall beta 8 fm
        let x3 ← bnSubmod square beta8 fm
        let yz ← bnAddmod y z fm
        let yzyz ← bnMulmod yz yz fm
        let less ← bnSubmod yzyz gamma fm
        let z3 ← bnSubmod less delta fm
        let beta4 ← ecSmall beta 4 fm
        let far ← bnSubmod beta4 x3 fm
        let rise ← bnMulmod alpha far fm
        let gamma2 ← bnMulmod gamma gamma fm
        let gamma8 ← ecSmall gamma2 8 fm
        let y3 ← bnSubmod rise gamma8 fm
        return some (x3, y3, z3)

/-- `(ec-add p1 p2 fm)`. -/
def ecAdd : Pt → Pt → Modulus → Option Pt
  | none, p2, _ => some p2
  | some p1, none, _ => some (some p1)
  | some (x1, y1, z1), some (x2, y2, z2), fm => do
      let z1z1 ← bnMulmod z1 z1 fm
      let z2z2 ← bnMulmod z2 z2 fm
      let u1 ← bnMulmod x1 z2z2 fm
      let u2 ← bnMulmod x2 z1z1 fm
      let z2z2z2 ← bnMulmod z2 z2z2 fm
      let s1 ← bnMulmod y1 z2z2z2 fm
      let z1z1z1 ← bnMulmod z1 z1z1 fm
      let s2 ← bnMulmod y2 z1z1z1 fm
      let h ← bnSubmod u2 u1 fm
      let s ← bnSubmod s2 s1 fm
      let r ← ecSmall s 2 fm
      if !bnZero h then do
        let h2 ← ecSmall h 2 fm
        let i ← bnMulmod h2 h2 fm
        let j ← bnMulmod h i fm
        let v ← bnMulmod u1 i fm
        let rr ← bnMulmod r r fm
        let less ← bnSubmod rr j fm
        let v2 ← ecSmall v 2 fm
        let x3 ← bnSubmod less v2 fm
        let far ← bnSubmod v x3 fm
        let rise ← bnMulmod r far fm
        let sj ← bnMulmod s1 j fm
        let sj2 ← ecSmall sj 2 fm
        let y3 ← bnSubmod rise sj2 fm
        let zz ← bnAddmod z1 z2 fm
        let zzzz ← bnMulmod zz zz fm
        let less ← bnSubmod zzzz z1z1 fm
        let less ← bnSubmod less z2z2 fm
        let z3 ← bnMulmod less h fm
        return some (x3, y3, z3)
      -- the same x: the same point, or one the other's negative
      else if bnZero r then ecDbl (some (x1, y1, z1)) fm
      else return none

/-- `(ec-on-curve? x y curve)`. -/
def ecOnCurve (x y : Nums) (curve : Curve) : Option Bool :=
  let fm := curve.fm
  if bnCmp x fm.m < 0 ∧ bnCmp y fm.m < 0 then do
    let yy ← bnMulmod y y fm
    let xx ← bnMulmod x x fm
    let xxx ← bnMulmod xx x fm
    let x3 ← ecSmall x 3 fm
    let less ← bnSubmod xxx x3 fm
    let side ← bnAddmod less curve.b fm
    return decide (bnCmp yy side = 0)
  else return false

/-- What a bit of each number adds. -/
def jointBit (u1 u2 : Nums) (g q gq : Pt) (fm : Modulus) (i : ℕ) (acc : Pt) : Option Pt :=
  let b1 := bnBit u1 i
  let b2 := bnBit u2 i
  if b1 = 1 ∧ b2 = 1 then ecAdd acc gq fm
  else if b1 = 1 then ecAdd acc g fm
  else if b2 = 1 then ecAdd acc q fm
  else some acc

/-- The loop of `ecdsa-verify`, a bit of each number a turn, from so many of them down. -/
def jointLoop (u1 u2 : Nums) (g q gq : Pt) (fm : Modulus) : (i : ℕ) → Pt → Option Pt
  | 0, acc => some acc
  | i + 1, acc => do
      let acc ← ecDbl acc fm
      let acc ← jointBit u1 u2 g q gq fm i acc
      jointLoop u1 u2 g q gq fm i acc

/-- u1 G + u2 Q, both at once. -/
def joint (u1 u2 : Nums) (g q : Pt) (fm : Modulus) : Option Pt := do
  let gq ← ecAdd g q fm
  let n1 ← bnBits u1
  let n2 ← bnBits u2
  jointLoop u1 u2 g q gq fm (max n1 n2) none

/-- `(ecdsa-verify curve public digest r s)`. -/
def ecdsaVerify (curve : Curve) (pub digest r s : Str) : Option Bool := do
  let fm := curve.fm
  let nm := curve.nm
  let len := curve.len
  let r := bnFromBytes r
  let s := bnFromBytes s
  let n := nm.m
  if pub.length = 2 * len + 1 ∧ pub.head? = some 4 ∧ !bnZero r ∧ bnCmp r n < 0 ∧ !bnZero s ∧
      bnCmp s n < 0 then
    let qx := bnFromBytes ((pub.take (len + 1)).drop 1)
    let qy := bnFromBytes (pub.drop (len + 1))
    if ← ecOnCurve qx qy curve then
      let e ← bnMod (bnFromBytes (digest.take (min digest.length len))) nm
      let w ← bnInvmod s nm
      let u1 ← bnMulmod e w nm
      let u2 ← bnMulmod r w nm
      let one ← bnFromNum 1
      match ← joint u1 u2 curve.g (some (qx, qy, one)) fm with
      | none => return false
      | some (x, _, z) =>
          if bnZero z then return false
          else
            let zi ← bnInvmod z fm
            let zizi ← bnMulmod zi zi fm
            let x ← bnMulmod x zizi fm
            let v ← bnMod x nm
            return decide (bnCmp v r = 0)
    else return false
  else return false

end ChrysaLisp.Ecdsa
