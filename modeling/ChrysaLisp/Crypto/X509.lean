import ChrysaLisp.Crypto.Der

set_option autoImplicit false

/-! # Certificates

`x509-parse` of `lib/crypto/x509.inc` and the readers under it: a certificate's dates, its key, the names
it is for, whether it may issue others, and its signature, from its DER.

The source takes what is in the first of the parts of an extension before it looks whether there are any
(`x509Extension`): of none, `first` gives `:nil`, whose `second` and `third` are no places of the data. -/

namespace ChrysaLisp.Tls

open Bounded

/-! ## What is read -/

/-- The key of a certificate with its kind, `:key_kind` and `:key`. One of a curve that is not known has
no kind. -/
inductive Key where
  | rsa (n e : Str)
  | p256 (bits : Str)
  | p384 (bits : Str)
  | ed25519 (bits : Str)
  | other (bits : Str)
deriving DecidableEq

/-- What is wanted of a certificate. -/
structure Cert where
  der : Str
  tbs : Str
  sigAlg : Str
  sig : Str
  issuer : Str
  subject : Str
  from' : ℤ
  until' : ℤ
  key : Option Key
  names : List Str
  ca : Bool
deriving DecidableEq

/-- `(days-from-civil year month day)`, of `lib/date/date.inc`. -/
def daysFromCivil (yr mo d : ℤ) : ℤ :=
  let m := mo + 1
  let y := if m ≤ 2 then yr - 1 else yr
  let era := if 0 ≤ y then y.tdiv 400 else (y - 399).tdiv 400
  let yoe := y - era * 400
  let doy := (153 * (if 2 < m then m - 3 else m + 9) + 2).tdiv 5 + (d - 1)
  let doe := yoe * 365 + yoe.tdiv 4 - yoe.tdiv 100 + doy
  era * 146097 + doe - 719468

/-- `(x509-digits text from to)`. -/
def x509Digits (text : Str) (s e : ℕ) : Read ℤ := do
  let digits ← slice text s e
  return digits.foldl (fun n c => n * 10 + ((c.val : ℤ) - 48)) 0

/-- `(x509-time data item)`. -/
def x509Time (data : Str) (item : Item) : Read ℤ := do
  let text ← derBytes data item
  let at' := if item.tag = 0x18 then 4 else 2
  if text.length < at' + 10 then
    return 0
  else
    let year ← x509Digits text 0 at'
    let year := if at' = 2 then year + (if year < 50 then 2000 else 1900) else year
    let month ← x509Digits text at' (at' + 2)
    let day ← x509Digits text (at' + 2) (at' + 4)
    let hour ← x509Digits text (at' + 4) (at' + 6)
    let minute ← x509Digits text (at' + 6) (at' + 8)
    let second ← x509Digits text (at' + 8) (at' + 10)
    return daysFromCivil year (month - 1) day * 86400 + hour * 3600 + minute * 60 + second

/-- `(x509-bits data item)`. -/
def x509Bits (data : Str) (item : Item) : Read Str :=
  if item.start < item.stop then slice data (item.start + 1) item.stop else return []

/-- The parameter of a key's identifier, where it is an identifier too. -/
def x509Param (data : Str) (alg : List Item) : Read (Option Str) :=
  if 1 < alg.length then do
    let second ← elem alg 1
    if second.tag = 0x06 then
      let param ← derOid (← derBytes data second)
      return some param
    else return none
  else return none

/-- The `n` and `e` of RSA. -/
def x509Rsa (bits : Str) : Read (Option Key) := do
  match ← derAt bits 0 with
  | none => return none
  | some seq =>
      let ints ← derIn bits seq
      if ints.length = 2 then
        let n ← derBytes bits (← elem ints 0)
        let e ← derBytes bits (← elem ints 1)
        return some (.rsa n e)
      else return none

/-- `(x509-key cert data spki)`. -/
def x509Key (cert : Cert) (data : Str) (spki : Item) : Read Cert := do
  let parts ← derIn data spki
  if parts.length = 2 then
    let second ← elem parts 1
    let alg ← derIn data (← elem parts 0)
    if second.tag = 0x03 ∧ alg ≠ [] then
      let bits ← x509Bits data second
      let oid ← derOid (← derBytes data (← elem alg 0))
      let param ← x509Param data alg
      if oid = asc "1.2.840.113549.1.1.1" then
        match ← x509Rsa bits with
        | some key => return { cert with key := some key }
        | none => return cert
      else if oid = asc "1.2.840.10045.2.1" then
        let key :=
          if param = some (asc "1.2.840.10045.3.1.7") then Key.p256 bits
          else if param = some (asc "1.3.132.0.34") then Key.p384 bits
          else Key.other bits
        return { cert with key := some key }
      else if oid = asc "1.3.101.112" then
        return { cert with key := some (.ed25519 bits) }
      else return cert
    else return cert
  else return cert

/-- The names of a certificate, those of them that are of a host. -/
def x509Names (value : Str) (inner : Item) : Read (List Str) := do
  let kids ← derIn value inner
  (kids.filter (fun kid => decide (kid.tag = 0x82))).mapM (derBytes value)

/-- Whether it may issue others. -/
def x509Ca (value : Str) (inner : Item) : Read Bool := do
  let flags ← derIn value inner
  if flags ≠ [] then
    let flag ← elem flags 0
    if flag.tag = 0x01 ∧ flag.start < flag.stop then
      let c ← code value flag.start
      return decide (c ≠ 0)
    else return false
  else return false

/-- One extension: its name, critical or not, and the value, of what it says. -/
def x509Extension (data : Str) (cert : Cert) (ext : Item) : Read Cert := do
  let kids ← derIn data ext
  -- before it is known that there are any
  let oid ← derOid (← derBytes data (← elem kids 0))
  let value ← derBytes data (← elem kids (kids.length - 1))
  let inner ← derAt value 0
  match inner with
  | none => return cert
  | some inner =>
      if kids.length < 2 then return cert
      else if oid = asc "2.5.29.17" then
        let names ← x509Names value inner
        return { cert with names := names }
      else if oid = asc "2.5.29.19" then
        let ca ← x509Ca value inner
        return { cert with ca := ca }
      else return cert

/-- `(x509-extensions cert data item)`. -/
def x509Extensions (cert : Cert) (data : Str) (item : Item) : Read Cert := do
  match (← derIn data item).head? with
  | none => return cert
  | some seq => (← derIn data seq).foldlM (x509Extension data) cert

/-- What is read of a certificate with its version out of the way: of its fields, the parts it is made of,
and the way it is signed. -/
def x509Fields (der : Str) (parts fields alg : List Item) : Read (Option Cert) := do
  let issuer ← elem fields 2
  let validity ← elem fields 3
  let subject ← elem fields 4
  let spki ← elem fields 5
  let times ← derIn der validity
  if times.length = 2 then
    let tbs ← derWhole der (← elem parts 0)
    let sigAlg ← derOid (← derBytes der (← elem alg 0))
    let sig ← x509Bits der (← elem parts 2)
    let issuer ← derWhole der issuer
    let subject ← derWhole der subject
    let from' ← x509Time der (← elem times 0)
    let until' ← x509Time der (← elem times 1)
    let cert : Cert := ⟨der, tbs, sigAlg, sig, issuer, subject, from', until', none, [], false⟩
    let cert ← x509Key cert der spki
    let more ← slice fields 6 fields.length
    let cert ← more.foldlM (fun cert field =>
      if field.tag = 0xa3 then x509Extensions cert der field else return cert) cert
    return some cert
  else return none

/-- The fields without the version, which is there in a version 3. -/
def x509Unversioned (fields : List Item) : Read (List Item) :=
  match fields.head? with
  | some field => if field.tag = 0xa0 then slice fields 1 fields.length else return fields
  | none => return fields

/-- `(x509-parse der)`. -/
def x509Parse (der : Str) : Read (Option Cert) := do
  match ← derAt der 0 with
  | none => return none
  | some top =>
      let parts ← derIn der top
      if top.tag = 0x30 ∧ parts.length = 3 then
        let first ← elem parts 0
        let third ← elem parts 2
        if first.tag = 0x30 ∧ third.tag = 0x03 then
          let fields ← derIn der first
          let alg ← derIn der (← elem parts 1)
          let fields ← x509Unversioned fields
          if 6 ≤ fields.length ∧ alg ≠ [] then x509Fields der parts fields alg else return none
        else return none
      else return none

end ChrysaLisp.Tls
