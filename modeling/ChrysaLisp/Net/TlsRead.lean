import ChrysaLisp.Crypto.Chain

set_option autoImplicit false

/-! # What a server says

The readers of `lib/net/tls.inc`: the share of a ServerHello, the certificates of a Certificate message,
and the signature of a CertificateVerify. -/

namespace ChrysaLisp.Tls

open Bounded

/-! ## ServerHello -/

/-- What a HelloRetryRequest has for a random. -/
def retryRandom : Str := hexDecode (asc "CF21AD74E59A6111BE1D8C021E65B891C2A211167ABB8C5E079E09E2C8A8339C")

/-- What the extensions of a ServerHello have said so far. -/
structure Said where
  share : Option Str
  version : Option ℕ
deriving DecidableEq

/-- What one extension of a ServerHello says. -/
def tlsServerExt (kind : ℕ) (data : Str) (said : Said) : Read Said :=
  if kind = 43 then do
    let version ← tlsNum data 0 2
    return { said with version := some version }
  else if kind = 51 then do
    let group ← tlsNum data 0 2
    if group = 0x001d then
      let len ← tlsNum data 2 2
      if len = 32 then
        let share ← slice data 4 36
        return { said with share := some share }
      else return said
    else return said
  else return said

/-- The extensions of a ServerHello, in so many turns. -/
def tlsServerExts (hello : Str) (extEnd : ℕ) : (turns at' : ℕ) → Said → Read Said
  | 0, _, _ => .error .endless
  | turns + 1, at', said =>
      if at' + 4 < extEnd then do
        let kind ← tlsNum hello at' 2
        let len ← tlsNum hello (at' + 2) 2
        let data ← slice hello (at' + 4) (at' + 4 + len)
        let said ← tlsServerExt kind data said
        tlsServerExts hello extEnd turns (at' + 4 + len) said
      else return said

/-- `(tls-server-share hello)`. What the version is compared with is a number, and there is none if no
extension said it. -/
def tlsServerShare (hello : Str) : Read (Option Str) :=
  if 44 < hello.length then do
    let kind ← code hello 0
    if kind = 2 then
      let random ← slice hello 6 38
      let sid ← code hello 38
      let at' := 39 + sid
      let suite ← tlsNum hello at' 2
      let at' := at' + 3
      let len ← tlsNum hello at' 2
      let extEnd := at' + 2 + len
      let said ← tlsServerExts hello extEnd (extEnd + 1) (at' + 2) ⟨none, none⟩
      if suite = 0x1303 then
        let version ← value said.version
        return if version = 0x0304 ∧ random ≠ retryRandom then said.share else none
      else return none
    else return none
  else return none

/-! ## Certificate -/

/-- The loop of `tls-certificates`, in so many turns. -/
def tlsCertificatesLoop (msg : Str) (stop : ℕ) : (turns at' : ℕ) → Read (List (Option Cert))
  | 0, _ => .error .endless
  | turns + 1, at' =>
      if at' + 3 ≤ stop then do
        let len ← tlsNum msg at' 3
        let next := at' + 3 + len
        if stop < next + 2 then return []
        else
          let der ← slice msg (at' + 3) next
          let cert ← x509Parse der
          let more ← tlsNum msg next 2
          let rest ← tlsCertificatesLoop msg stop turns (next + 2 + more)
          return cert :: rest
      else return []

/-- `(tls-certificates msg)`. -/
def tlsCertificates (msg : Str) : Read (List (Option Cert)) :=
  if 4 < msg.length then do
    let context ← code msg 4
    let at' := 5 + context
    if at' + 3 ≤ msg.length then
      let len ← tlsNum msg at' 3
      let stop := min msg.length (at' + 3 + len)
      tlsCertificatesLoop msg stop (stop + 1) (at' + 3)
    else return []
  else return []

/-! ## CertificateVerify -/

/-- `(tls-scheme scheme)`. -/
def tlsScheme (scheme : ℕ) : Option (Scheme × Option HashName) :=
  match scheme with
  | 0x0403 => some (.ecdsa, some .sha256)
  | 0x0503 => some (.ecdsa, some .sha384)
  | 0x0603 => some (.ecdsa, some .sha512)
  | 0x0804 => some (.pss, some .sha256)
  | 0x0805 => some (.pss, some .sha384)
  | 0x0806 => some (.pss, some .sha512)
  | 0x0807 => some (.ed25519, none)
  | _ => none

/-- The `first` of what certificates there are: one that reads or `:nil`, and `":"` where there is not
even a list of them, for that is what `:nil` starts with. -/
inductive FirstCert where
  | cert (cert : Option Cert)
  | colon
deriving DecidableEq

/-- `(first certs)`. -/
def firstCert (certs : Option (List (Option Cert))) : FirstCert :=
  match certs with
  | some certs => .cert (certs.head?.join)
  | none => .colon

/-- What a CertificateVerify signs. -/
def tlsSigned (W : Ways) (transcript : Str) : Str :=
  List.replicate 64 32 ++ asc "TLS 1.3, server CertificateVerify" ++ [0] ++ W.sha256 transcript

/-- `(tls-verify cert msg transcript)`. There is no key to find in what is not a certificate. -/
def tlsVerify (W : Ways) (cert : FirstCert) (msg transcript : Str) : Read Bool :=
  if cert ≠ .cert none ∧ 8 ≤ msg.length then do
    let scheme ← tlsNum msg 4 2
    let len ← tlsNum msg 6 2
    if msg.length = 8 + len then
      let key ← match cert with
        | .cert (some cert) => (pure cert.key : Read (Option Key))
        | _ => .error .unset
      x509SigCheck W key (tlsScheme scheme) (tlsSigned W transcript) (msg.drop 8)
    else return false
  else return false

end ChrysaLisp.Tls
