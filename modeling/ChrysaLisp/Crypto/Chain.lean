import ChrysaLisp.Crypto.X509Ends
import ChrysaLisp.Hash.Tree
import ChrysaLisp.Lisp.Text

set_option autoImplicit false

/-! # A chain of certificates

`x509-sig-check`, `x509-signed?`, `x509-host?` and `x509-chain-check` of `lib/crypto/x509.inc`. The hashes
and the checks of a signature by a key, of `lib/crypto/rsa.inc`, `lib/crypto/ecdsa.inc` and
`lib/crypto/ed25519.inc`, are as they are named (`Ways`): nothing is taken of them but that. -/

namespace ChrysaLisp.Tls

open Bounded

/-! ## What is named -/

/-- `:sha256`, `:sha384`, `:sha512`. -/
inductive HashName where
  | sha256
  | sha384
  | sha512
deriving DecidableEq

/-- `:pkcs1`, `:pss`, `:ecdsa`, `:ed25519`. -/
inductive Scheme where
  | pkcs1
  | pss
  | ecdsa
  | ed25519
deriving DecidableEq

/-- `*ecdsa_p256*`, `*ecdsa_p384*`. -/
inductive Curve where
  | p256
  | p384
deriving DecidableEq

/-- The hashes, the MAC, the shared secret, the seal, and the checks of a signature. -/
structure Ways where
  sha256 : Str → Str
  sha384 : Str → Str
  sha512 : Str → Str
  hmacSha256 : (key data : Str) → Str
  x25519Public : (secret : Str) → Str
  x25519 : (secret point : Str) → Str
  aeadSeal : (key nonce aad data : Str) → Str
  aeadOpen : (key nonce aad sealed : Str) → Option Str
  ed25519Verify : (key data sig : Str) → Bool
  rsaVerifyPkcs1 : (n e : Str) → HashName → (digest sig : Str) → Bool
  rsaVerifyPss : (n e : Str) → HashName → (digest sig : Str) → Bool
  ecdsaVerify : Curve → (key digest r s : Str) → Bool

variable (W : Ways)

/-- `(rsa-hash hash_name data)`. -/
def rsaHash (hashName : Option HashName) (data : Str) : Option Str :=
  match hashName with
  | some .sha256 => some (W.sha256 data)
  | some .sha384 => some (W.sha384 data)
  | some .sha512 => some (W.sha512 data)
  | none => none

/-- `(x509-alg oid)`. -/
def x509Alg (oid : Str) : Option (Scheme × Option HashName) :=
  if oid = asc "1.2.840.113549.1.1.11" then some (.pkcs1, some .sha256)
  else if oid = asc "1.2.840.113549.1.1.12" then some (.pkcs1, some .sha384)
  else if oid = asc "1.2.840.113549.1.1.13" then some (.pkcs1, some .sha512)
  else if oid = asc "1.2.840.10045.4.3.2" then some (.ecdsa, some .sha256)
  else if oid = asc "1.2.840.10045.4.3.3" then some (.ecdsa, some .sha384)
  else if oid = asc "1.2.840.10045.4.3.4" then some (.ecdsa, some .sha512)
  else if oid = asc "1.3.101.112" then some (.ed25519, none)
  else none

/-- The curve of a key, with the bits of the key. -/
def Key.curve : Key → Option (Curve × Str)
  | .p256 bits => some (.p256, bits)
  | .p384 bits => some (.p384, bits)
  | _ => none

/-- The two numbers of a signature of ECDSA, in a sequence. -/
def x509Ecdsa (curve : Curve) (bits digest signature : Str) : Read Bool := do
  match ← derAt signature 0 with
  | none => return false
  | some seq =>
      if seq.tag = 0x30 then
        let ints ← derIn signature seq
        if ints.length = 2 then
          let r ← derBytes signature (← elem ints 0)
          let s ← derBytes signature (← elem ints 1)
          return W.ecdsaVerify curve bits digest r s
        else return false
      else return false

/-- `(x509-sig-check kind key scheme hash_name data signature)`, of a key with its kind. A scheme that is
not known is none of the four, and has no hash. -/
def x509SigCheck (key : Option Key) (way : Option (Scheme × Option HashName)) (data signature : Str) :
    Read Bool :=
  match way with
  | none => return false
  | some (.ed25519, _) =>
      match key with
      | some (.ed25519 bits) => return W.ed25519Verify bits data signature
      | _ => return false
  | some (scheme, hashName) =>
      match hashName, rsaHash W hashName data with
      | some name, some digest =>
          match scheme, key with
          | .pkcs1, some (.rsa n e) => return W.rsaVerifyPkcs1 n e name digest signature
          | .pss, some (.rsa n e) => return W.rsaVerifyPss n e name digest signature
          | .ecdsa, some key =>
              match key.curve with
              | some (curve, bits) => x509Ecdsa W curve bits digest signature
              | none => return false
          | _, _ => return false
      | _, _ => return false

/-- `(x509-signed? cert issuer)`. -/
def x509Signed (cert issuer : Cert) : Read Bool :=
  if cert.issuer = issuer.subject then
    match x509Alg cert.sigAlg with
    | some way => x509SigCheck W issuer.key (some way) cert.tbs cert.sig
    | none => return false
  else return false

/-- `(x509-host? cert host)`. -/
def x509Host (cert : Cert) (host : Str) : Bool :=
  let host := toLower host
  cert.names.any (fun name =>
    let name := toLower name
    decide (name = host) ||
      (asc "*.").isPrefixOf name &&
        match findByte 46 host 0 with
        | some dot => decide (host.drop dot = name.drop 1)
        | none => false)

/-- The certificate is in date. -/
def Cert.inDate (cert : Cert) (now : ℤ) : Bool := decide (cert.from' ≤ now ∧ now ≤ cert.until')

/-- The loop of `x509-chain-check`, in so many turns: `:nil`, or why not. -/
def x509ChainLoop (roots : List Cert) (now : ℤ) (certs : List Cert) : (turns at' : ℕ) → Read (Option Str)
  | 0, _ => .error .endless
  | turns + 1, at' => do
      let cert ← elem certs at'
      if 8 < at' then return some (asc "too many between it and a root")
      else if ¬ cert.inDate now then
        return some (asc "out of date, " ++ strNum at' ++ asc " up from the server's")
      else if 0 < at' ∧ ¬ cert.ca then return some (asc "issued by one that may not issue")
      else if roots.any (fun root => decide (root.der = cert.der)) then return none
      else if ← roots.anyM (fun root =>
          if root.inDate now then x509Signed W cert root else return false) then return none
      else if at' + 1 < certs.length then
        let issuer ← elem certs (at' + 1)
        if ← x509Signed W cert issuer then x509ChainLoop roots now certs turns (at' + 1)
        else return some (asc "not issued by a root, nor by the next sent")
      else return some (asc "not issued by a root, nor by the next sent")

/-- `(x509-chain-check certs host roots now)`, of certificates each of which may not have been one. -/
def x509ChainCheck (certs : List (Option Cert)) (host : Str) (roots : List Cert) (now : ℤ) :
    Read (Option Str) :=
  match certs, certs.reduceOption with
  | _ :: _, first :: rest =>
      if none ∈ certs then return some (asc "a certificate that does not read")
      else if roots = [] then return some (asc "no roots, the host keeps none where they are looked for")
      else if ¬ x509Host first host then return some (asc "the certificate is not for " ++ host)
      else x509ChainLoop W roots now (first :: rest) 10 0
  | _, _ => return some (asc "a certificate that does not read")

/-! ## Where they end -/

theorem ends_x509Ecdsa (curve : Curve) (bits digest signature : Str) :
    Ends (x509Ecdsa W curve bits digest signature) := by
  unfold x509Ecdsa
  rw [derAt_eq, ok_bind]
  cases derThing signature 0 with
  | none => exact ends_pure _
  | some seq =>
      by_cases htag : seq.tag = 0x30
      · simp only [htag, if_true, derIn_eq, ok_bind]
        by_cases hlen : (things signature seq).length = 2
        · rw [if_pos hlen]
          exact (ends_elem.mpr (by omega)).bind fun _ hr => (ends_derBytes (elem_things hr)).bind fun _ _ =>
            (ends_elem.mpr (by omega)).bind fun _ hs => (ends_derBytes (elem_things hs)).bind fun _ _ =>
            ends_pure _
        · rw [if_neg hlen]
          exact ends_pure _
      · simp only [htag, if_false]
        exact ends_pure _

/-- The check of a signature ends, whatever the key, the scheme and the signature. -/
theorem ends_x509SigCheck (key : Option Key) (way : Option (Scheme × Option HashName))
    (data signature : Str) : Ends (x509SigCheck W key way data signature) := by
  unfold x509SigCheck
  split
  · exact ends_pure _
  · split <;> exact ends_pure _
  · split
    · split
      · exact ends_pure _
      · exact ends_pure _
      · split
        · exact ends_x509Ecdsa W _ _ _ _
        · exact ends_pure _
      · exact ends_pure _
    · exact ends_pure _

end ChrysaLisp.Tls
