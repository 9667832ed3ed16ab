import ChrysaLisp.Net.TlsRead
import Mathlib.Data.List.DropRight

set_option autoImplicit false

/-! # The handshake of TLS

`lib/net/tls.inc`, as far as `tls-handshake`: records and what they are opened with, handshake messages
out of records, and the loop that takes what the server sends after its ServerHello, whatever it is and in
whatever order.

What is to come from the server is a string, `rin`; it ends where the connection does. The hashes and the
rest of what the keys are made and used with are as they are named (`Ways`). What is read past its end is
an error that ends the handshake, as it is where the errors of the source are built in. -/

namespace ChrysaLisp.Tls

open Bounded

/-! ## Keys -/

/-- `(tls-be n bytes)`. -/
def tlsBe (n bytes : ℕ) : Str := (List.range bytes).map (fun i => Fin.ofNat 256 (n >>> (8 * (bytes - 1 - i))))

/-- `(tls-vec len_bytes data)`. -/
def tlsVec (lenBytes : ℕ) (data : Str) : Str := tlsBe data.length lenBytes ++ data

/-- `+tls_zero32`, and the salt there is without one. -/
def tlsZero32 : Str := List.replicate 32 0

section

variable (W : Ways)

/-- `(hkdf-extract salt secret)`. -/
def hkdfExtract (salt secret : Str) : Str := W.hmacSha256 (if salt = [] then tlsZero32 else salt) secret

/-- The loop of `hkdf-expand`, in so many turns. -/
def hkdfExpandLoop (prk info : Str) (length : ℕ) : (turns : ℕ) → (out block : Str) → (n : ℕ) → Read Str
  | 0, _, _, _ => .error .endless
  | turns + 1, out, block, n =>
      if out.length < length then
        let n := n + 1
        let block := W.hmacSha256 prk (block ++ info ++ [Fin.ofNat 256 n])
        hkdfExpandLoop prk info length turns (out ++ block) block n
      else slice out 0 length

/-- `(hkdf-expand prk info length)`. -/
def hkdfExpand (prk info : Str) (length : ℕ) : Read Str :=
  hkdfExpandLoop W prk info length (length + 1) [] [] 0

/-- `(tls-label secret label context len)`. -/
def tlsLabel (secret label context : Str) (len : ℕ) : Read Str :=
  hkdfExpand W secret (tlsBe len 2 ++ tlsVec 1 (asc "tls13 " ++ label) ++ tlsVec 1 context) len

/-- `(tls-keys secret)`. -/
def tlsKeys (secret : Str) : Read (Str × Str) := do
  let key ← tlsLabel W secret (asc "key") [] 32
  let iv ← tlsLabel W secret (asc "iv") [] 12
  return (key, iv)

/-- `(tls-nonce iv seq)`. -/
def tlsNonce (iv : Str) (seq : ℕ) : Read Str :=
  let seqBytes := List.replicate 4 0 ++ tlsBe seq 8
  (List.range 12).mapM (fun i => do
    let a ← code iv i
    let b ← code seqBytes i
    return Fin.ofNat 256 (a ^^^ b))

/-! ## Records -/

/-- What a connection is. -/
structure State where
  rin : Str
  rout : Str
  hbuf : Str
  rkeys : Option (Str × Str)
  rseq : ℕ
  wkeys : Option (Str × Str)
  wseq : ℕ
  check : Bool
  why : Str
deriving DecidableEq

/-- `(tls-record-read state)`. -/
def tlsRecordRead (st : State) : Read (Option (ℕ × Str) × State) := do
  let head := st.rin.take 5
  let rest := st.rin.drop 5
  if head.length = 5 then
    let len ← tlsNum head 3 2
    let body := rest.take len
    let st := { st with rin := rest.drop len }
    if body.length = len then
      let type ← code head 0
      return (some (type, body), st)
    else return (none, st)
  else return (none, { st with rin := rest })

/-- `(tls-record-write state type body)`. -/
def tlsRecordWrite (st : State) (type : Byte) (body : Str) : State :=
  { st with rout := st.rout ++ ([type, 3, 3] ++ tlsBe body.length 2 ++ body) }

/-- `(tls-seal state type data)`. -/
def tlsSeal (st : State) (type : Byte) (data : Str) : Read State := do
  let (key, iv) ← value st.wkeys
  let inner := data ++ [type]
  let aad := [23, 3, 3] ++ tlsBe (inner.length + 16) 2
  let nonce ← tlsNonce iv st.wseq
  return tlsRecordWrite { st with wseq := st.wseq + 1 } 23 (W.aeadSeal key nonce aad inner)

/-- What is opened, without the zeros after its type and its type: what that is, and what is before it. -/
def tlsInner (inner : Str) : ℤ × Str :=
  let inner := inner.rdropWhile (fun c => decide (c = 0))
  match inner.getLast? with
  | some type => (type.val, inner.dropLast)
  | none => (-1, [])

/-- The loop of `tls-open-record`, in so many turns. -/
def tlsOpenLoop : (turns : ℕ) → State → Read (Option (ℤ × Str) × State)
  | 0, _ => .error .endless
  | turns + 1, st => do
      match ← tlsRecordRead st with
      | (none, st) => return (none, st)
      | (some (type, body), st) =>
          if type = 20 then tlsOpenLoop turns st
          else
            match st.rkeys with
            | some (key, iv) =>
                if type = 23 then
                  let aad := [23, 3, 3] ++ tlsBe body.length 2
                  let nonce ← tlsNonce iv st.rseq
                  let st := { st with rseq := st.rseq + 1 }
                  match W.aeadOpen key nonce aad body with
                  | none => return (some (-1, []), st)
                  | some inner => return (some (tlsInner inner), st)
                else return (some ((type : ℤ), body), st)
            | none => return (some ((type : ℤ), body), st)

/-- `(tls-open-record state)`. -/
def tlsOpenRecord (st : State) : Read (Option (ℤ × Str) × State) := tlsOpenLoop W (st.rin.length + 1) st

/-! ## Messages -/

/-- There is not yet the whole of a message in `buf`. -/
def tlsShort (buf : Str) : Read Bool :=
  if buf.length < 4 then return true
  else do
    let len ← tlsNum buf 1 3
    return decide (buf.length < 4 + len)

/-- The loop of `tls-message`, in so many turns. -/
def tlsMessageLoop : (turns : ℕ) → (buf : Str) → State → Read (Bool × Str × State)
  | 0, _, _ => .error .endless
  | turns + 1, buf, st => do
      if ← tlsShort buf then
        match ← tlsOpenRecord W st with
        | (some (22, data), st) => tlsMessageLoop turns (buf ++ data) st
        | (_, st) => return (false, buf, st)
      else return (true, buf, st)

/-- `(tls-message state)`. -/
def tlsMessage (st : State) : Read (Option (ℕ × Str) × State) := do
  let (ok, buf, st) ← tlsMessageLoop W (st.rin.length + 1) st.hbuf st
  if ok then
    let len ← tlsNum buf 1 3
    let whole ← slice buf 0 (4 + len)
    let type ← code whole 0
    return (some (type, whole), { st with hbuf := buf.drop whole.length })
  else return (none, { st with hbuf := buf })

/-! ## The handshake -/

/-- The signatures a client says it would take. -/
def tlsOffered : List ℕ := [0x0403, 0x0503, 0x0804, 0x0805, 0x0806, 0x0807, 0x0401, 0x0501, 0x0601]

/-- `(tls-client-hello host public)`, of a random and a name of the session. -/
def tlsClientHello (host public' random session : Str) : Str :=
  let ext :=
    tlsBe 0 2 ++ tlsVec 2 (tlsVec 2 (0 :: tlsVec 2 host)) ++
    tlsBe 10 2 ++ tlsVec 2 (tlsVec 2 (tlsBe 0x001d 2)) ++
    tlsBe 13 2 ++ tlsVec 2 (tlsVec 2 ((tlsOffered.map (fun s => tlsBe s 2)).flatten)) ++
    tlsBe 43 2 ++ tlsVec 2 (tlsVec 1 (tlsBe 0x0304 2)) ++
    tlsBe 51 2 ++ tlsVec 2 (tlsVec 2 (tlsBe 0x001d 2 ++ tlsVec 2 public'))
  let body := tlsBe 0x0303 2 ++ random ++ tlsVec 1 session ++ tlsVec 2 (tlsBe 0x1303 2) ++ tlsVec 1 [0] ++
    tlsVec 2 ext
  1 :: tlsVec 3 body

/-- Where a handshake takes place: the roots the host keeps, and what its clock says at each turn. -/
structure World where
  roots : List Cert
  now : ℕ → ℤ

/-- What the server's Finished is to be. -/
def tlsFinished (secret transcript : Str) : Read Str := do
  let key ← tlsLabel W secret (asc "finished") [] 32
  return W.hmacSha256 key (W.sha256 transcript)

/-- The loop of `tls-handshake`, in so many turns: the transcript to the end of the server's Finished. -/
def tlsServerLoop (world : World) (host sHs : Str) : (turns : ℕ) → (certs : Option (List (Option Cert))) →
    (checked : Bool) → (transcript : Str) → State → Read (Option Str × State)
  | 0, _, _, _, _ => .error .endless
  | turns + 1, certs, checked, transcript, st => do
      match ← tlsMessage W st with
      | (none, st) => return (none, st)
      | (some (type, whole), st) =>
          if type = 11 then
            let certs ← tlsCertificates whole
            let why ← if st.check then x509ChainCheck W certs host world.roots (world.now turns)
              else pure none
            match why with
            | some why => return (none, { st with why := why })
            | none => tlsServerLoop world host sHs turns (some certs) checked (transcript ++ whole) st
          else if type = 15 then
            let good ← if st.check then tlsVerify W (firstCert certs) whole transcript else pure true
            if good then tlsServerLoop world host sHs turns certs true (transcript ++ whole) st
            else return (none, { st with
              why := asc "the server did not sign the handshake with its certificate's key" })
          else if type = 20 then
            let want ← tlsFinished W sHs transcript
            if whole.drop 4 ≠ want then
              return (none, { st with why := asc "the server's Finished is not of this handshake" })
            else if ¬ checked then
              return (none, { st with why := asc "the server sent no certificate it signed with" })
            else return (some (transcript ++ whole), st)
          else tlsServerLoop world host sHs turns certs checked (transcript ++ whole) st

/-- The secret of the handshake, and those of each side, of the transcript to the ServerHello. -/
def tlsSecrets (secret share transcript : Str) : Read (Str × Str × Str) := do
  let early := hkdfExtract W [] tlsZero32
  let derived ← tlsLabel W early (asc "derived") (W.sha256 []) 32
  let hs := hkdfExtract W derived (W.x25519 secret share)
  let cHs ← tlsLabel W hs (asc "c hs traffic") (W.sha256 transcript) 32
  let sHs ← tlsLabel W hs (asc "s hs traffic") (W.sha256 transcript) 32
  return (hs, cHs, sHs)

/-- What a client does when the server has finished: its own Finished, and the keys of what comes after. -/
def tlsFinish (st : State) (hs cHs transcript : Str) : Read State := do
  let derived ← tlsLabel W hs (asc "derived") (W.sha256 []) 32
  let master := hkdfExtract W derived tlsZero32
  let th := W.sha256 transcript
  let cAp ← tlsLabel W master (asc "c ap traffic") th 32
  let sAp ← tlsLabel W master (asc "s ap traffic") th 32
  let verify ← tlsFinished W cHs transcript
  let st := tlsRecordWrite st 20 [1]
  let wkeys ← tlsKeys W cHs
  let st ← tlsSeal W { st with wkeys := some wkeys, wseq := 0 } 22 (20 :: tlsVec 3 verify)
  let wkeys ← tlsKeys W cAp
  let rkeys ← tlsKeys W sAp
  return { st with wkeys := some wkeys, wseq := 0, rkeys := some rkeys, rseq := 0 }

/-- `(tls-handshake state host)`, with the random bytes it takes, in so many turns. -/
def tlsHandshake (world : World) (turns : ℕ) (secret random session : Str) (st : State) (host : Str) :
    Read (Bool × State) := do
  let hello := tlsClientHello host (W.x25519Public secret) random session
  match ← tlsMessage W (tlsRecordWrite st 22 hello) with
  | (none, st) => return (false, st)
  | (some (_, whole), st) =>
      match ← tlsServerShare whole with
      | none => return (false, st)
      | some share =>
          let transcript := hello ++ whole
          let (hs, cHs, sHs) ← tlsSecrets W secret share transcript
          let rkeys ← tlsKeys W sHs
          let st := { st with rkeys := some rkeys, rseq := 0 }
          match ← tlsServerLoop W world host sHs turns none false transcript st with
          | (none, st) => return (false, st)
          | (some transcript, st) =>
              let st ← tlsFinish W st hs cHs transcript
              return (true, st)

end

end ChrysaLisp.Tls
