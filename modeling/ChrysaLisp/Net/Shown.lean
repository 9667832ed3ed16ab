import ChrysaLisp.Net.Tls
import ChrysaLisp.Net.TlsEnds

set_option autoImplicit false

/-! # What a handshake has shown

The loop of the handshake takes messages in any order, and as often as they are sent. What it keeps of
them, the certificates that came last and whether a signature was checked, is what the messages so far
have shown (`Told`): of the certificates, that their chain passed; of the flag, that a message of
certificates whose chain passed came before a signature, by the key of the first of them, of all there was
before it. A Finished ends the loop with that flag set (`handshake_shows`). -/

namespace ChrysaLisp.Tls

open Bounded

variable {W : Ways}

/-! ## Signatures -/

/-- A key that signs data, by what checks that. -/
inductive Signs (W : Ways) (data sig : Str) : Key → Prop where
  | ed25519 (bits : Str) (h : W.ed25519Verify bits data sig = true) : Signs W data sig (.ed25519 bits)
  | pkcs1 (n e digest : Str) (name : HashName) (hdigest : rsaHash W (some name) data = some digest)
      (h : W.rsaVerifyPkcs1 n e name digest sig = true) : Signs W data sig (.rsa n e)
  | pss (n e digest : Str) (name : HashName) (hdigest : rsaHash W (some name) data = some digest)
      (h : W.rsaVerifyPss n e name digest sig = true) : Signs W data sig (.rsa n e)
  | ecdsa (key : Key) (curve : Curve) (bits digest r s : Str) (name : HashName) (seq a b : Item)
      (hkey : key.curve = some (curve, bits)) (hdigest : rsaHash W (some name) data = some digest)
      (hseq : derAt sig 0 = .ok (some seq)) (hints : derIn sig seq = .ok [a, b])
      (hr : derBytes sig a = .ok r) (hs : derBytes sig b = .ok s)
      (h : W.ecdsaVerify curve bits digest r s = true) : Signs W data sig key

theorem signs_of_x509Ecdsa {key : Key} {curve : Curve} {name : HashName} {bits digest data sig : Str}
    (hkey : key.curve = some (curve, bits)) (hdigest : rsaHash W (some name) data = some digest)
    (h : x509Ecdsa W curve bits digest sig = .ok true) : Signs W data sig key := by
  unfold x509Ecdsa at h
  obtain ⟨seq, hseq, h⟩ := bind_eq_ok.mp h
  cases seq with
  | none => simp at h
  | some seq =>
      dsimp only at h
      by_cases htag : seq.tag = 0x30
      · rw [if_pos htag] at h
        obtain ⟨ints, hints, h⟩ := bind_eq_ok.mp h
        by_cases hlen : ints.length = 2
        · rw [if_pos hlen] at h
          obtain ⟨a, b, rfl⟩ := List.length_eq_two.mp hlen
          simp only [elem_cons_zero, elem_cons_succ, ok_bind] at h
          obtain ⟨r, hr, h⟩ := bind_eq_ok.mp h
          obtain ⟨s, hs, h⟩ := bind_eq_ok.mp h
          exact .ecdsa key curve bits digest r s name seq a b hkey hdigest hseq hints hr hs (pure_eq_ok.mp h)
        · rw [if_neg hlen] at h
          simp at h
      · rw [if_neg htag] at h
        simp at h

/-- A signature that is good is one that the key made, by what checks it. -/
theorem signs_of_x509SigCheck {key : Option Key} {way : Option (Scheme × Option HashName)} {data sig : Str}
    (h : x509SigCheck W key way data sig = .ok true) : ∃ k, key = some k ∧ Signs W data sig k := by
  unfold x509SigCheck at h
  split at h
  · simp at h
  · split at h
    · exact ⟨_, rfl, .ed25519 _ (pure_eq_ok.mp h)⟩
    · simp at h
  · split at h
    · rename_i scheme hashName _ _ name digest hdigest
      split at h
      · exact ⟨_, rfl, .pkcs1 _ _ digest name hdigest (pure_eq_ok.mp h)⟩
      · exact ⟨_, rfl, .pss _ _ digest name hdigest (pure_eq_ok.mp h)⟩
      · split at h
        · rename_i hcurve
          exact ⟨_, rfl, signs_of_x509Ecdsa hcurve hdigest h⟩
        · simp at h
      · simp at h
    · simp at h

/-- A CertificateVerify that is good is signed by the key of the certificate. -/
theorem tlsVerify_true {cert : FirstCert} {msg transcript : Str}
    (h : tlsVerify W cert msg transcript = .ok true) : ∃ c key, cert = .cert (some c) ∧ c.key = some key ∧
      VerifyWhole msg ∧ Signs W (tlsSigned W transcript) (msg.drop 8) key := by
  unfold tlsVerify at h
  by_cases hcert : cert ≠ .cert none ∧ 8 ≤ msg.length
  · rw [if_pos hcert, tlsNum_of_le (by omega), ok_bind, tlsNum_of_le (by omega), ok_bind] at h
    by_cases hlen : msg.length = 8 + numAt msg 6 2
    · rw [if_pos hlen] at h
      obtain ⟨c, rfl⟩ : ∃ c, cert = .cert (some c) := by
        cases cert with
        | colon => simp at h
        | cert cert =>
            cases cert with
            | none => exact absurd rfl hcert.1
            | some c => exact ⟨c, rfl⟩
      obtain ⟨key, hkey, hsigns⟩ := signs_of_x509SigCheck h
      exact ⟨c, key, rfl, hkey, ⟨hcert.2, hlen⟩, hsigns⟩
    · rw [if_neg hlen] at h
      simp at h
  · rw [if_neg hcert] at h
    simp at h

/-! ## What is not changed -/

theorem check_tlsRecordRead (st : State) : Yields (tlsRecordRead st) (fun r => r.2.check = st.check) := by
  unfold tlsRecordRead
  dsimp only
  split_ifs
  · refine yields_bind_of fun len _ => ?_
    split_ifs
    · exact yields_bind_of fun type _ => (yields_pure _).mpr rfl
    · exact (yields_pure _).mpr rfl
  · exact (yields_pure _).mpr rfl

theorem check_tlsOpenLoop (turns : ℕ) : ∀ st : State,
    Yields (tlsOpenLoop W turns st) (fun r => r.2.check = st.check) := by
  induction turns with
  | zero => exact fun st => yields_error _
  | succ turns ih =>
      intro st
      rw [tlsOpenLoop]
      refine yields_bind_of fun r hr => ?_
      have hread := check_tlsRecordRead st r hr
      obtain ⟨rec, st1⟩ := r
      cases rec with
      | none => exact (yields_pure _).mpr hread
      | some rec =>
          obtain ⟨type, body⟩ := rec
          dsimp only at hread ⊢
          by_cases hspec : type = 20
          · rw [if_pos hspec, ← hread]
            exact ih st1
          · rw [if_neg hspec]
            cases st1.rkeys with
            | none => exact (yields_pure _).mpr hread
            | some keys =>
                obtain ⟨key, iv⟩ := keys
                dsimp only
                by_cases hsealed : type = 23
                · rw [if_pos hsealed]
                  refine yields_bind_of fun nonce _ => ?_
                  cases W.aeadOpen key nonce ([23, 3, 3] ++ tlsBe body.length 2) body with
                  | none => exact (yields_pure _).mpr hread
                  | some inner => exact (yields_pure _).mpr hread
                · rw [if_neg hsealed]
                  exact (yields_pure _).mpr hread

theorem check_tlsMessageLoop (turns : ℕ) : ∀ (buf : Str) (st : State),
    Yields (tlsMessageLoop W turns buf st) (fun r => r.2.2.check = st.check) := by
  induction turns with
  | zero => exact fun buf st => yields_error _
  | succ turns ih =>
      intro buf st
      rw [tlsMessageLoop]
      refine yields_bind_of fun short _ => ?_
      cases short with
      | false => exact (yields_pure _).mpr rfl
      | true =>
          rw [if_pos rfl]
          refine yields_bind_of fun r hr => ?_
          have hopen := check_tlsOpenLoop (W := W) _ st r hr
          split
          · rename_i data st1
            rw [← hopen]
            exact ih _ st1
          · exact (yields_pure _).mpr hopen

/-- Whether the server is asked who it is stays as it is. -/
theorem check_tlsMessage (st : State) : Yields (tlsMessage W st) (fun r => r.2.check = st.check) := by
  unfold tlsMessage
  refine yields_bind_of fun r hr => ?_
  have hloop := check_tlsMessageLoop (W := W) _ _ st r hr
  obtain ⟨ok, buf, st1⟩ := r
  cases ok with
  | false => exact (yields_pure _).mpr hloop
  | true =>
      dsimp only
      rw [if_pos rfl]
      refine yields_bind_of fun len _ => yields_bind_of fun whole _ => yields_bind_of fun type _ => ?_
      exact (yields_pure _).mpr hloop

/-! ## The messages of a handshake -/

/-- Messages that are read, one after the other. -/
inductive Reads (W : Ways) : State → List (ℕ × Str) → State → Prop where
  | nil (st : State) : Reads W st [] st
  | cons {st st1 st2 : State} {m : ℕ × Str} {ms : List (ℕ × Str)}
      (h : tlsMessage W st = .ok (some m, st1)) (hrest : Reads W st1 ms st2) : Reads W st (m :: ms) st2

/-- What messages are, one after the other. -/
def textOf (ms : List (ℕ × Str)) : Str := (ms.map Prod.snd).flatten

@[simp] theorem textOf_append (ms ms' : List (ℕ × Str)) : textOf (ms ++ ms') = textOf ms ++ textOf ms' := by
  simp [textOf]

@[simp] theorem textOf_singleton (m : ℕ × Str) : textOf [m] = m.2 := by
  simp [textOf]

variable (W) (world : World) (host start : Str)

/-- The last message of certificates has those, and their chain passed. -/
def Passed (ms : List (ℕ × Str)) (certs : List (Option Cert)) : Prop :=
  ∃ before cert after time, ms = before ++ (11, cert) :: after ∧ (∀ m ∈ after, m.1 ≠ 11) ∧
    tlsCertificates cert = .ok certs ∧ x509ChainCheck W certs host world.roots (world.now time) = .ok none

/-- Certificates whose chain passed came, and after them a signature, by the key of the first of them, of
all there was before it. -/
def Proved (ms : List (ℕ × Str)) : Prop :=
  ∃ before verify after certs cert key, ms = before ++ (15, verify) :: after ∧
    Passed W world host before certs ∧ certs.head? = some (some cert) ∧ cert.key = some key ∧
    VerifyWhole verify ∧ Signs W (tlsSigned W (start ++ textOf before)) (verify.drop 8) key

/-- What the loop keeps is what the messages so far have shown. -/
structure Told (ms : List (ℕ × Str)) (certs : Option (List (Option Cert))) (checked : Bool)
    (transcript : Str) : Prop where
  transcript_eq : transcript = start ++ textOf ms
  certs_passed : ∀ cs, certs = some cs → Passed W world host ms cs
  checked_proved : checked = true → Proved W world host start ms

variable {W world host start}

theorem Passed.more {ms : List (ℕ × Str)} {certs : List (Option Cert)} (h : Passed W world host ms certs)
    {m : ℕ × Str} (hm : m.1 ≠ 11) : Passed W world host (ms ++ [m]) certs := by
  obtain ⟨before, cert, after, time, rfl, hafter, hcerts, hchain⟩ := h
  refine ⟨before, cert, after ++ [m], time, by simp, fun m' hm' => ?_, hcerts, hchain⟩
  rw [List.mem_append, List.mem_singleton] at hm'
  cases hm' with
  | inl hm' => exact hafter m' hm'
  | inr hm' => exact hm' ▸ hm

theorem Proved.more {ms : List (ℕ × Str)} (h : Proved W world host start ms) (m : ℕ × Str) :
    Proved W world host start (ms ++ [m]) := by
  obtain ⟨before, verify, after, certs, cert, key, rfl, h⟩ := h
  exact ⟨before, verify, after ++ [m], certs, cert, key, by simp, h⟩

section

variable {ms : List (ℕ × Str)} {certs : Option (List (Option Cert))} {checked : Bool} {transcript whole : Str}

theorem told_nil (start : Str) : Told W world host start [] none false start where
  transcript_eq := by simp [textOf]
  certs_passed := fun cs h => by simp at h
  checked_proved := fun h => by simp at h

/-- A message the loop only adds to the transcript. -/
theorem Told.other (h : Told W world host start ms certs checked transcript) {type : ℕ} (htype : type ≠ 11) :
    Told W world host start (ms ++ [(type, whole)]) certs checked (transcript ++ whole) where
  transcript_eq := by simp [h.transcript_eq]
  certs_passed := fun cs hcs => (h.certs_passed cs hcs).more htype
  checked_proved := fun hchecked => (h.checked_proved hchecked).more _

/-- Certificates whose chain passed. -/
theorem Told.certificates (h : Told W world host start ms certs checked transcript)
    {cs : List (Option Cert)} {time : ℕ} (hcs : tlsCertificates whole = .ok cs)
    (hchain : x509ChainCheck W cs host world.roots (world.now time) = .ok none) :
    Told W world host start (ms ++ [(11, whole)]) (some cs) checked (transcript ++ whole) where
  transcript_eq := by simp [h.transcript_eq]
  certs_passed := fun cs' hcs' => by
    cases hcs'
    exact ⟨ms, whole, [], time, rfl, by simp, hcs, hchain⟩
  checked_proved := fun hchecked => (h.checked_proved hchecked).more _

/-- A signature of all there was before it. -/
theorem Told.verify (h : Told W world host start ms certs checked transcript)
    (hverify : tlsVerify W (firstCert certs) whole transcript = .ok true) :
    Told W world host start (ms ++ [(15, whole)]) certs true (transcript ++ whole) where
  transcript_eq := by simp [h.transcript_eq]
  certs_passed := fun cs hcs => (h.certs_passed cs hcs).more (by simp)
  checked_proved := fun _ => by
    obtain ⟨cert, key, hcert, hkey, hwhole, hsigns⟩ := tlsVerify_true hverify
    rw [h.transcript_eq] at hsigns
    cases certs with
    | none => simp [firstCert] at hcert
    | some cs =>
        have hfirst : cs.head? = some (some cert) := by
          rw [firstCert, FirstCert.cert.injEq, Option.join_eq_some_iff] at hcert
          exact hcert
        exact ⟨ms, whole, [], cs, cert, key, rfl, h.certs_passed cs rfl, hfirst, hkey, hwhole, hsigns⟩

end

/-- **What the loop has been through when it ends well**: by induction on its turns, one message each, with
what it keeps told by the messages before it. -/
theorem tlsServerLoop_shows {sHs t : Str} {st' : State} (turns : ℕ) :
    ∀ (certs : Option (List (Option Cert))) (checked : Bool) (transcript : Str) (st : State)
      (ms : List (ℕ × Str)), st.check = true → Told W world host start ms certs checked transcript →
    tlsServerLoop W world host sHs turns certs checked transcript st = .ok (some t, st') →
    ∃ more fin, Reads W st (more ++ [(20, fin)]) st' ∧ Proved W world host start (ms ++ more) ∧
      tlsFinished W sHs (start ++ textOf (ms ++ more)) = .ok (fin.drop 4) := by
  induction turns with
  | zero =>
      intro certs checked transcript st ms _ _ h
      simp [tlsServerLoop] at h
  | succ turns ih =>
      intro certs checked transcript st ms hcheck htold h
      rw [tlsServerLoop] at h
      obtain ⟨⟨got, st1⟩, hgot, h⟩ := bind_eq_ok.mp h
      have hcheck1 : st1.check = true := (check_tlsMessage st _ hgot).trans hcheck
      cases got with
      | none => simp at h
      | some m =>
          obtain ⟨type, whole⟩ := m
          -- what the turns after this one do, with this message in front
          have hmore : ∀ (certs' : Option (List (Option Cert))) (checked' : Bool),
              Told W world host start (ms ++ [(type, whole)]) certs' checked' (transcript ++ whole) →
              tlsServerLoop W world host sHs turns certs' checked' (transcript ++ whole) st1
                = .ok (some t, st') →
              ∃ more fin, Reads W st (more ++ [(20, fin)]) st' ∧ Proved W world host start (ms ++ more) ∧
                tlsFinished W sHs (start ++ textOf (ms ++ more)) = .ok (fin.drop 4) := by
            intro certs' checked' htold' hloop
            obtain ⟨more, fin, hreads, hproved, hfin⟩ := ih certs' checked' _ st1 _ hcheck1 htold' hloop
            rw [List.append_assoc, List.singleton_append] at hproved hfin
            exact ⟨(type, whole) :: more, fin, .cons hgot hreads, hproved, hfin⟩
          simp only [hcheck1, if_true] at h
          by_cases h11 : type = 11
          · rw [if_pos h11] at h
            obtain ⟨cs, hcs, h⟩ := bind_eq_ok.mp h
            obtain ⟨why, hwhy, h⟩ := bind_eq_ok.mp h
            cases why with
            | some why => simp at h
            | none =>
                subst h11
                exact hmore _ _ (htold.certificates hcs hwhy) h
          · rw [if_neg h11] at h
            by_cases h15 : type = 15
            · rw [if_pos h15] at h
              obtain ⟨good, hgood, h⟩ := bind_eq_ok.mp h
              cases good with
              | false => simp at h
              | true =>
                  rw [if_pos rfl] at h
                  subst h15
                  exact hmore _ _ (htold.verify hgood) h
            · rw [if_neg h15] at h
              by_cases h20 : type = 20
              · rw [if_pos h20] at h
                obtain ⟨want, hwant, h⟩ := bind_eq_ok.mp h
                by_cases hfin : whole.drop 4 = want
                · rw [if_neg (not_not_intro hfin)] at h
                  cases checked with
                  | false => simp at h
                  | true =>
                      obtain ⟨-, rfl⟩ : transcript ++ whole = t ∧ st1 = st' := by simpa using h
                      subst h20 hfin
                      refine ⟨[], whole, .cons hgot (.nil st1), ?_, ?_⟩
                      · simpa using htold.checked_proved rfl
                      · rw [htold.transcript_eq] at hwant
                        simpa using hwant
                · rw [if_pos hfin] at h
                  simp at h
              · rw [if_neg h20] at h
                exact hmore _ _ (htold.other h11) h

/-- **A handshake that succeeds has shown who the server is**, whatever came: after the ServerHello came
messages with certificates whose chain passed for the host, after them a signature by the key of the
first of the certificates of all the transcript before it, and at the end a Finished, the MAC of all the
transcript before that. -/
theorem handshake_shows {turns : ℕ} {secret random session : Str} {st st' : State} (hcheck : st.check = true)
    (h : tlsHandshake W world turns secret random session st host = .ok (true, st')) :
    ∃ kind serverHello share hs cHs sHs rkeys st1 st2 ms fin key,
      tlsMessage W (tlsRecordWrite st 22 (tlsClientHello host (W.x25519Public secret) random session))
        = .ok (some (kind, serverHello), st1) ∧
      tlsServerShare serverHello = .ok (some share) ∧
      tlsSecrets W secret share (tlsClientHello host (W.x25519Public secret) random session ++ serverHello)
        = .ok (hs, cHs, sHs) ∧
      Reads W { st1 with rkeys := some rkeys, rseq := 0 } (ms ++ [(20, fin)]) st2 ∧
      Proved W world host (tlsClientHello host (W.x25519Public secret) random session ++ serverHello) ms ∧
      tlsLabel W sHs (asc "finished") [] 32 = .ok key ∧
      fin.drop 4 = W.hmacSha256 key (W.sha256
        (tlsClientHello host (W.x25519Public secret) random session ++ serverHello ++ textOf ms)) := by
  unfold tlsHandshake at h
  obtain ⟨⟨got, st1⟩, hgot, h⟩ := bind_eq_ok.mp h
  have hcheck1 : st1.check = true := (check_tlsMessage _ _ hgot).trans hcheck
  cases got with
  | none => simp at h
  | some m =>
      obtain ⟨kind, serverHello⟩ := m
      obtain ⟨share, hshare, h⟩ := bind_eq_ok.mp h
      cases share with
      | none => simp at h
      | some share =>
          obtain ⟨⟨hs, cHs, sHs⟩, hsecrets, h⟩ := bind_eq_ok.mp h
          obtain ⟨rkeys, -, h⟩ := bind_eq_ok.mp h
          obtain ⟨⟨t, st2⟩, hloop, h⟩ := bind_eq_ok.mp h
          cases t with
          | none => simp at h
          | some t =>
              obtain ⟨ms, fin, hreads, hproved, hfin⟩ :=
                tlsServerLoop_shows turns none false _ { st1 with rkeys := some rkeys, rseq := 0 } [] hcheck1
                  (told_nil _) hloop
              rw [List.nil_append] at hproved hfin
              obtain ⟨key, hkey, hmac⟩ := bind_eq_ok.mp hfin
              exact ⟨kind, serverHello, share, hs, cHs, sHs, rkeys, st1, st2, ms, fin, key, hgot, hshare,
                hsecrets, hreads, hproved, hkey, (pure_eq_ok.mp hmac).symm⟩

/-! ## One that succeeds -/

/-- Ways that take anything for signed, and seal nothing. -/
def openWays : Ways where
  sha256 _ := []
  sha384 _ := []
  sha512 _ := []
  hmacSha256 _ _ := [7]
  x25519Public secret := secret
  x25519 _ point := point
  aeadSeal _ _ _ data := data
  aeadOpen _ _ _ sealed' := some sealed'
  ed25519Verify _ _ _ := true
  rsaVerifyPkcs1 _ _ _ _ _ := false
  rsaVerifyPss _ _ _ _ _ := false
  ecdsaVerify _ _ _ _ _ := false

/-- A certificate of a key of Ed25519, for the host `h`. -/
def certOfH : Str :=
  [0x30, 52,
    0x30, 44, 0x02, 0, 0x30, 0, 0x30, 0, 0x30, 4, 0x17, 0, 0x17, 0, 0x30, 0,
      0x30, 10, 0x30, 5, 0x06, 3, 0x2b, 0x65, 0x70, 0x03, 1, 0,
      0xa3, 16, 0x30, 14, 0x30, 12, 0x06, 3, 0x55, 0x1d, 0x11, 0x04, 5, 0x30, 3, 0x82, 1, 104,
    0x30, 2, 0x06, 0,
    0x03, 0]

/-- A ServerHello, and then a certificate, a signature, and a Finished in one record. -/
def serverSays : Str :=
  [22, 3, 3, 0, 90] ++
  [2, 0, 0, 86, 3, 3] ++ List.replicate 32 0 ++ [0, 0x13, 0x03, 0, 0, 46] ++ [0, 43, 0, 2, 3, 4] ++
  [0, 51, 0, 36, 0, 0x1d, 0, 32] ++ List.replicate 32 1 ++
  [22, 3, 3, 0, 80] ++
  [11, 0, 0, 63, 0, 0, 0, 59, 0, 0, 54] ++ certOfH ++ [0, 0] ++
  [15, 0, 0, 4, 8, 7, 0, 0] ++
  [20, 0, 0, 1, 7]

/-- A connection to that server. -/
def stateOfH : State where
  rin := serverSays
  rout := []
  hbuf := []
  rkeys := none
  rseq := 0
  wkeys := none
  wseq := 0
  check := true
  why := asc "the handshake did not finish"

/-- A host that keeps that certificate as a root. -/
def worldOfH : World where
  roots := match x509Parse certOfH with
    | .ok (some cert) => [cert]
    | _ => []
  now _ := 0

theorem handshake_shows_h : ∃ serverHello ms,
    Proved openWays worldOfH (asc "h") (tlsClientHello (asc "h") [1] [2] [3] ++ serverHello) ms := by
  have hcheck : stateOfH.check = true := rfl
  have hends : (match tlsHandshake openWays worldOfH 4 [1] [2] [3] stateOfH (asc "h") with
      | .ok (good, _) => good
      | .error _ => false) = true := by decide +kernel
  obtain ⟨st', h⟩ : ∃ st', tlsHandshake openWays worldOfH 4 [1] [2] [3] stateOfH (asc "h")
      = .ok (true, st') := by
    generalize tlsHandshake openWays worldOfH 4 [1] [2] [3] stateOfH (asc "h") = r at hends
    cases r with
    | error e => simp at hends
    | ok r =>
        obtain ⟨good, st'⟩ := r
        exact ⟨st', by rw [show good = true from hends]⟩
  obtain ⟨_, serverHello, _, _, _, _, _, _, _, ms, _, _, _, _, _, _, hproved, _⟩ :=
    handshake_shows hcheck h
  exact ⟨serverHello, ms, hproved⟩

end ChrysaLisp.Tls
