import ChrysaLisp.Net.TlsRead

set_option autoImplicit false

/-! # What a server says is read past

Which messages each reader reads to the end of what it looks for, and which are shorter than what they say:
of a ServerHello, of the certificates of a Certificate message, and of a CertificateVerify (`readers_end`).

The lengths in a ServerHello are not looked at against what there is of it, and its version is compared
whether or not there was one. -/

namespace ChrysaLisp.Tls

open Bounded

/-! ## ServerHello -/

/-- There is as much in an extension of a ServerHello as is read of it. -/
def ExtIn (kind : ℕ) (data : Str) : Prop :=
  (kind = 43 → 2 ≤ data.length) ∧
  (kind = 51 → 2 ≤ data.length ∧
    (numAt data 0 2 = 0x001d → 4 ≤ data.length ∧ (numAt data 2 2 = 32 → 36 ≤ data.length)))

/-- Where the extensions of a ServerHello start, at most so many of them, by what each says its length is. -/
def extPlaces (hello : Str) (extEnd : ℕ) : (most at' : ℕ) → List ℕ
  | 0, _ => []
  | most + 1, at' =>
      if at' + 4 < extEnd then at' :: extPlaces hello extEnd most (at' + 4 + numAt hello (at' + 2) 2) else []

/-- What is in the extension at a place. -/
def extData (hello : Str) (p : ℕ) : Str := (hello.take (p + 4 + numAt hello (p + 2) 2)).drop (p + 4)

/-- The extension at a place is all there, and there is as much in it as is read of it. -/
def PlaceIn (hello : Str) (p : ℕ) : Prop :=
  p + 4 + numAt hello (p + 2) 2 ≤ hello.length ∧ ExtIn (numAt hello p 2) (extData hello p)

theorem ends_tlsServerExt (kind : ℕ) (data : Str) (said : Said) :
    Ends (tlsServerExt kind data said) ↔ ExtIn kind data := by
  unfold tlsServerExt ExtIn
  by_cases h43 : kind = 43
  · simp [h43, ends_tlsNum]
  · by_cases h51 : kind = 51
    · simp only [h51, Nat.reduceEqDiff, if_false, if_true, ends_tlsNum_bind (show 0 < 2 by decide),
        Nat.zero_add, false_imp_iff, true_imp_iff, true_and]
      by_cases hgroup : numAt data 0 2 = 0x001d
      · simp only [hgroup, if_true, ends_tlsNum_bind (show 0 < 2 by decide), Nat.reduceAdd, true_imp_iff]
        by_cases hlen : numAt data 2 2 = 32
        · simp [hlen, ends_slice]
        · simp [hlen]
      · simp [hgroup]
    · simp [h43, h51]

/-- What an extension says of the version. -/
theorem version_tlsServerExt {kind : ℕ} {data : Str} {said said' : Said}
    (h : tlsServerExt kind data said = .ok said') :
    said'.version ≠ none ↔ kind = 43 ∨ said.version ≠ none := by
  unfold tlsServerExt at h
  by_cases h43 : kind = 43
  · rw [if_pos h43, bind_eq_ok] at h
    obtain ⟨version, -, h⟩ := h
    rw [← pure_eq_ok.mp h]
    simp [h43]
  · rw [if_neg h43] at h
    have hkept : said'.version = said.version := by
      by_cases h51 : kind = 51
      · rw [if_pos h51, bind_eq_ok] at h
        obtain ⟨group, -, h⟩ := h
        by_cases hgroup : group = 0x001d
        · rw [if_pos hgroup, bind_eq_ok] at h
          obtain ⟨len, -, h⟩ := h
          by_cases hlen : len = 32
          · rw [if_pos hlen, bind_eq_ok] at h
            obtain ⟨share, -, h⟩ := h
            rw [← pure_eq_ok.mp h]
          · rw [if_neg hlen] at h
            rw [← pure_eq_ok.mp h]
        · rw [if_neg hgroup] at h
          rw [← pure_eq_ok.mp h]
      · rw [if_neg h51] at h
        rw [← pure_eq_ok.mp h]
    simp [hkept, h43]

/-- The extensions are read where each of them is all there. -/
theorem ends_tlsServerExts (hello : Str) (extEnd : ℕ) (turns : ℕ) : ∀ (at' : ℕ) (said : Said),
    extEnd - at' ≤ turns →
    (Ends (tlsServerExts hello extEnd (turns + 1) at' said) ↔
      ∀ p ∈ extPlaces hello extEnd turns at', PlaceIn hello p) := by
  induction turns with
  | zero =>
      intro at' said h
      rw [tlsServerExts, if_neg (by omega)]
      simp [extPlaces]
  | succ turns ih =>
      intro at' said h
      rw [tlsServerExts, extPlaces]
      by_cases hat : at' + 4 < extEnd
      · rw [if_pos hat, if_pos hat, List.forall_mem_cons]
        simp only [ends_tlsNum_bind (show 0 < 2 by decide), ends_slice_bind]
        by_cases hin : at' + 4 + numAt hello (at' + 2) 2 ≤ hello.length
        · have hkind : at' + 2 ≤ hello.length := by omega
          have hlen : at' + 2 + 2 ≤ hello.length := by omega
          have hle : at' + 4 ≤ at' + 4 + numAt hello (at' + 2) 2 := Nat.le_add_right _ _
          simp only [hkind, hlen, hle, hin, true_and, PlaceIn, ends_bind]
          constructor
          · rintro ⟨said', hsaid, hrest⟩
            exact ⟨(ends_tlsServerExt _ _ _).mp ⟨said', hsaid⟩, (ih _ said' (by omega)).mp hrest⟩
          · rintro ⟨hext, hrest⟩
            obtain ⟨said', hsaid⟩ := (ends_tlsServerExt _ _ said).mpr hext
            exact ⟨said', hsaid, (ih _ said' (by omega)).mpr hrest⟩
        · simp [hin, PlaceIn]
      · rw [if_neg hat, if_neg hat]
        simp

theorem version_tlsServerExts {hello : Str} {extEnd : ℕ} (turns : ℕ) : ∀ (at' : ℕ) (said said' : Said),
    extEnd - at' ≤ turns → tlsServerExts hello extEnd (turns + 1) at' said = .ok said' →
    (said'.version ≠ none ↔
      (∃ p ∈ extPlaces hello extEnd turns at', numAt hello p 2 = 43) ∨ said.version ≠ none) := by
  induction turns with
  | zero =>
      intro at' said said' h hsaid
      rw [tlsServerExts, if_neg (by omega), pure_eq_ok] at hsaid
      simp [extPlaces, hsaid]
  | succ turns ih =>
      intro at' said said' h hsaid
      rw [tlsServerExts] at hsaid
      rw [extPlaces]
      by_cases hat : at' + 4 < extEnd
      · rw [if_pos hat, bind_eq_ok] at hsaid
        obtain ⟨kind, hkind, hsaid⟩ := hsaid
        obtain ⟨len, hlen, hsaid⟩ := bind_eq_ok.mp hsaid
        obtain ⟨data, -, hsaid⟩ := bind_eq_ok.mp hsaid
        obtain ⟨next, hnext, hsaid⟩ := bind_eq_ok.mp hsaid
        have hkind' : kind = numAt hello at' 2 := tlsNum_eq_numAt (by decide) hkind
        have hlen' : len = numAt hello (at' + 2) 2 := tlsNum_eq_numAt (by decide) hlen
        rw [ih _ next said' (by omega) hsaid, version_tlsServerExt hnext, if_pos hat, hkind', hlen']
        rw [List.exists_mem_cons_iff, or_assoc, or_left_comm, ← or_assoc, or_comm (a := _ = 43)]
      · rw [if_neg hat, pure_eq_ok] at hsaid
        simp [hat, hsaid]

/-- Where the extensions of a ServerHello end. -/
def extEndOf (hello : Str) : ℕ := 44 + byteAt hello 38 + numAt hello (42 + byteAt hello 38) 2

/-- Where its extensions are. -/
def extsOf (hello : Str) : List ℕ := extPlaces hello (extEndOf hello) (extEndOf hello) (44 + byteAt hello 38)

/-- A ServerHello has what is read of it: what is after the session's name is there, so is each extension,
and if the suite is the one that was offered an extension says a version. -/
def ShareIn (hello : Str) : Prop :=
  44 < hello.length → byteAt hello 0 = 2 →
    44 + byteAt hello 38 ≤ hello.length ∧ (∀ p ∈ extsOf hello, PlaceIn hello p) ∧
    (numAt hello (39 + byteAt hello 38) 2 = 0x1303 → ∃ p ∈ extsOf hello, numAt hello p 2 = 43)

theorem ends_tlsServerShare (hello : Str) : Ends (tlsServerShare hello) ↔ ShareIn hello := by
  unfold tlsServerShare ShareIn
  by_cases hlen : 44 < hello.length
  · have h38 : 38 < hello.length := by omega
    rw [if_pos hlen, ends_code_bind]
    by_cases hkind : byteAt hello 0 = 2
    · simp only [hkind, if_true, ends_slice_bind, ends_code_bind, ends_tlsNum_bind (show 0 < 2 by decide),
        h38, hlen, true_imp_iff, true_and]
      have hplace : 39 + byteAt hello 38 + 3 = 42 + byteAt hello 38 := by omega
      have hstart : 42 + byteAt hello 38 + 2 = 44 + byteAt hello 38 := by omega
      have hend : 44 + byteAt hello 38 + numAt hello (42 + byteAt hello 38) 2 = extEndOf hello := rfl
      simp only [hplace, hstart, hend, ends_bind]
      constructor
      · rintro ⟨-, -, -, hin, said, hsaid, hversion⟩
        refine ⟨hin, (ends_tlsServerExts hello _ _ _ _ (Nat.sub_le _ _)).mp ⟨said, hsaid⟩, fun hsuite => ?_⟩
        rw [if_pos hsuite, ends_bind] at hversion
        obtain ⟨version, hversion, -⟩ := hversion
        have hset : said.version ≠ none := ends_value.mp ⟨version, hversion⟩
        exact ((version_tlsServerExts _ _ _ _ (Nat.sub_le _ _) hsaid).mp hset).resolve_right (fun h => h rfl)
      · rintro ⟨hin, hall, hversion⟩
        obtain ⟨said, hsaid⟩ := (ends_tlsServerExts hello _ _ _ ⟨none, none⟩ (Nat.sub_le _ _)).mpr hall
        refine ⟨by omega, by omega, by omega, hin, said, hsaid, ?_⟩
        by_cases hsuite : numAt hello (39 + byteAt hello 38) 2 = 0x1303
        · have hset := (version_tlsServerExts _ _ _ _ (Nat.sub_le _ _) hsaid).mpr (Or.inl (hversion hsuite))
          rw [if_pos hsuite]
          exact (ends_value.mpr hset).bind fun _ _ => ends_pure _
        · rw [if_neg hsuite]
          exact ends_pure _
    · have hpos : 0 < hello.length := by omega
      simp [hkind, hpos]
  · simp [hlen]

/-! ## Certificate -/

/-- What there is of certificates in a list of them, at most so many. -/
def certsFrom (msg : Str) (stop : ℕ) : (most at' : ℕ) → List Str
  | 0, _ => []
  | most + 1, at' =>
      let next := at' + 3 + numAt msg at' 3
      if at' + 3 ≤ stop ∧ next + 2 ≤ stop then
        ((msg.take next).drop (at' + 3)) :: certsFrom msg stop most (next + 2 + numAt msg next 2)
      else []

/-- The certificates of a Certificate message. -/
def certsOf (msg : Str) : List Str :=
  let at' := 5 + byteAt msg 4
  let stop := min msg.length (at' + 3 + numAt msg at' 3)
  if 4 < msg.length ∧ at' + 3 ≤ msg.length then certsFrom msg stop stop (at' + 3) else []

/-- Each extension of a certificate has something in it. -/
def ExtensionsFilled (der : Str) : Prop := ∀ ext ∈ certExtensions der, things der ext ≠ []

theorem ends_tlsCertificatesLoop {msg : Str} {stop : ℕ} (hstop : stop ≤ msg.length) (turns : ℕ) :
    ∀ at' : ℕ, stop - at' ≤ turns →
    (Ends (tlsCertificatesLoop msg stop (turns + 1) at') ↔
      ∀ der ∈ certsFrom msg stop turns at', ExtensionsFilled der) := by
  induction turns with
  | zero =>
      intro at' h
      rw [tlsCertificatesLoop, if_neg (by omega)]
      simp [certsFrom]
  | succ turns ih =>
      intro at' h
      rw [tlsCertificatesLoop, certsFrom]
      by_cases hat : at' + 3 ≤ stop
      · have hlen : at' + 3 ≤ msg.length := by omega
        rw [if_pos hat, tlsNum_of_le hlen, ok_bind]
        dsimp only
        by_cases hnext : at' + 3 + numAt msg at' 3 + 2 ≤ stop
        · have hmore := ih (at' + 3 + numAt msg at' 3 + 2 + numAt msg (at' + 3 + numAt msg at' 3) 2)
            (by omega)
          rw [if_neg (by omega), if_pos ⟨hat, hnext⟩, slice_of_le (Nat.le_add_right _ _) (by omega), ok_bind,
            List.forall_mem_cons, ← hmore, ExtensionsFilled, ← ends_x509Parse]
          rw [ends_bind]
          simp only [tlsNum_of_le (show at' + 3 + numAt msg at' 3 + 2 ≤ msg.length by omega), ok_bind]
          constructor
          · rintro ⟨cert, hcert, hrest⟩
            obtain ⟨rest, hrest, -⟩ := (ends_bind _ _).mp hrest
            exact ⟨⟨cert, hcert⟩, rest, hrest⟩
          · rintro ⟨⟨cert, hcert⟩, hrest⟩
            exact ⟨cert, hcert, hrest.bind fun _ _ => ends_pure _⟩
        · rw [if_pos (by omega), if_neg (fun h => hnext h.2)]
          simp
      · rw [if_neg hat, if_neg (fun h => hat h.1)]
        simp

theorem ends_tlsCertificates (msg : Str) :
    Ends (tlsCertificates msg) ↔ ∀ der ∈ certsOf msg, ExtensionsFilled der := by
  unfold tlsCertificates certsOf
  by_cases hlen : 4 < msg.length
  · simp only [hlen, if_true, true_and, code_of_lt hlen, ok_bind]
    by_cases hat : 5 + byteAt msg 4 + 3 ≤ msg.length
    · simp only [hat, if_true, tlsNum_of_le hat, ok_bind]
      exact ends_tlsCertificatesLoop (Nat.min_le_left _ _) _ _ (Nat.sub_le _ _)
    · simp [hat]
  · simp [hlen]

/-! ## CertificateVerify -/

/-- A CertificateVerify is as long as it says its signature is. -/
def VerifyWhole (msg : Str) : Prop := 8 ≤ msg.length ∧ msg.length = 8 + numAt msg 6 2

theorem ends_tlsVerify (W : Ways) (cert : FirstCert) (msg transcript : Str) :
    Ends (tlsVerify W cert msg transcript) ↔ (cert = .colon → ¬ VerifyWhole msg) := by
  unfold tlsVerify VerifyWhole
  by_cases hlen : 8 ≤ msg.length
  · have h6 : 4 + 2 ≤ msg.length := by omega
    have h8 : 6 + 2 ≤ msg.length := by omega
    cases cert with
    | colon =>
        simp only [ne_eq, reduceCtorEq, not_false_eq_true, hlen, true_and, if_true, tlsNum_of_le h6,
          tlsNum_of_le h8, ok_bind, true_imp_iff]
        by_cases hwhole : msg.length = 8 + numAt msg 6 2
        · simp [hwhole]
        · simp [hwhole]
    | cert cert =>
        simp only [reduceCtorEq, false_imp_iff, iff_true]
        cases cert with
        | none => simp
        | some cert =>
            simp only [ne_eq, FirstCert.cert.injEq, reduceCtorEq, not_false_eq_true, hlen, true_and, if_true,
              tlsNum_of_le h6, tlsNum_of_le h8, ok_bind]
            by_cases hwhole : msg.length = 8 + numAt msg 6 2
            · rw [if_pos hwhole]
              exact ends_x509SigCheck W _ _ _ _
            · rw [if_neg hwhole]
              exact ends_pure _
  · simp [hlen]

/-! ## All of them -/

/-- **Each reader of what a server sends** ends, with all it took in what there is, exactly where:
each extension of the certificate, and of each certificate of the message, has something in it; the
ServerHello has what is read of it; and, of a CertificateVerify that is as long as it says, there is a
list of certificates to look for the first of. -/
theorem readers_end (W : Ways) (der hello msg verify transcript : Str) (cert : FirstCert) :
    (Ends (x509Parse der) ↔ ExtensionsFilled der) ∧
    (Ends (tlsServerShare hello) ↔ ShareIn hello) ∧
    (Ends (tlsCertificates msg) ↔ ∀ der ∈ certsOf msg, ExtensionsFilled der) ∧
    (Ends (tlsVerify W cert verify transcript) ↔ (cert = .colon → ¬ VerifyWhole verify)) :=
  ⟨ends_x509Parse der, ends_tlsServerShare hello, ends_tlsCertificates msg,
    ends_tlsVerify W cert verify transcript⟩

/-- A certificate with one extension that has nothing in it. -/
def emptyExtension : Str :=
  [0x30, 0x1e,
    0x30, 0x16, 0x02, 0, 0x30, 0, 0x30, 0, 0x30, 4, 0x17, 0, 0x17, 0, 0x30, 0, 0x30, 0,
      0xa3, 4, 0x30, 2, 0x30, 0,
    0x30, 2, 0x06, 0,
    0x03, 0]

/-- A ServerHello of 45 bytes that says the name of the session is 255. -/
def shortHello : Str := 2 :: List.replicate 37 0 ++ 255 :: List.replicate 6 0

/-- A ServerHello with the suite that was offered and no extensions, a byte after it. -/
def bareHello : Str := 2 :: List.replicate 38 0 ++ [0x13, 0x03, 0, 0, 0, 0]

/-- An element past the end of the parts of the extension, a byte past the end of the first ServerHello,
and, in the second, a version that none said. -/
theorem readers_past_end : ¬ Ends (x509Parse emptyExtension) ∧ ¬ Ends (tlsServerShare shortHello) ∧
    ¬ Ends (tlsServerShare bareHello) := by
  have hcert : x509Parse emptyExtension = .error .element := by decide +kernel
  have hshort : tlsServerShare shortHello = .error .element := by decide +kernel
  have hbare : tlsServerShare bareHello = .error .unset := by decide +kernel
  rw [hcert, hshort, hbare]
  exact ⟨not_ends_error _, not_ends_error _, not_ends_error _⟩

end ChrysaLisp.Tls
