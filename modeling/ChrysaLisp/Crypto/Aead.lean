import ChrysaLisp.Crypto.ChaCha20
import ChrysaLisp.Crypto.PolyTag

set_option autoImplicit false

/-! # Data sealed and opened

`lib/crypto/aead.inc`: the data under the stream from block 1 on, with a tag of what comes of that and of what
goes with it, the key of the tag the start of block 0. -/

namespace ChrysaLisp.Aead

open Bytes Masked Poly1305 ChaCha20

/-- `+aead_zeros`. -/
def aeadZeros : Str := List.replicate 64 0

/-- What is added to the tag for one of the two. -/
def padded (s : Str) : List Str :=
  if s ≠ [] then [s, aeadZeros.take ((16 - s.length % 16) % 16)] else []

/-- All that is added to the tag, in the order it is. -/
def tagParts (aad cipher : Str) : List Str :=
  padded aad ++ padded cipher ++ [toBytes 8 aad.length ++ toBytes 8 cipher.length]

/-- `(aead-tag key nonce aad cipher)`. -/
def aeadTag (key nonce aad cipher : Str) : Option Str := do
  let start ← chacha20 key nonce 0 aeadZeros
  let ctx ← polyStart (start.take 32)
  let ctx ← polyAdds ctx (tagParts aad cipher)
  polyEnd ctx

/-- `(aead-seal key nonce aad data)`. -/
def aeadSeal (key nonce aad data : Str) : Option Str := do
  let cipher ← chacha20 key nonce 1 data
  let tag ← aeadTag key nonce aad cipher
  return cipher ++ tag

/-- Every byte of the tag is looked at, right or wrong. -/
def differ : Str → Str → ℕ → ℕ
  | a :: tag, b :: sealed, d => differ tag sealed (d ||| (a.val ^^^ b.val))
  | _, _, d => d

/-- `(aead-open key nonce aad sealed)`: none of it where the code has an error, `none` of that where it has
    `:nil`. -/
def aeadOpen (key nonce aad sealed : Str) : Option (Option Str) :=
  if 16 ≤ sealed.length then do
    let size := sealed.length - 16
    let cipher := sealed.take size
    let tag ← aeadTag key nonce aad cipher
    if differ tag (sealed.drop size) 0 = 0 then do
      let data ← chacha20 key nonce 1 cipher
      return some data
    else return none
  else return none

/-! ## What the tag is of -/

/-- The bytes fed to the tag. -/
def tagText (aad cipher : Str) : Str := (tagParts aad cipher).flatten

theorem flatten_padded (s : Str) : (padded s).flatten = s ++ aeadZeros.take ((16 - s.length % 16) % 16) := by
  rw [padded]
  split_ifs with h
  · rw [List.flatten_cons, List.flatten_singleton]
  · rw [not_not.mp h]
    rfl

theorem tagText_eq (aad cipher : Str) : tagText aad cipher =
    (padded aad).flatten ++ ((padded cipher).flatten ++
      (toBytes 8 aad.length ++ toBytes 8 cipher.length)) := by
  rw [tagText, tagParts, List.flatten_append, List.flatten_append, List.flatten_singleton, List.append_assoc]

/-- Padded, a string of a known length is still the string. -/
theorem padded_inj {s t rest rest' : Str} (hlen : s.length = t.length)
    (h : (padded s).flatten ++ rest = (padded t).flatten ++ rest') : s = t ∧ rest = rest' := by
  rw [flatten_padded, flatten_padded, hlen, List.append_assoc, List.append_assoc] at h
  obtain ⟨hs, htail⟩ := List.append_inj h hlen
  exact ⟨hs, List.append_cancel_left htail⟩

theorem toBytes_inj {n a b : ℕ} (ha : a < 256 ^ n) (hb : b < 256 ^ n)
    (h : toBytes n a = toBytes n b) : a = b := by
  have hvalue := congrArg ofBytes h
  rwa [ofBytes_toBytes, ofBytes_toBytes, Nat.mod_eq_of_lt ha, Nat.mod_eq_of_lt hb] at hvalue

/-- The lengths come last and are of a fixed size, and with them the two are told apart. -/
theorem tagText_inj {aad cipher aad' cipher' : Str} (haad : aad.length < 2 ^ 32)
    (hcipher : cipher.length < 2 ^ 32)
    (haad' : aad'.length < 2 ^ 32) (hcipher' : cipher'.length < 2 ^ 32)
    (h : tagText aad cipher = tagText aad' cipher') : aad = aad' ∧ cipher = cipher' := by
  have hfits {n : ℕ} (hn : n < 2 ^ 32) : n < 256 ^ 8 := hn.trans (by decide)
  rw [tagText_eq, tagText_eq, ← List.append_assoc, ← List.append_assoc (padded aad').flatten] at h
  obtain ⟨htexts, hlens⟩ := List.append_inj' h (by simp only [List.length_append, length_toBytes])
  obtain ⟨hlen, hlen'⟩ := List.append_inj hlens (by rw [length_toBytes, length_toBytes])
  have haads : aad.length = aad'.length := toBytes_inj (hfits haad) (hfits haad') hlen
  have hciphers : cipher.length = cipher'.length := toBytes_inj (hfits hcipher) (hfits hcipher') hlen'
  obtain ⟨hsame, hrest⟩ := padded_inj haads htexts
  rw [← List.append_nil (padded cipher).flatten, ← List.append_nil (padded cipher').flatten] at hrest
  exact ⟨hsame, (padded_inj hciphers hrest).1⟩

/-! ## The tag -/

/-- The key of the tag. -/
def tagKey (key nonce : Str) : Str := (streamBlock key nonce 0).take 32

theorem length_tagKey (key nonce : Str) : (tagKey key nonce).length = 32 := by
  rw [tagKey, List.length_take, length_streamBlock]
  rfl

/-- What is put on nothing is the stream itself. -/
theorem zipWith_zeros (ks : Str) : List.zipWith (· ^^^ ·) (List.replicate ks.length (0 : Byte)) ks = ks := by
  induction ks with
  | nil => rfl
  | cons k ks ih =>
      have hzero : (0 : Byte) ^^^ k = k := by
        apply Fin.ext
        change (0 ^^^ k.val) % 256 = k.val
        rw [Nat.zero_xor, Nat.mod_eq_of_lt k.isLt]
      rw [List.length_cons, List.replicate_succ, List.zipWith_cons_cons, ih, hzero]

theorem masked_zeros (key nonce : Str) : masked (stream key nonce 0) aeadZeros = streamBlock key nonce 0 := by
  have hlen := length_streamBlock key nonce 0
  have hblock : masked (stream key nonce 0) aeadZeros =
    masked (fun i => (streamBlock key nonce 0).getD i 0) aeadZeros :=
    mask_congr _ fun i hi => stream_block key nonce 0 (by rwa [aeadZeros, List.length_replicate] at hi)
  rw [hblock, masked, ← zipWith_eq_mask _ (by rw [hlen]; rfl), aeadZeros, ← hlen, zipWith_zeros]

theorem length_polyTag (k m : Str) : (polyTag k m).length = 16 := length_toBytes 16 _

theorem xor_eq_zero {a b : Byte} : a.val ^^^ b.val = 0 ↔ a = b := by
  constructor
  · intro h
    apply Fin.ext
    calc a.val = a.val ^^^ b.val ^^^ b.val := by rw [Nat.xor_assoc, Nat.xor_self, Nat.xor_zero]
      _ = b.val := by rw [h, Nat.zero_xor]
  · rintro rfl
    exact Nat.xor_self _

/-- All bytes of the two are the same where none is seen to differ. -/
theorem differ_eq_zero {tag : Str} : ∀ {sealed : Str}, tag.length = sealed.length → ∀ {d : ℕ},
    differ tag sealed d = 0 ↔ d = 0 ∧ tag = sealed := by
  induction tag with
  | nil =>
      intro sealed hlen d
      rw [List.eq_nil_of_length_eq_zero hlen.symm]
      exact (and_iff_left rfl).symm
  | cons a tag ih =>
      intro sealed hlen d
      cases sealed with
      | nil => exact absurd hlen (Nat.succ_ne_zero _)
      | cons b sealed =>
        rw [differ, ih (Nat.succ.inj hlen), Nat.or_eq_zero_iff, xor_eq_zero, List.cons.injEq, and_assoc]

theorem aeadOpen_short (key nonce aad : Str) {sealed : Str} (h : sealed.length < 16) :
    aeadOpen key nonce aad sealed = some none := by
  rw [aeadOpen, if_neg (by omega)]
  rfl

section Keyed

variable {key nonce : Str} (hkey : key.length = 32) (hnonce : nonce.length = 12)

include hkey hnonce

/-- The tag is the one there is to be, of the bytes fed to it and the start of block 0. -/
theorem aeadTag_eq (aad cipher : Str) :
    aeadTag key nonce aad cipher = some (polyTag (tagKey key nonce) (tagText aad cipher)) := by
  have hpoly := poly1305_eq (tagKey key nonce) (length_tagKey key nonce) (tagParts aad cipher)
  rw [aeadTag, chacha20_eq hkey hnonce, masked_zeros, Option.bind_eq_bind, Option.bind_some]
  exact hpoly

theorem aeadSeal_eq (aad data : Str) : aeadSeal key nonce aad data =
    some (masked (stream key nonce 1) data ++
      polyTag (tagKey key nonce) (tagText aad (masked (stream key nonce 1) data))) := by
  rw [aeadSeal, chacha20_eq hkey hnonce, Option.bind_eq_bind, Option.bind_some, aeadTag_eq hkey hnonce]
  rfl

/-- A cipher text with a tag is opened where the tag is its own. -/
theorem aeadOpen_append (aad cipher : Str) {tag : Str} (htag : tag.length = 16) :
    aeadOpen key nonce aad (cipher ++ tag) =
      some (if polyTag (tagKey key nonce) (tagText aad cipher) = tag then
      some (masked (stream key nonce 1) cipher) else none) := by
  have hsize : (cipher ++ tag).length - 16 = cipher.length := by
    rw [List.length_append, htag, Nat.add_sub_cancel]
  have hdiffer : differ (polyTag (tagKey key nonce) (tagText aad cipher)) tag 0 = 0 ↔
      polyTag (tagKey key nonce) (tagText aad cipher) = tag := by
    rw [differ_eq_zero (by rw [length_polyTag, htag])]
    exact and_iff_right rfl
  rw [aeadOpen, if_pos (by rw [List.length_append, htag]; exact Nat.le_add_left 16 _)]
  dsimp only
  rw [hsize, List.take_left, List.drop_left, aeadTag_eq hkey hnonce, Option.bind_eq_bind, Option.bind_some,
    chacha20_eq hkey hnonce]
  split_ifs with hzero hsame hsame
  · rfl
  · exact absurd (hdiffer.mp hzero) hsame
  · exact absurd (hdiffer.mpr hsame) hzero
  · rfl

/-- What is opened is a cipher text with its tag, and the data is had back of it. -/
theorem aeadOpen_eq_some (aad sealed data : Str) : aeadOpen key nonce aad sealed = some (some data) ↔
    ∃ cipher tag, sealed = cipher ++ tag ∧ tag.length = 16 ∧ aeadTag key nonce aad cipher = some tag ∧
      chacha20 key nonce 1 cipher = some data := by
  constructor
  · intro hopen
    rcases Nat.lt_or_ge sealed.length 16 with hshort | hlong
    · rw [aeadOpen_short key nonce aad hshort] at hopen
      injection hopen with hopen
      injection hopen
    · obtain ⟨cipher, tag, rfl, htag⟩ : ∃ cipher tag, sealed = cipher ++ tag ∧ tag.length = 16 :=
        ⟨sealed.take (sealed.length - 16), sealed.drop (sealed.length - 16),
          (List.take_append_drop ..).symm, by
          rw [List.length_drop]
          omega⟩
      rw [aeadOpen_append hkey hnonce aad cipher htag, Option.some.injEq] at hopen
      split_ifs at hopen with hsame
      refine ⟨cipher, tag, rfl, htag, ?_, ?_⟩
      · rw [aeadTag_eq hkey hnonce, hsame]
      · rw [chacha20_eq hkey hnonce, hopen]
  · rintro ⟨cipher, tag, rfl, htag, hright, hdata⟩
    rw [aeadTag_eq hkey hnonce, Option.some.injEq] at hright
    rw [chacha20_eq hkey hnonce] at hdata
    rw [aeadOpen_append hkey hnonce aad cipher htag, if_pos hright, hdata]

theorem aeadOpen_aeadSeal (aad data : Str) : ∃ sealed, aeadSeal key nonce aad data = some sealed ∧
    aeadOpen key nonce aad sealed = some (some data) := by
  refine ⟨_, aeadSeal_eq hkey hnonce aad data, ?_⟩
  rw [aeadOpen_append hkey hnonce aad _ (length_polyTag _ _), if_pos rfl, masked, masked,
    mask_mask xor_xor_self]

end Keyed

/-- A string has less than `2 ^ 32` bytes, so the number of a block of data is never again the one
    of the tag. -/
theorem block_ne_zero {size i : ℕ} (hsize : size < 2 ^ 32) (hi : i < size) :
    BitVec.ofNat 32 (1 + i / 64) ≠ 0 := by
  intro h
  have hnat := congrArg BitVec.toNat h
  rw [BitVec.toNat_ofNat, Nat.mod_eq_of_lt (by omega)] at hnat
  have hzero : (0 : Word).toNat = 0 := rfl
  omega

/-- What is sealed is opened; the bytes fed to the tag are of no other aad and cipher text; what is
    opened is a cipher text with its tag; and no byte of the data is under a byte of the block the
    tag's key is of. -/
theorem sealed_opens {key nonce : Str} (hkey : key.length = 32) (hnonce : nonce.length = 12) :
    (∀ aad data, ∃ sealed, aeadSeal key nonce aad data = some sealed ∧
      aeadOpen key nonce aad sealed = some (some data)) ∧
    (∀ aad cipher, aeadTag key nonce aad cipher =
      some (polyTag ((streamBlock key nonce 0).take 32) (tagText aad cipher))) ∧
    (∀ {aad cipher aad' cipher' : Str}, aad.length < 2 ^ 32 → cipher.length < 2 ^ 32 → aad'.length < 2 ^ 32 →
      cipher'.length < 2 ^ 32 → tagText aad cipher = tagText aad' cipher' → aad = aad' ∧ cipher = cipher') ∧
    (∀ aad sealed, ∃ opened, aeadOpen key nonce aad sealed = some opened ∧ ∀ data, opened = some data ↔
      ∃ cipher tag, sealed = cipher ++ tag ∧ tag.length = 16 ∧ aeadTag key nonce aad cipher = some tag ∧
        chacha20 key nonce 1 cipher = some data) ∧
    ∀ data : Str, data.length < 2 ^ 32 → ∃ cipher, chacha20 key nonce 1 data = some cipher ∧
      cipher.length = data.length ∧ ∀ i < data.length, BitVec.ofNat 32 (1 + i / 64) ≠ 0 ∧
        cipher[i]? = (data[i]?).map
          (· ^^^ (streamBlock key nonce (BitVec.ofNat 32 (1 + i / 64))).getD (i % 64) 0) := by
  refine ⟨aeadOpen_aeadSeal hkey hnonce, aeadTag_eq hkey hnonce, tagText_inj, fun aad sealed => ?_,
    fun data hdata => ?_⟩
  · have hopen : ∃ opened, aeadOpen key nonce aad sealed = some opened := by
      rcases Nat.lt_or_ge sealed.length 16 with hshort | hlong
      · exact ⟨none, aeadOpen_short key nonce aad hshort⟩
      · have htag : (sealed.drop (sealed.length - 16)).length = 16 := by
          rw [List.length_drop]
          omega
        have happ := aeadOpen_append hkey hnonce aad (sealed.take (sealed.length - 16)) htag
        rw [List.take_append_drop] at happ
        exact ⟨_, happ⟩
    obtain ⟨opened, hopened⟩ := hopen
    refine ⟨opened, hopened, fun data => ?_⟩
    rw [← aeadOpen_eq_some hkey hnonce, hopened, Option.some.injEq]
  · refine ⟨_, chacha20_eq hkey hnonce 1 data, length_mask _ _ _, fun i hi => ⟨block_ne_zero hdata hi, ?_⟩⟩
    rw [masked, getElem?_mask]
    rfl

/-- Nothing of a header alone. -/
theorem sealed_opens_zeros :
    (∀ aad data, ∃ sealed, aeadSeal (List.replicate 32 0) (List.replicate 12 0) aad data = some sealed ∧
      aeadOpen (List.replicate 32 0) (List.replicate 12 0) aad sealed = some (some data)) ∧
    (∀ aad cipher, aeadTag (List.replicate 32 0) (List.replicate 12 0) aad cipher = some
      (polyTag ((streamBlock (List.replicate 32 0) (List.replicate 12 0) 0).take 32) (tagText aad cipher))) ∧
    tagText (asc "ab") [] ≠ tagText (asc "a") (asc "b") := by
  obtain ⟨hback, htag, hinj, -⟩ := @sealed_opens (List.replicate 32 0) (List.replicate 12 0) rfl rfl
  exact ⟨hback, htag, fun h => absurd (hinj (by decide) (by decide) (by decide) (by decide) h).1 (by decide)⟩

end ChrysaLisp.Aead
