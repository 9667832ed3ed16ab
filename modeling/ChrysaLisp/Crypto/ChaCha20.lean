import ChrysaLisp.Library.Bytes
import ChrysaLisp.Library.Masked
import ChrysaLisp.Lisp.Str

set_option autoImplicit false

/-! # ChaCha20

A stream of bytes of a key and a nonce, in numbered blocks of 64, each byte of the data xored with the next of
it: `chacha20_xor` of `lib/crypto/lisp.vp`, and `lib/crypto/chacha20.inc`, which gives it the data in slices.
However the slices fall, byte `i` of the data has byte `i % 64` of block `counter + i / 64`
(`chacha20_eq`). -/

namespace ChrysaLisp.ChaCha20

open Bytes Masked

/-- The numbers of a block are 32 bits each, every sum is masked down to them. -/
abbrev Word := BitVec 32

/-- The 16 numbers of a block. -/
abbrev Block := Vector Word 16

/-- `+chacha20_slice`. -/
def chachaSlice : ℕ := 65536

/-- The four bytes at a place, as `vp-cpy-ir-ui` has them. -/
def wordAt (s : Str) (at' : ℕ) : Word := BitVec.ofNat 32 (ofBytes ((s.drop at').take 4))

/-- `cc-rotl`. -/
def ccRotl (x : Word) (n : ℕ) : Word := (x <<< n) ||| (x >>> (32 - n))

/-- `cc-quarter`. -/
def ccQuarter (x : Block) (a b c d : Fin 16) : Block :=
  let x := x.set a (x[a] + x[b])
  let x := x.set d (ccRotl (x[d] ^^^ x[a]) 16)
  let x := x.set c (x[c] + x[d])
  let x := x.set b (ccRotl (x[b] ^^^ x[c]) 12)
  let x := x.set a (x[a] + x[b])
  let x := x.set d (ccRotl (x[d] ^^^ x[a]) 8)
  let x := x.set c (x[c] + x[d])
  x.set b (ccRotl (x[b] ^^^ x[c]) 7)

/-- Down the columns, then along the diagonals. -/
def ccRound (x : Block) : Block :=
  let x := ccQuarter x 0 4 8 12
  let x := ccQuarter x 1 5 9 13
  let x := ccQuarter x 2 6 10 14
  let x := ccQuarter x 3 7 11 15
  let x := ccQuarter x 0 5 10 15
  let x := ccQuarter x 1 6 11 12
  let x := ccQuarter x 2 7 8 13
  ccQuarter x 3 4 9 14

/-- The rounds, and then what it started as added. -/
def ccWork (state : Block) : Block := Vector.zipWith (· + ·) (ccRound^[10] state) state

/-- The block as it starts: four numbers that never change, the key, the counter and the nonce. -/
def ccState (key nonce : Str) (counter : Word) : Block :=
  #v[0x61707865, 0x3320646e, 0x79622d32, 0x6b206574,
    wordAt key 0, wordAt key 4, wordAt key 8, wordAt key 12,
    wordAt key 16, wordAt key 20, wordAt key 24, wordAt key 28,
    counter, wordAt nonce 0, wordAt nonce 4, wordAt nonce 8]

/-- Each number xored with four bytes of the data. -/
def ccXor : List Word → Str → Str
  | [], _ => []
  | w :: ws, data => toBytes 4 (w ^^^ wordAt data 0).toNat ++ ccXor ws (data.drop 4)

/-- `cc_block`, as long as there is data. Less than a block is made up to one and cut again, what the
    stack holds after it does not come out. -/
def ccLoop (state : Block) (data : Str) : Str :=
  if hdata : data.length = 0 then []
  else if 64 ≤ data.length then
    -- the next block has the next counter
    ccXor (ccWork state).toList (data.take 64) ++ ccLoop (state.set 12 (state[12] + 1)) (data.drop 64)
  else (ccXor (ccWork state).toList (data ++ List.replicate (64 - data.length) 0)).take data.length
termination_by data.length
decreasing_by
  rw [List.length_drop]
  omega

/-- `(chacha20-xor key nonce counter data out offset length)`. -/
def chacha20Xor (key nonce : Str) (counter : ℕ) (data out : Str) (offset length : ℕ) : Option Str :=
  if key.length = 32 ∧ nonce.length = 12 ∧ offset + length ≤ data.length ∧ offset + length ≤ out.length then
    some (out.take offset ++ ccLoop (ccState key nonce (BitVec.ofNat 32 counter))
      ((data.drop offset).take length) ++
      out.drop (offset + length))
  else none

/-- The loop of `chacha20`. -/
def chachaLoop (key nonce : Str) (counter : ℕ) (data : Str) (at' : ℕ) (out : Str) : Option Str :=
  if _hat : at' < data.length then
    let some_bytes := min (data.length - at') chachaSlice
    (chacha20Xor key nonce (counter + at' / 64) data out at' some_bytes).bind fun out =>
      chachaLoop key nonce counter data (at' + some_bytes) out
  else some out
termination_by data.length - at'
decreasing_by
  have hslice : 0 < chachaSlice := by decide
  omega

/-- `(chacha20 key nonce counter data)`: what is in a new string is written over, all of it. -/
def chacha20 (key nonce : Str) (counter : ℕ) (data : Str) : Option Str :=
  chachaLoop key nonce counter data 0 (List.replicate data.length 0)

/-! ## The stream -/

/-- The bytes of a numbered block. -/
def streamBlock (key nonce : Str) (n : Word) : Str :=
  (ccWork (ccState key nonce n)).toList.flatMap fun w => toBytes 4 w.toNat

/-- Byte `i` of the stream from block `counter` on. -/
def stream (key nonce : Str) (counter i : ℕ) : Byte :=
  (streamBlock key nonce (BitVec.ofNat 32 (counter + i / 64))).getD (i % 64) 0

/-- Data under the stream. -/
abbrev masked (s : ℕ → Byte) (data : Str) : Str := mask (· ^^^ ·) s data

/-! ## A block -/

theorem toNat_wordAt (s : Str) (at' : ℕ) : (wordAt s at').toNat = ofBytes ((s.drop at').take 4) := by
  have hlen : ((s.drop at').take 4).length ≤ 4 := List.length_take_le 4 _
  have hlt : ofBytes ((s.drop at').take 4) < 2 ^ 32 :=
    (ofBytes_lt _).trans_le (Nat.pow_le_pow_right (n := 256) (by decide) hlen)
  rw [wordAt, BitVec.toNat_ofNat, Nat.mod_eq_of_lt hlt]

/-- The numbers are xored as their bytes are. -/
theorem ccXor_eq (ws : List Word) : ∀ {data : Str}, data.length = 4 * ws.length →
    ccXor ws data = List.zipWith (· ^^^ ·) data (ws.flatMap fun w => toBytes 4 w.toNat) := by
  induction ws with
  | nil =>
      intro data hdata
      rw [List.eq_nil_of_length_eq_zero hdata]
      rfl
  | cons w ws ih =>
      intro data hdata
      rw [List.length_cons] at hdata
      have hfour : (data.take 4).length = 4 := by
        rw [List.length_take]
        omega
      have hhead : toBytes 4 (w ^^^ wordAt data 0).toNat =
        List.zipWith (· ^^^ ·) (data.take 4) (toBytes 4 w.toNat) := by
        have hbytes := toBytes_xor w.toNat (data.take 4)
        rw [hfour] at hbytes
        rw [BitVec.toNat_xor, toNat_wordAt, List.drop_zero, hbytes]
      have hrest := @ih (data.drop 4) (by rw [List.length_drop]; omega)
      rw [ccXor, hhead, hrest, List.flatMap_cons, ← List.zipWith_append (by rw [hfour, length_toBytes]),
        List.take_append_drop]

theorem length_flatMap_toBytes (ws : List Word) :
    (ws.flatMap fun w => toBytes 4 w.toNat).length = 4 * ws.length := by
  induction ws with
  | nil => rfl
  | cons w ws ih =>
      rw [List.flatMap_cons, List.length_append, length_toBytes, ih, List.length_cons]
      ring

theorem length_streamBlock (key nonce : Str) (n : Word) : (streamBlock key nonce n).length = 64 := by
  rw [streamBlock, length_flatMap_toBytes, Vector.length_toList]

theorem ccXor_block (key nonce : Str) (n : Word) {data : Str} (hdata : data.length = 64) :
    ccXor (ccWork (ccState key nonce n)).toList data =
      masked (fun i => (streamBlock key nonce n).getD i 0) data := by
  rw [ccXor_eq _ (by rw [hdata, Vector.length_toList])]
  exact zipWith_eq_mask _ (by rw [hdata]; exact (length_streamBlock key nonce n).ge) 0

/-- The next block is of the next counter. -/
theorem ccState_next (key nonce : Str) (n : Word) :
    (ccState key nonce n).set 12 ((ccState key nonce n)[12] + 1) = ccState key nonce (n + 1) := rfl

theorem ccLoop_nil (state : Block) : ccLoop state [] = [] := by
  rw [ccLoop]
  rfl

theorem ccLoop_block (key nonce : Str) (n : Word) {data : Str} (hdata : 64 ≤ data.length) :
    ccLoop (ccState key nonce n) data = masked (fun i => (streamBlock key nonce n).getD i 0) (data.take 64) ++
      ccLoop (ccState key nonce (n + 1)) (data.drop 64) := by
  rw [ccLoop, dif_neg (by omega), if_pos hdata, ccState_next, ccXor_block]
  rw [List.length_take]
  omega

theorem ccLoop_short (key nonce : Str) (n : Word) {data : Str} (hpos : 0 < data.length)
    (hdata : data.length < 64) :
    ccLoop (ccState key nonce n) data = masked (fun i => (streamBlock key nonce n).getD i 0) data := by
  have hmade : (data ++ List.replicate (64 - data.length) (0 : Byte)).length = 64 := by
    rw [List.length_append, List.length_replicate]
    omega
  rw [ccLoop, dif_neg (by omega), if_neg (by omega), ccXor_block _ _ _ hmade, masked, take_mask,
    List.take_left]

/-- The stream from a block on begins with it. -/
theorem stream_block (key nonce : Str) (counter : ℕ) {i : ℕ} (hi : i < 64) :
    stream key nonce counter i = (streamBlock key nonce (BitVec.ofNat 32 counter)).getD i 0 := by
  rw [stream, Nat.div_eq_of_lt hi, Nat.mod_eq_of_lt hi, Nat.add_zero]

theorem stream_add (key nonce : Str) (counter blocks i : ℕ) :
    stream key nonce (counter + blocks) i = stream key nonce counter (i + blocks * 64) := by
  rw [stream, stream, Nat.add_mul_div_right i blocks (by decide), Nat.add_mul_mod_self_right, Nat.add_assoc,
    Nat.add_comm blocks]

/-- However long the data, each block of it has its own of the stream. -/
theorem ccLoop_eq (key nonce : Str) (size : ℕ) : ∀ {counter : ℕ} {data : Str}, data.length = size →
    ccLoop (ccState key nonce (BitVec.ofNat 32 counter)) data = masked (stream key nonce counter) data := by
  induction size using Nat.strong_induction_on with
  | _ size ih =>
    intro counter data hsize
    rcases Nat.lt_or_ge data.length 64 with hshort | hlong
    · rcases Nat.eq_zero_or_pos data.length with hempty | hpos
      · rw [List.eq_nil_of_length_eq_zero hempty, ccLoop_nil]
        rfl
      · rw [ccLoop_short _ _ _ hpos hshort]
        exact mask_congr _ fun i hi => (stream_block key nonce counter (by omega)).symm
    · have htake : (data.take 64).length = 64 := by
        rw [List.length_take]
        omega
      have hnext : BitVec.ofNat 32 counter + 1 = BitVec.ofNat 32 (counter + 1) := by
        rw [BitVec.ofNat_add]
        rfl
      have hrest := @ih (size - 64) (by omega) (counter + 1) (data.drop 64)
        (by rw [List.length_drop, hsize])
      have hfirst : masked (fun i => (streamBlock key nonce (BitVec.ofNat 32 counter)).getD i 0)
        (data.take 64)
          = masked (stream key nonce counter) (data.take 64) :=
        mask_congr _ fun i hi => (stream_block key nonce counter (htake ▸ hi)).symm
      have hlater : masked (stream key nonce (counter + 1)) (data.drop 64)
          = masked (fun i => stream key nonce counter (i + (data.take 64).length)) (data.drop 64) :=
        mask_congr _ fun i _ => by rw [htake, stream_add, Nat.one_mul]
      rw [ccLoop_block _ _ _ hlong, hnext, hrest, hfirst, hlater, ← mask_append, List.take_append_drop]

/-! ## Slices -/

theorem chacha20Xor_eq {key nonce : Str} (hkey : key.length = 32) (hnonce : nonce.length = 12) (counter : ℕ)
    {data out : Str} {offset length : ℕ} (hdata : offset + length ≤ data.length)
    (hout : out.length = data.length)
    (hblock : 64 ∣ offset) : chacha20Xor key nonce (counter + offset / 64) data out offset length
      = some (out.take offset ++
        masked (fun i => stream key nonce counter (i + offset)) ((data.drop offset).take length)
        ++ out.drop (offset + length)) := by
  have hstream : stream key nonce (counter + offset / 64) =
    fun i => stream key nonce counter (i + offset) := by
    funext i
    rw [stream_add, Nat.div_mul_cancel hblock]
  rw [chacha20Xor, if_pos ⟨hkey, hnonce, hdata, hout ▸ hdata⟩, ccLoop_eq key nonce _ rfl, hstream]

/-- A slice done, the data up to its end is under the stream. -/
theorem slice_step {s : ℕ → Byte} {data out : Str} {at' length : ℕ} (hlen : at' + length ≤ data.length)
    (hout : out.length = data.length) (hdone : out.take at' = masked s (data.take at')) :
    (out.take at' ++ masked (fun i => s (i + at')) ((data.drop at').take length) ++
      out.drop (at' + length)).take
      (at' + length) = masked s (data.take (at' + length)) := by
  have htake : (data.take at').length = at' := by
    rw [List.length_take]
    omega
  have hwhole : data.take (at' + length) = data.take at' ++ (data.drop at').take length := List.take_add
  have hmasked : out.take at' ++ masked (fun i => s (i + at')) ((data.drop at').take length)
      = masked s (data.take (at' + length)) := by
    rw [hwhole, hdone, masked, masked, masked, mask_append, htake]
  rw [hmasked]
  apply List.take_left'
  rw [length_mask, List.length_take]
  omega

/-- A slice is a whole number of blocks, so each starts where one does. -/
theorem chachaLoop_spec {key nonce : Str} (hkey : key.length = 32) (hnonce : nonce.length = 12) (counter : ℕ)
    {data : Str} (left : ℕ) : ∀ {at' : ℕ} {out : Str}, data.length - at' = left → at' ≤ data.length →
    (at' < data.length → 64 ∣ at') → out.length = data.length →
    out.take at' = masked (stream key nonce counter) (data.take at') →
    chachaLoop key nonce counter data at' out = some (masked (stream key nonce counter) data) := by
  induction left using Nat.strong_induction_on with
  | _ left ih =>
    intro at' out hleft hle hblock hout hdone
    rw [chachaLoop]
    split_ifs with hmore
    · have hslice : 0 < chachaSlice ∧ 64 ∣ chachaSlice := by decide
      obtain ⟨length, hlength⟩ : ∃ length, length = min (data.length - at') chachaSlice := ⟨_, rfl⟩
      have hend : at' + length ≤ data.length := by omega
      dsimp only
      rw [← hlength, chacha20Xor_eq hkey hnonce counter hend hout (hblock hmore), Option.bind_some]
      refine ih (data.length - (at' + length)) (by omega) rfl hend (fun hlater => ?_) ?_
        (slice_step hend hout hdone)
      · have hfull : length = chachaSlice := by omega
        exact (hblock hmore).add (hfull ▸ hslice.2)
      · simp only [List.length_append, length_mask, List.length_take, List.length_drop]
        omega
    · have hall : at' = data.length := by omega
      rw [hall, List.take_length, ← hout, List.take_length] at hdone
      rw [hdone]

/-- The data under the stream from its block on, however it was cut. -/
theorem chacha20_eq {key nonce : Str} (hkey : key.length = 32) (hnonce : nonce.length = 12)
    (counter : ℕ) (data : Str) :
    chacha20 key nonce counter data = some (masked (stream key nonce counter) data) :=
  chachaLoop_spec hkey hnonce counter (data.length - 0) rfl (Nat.zero_le _) (fun _ => dvd_zero 64)
    (List.length_replicate ..) rfl

end ChrysaLisp.ChaCha20
