import ChrysaLisp.Library.Ring
import ChrysaLisp.Streams.Fixed

set_option autoImplicit false

/-! # Inflate

`(inflate-decompress)` of `lib/streams/deflate.inc` and the native `(inflate-codes)`, with a ring of
the last 32KB made, of which what is not written yet is less than the ring. `turns` bounds the turns
of its loops, the blocks and the symbols of each, and `none` is that they were too few.

Bits that say some data (`Coded`) are read as it (`inflateLoop_spec`), and those of blocks as all of
it (`inflateBlocks_spec`), by as many turns as there are symbols and more. -/

namespace ChrysaLisp

/-! ## The ring and what is written of it -/

/-- The ring, how many bytes were made in all, how many of them were written, and the stream they
were written to. -/
structure Window where
  ring : Str
  made : ℕ
  flushed : ℕ
  out : Str

/-- `(inflate-flush)`. -/
def Window.flush (w : Window) : Window :=
  let start := w.flushed % w.ring.length
  let n := w.made - w.flushed
  if 0 < n then { w with out := w.out ++ Ring.read w.ring start n, flushed := w.made } else w

/-- A byte into the ring. -/
def Window.put (w : Window) (c : Byte) : Window :=
  { w with ring := w.ring.set (w.made % w.ring.length) c, made := w.made + 1 }

/-- `n` bytes, each from `back` before. -/
def Window.copy (back : ℕ) : ℕ → Window → Window
  | 0, w => w
  | n + 1, w => Window.copy back n (w.put (w.ring.getD ((w.made - back) % w.ring.length) 0))

/-! ## A block of codes -/

/-- The `codes` of `(inflate-codes)`: the two codes, the bases and the extra bits. -/
structure InflateCodes where
  lit : HuffmanTable
  dist : HuffmanTable
  lbase : List ℕ
  lextra : List ℕ
  dbase : List ℕ
  dextra : List ℕ

/-- A distance back, and a copy of `mlen` bytes from there. `none` is the symbol -1. -/
def inflateBack (codes : InflateCodes) (sym mlen : ℕ) (r : BitReader) (w : Window) :
    Option ℕ × BitReader × Window :=
  match huffmanSymbol codes.dist r with
  | (none, r) => (none, r, w)
  | (some d, r) =>
    if 30 ≤ d then (none, r, w)
    else
      match readBits (codes.dextra.getD d 0) r with
      | (none, r) => (none, r, w)
      | (some bit, r) =>
        let back := codes.dbase.getD d 0 + bit
        -- not from before the start, nor further back than the ring
        if w.made < back then (none, r, w)
        else if w.ring.length < back then (none, r, w)
        else (some sym, r, w.copy back mlen)

/-- A turn of the loop of `(inflate-codes)`, to the symbol it ends with, -1 as `none`. -/
def inflateStep (codes : InflateCodes) (r : BitReader) (w : Window) :
    Option ℕ × BitReader × Window :=
  match huffmanSymbol codes.lit r with
  | (none, r) => (none, r, w)
  | (some sym, r) =>
    if sym = 256 then (some sym, r, w)
    else if sym < 256 then (some sym, r, w.put (Fin.ofNat 256 sym))
    else if 286 ≤ sym then (none, r, w)
    else
      match readBits (codes.lextra.getD (sym - 257) 0) r with
      | (none, r) => (none, r, w)
      | (some bit, r) => inflateBack codes sym (codes.lbase.getD (sym - 257) 0 + bit) r w

/-- The loop of `(inflate-codes)`, to a symbol of -1 or 256. -/
def inflateLoop (codes : InflateCodes) : (turns : ℕ) → BitReader → Window →
    Option (Option ℕ × BitReader × Window)
  | 0, _, _ => none
  | turns + 1, r, w =>
    match inflateStep codes r w with
    | (none, r, w) => some (none, r, w)
    | (some sym, r, w) =>
      if sym = 256 then some (some sym, r, w)
      -- written out before it can be written over
      else inflateLoop codes turns r (if 16384 ≤ w.made - w.flushed then w.flush else w)

/-- `(inflate-codes in bits codes ring at out)`: if the block was one, and what it leaves. -/
def inflateCodes (codes : InflateCodes) (turns : ℕ) (r : BitReader) (w : Window) :
    Option (Bool × BitReader × Window) :=
  (inflateLoop codes turns r { w with flushed := w.made }).map
    (fun done => (done.1.isSome, done.2.1, done.2.2.flush))

/-! ## A block that is stored -/

/-- `(inflate-read ring at in_stream n)`: what the stream has of `n` bytes, into the ring. -/
def inflateRead (n : ℕ) (r : BitReader) (w : Window) : BitReader × Window :=
  (⟨r.input.drop n, r.pool, r.size, r.small⟩,
    { w with ring := Ring.write w.ring (w.made % w.ring.length) (r.input.take n),
             made := w.made + n })

/-- `(inflate-write ring at out_stream n)`: the last `n` bytes made, out of the ring. -/
def inflateWrite (n : ℕ) (w : Window) : Window :=
  { w with out := w.out ++ Ring.read w.ring ((w.made - n) % w.ring.length) n }

/-- The parts of a stored block, each no more than the ring has room for. -/
def inflateParts (len : ℕ) (r : BitReader) (w : Window) : BitReader × Window :=
  if 0 < len then
    let n := min len 16384
    let got := inflateRead n r w
    inflateParts (len - n) got.1 (inflateWrite n got.2)
  else (r, w)
termination_by len

/-- A stored block, from the next byte: its length, the complement of that, and its bytes. -/
def inflateStored (r : BitReader) (w : Window) : Bool × BitReader × Window :=
  let r := (readBits (r.size &&& 7) r).2
  match readBits 16 r with
  | (none, r) => (false, (readBits 16 r).2, w)
  | (some len, r) =>
    match readBits 16 r with
    | (none, r) => (false, r, w)
    | (some nlen, r) =>
      if len ^^^ nlen ≠ 0xffff ∨ r.size ≠ 0 then (false, r, w)
      else
        let got := inflateParts len r w
        (true, got.1, got.2)

/-! ## A block of its own codes -/

/-- `+inflate_order`. -/
def inflateOrder : List ℕ := [16, 17, 18, 0, 8, 7, 9, 6, 10, 5, 11, 4, 12, 3, 13, 2, 14, 1, 15]

/-- What the head of a block of its own codes comes to: the codes, `:nil`, or an error thrown. -/
inductive DynamicHead where
  | codes (lit dist : HuffmanTable)
  | bad
  | threw

/-- The lengths of the code length code: `k` of them yet to be read. -/
def codeLengths : (k : ℕ) → (order : List ℕ) → List ℤ → BitReader → List ℤ × BitReader
  | 0, _, lengths, r => (lengths, r)
  | _ + 1, [], lengths, r => (lengths, r)
  | k + 1, o :: order, lengths, r =>
    let got := readBits 3 r
    codeLengths k order (lengths.set o (bitsNum got.1)) got.2

/-- How often a symbol of 16 or more says the one before, or 0. -/
def repeatCount (sym : ℕ) (r : BitReader) : ℤ × BitReader :=
  let got := readBits (if sym = 16 then 2 else if sym = 17 then 3 else 7) r
  ((if sym = 16 then 3 else if sym = 17 then 3 else 11) + bitsNum got.1, got.2)

/-- The loop of `(inflate-dynamic)` that reads the lengths of the two codes, `total` of them; a turn
reads one at the least. `none` is that it has come upon no code. -/
def allLengths (lencode : HuffmanTable) (total : ℤ) : (turns : ℕ) → List ℕ → BitReader →
    Option (List ℕ) × BitReader
  | 0, all, r => (some all, r)
  | turns + 1, all, r =>
    if (all.length : ℤ) < total then
      match huffmanSymbol lencode r with
      | (none, r) => (none, r)
      | (some sym, r) =>
        if sym < 16 then allLengths lencode total turns (all ++ [sym]) r
        else
          let count := repeatCount sym r
          match (if sym = 16 then all.getLast? else some 0) with
          | none => (none, count.2)
          | some previous =>
            allLengths lencode total turns (all ++ List.replicate count.1.toNat previous) count.2
    else (some all, r)

/-- `(inflate-dynamic in bits)`. A length of -1, of a stream that ended, is no element of the counts
of `(huffman-table)`. -/
def inflateDynamic (r : BitReader) : DynamicHead × BitReader :=
  let nlen := readBits 5 r
  let ndist := readBits 5 nlen.2
  let ncode := readBits 4 ndist.2
  let lens := codeLengths (bitsNum ncode.1 + 4).toNat inflateOrder (List.replicate 19 0) ncode.2
  let nlens := bitsNum nlen.1 + 257
  let total := nlens + (bitsNum ndist.1 + 1)
  if lens.1.any (· < 0) then (DynamicHead.threw, lens.2)
  else
    match huffmanTable (lens.1.map Int.toNat) with
    | none => (DynamicHead.threw, lens.2)
    | some lencode =>
      match allLengths lencode total total.toNat [] lens.2 with
      | (none, r) => (DynamicHead.bad, r)
      | (some all, r) =>
        if (all.length : ℤ) = total then
          match huffmanTable (all.take nlens.toNat), huffmanTable (all.drop nlens.toNat) with
          | some lit, some dist => (DynamicHead.codes lit dist, r)
          | _, _ => (DynamicHead.threw, r)
        else (DynamicHead.bad, r)

/-! ## A stream -/

/-- How `(inflate-decompress)` ends: with `:t` or `:nil`, or an error thrown. -/
inductive Ended where
  | returned (ok : Bool)
  | threw
  deriving DecidableEq

/-- A block of two codes, of the bases and extra bits all have. -/
def inflateBlock (lit dist : HuffmanTable) (turns : ℕ) (r : BitReader) (w : Window) :
    Option (Bool × BitReader × Window) :=
  inflateCodes ⟨lit, dist, lenBase, lenExtra, distBase, distExtra⟩ turns r w

/-- A block of the kind its head says. -/
def inflateKind (kind : Option ℕ) (turns : ℕ) (r : BitReader) (w : Window) :
    Option (Ended × BitReader × Window) :=
  if kind = some 0 then
    let stored := inflateStored r w
    some (Ended.returned stored.1, stored.2)
  else if kind = some 1 then
    match inflateFixed with
    | none => some (Ended.threw, r, w)
    | some (lit, dist) =>
      (inflateBlock lit dist turns r w).map (fun done => (Ended.returned done.1, done.2))
  else if kind = some 2 then
    match inflateDynamic r with
    | (DynamicHead.codes lit dist, r) =>
      (inflateBlock lit dist turns r w).map (fun done => (Ended.returned done.1, done.2))
    | (DynamicHead.bad, r) => some (Ended.returned false, r, w)
    | (DynamicHead.threw, r) => some (Ended.threw, r, w)
  else some (Ended.returned false, r, w)

/-- The loop of `(inflate-decompress)`, over the blocks. -/
def inflateBlocks (turns : ℕ) : (blocks : ℕ) → BitReader → Window → Option (Ended × Window)
  | 0, _, _ => none
  | blocks + 1, r, w =>
    let last := readBits 1 r
    let kind := readBits 2 last.2
    match inflateKind kind.1 turns kind.2 w with
    | none => none
    | some (Ended.returned true, r, w) =>
      if last.1 = some 1 then some (Ended.returned true, w) else inflateBlocks turns blocks r w
    | some (ended, _, w) => some (ended, w)

/-- zlib's head: a method of 8, deflate, and a check that the head is one. -/
def zlibHead (r : BitReader) : Bool × BitReader :=
  let cmf := readBits 8 r
  let flg := readBits 8 cmf.2
  match cmf.1, flg.1 with
  | some c, some f => (c &&& 15 = 8 ∧ (c * 256 + f) % 31 = 0 ∧ f &&& 0x20 = 0, flg.2)
  | _, _ => (false, flg.2)

/-- `(inflate-decompress in_stream out_stream zlib)`: how it ends, and the bytes written. -/
def inflateDecompress (turns : ℕ) (zlib : Bool) (s : Str) : Option (Ended × Str) :=
  let w : Window := ⟨List.replicate 32768 0, 0, 0, []⟩
  let head := if zlib then zlibHead (BitReader.start s) else (true, BitReader.start s)
  if head.1 then (inflateBlocks turns turns head.2 w).map (fun done => (done.1, done.2.out))
  else some (Ended.returned false, [])

/-! ## The ring shows the data -/

/-- The ring has the end of what is made of the data, and the stream all that is flushed of it. -/
structure Window.Shows (data : Str) (w : Window) : Prop where
  made : w.made ≤ data.length
  ring : Ring.Holds 32768 w.ring (data.take w.made)
  flushed : w.flushed ≤ w.made
  room : w.made ≤ w.flushed + 32768
  out : w.out = data.take w.flushed

section Shows

variable {data : Str} {w : Window}

theorem Window.Shows.length_take (h : w.Shows data) : (data.take w.made).length = w.made := by
  rw [List.length_take, Nat.min_eq_left h.made]

/-- To flush writes what is not written yet. -/
theorem Window.Shows.flush (h : w.Shows data) :
    w.flush.Shows data ∧ w.flush.made = w.made ∧ w.flush.flushed = w.made := by
  have hflushed := h.flushed
  unfold Window.flush
  by_cases hn : 0 < w.made - w.flushed
  · rw [if_pos hn]
    refine ⟨⟨h.made, h.ring, le_rfl, Nat.le_add_right _ _, ?_⟩, rfl, rfl⟩
    have hlen := h.length_take
    have hread := h.ring.read (a := w.flushed) (n := w.made - w.flushed) (by decide) (by omega)
      (by rw [hlen]; exact h.room)
    show w.out ++ Ring.read w.ring (w.flushed % w.ring.length) (w.made - w.flushed)
      = data.take w.made
    rw [h.ring.length, hread, h.out, Nat.add_sub_cancel' hflushed, FlatArray.slice]
    -- what was written, and what was made after it
    have hcut : data.take w.flushed = (data.take w.made).take w.flushed := by
      rw [List.take_take, Nat.min_eq_left hflushed]
    have hrest : ((data.take w.made).drop w.flushed).take (w.made - w.flushed)
        = (data.take w.made).drop w.flushed :=
      List.take_of_length_le (by rw [List.length_drop, hlen])
    rw [hcut, hrest, List.take_append_drop]
  · rw [if_neg hn]
    exact ⟨h, rfl, by omega⟩

/-- The byte that comes next, put. -/
theorem Window.Shows.put (h : w.Shows data) {c : Byte} (hc : data[w.made]? = some c)
    (hroom : w.made + 1 ≤ w.flushed + 32768) : (w.put c).Shows data := by
  obtain ⟨hlt, hval⟩ := List.getElem?_eq_some_iff.mp hc
  refine ⟨hlt, ?_, Nat.le_succ_of_le h.flushed, hroom, h.out⟩
  have hset := h.ring.set (by decide) c
  rw [h.length_take] at hset
  show Ring.Holds 32768 (w.ring.set (w.made % w.ring.length) c) (data.take (w.made + 1))
  rw [h.ring.length, List.take_add_one, hc]
  exact hset

/-- A byte of the ring that is as far back as it may be. -/
theorem Window.Shows.back (h : w.Shows data) {back : ℕ} (h1 : 1 ≤ back) (hback : back ≤ w.made)
    (hring : back ≤ 32768) :
    data[w.made - back]? = some (w.ring.getD ((w.made - back) % w.ring.length) 0) := by
  have hlen := h.length_take
  have hmade := h.made
  have hcell := h.ring.cell (w.made - back) (by omega) (by omega)
  obtain ⟨x, hx⟩ : ∃ x, data[w.made - back]? = some x :=
    ⟨data[w.made - back], List.getElem?_eq_getElem (by omega)⟩
  rw [List.getElem?_take_of_lt (by omega), hx] at hcell
  rw [hx, h.ring.length, List.getD_eq_getElem?_getD, hcell]
  rfl

/-- Bytes that are the same as those before, copied from there. -/
theorem Window.Shows.copy {back : ℕ} (h1 : 1 ≤ back) (hring : back ≤ 32768) (n : ℕ) :
    ∀ w : Window, w.Shows data → back ≤ w.made → w.made + n ≤ data.length →
      w.made + n ≤ w.flushed + 32768 →
      (∀ k < n, data[w.made - back + k]? = data[w.made + k]?) →
      (w.copy back n).Shows data ∧ (w.copy back n).made = w.made + n ∧
        (w.copy back n).flushed = w.flushed := by
  induction n with
  | zero => exact fun w h _ _ _ _ => ⟨h, rfl, rfl⟩
  | succ n ih =>
    intro w h hback hfits hroom hsame
    have hnext : data[w.made]? = some (w.ring.getD ((w.made - back) % w.ring.length) 0) := by
      have h0 := hsame 0 (Nat.succ_pos n)
      rw [Nat.add_zero, Nat.add_zero, h.back h1 hback hring] at h0
      exact h0.symm
    obtain ⟨hshows, hmade, hflushed⟩ := ih (w.put (w.ring.getD ((w.made - back) % w.ring.length) 0))
      (h.put hnext (by omega)) (Nat.le_succ_of_le hback)
      (by show w.made + 1 + n ≤ data.length; omega)
      (by show w.made + 1 + n ≤ w.flushed + 32768; omega)
      (fun k hk => by
        have hk' := hsame (k + 1) (by omega)
        show data[w.made + 1 - back + k]? = data[w.made + 1 + k]?
        rw [show w.made + 1 - back + k = w.made - back + (k + 1) by omega,
          show w.made + 1 + k = w.made + (k + 1) by omega]
        exact hk')
    refine ⟨hshows, hmade.trans ?_, hflushed⟩
    show w.made + 1 + n = w.made + (n + 1)
    omega

end Shows

/-! ## What a turn reads -/

/-- The codes of a block of fixed codes. -/
def fixedCodes : InflateCodes := ⟨fixedLit, fixedDist, lenBase, lenExtra, distBase, distExtra⟩

/-- The symbol of the end of a block. -/
theorem inflateStep_end {r : BitReader} {rest : List Bool} (w : Window)
    (h : r.bits = litBits 256 ++ rest) :
    ∃ r', inflateStep fixedCodes r w = (some 256, r', w) ∧ r'.bits = rest := by
  obtain ⟨r', hr', hrest⟩ := @huffmanSymbol_of_decode fixedLit 256 r rest
    (by rw [h]; exact decode_lit (by decide) rest)
  refine ⟨r', ?_, hrest⟩
  have hlit : huffmanSymbol fixedCodes.lit r = (some 256, r') := hr'
  simp only [inflateStep, hlit, if_pos]

/-- A byte. -/
theorem inflateStep_byte {r : BitReader} {rest : List Bool} {x : Byte} (w : Window)
    (h : r.bits = litBits x.val ++ rest) :
    ∃ r', inflateStep fixedCodes r w = (some x.val, r', w.put x) ∧ r'.bits = rest := by
  have hx : x.val < 256 := x.isLt
  obtain ⟨r', hr', hrest⟩ := @huffmanSymbol_of_decode fixedLit x.val r rest
    (by rw [h]; exact decode_lit (by omega) rest)
  refine ⟨r', ?_, hrest⟩
  have hlit : huffmanSymbol fixedCodes.lit r = (some x.val, r') := hr'
  have hbyte : Fin.ofNat 256 x.val = x := Fin.ext (Nat.mod_eq_of_lt hx)
  simp only [inflateStep, hlit, if_neg (Nat.ne_of_lt hx), if_pos hx, hbyte]

/-- A distance, in reach. -/
theorem inflateBack_spec {r : BitReader} {rest : List Bool} {w : Window} {dist : ℕ} (sym mlen : ℕ)
    (h : r.bits = backBits dist ++ rest) (h1 : 1 ≤ dist) (hwindow : dist ≤ 32768)
    (hmade : dist ≤ w.made) (hring : w.ring.length = 32768) :
    ∃ r', inflateBack fixedCodes sym mlen r w = (some sym, r', w.copy dist mlen) ∧ r'.bits = rest := by
  obtain ⟨htop, hbase, hextra⟩ := lastBase_dist h1 hwindow
  rw [backBits, List.append_assoc] at h
  generalize lastBase distBase dist 29 = d at h htop hbase hextra
  obtain ⟨r1, hr1, hrest1⟩ := @huffmanSymbol_of_decode fixedDist d r _
    (by rw [h]; exact decode_dist (by omega) _)
  obtain ⟨r2, hr2, hrest2⟩ := readBits_ofNat hrest1 hextra
  refine ⟨r2, ?_, hrest2⟩
  have hsym : huffmanSymbol fixedCodes.dist r = (some d, r1) := hr1
  have hbits : readBits (fixedCodes.dextra.getD d 0) r1 = (some (dist - distBase.getD d 0), r2) := hr2
  have hsum : fixedCodes.dbase.getD d 0 + (dist - distBase.getD d 0) = dist :=
    Nat.add_sub_cancel' hbase
  simp only [inflateBack, hsym, hbits, hsum]
  rw [if_neg (by omega), if_neg (by omega), if_neg (by omega)]

/-- A length and a distance, in reach. -/
theorem inflateStep_copy {r : BitReader} {rest : List Bool} {w : Window} {len dist : ℕ}
    (h : r.bits = lenBits len ++ backBits dist ++ rest) (hlen : 3 ≤ len ∧ len ≤ 258)
    (hdist : 1 ≤ dist ∧ dist ≤ 32768) (hmade : dist ≤ w.made) (hring : w.ring.length = 32768) :
    ∃ sym r', inflateStep fixedCodes r w = (some sym, r', w.copy dist len) ∧ sym ≠ 256 ∧
      r'.bits = rest := by
  obtain ⟨htop, hbase, hextra⟩ := lastBase_len hlen.1 hlen.2
  rw [lenBits, List.append_assoc, List.append_assoc] at h
  generalize lastBase lenBase len 28 = s at h htop hbase hextra
  obtain ⟨r1, hr1, hrest1⟩ := @huffmanSymbol_of_decode fixedLit (s + 257) r _
    (by rw [h]; exact decode_lit (by omega) _)
  obtain ⟨r2, hr2, hrest2⟩ := readBits_ofNat hrest1 hextra
  obtain ⟨r3, hr3, hrest3⟩ := inflateBack_spec (s + 257) len hrest2 hdist.1 hdist.2 hmade hring
  refine ⟨s + 257, r3, ?_, by omega, hrest3⟩
  have hsym : huffmanSymbol fixedCodes.lit r = (some (s + 257), r1) := hr1
  have hbits : readBits (fixedCodes.lextra.getD s 0) r1 = (some (len - lenBase.getD s 0), r2) := hr2
  have hsum : fixedCodes.lbase.getD s 0 + (len - lenBase.getD s 0) = len := Nat.add_sub_cancel' hbase
  simp only [inflateStep, hsym]
  rw [if_neg (by omega), if_neg (by omega), if_neg (by omega), Nat.add_sub_cancel, hbits]
  dsimp only
  rw [hsum]
  exact hr3

/-! ## What the loop reads -/

/-- What is flushed when it is due leaves room for the longest match. -/
theorem Window.Shows.flushDue {data : Str} {w : Window} (h : w.Shows data) :
    (if 16384 ≤ w.made - w.flushed then w.flush else w).Shows data ∧
      (if 16384 ≤ w.made - w.flushed then w.flush else w).made = w.made ∧
      w.made < (if 16384 ≤ w.made - w.flushed then w.flush else w).flushed + 16384 := by
  obtain ⟨hshows, hmade, hflushed⟩ := h.flush
  by_cases hdue : 16384 ≤ w.made - w.flushed
  · rw [if_pos hdue]
    exact ⟨hshows, hmade, by omega⟩
  · rw [if_neg hdue]
    exact ⟨h, rfl, by omega⟩

/-- Bits that say the data from `a` to `b`, and the symbol of the end, are read as it. -/
theorem inflateLoop_spec {data : Str} {a b : ℕ} {bits : List Bool} (h : Coded data a bits b) :
    ∃ m, ∀ (r : BitReader) (w : Window) (rest : List Bool) (turns : ℕ),
      r.bits = bits ++ (litBits 256 ++ rest) → w.Shows data → w.made = a →
      w.made < w.flushed + 16384 → m ≤ turns →
      ∃ r' w', inflateLoop fixedCodes turns r w = some (some 256, r', w') ∧ r'.bits = rest ∧
        w'.Shows data ∧ w'.made = b := by
  induction h with
  | done a =>
    refine ⟨1, ?_⟩
    intro r w rest turns hbits hw hmade _ hturns
    obtain ⟨k, rfl⟩ : ∃ k, turns = k + 1 := ⟨turns - 1, by omega⟩
    obtain ⟨r', hstep, hrest⟩ := inflateStep_end w hbits
    exact ⟨r', w, by simp only [inflateLoop, hstep, if_pos], hrest, hw, hmade⟩
  | @byte a b bits x here _ ih =>
    obtain ⟨m, ih⟩ := ih
    refine ⟨m + 1, ?_⟩
    intro r w rest turns hbits hw hmade hroom hturns
    obtain ⟨k, rfl⟩ : ∃ k, turns = k + 1 := ⟨turns - 1, by omega⟩
    subst hmade
    rw [List.append_assoc] at hbits
    obtain ⟨r', hstep, hrest⟩ := inflateStep_byte w hbits
    have hput := hw.put here (by omega)
    obtain ⟨hshows, hmade', hroom'⟩ := hput.flushDue
    obtain ⟨r'', w', hloop, hend⟩ := ih r' _ rest k hrest hshows hmade' (by rw [hmade']; exact hroom')
      (by omega)
    refine ⟨r'', w', ?_, hend⟩
    have hx : x.val ≠ 256 := Nat.ne_of_lt x.isLt
    simp only [inflateLoop, hstep, if_neg hx]
    exact hloop
  | @copy a b len dist bits same _ ih =>
    obtain ⟨m, ih⟩ := ih
    refine ⟨m + 1, ?_⟩
    intro r w rest turns hbits hw hmade hroom hturns
    obtain ⟨k, rfl⟩ : ∃ k, turns = k + 1 := ⟨turns - 1, by omega⟩
    subst hmade
    rw [List.append_assoc] at hbits
    obtain ⟨sym, r', hstep, hsym, hrest⟩ :=
      inflateStep_copy hbits same.len_le same.dist_le same.start hw.ring.length
    have hlen := same.len_le
    obtain ⟨hcopy, hmade, hflushed⟩ := Window.Shows.copy same.dist_le.1 same.dist_le.2 len w hw
      same.start same.fits (by omega) same.same
    obtain ⟨hshows, hmade', hroom'⟩ := hcopy.flushDue
    obtain ⟨r'', w', hloop, hend⟩ := ih r' _ rest k hrest hshows (hmade'.trans hmade)
      (by rw [hmade']; exact hroom') (by omega)
    refine ⟨r'', w', ?_, hend⟩
    simp only [inflateLoop, hstep, if_neg hsym]
    exact hloop

/-- A block of fixed codes, to its end, all of it written. -/
theorem inflateKind_spec {data : Str} {a b : ℕ} {bits : List Bool} (h : Coded data a bits b) :
    ∃ m, ∀ (r : BitReader) (w : Window) (rest : List Bool) (turns : ℕ),
      r.bits = bits ++ (litBits 256 ++ rest) → ({ w with flushed := w.made } : Window).Shows data →
      w.made = a → m ≤ turns →
      ∃ r' w', inflateKind (some 1) turns r w = some (Ended.returned true, r', w') ∧ r'.bits = rest ∧
        ({ w' with flushed := w'.made } : Window).Shows data ∧ w'.made = b := by
  obtain ⟨m, hloop⟩ := inflateLoop_spec h
  refine ⟨m, ?_⟩
  intro r w rest turns hbits hw hmade hturns
  obtain ⟨r', w', hend, hrest, hshows, hb⟩ := hloop r { w with flushed := w.made } rest turns hbits hw
    hmade (by show w.made < w.made + 16384; omega) hturns
  obtain ⟨hflush, hmade', hflushed⟩ := hshows.flush
  refine ⟨r', w'.flush, ?_, hrest, ?_, hmade'.trans hb⟩
  · have hcodes : inflateBlock fixedLit fixedDist turns r w = some (true, r', w'.flush) := by
      show (inflateLoop fixedCodes turns r { w with flushed := w.made }).map _ = _
      rw [hend]
      rfl
    simp only [inflateKind, inflateFixed_eq]
    rw [if_neg (by decide), if_pos trivial, hcodes]
    rfl
  · have hsame : ({ w'.flush with flushed := w'.flush.made } : Window) = w'.flush := by
      rw [hmade', ← hflushed]
    rwa [hsame]

/-- The bits of blocks that say the data are read as all of it. -/
theorem inflateBlocks_spec {data : Str} {a : ℕ} {bits : List Bool} (h : CodedBlocks data a bits) :
    ∃ m, ∀ (r : BitReader) (w : Window) (more : List Bool) (turns blocks : ℕ),
      r.bits = bits ++ more → ({ w with flushed := w.made } : Window).Shows data → w.made = a →
      m ≤ turns → m ≤ blocks →
      ∃ w', inflateBlocks turns blocks r w = some (Ended.returned true, w') ∧ w'.out = data := by
  induction h with
  | @last a bits block =>
    obtain ⟨m, hkind⟩ := inflateKind_spec block
    refine ⟨m + 1, ?_⟩
    intro r w more turns blocks hbits hw hmade hturns hblocks
    obtain ⟨k, rfl⟩ : ∃ k, blocks = k + 1 := ⟨blocks - 1, by omega⟩
    have hhead : r.bits = [true] ++ ([true, false] ++ (bits ++ (litBits 256 ++ more))) := by
      rw [hbits]
      simp [Bits.ofNat]
    obtain ⟨r1, hr1, hrest1⟩ := readBits_append hhead rfl
    obtain ⟨r2, hr2, hrest2⟩ := readBits_append hrest1 rfl
    obtain ⟨r3, w', hend, -, hshows, hb⟩ := hkind r2 w more turns hrest2 hw hmade (by omega)
    refine ⟨w', ?_, ?_⟩
    · have hlast : readBits 1 r = (some 1, r1) := hr1
      have hfixed : readBits 2 r1 = (some 1, r2) := hr2
      simp only [inflateBlocks, hlast, hfixed, hend, if_pos]
    · have hout : w'.out = data.take w'.made := hshows.out
      rw [hout, hb, List.take_length]
  | @more a b bits rest block _ ih =>
    obtain ⟨m, hkind⟩ := inflateKind_spec block
    obtain ⟨m', ih⟩ := ih
    refine ⟨m + m' + 1, ?_⟩
    intro r w more turns blocks hbits hw hmade hturns hblocks
    obtain ⟨k, rfl⟩ : ∃ k, blocks = k + 1 := ⟨blocks - 1, by omega⟩
    have hhead : r.bits = [false] ++ ([true, false] ++ (bits ++ (litBits 256 ++ (rest ++ more)))) := by
      rw [hbits]
      simp [Bits.ofNat]
    obtain ⟨r1, hr1, hrest1⟩ := readBits_append hhead rfl
    obtain ⟨r2, hr2, hrest2⟩ := readBits_append hrest1 rfl
    obtain ⟨r3, w', hend, hrest3, hshows, hb⟩ := hkind r2 w (rest ++ more) turns hrest2 hw hmade
      (by omega)
    obtain ⟨w'', hblock, hout⟩ := ih r3 w' more turns k hrest3 hshows hb (by omega) (by omega)
    refine ⟨w'', ?_, hout⟩
    have hlast : readBits 1 r = (some 0, r1) := hr1
    have hfixed : readBits 2 r1 = (some 1, r2) := hr2
    have hmore : ¬(some 0 : Option ℕ) = some 1 := by decide
    simp only [inflateBlocks, hlast, hfixed, hend, if_neg hmore]
    exact hblock

end ChrysaLisp
