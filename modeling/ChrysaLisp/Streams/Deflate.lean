import ChrysaLisp.Library.Ring
import ChrysaLisp.Streams.Fixed

set_option autoImplicit false

/-! # Deflate

`(deflate-compress)` of `lib/streams/deflate.inc` and the native `(deflate-block)`: 32KB a block, of
the fixed codes, each put in a ring of 64KB, and a match looked for back in it at the place the three
bytes from each were last.

A block is written as bits that say it (`deflateLoop_spec`), whatever the hash holds of the places
before, and the blocks as bits that say all of the data (`deflateChunks_spec`). -/

namespace ChrysaLisp

/-! ## The sum -/

/-- A turn of the loop of `(adler32)`: bytes into the two sums. -/
def adlerSums (s : Str) (ab : ℕ × ℕ) : ℕ × ℕ :=
  s.foldl (fun ab c => (ab.1 + c.val, ab.2 + (ab.1 + c.val))) ab

/-- The loop of `(adler32)`, the sums taken mod 65521 each 5552 bytes. -/
def adlerLoop (s : Str) (ab : ℕ × ℕ) : ℕ × ℕ :=
  if 0 < s.length then
    let sums := adlerSums (s.take 5552) ab
    adlerLoop (s.drop 5552) (sums.1 % 65521, sums.2 % 65521)
  else ab
termination_by s.length

/-- `(adler32 data adler)`. -/
def adler32 (data : Str) (adler : ℕ) : ℕ :=
  let sums := adlerLoop data (adler &&& 0xffff, (adler &&& 0xffffffff) >>> 16)
  sums.2 <<< 16 ||| sums.1

/-! ## A block -/

/-- `(elem ring (& i mask))`, the mask one less than the length of the ring, a power of two. -/
def ringElem (ring : Str) (i : ℕ) : Byte := ring.getD (i % ring.length) 0

/-- `:sys_mem :copy_to_ring`, of a chunk to the place `pos` has in the ring. -/
def copyToRing (ring : Str) (pos : ℕ) (chunk : Str) : Str :=
  Ring.write ring (pos % ring.length) chunk

/-- The hash of the three bytes from `i`. -/
def hashAt (ring : Str) (i : ℕ) : ℕ :=
  (((ringElem ring i).val <<< 16 ||| (ringElem ring (i + 1)).val <<< 8 ||| (ringElem ring (i + 2)).val)
    * 2654435761) >>> 19 &&& 8191

/-- The loop `'match`: how many bytes from `m` and from `i` are the same, `j` of them known, and at
most `k` more. -/
def matchLen (ring : Str) (m i : ℕ) : (k j : ℕ) → ℕ
  | 0, j => j
  | k + 1, j =>
    if ringElem ring (m + j) ≠ ringElem ring (i + j) then j else matchLen ring m i k (j + 1)

/-- A match for what is at `i`, of `len` bytes `dist` back, and `i` into the hash. -/
def findMatch (ring : Str) (i stop : ℕ) (hash : List ℤ) : (ℕ × ℕ) × List ℤ :=
  if 3 ≤ stop - i then
    let hv := hashAt ring i
    let m := hash.getD hv (-65536)
    let hash := hash.set hv i
    if 0 < i - m ∧ i - m ≤ 32768 then
      ((matchLen ring m.toNat i (min 258 (stop - i)) 0, (i - m).toNat), hash)
    else ((0, 0), hash)
  else ((0, 0), hash)

/-- A code for the last of the bases `n` is not under, and its extra bits. -/
def putBased (codes lens bases extra : List ℕ) (first top n : ℕ) (w : BitWriter) : BitWriter :=
  let s := lastBase bases n top
  writeBits (n - bases.getD s 0) (extra.getD s 0)
    (writeBits (codes.getD (s + first) 0) (lens.getD (s + first) 0) w)

/-- A turn of the loop of `(deflate-block)`: a match of 3 bytes or more, or a byte. -/
def deflateStep (t : DeflateTables) (ring : Str) (i stop : ℕ) (hash : List ℤ) (w : BitWriter) :
    ℕ × List ℤ × BitWriter :=
  let found := findMatch ring i stop hash
  let len := found.1.1
  let dist := found.1.2
  if 3 ≤ len then
    (i + len, found.2,
      putBased t.dcodes t.dlens t.dbase t.dextra 0 29 dist
        (putBased t.lcodes t.llens t.lbase t.lextra 257 28 len w))
  else
    let s := (ringElem ring i).val
    (i + 1, found.2, writeBits (t.lcodes.getD s 0) (t.llens.getD s 0) w)

/-- The loop of `(deflate-block)`. A turn takes a byte at the least, so no more turns are made than
there are bytes. -/
def deflateLoop (t : DeflateTables) (ring : Str) (stop : ℕ) :
    (turns i : ℕ) → List ℤ → BitWriter → List ℤ × BitWriter
  | 0, _, hash, w => (hash, w)
  | turns + 1, i, hash, w =>
    if i < stop then
      let next := deflateStep t ring i stop hash w
      deflateLoop t ring stop turns next.1 next.2.1 next.2.2
    else (hash, w)

/-- What `(deflate-compress)` keeps from block to block. -/
structure DeflateState where
  ring : Str
  pos : ℕ
  hash : List ℤ
  w : BitWriter

/-- `(deflate-block ring pos chunk hash bits out last tables)`. -/
def deflateBlock (t : DeflateTables) (st : DeflateState) (chunk : Str) (last : ℕ) : DeflateState :=
  let ring := copyToRing st.ring st.pos chunk
  let stop := st.pos + chunk.length
  let done := deflateLoop t ring stop chunk.length st.pos st.hash (writeBits (last + 2) 3 st.w)
  ⟨ring, stop, done.1, writeBits (t.lcodes.getD 256 0) (t.llens.getD 256 0) done.2⟩

/-! ## A stream -/

/-- The blocks `(read-blk stream n)` gives of a stream, to its end. -/
def readBlks (n : ℕ) (s : Str) : List Str :=
  if 0 < n ∧ 0 < s.length then s.take n :: readBlks n (s.drop n) else []
termination_by s.length
decreasing_by
  rename_i h
  rw [List.length_drop]
  omega

/-- The loop of `(deflate-compress)`, over the blocks read: the last has none after it. -/
def deflateChunks (t : DeflateTables) : List Str → DeflateState → DeflateState
  | [], st => st
  | [chunk], st => deflateBlock t st chunk 1
  | chunk :: next :: rest, st => deflateChunks t (next :: rest) (deflateBlock t st chunk 0)

/-- `(unless chunk (setq chunk ""))`: a stream with nothing in it is one block of nothing. -/
def chunksOf (blks : List Str) : List Str := if blks = [] then [[]] else blks

/-- What `(deflate-compress)` begins with, `out` what is written by then. -/
def DeflateState.start (out : Str) : DeflateState :=
  ⟨List.replicate 65536 0, 0, List.replicate 8192 (-65536), BitWriter.start out⟩

/-- zlib's sum of the blocks, the high byte first. -/
def adlerBytes (chunks : List Str) : Str :=
  let adler := chunks.foldl (fun adler chunk => adler32 chunk adler) 1
  [adler >>> 24, adler >>> 16, adler >>> 8, adler].map (Fin.ofNat 256)

/-- The blocks of a stream deflated, with zlib's head and sum round them or not. -/
def deflateOf (zlib : Bool) (chunks : List Str) : Str :=
  let st := deflateChunks deflateFixed chunks (DeflateState.start (if zlib then [0x78, 0x01] else []))
  let out := (flushBits st.w).out
  if zlib then out ++ adlerBytes chunks else out

/-- `(deflate-compress in_stream out_stream zlib)`, from the bytes of the one to those of the other. -/
def deflateCompress (zlib : Bool) (s : Str) : Str := deflateOf zlib (chunksOf (readBlks 32768 s))

/-! ## What a turn of the loop writes -/

section Block

variable {data ring : Str} {stop : ℕ}

/-- A byte of the ring, in reach of the place the block ends at. -/
theorem ringElem_eq {w : ℕ} (hring : Ring.Holds w ring (data.take stop)) (hstop : stop ≤ data.length)
    {p : ℕ} (hp : p < stop) (hnear : stop ≤ p + w) : data[p]? = some (ringElem ring p) := by
  have hlen : (data.take stop).length = stop := by
    rw [List.length_take]
    omega
  have hcell := hring.cell p (by omega) (by omega)
  obtain ⟨x, hx⟩ : ∃ x, data[p]? = some x := ⟨data[p], List.getElem?_eq_getElem (by omega)⟩
  rw [List.getElem?_take_of_lt hp, hx] at hcell
  rw [hx, ringElem, hring.length, List.getD_eq_getElem?_getD, hcell]
  rfl

/-- The bytes counted are the same, and no more are than were asked for. -/
theorem matchLen_spec (ring : Str) (m i : ℕ) (k : ℕ) :
    ∀ j, (∀ n < j, ringElem ring (m + n) = ringElem ring (i + n)) →
      matchLen ring m i k j ≤ j + k ∧
        ∀ n < matchLen ring m i k j, ringElem ring (m + n) = ringElem ring (i + n) := by
  induction k with
  | zero => exact fun j hj => ⟨le_rfl, hj⟩
  | succ k ih =>
    intro j hj
    rw [matchLen]
    by_cases hdiff : ringElem ring (m + j) ≠ ringElem ring (i + j)
    · rw [if_pos hdiff]
      exact ⟨by omega, hj⟩
    · rw [if_neg hdiff]
      have hsame : ringElem ring (m + j) = ringElem ring (i + j) := not_not.mp hdiff
      have hnext : ∀ n < j + 1, ringElem ring (m + n) = ringElem ring (i + n) := by
        intro n hn
        rcases Nat.lt_succ_iff_lt_or_eq.mp hn with hlt | rfl
        · exact hj n hlt
        · exact hsame
      obtain ⟨hle, hall⟩ := ih (j + 1) hnext
      exact ⟨by omega, hall⟩

/-- The hash has places before `i` only, or none. -/
def HashBefore (hash : List ℤ) (i : ℕ) : Prop := ∀ m ∈ hash, m = -65536 ∨ (0 ≤ m ∧ m < i)

theorem HashBefore.mono {hash : List ℤ} {i j : ℕ} (h : HashBefore hash i) (hij : i ≤ j) :
    HashBefore hash j := by
  intro m hm
  rcases h m hm with hnone | ⟨h0, hlt⟩
  · exact Or.inl hnone
  · exact Or.inr ⟨h0, by omega⟩

theorem HashBefore.getD {hash : List ℤ} {i : ℕ} (h : HashBefore hash i) (hv : ℕ) :
    hash.getD hv (-65536) = -65536 ∨ (0 ≤ hash.getD hv (-65536) ∧ hash.getD hv (-65536) < i) := by
  rcases Nat.lt_or_ge hv hash.length with hin | hout
  · rw [List.getD_eq_getElem _ _ hin]
    exact h _ (List.getElem_mem hin)
  · rw [List.getD_eq_default _ _ hout]
    exact Or.inl rfl

theorem HashBefore.set {hash : List ℤ} {i : ℕ} (h : HashBefore hash i) (hv : ℕ) :
    HashBefore (hash.set hv i) (i + 1) := by
  intro m hm
  rcases List.mem_or_eq_of_mem_set hm with hold | rfl
  · exact h.mono (Nat.le_succ i) m hold
  · exact Or.inr ⟨by omega, by omega⟩

/-- The hash after a match was looked for has no place after the one it was looked for at. -/
theorem findMatch_hash {i : ℕ} {hash : List ℤ} (h : HashBefore hash i) :
    HashBefore (findMatch ring i stop hash).2 (i + 1) := by
  unfold findMatch
  by_cases h3 : 3 ≤ stop - i
  · rw [if_pos h3]
    dsimp only
    split
    · exact h.set _
    · exact h.set _
  · rw [if_neg h3]
    exact h.mono (Nat.le_succ i)

/-- A match that is taken is one. -/
theorem findMatch_repeats (hring : Ring.Holds 65536 ring (data.take stop))
    (hstop : stop ≤ data.length) {i : ℕ} {hash : List ℤ} (hhash : HashBefore hash i)
    (hnear : stop ≤ i + 32768) (hlen : 3 ≤ (findMatch ring i stop hash).1.1) :
    Repeats data i (findMatch ring i stop hash).1.1 (findMatch ring i stop hash).1.2 ∧
      i + (findMatch ring i stop hash).1.1 ≤ stop := by
  unfold findMatch at hlen ⊢
  by_cases h3 : 3 ≤ stop - i
  · rw [if_pos h3] at hlen ⊢
    dsimp only at hlen ⊢
    have hplace := hhash.getD (hashAt ring i)
    generalize hash.getD (hashAt ring i) (-65536) = m at hplace hlen ⊢
    by_cases hd : 0 < (i : ℤ) - m ∧ (i : ℤ) - m ≤ 32768
    · rw [if_pos hd] at hlen ⊢
      dsimp only at hlen ⊢
      -- no place is 65536 before the start, so no match is found at it
      have hm : 0 ≤ m ∧ m < i := by
        rcases hplace with hnone | hplace
        · omega
        · exact hplace
      obtain ⟨hle, hsame⟩ := matchLen_spec ring m.toNat i (min 258 (stop - i)) 0
        (fun n hn => absurd hn (Nat.not_lt_zero n))
      generalize matchLen ring m.toNat i (min 258 (stop - i)) 0 = len at hlen hle hsame ⊢
      refine ⟨⟨⟨hlen, by omega⟩, ⟨by omega, by omega⟩, by omega, by omega, ?_⟩, by omega⟩
      intro k hk
      have hback : i - ((i : ℤ) - m).toNat + k = m.toNat + k := by omega
      rw [hback, ringElem_eq hring hstop (by omega) (by omega),
        ringElem_eq hring hstop (by omega) (by omega), hsame k hk]
    · rw [if_neg hd] at hlen
      exact absurd hlen (Nat.not_succ_le_zero 2)
  · rw [if_neg h3] at hlen
    exact absurd hlen (Nat.not_succ_le_zero 2)

end Block

/-- The code of a length or distance and its extra bits, put at the end. -/
theorem putBased_spec {codes lens bases extra : List ℕ} {first top n : ℕ} {w : BitWriter} (h : w.Ok)
    (hcode : codes.getD (lastBase bases n top + first) 0
      < 2 ^ lens.getD (lastBase bases n top + first) 0)
    (hrest : n - bases.getD (lastBase bases n top) 0 < 2 ^ extra.getD (lastBase bases n top) 0) :
    (putBased codes lens bases extra first top n w).Ok ∧
      (putBased codes lens bases extra first top n w).bits = w.bits ++
        (Bits.ofNat (lens.getD (lastBase bases n top + first) 0)
            (codes.getD (lastBase bases n top + first) 0) ++
          Bits.ofNat (extra.getD (lastBase bases n top) 0)
            (n - bases.getD (lastBase bases n top) 0)) := by
  obtain ⟨hok, hbits⟩ := writeBits_spec h hcode
  obtain ⟨hok', hbits'⟩ := writeBits_spec hok hrest
  refine ⟨hok', hbits'.trans ?_⟩
  rw [hbits, List.append_assoc]

/-- A length and a distance, put at the end. -/
theorem putRepeat_spec {len dist : ℕ} {w : BitWriter} (h : w.Ok) (hlen : 3 ≤ len ∧ len ≤ 258)
    (hdist : 1 ≤ dist ∧ dist ≤ 32768) :
    (putBased deflateFixed.dcodes deflateFixed.dlens distBase distExtra 0 29 dist
        (putBased deflateFixed.lcodes deflateFixed.llens lenBase lenExtra 257 28 len w)).Ok ∧
      (putBased deflateFixed.dcodes deflateFixed.dlens distBase distExtra 0 29 dist
        (putBased deflateFixed.lcodes deflateFixed.llens lenBase lenExtra 257 28 len w)).bits
        = w.bits ++ (lenBits len ++ backBits dist) := by
  obtain ⟨hls, -, hlrest⟩ := lastBase_len hlen.1 hlen.2
  obtain ⟨hds, -, hdrest⟩ := lastBase_dist hdist.1 hdist.2
  obtain ⟨hok, hbits⟩ := @putBased_spec deflateFixed.lcodes deflateFixed.llens lenBase lenExtra 257 28
    len w h (lcodes_lt (by omega)) hlrest
  obtain ⟨hok', hbits'⟩ := @putBased_spec deflateFixed.dcodes deflateFixed.dlens distBase distExtra 0 29
    dist _ hok (dcodes_lt (by omega)) hdrest
  refine ⟨hok', hbits'.trans ?_⟩
  rw [hbits, List.append_assoc]
  simp only [lenBits, backBits, litBits, distBits, Nat.add_zero]

/-! ## What the loop writes -/

section Loop

variable {data ring : Str} {stop : ℕ}

/-- What a turn writes says the bytes it goes on by. -/
theorem deflateStep_spec (hring : Ring.Holds 65536 ring (data.take stop))
    (hstop : stop ≤ data.length) {i : ℕ} {hash : List ℤ} {w : BitWriter}
    (hhash : HashBefore hash i) (hnear : stop ≤ i + 32768) (hi : i < stop) (hw : w.Ok) :
    ∃ said, i < (deflateStep deflateFixed ring i stop hash w).1 ∧
      (deflateStep deflateFixed ring i stop hash w).1 ≤ stop ∧
      HashBefore (deflateStep deflateFixed ring i stop hash w).2.1
        (deflateStep deflateFixed ring i stop hash w).1 ∧
      (deflateStep deflateFixed ring i stop hash w).2.2.Ok ∧
      (deflateStep deflateFixed ring i stop hash w).2.2.bits = w.bits ++ said ∧
      ∀ {bits : List Bool} {b : ℕ},
        Coded data (deflateStep deflateFixed ring i stop hash w).1 bits b →
          Coded data i (said ++ bits) b := by
  have hbefore := @findMatch_hash ring stop i hash hhash
  unfold deflateStep
  by_cases hlen : 3 ≤ (findMatch ring i stop hash).1.1
  · obtain ⟨hrep, hend⟩ := findMatch_repeats hring hstop hhash hnear hlen
    obtain ⟨hok, hbits⟩ := putRepeat_spec hw hrep.len_le hrep.dist_le
    dsimp only
    rw [if_pos hlen]
    exact ⟨_, by dsimp only; omega, hend, hbefore.mono (by omega), hok, hbits,
      fun hrest => Coded.copy hrep hrest⟩
  · dsimp only
    rw [if_neg hlen]
    have hsym : (ringElem ring i).val < 288 := by
      have := (ringElem ring i).isLt
      omega
    obtain ⟨hok, hbits⟩ := writeBits_spec hw (lcodes_lt hsym)
    exact ⟨_, by dsimp only; omega, hi, hbefore, hok, hbits,
      fun hrest => Coded.byte (ringElem_eq hring hstop hi (by omega)) hrest⟩

/-- The loop writes bits that say the block, from where it is to its end. -/
theorem deflateLoop_spec (hring : Ring.Holds 65536 ring (data.take stop))
    (hstop : stop ≤ data.length) (turns : ℕ) :
    ∀ (i : ℕ) (hash : List ℤ) (w : BitWriter), HashBefore hash i → stop ≤ i + 32768 → i ≤ stop →
      stop ≤ i + turns → w.Ok →
      ∃ bits, Coded data i bits stop ∧
        HashBefore (deflateLoop deflateFixed ring stop turns i hash w).1 stop ∧
        (deflateLoop deflateFixed ring stop turns i hash w).2.Ok ∧
        (deflateLoop deflateFixed ring stop turns i hash w).2.bits = w.bits ++ bits := by
  induction turns with
  | zero =>
    intro i hash w hhash _ hi hturns hw
    have hend : i = stop := by omega
    subst hend
    exact ⟨[], Coded.done i, hhash, hw, (List.append_nil _).symm⟩
  | succ turns ih =>
    intro i hash w hhash hnear hi hturns hw
    rw [deflateLoop]
    by_cases hlt : i < stop
    · rw [if_pos hlt]
      obtain ⟨said, hgrow, hle, hbefore, hok, hbits, hsays⟩ :=
        deflateStep_spec hring hstop hhash hnear hlt hw
      obtain ⟨bits, hcoded, hhash', hok', hbits'⟩ :=
        ih _ _ _ hbefore (by omega) hle (by omega) hok
      refine ⟨said ++ bits, hsays hcoded, hhash', hok', hbits'.trans ?_⟩
      rw [hbits, List.append_assoc]
    · rw [if_neg hlt]
      have hend : i = stop := by omega
      subst hend
      exact ⟨[], Coded.done i, hhash, hw, (List.append_nil _).symm⟩

end Loop

/-! ## What a stream is written as -/

/-- Between blocks: the ring has what was before, the hash no place after it, and the pool is less
than a byte. -/
structure DeflateState.Between (data : Str) (st : DeflateState) : Prop where
  ring : Ring.Holds 65536 st.ring (data.take st.pos)
  hash : HashBefore st.hash st.pos
  w : st.w.Ok
  pos : st.pos ≤ data.length

theorem DeflateState.between_start (data out : Str) : (DeflateState.start out).Between data := by
  refine ⟨Ring.Holds.nil List.length_replicate, ?_, BitWriter.ok_start out, Nat.zero_le _⟩
  intro m hm
  exact Or.inl (List.eq_of_mem_replicate hm)

/-- The data as far as a block that comes next. -/
theorem take_add_of_drop {data chunk rest : Str} {pos : ℕ} (h : data.drop pos = chunk ++ rest) :
    data.take (pos + chunk.length) = data.take pos ++ chunk := by
  rw [List.take_add, h, List.take_left]

/-- A block is written as bits that say it, with its head before and the symbol of its end after. -/
theorem deflateBlock_spec {data chunk rest : Str} {st : DeflateState} {last : ℕ}
    (h : st.Between data) (hdata : data.drop st.pos = chunk ++ rest) (hchunk : chunk.length ≤ 32768)
    (hlast : last ≤ 1) :
    ∃ bits, Coded data st.pos bits (st.pos + chunk.length) ∧
      (deflateBlock deflateFixed st chunk last).Between data ∧
      (deflateBlock deflateFixed st chunk last).w.bits
        = st.w.bits ++ (Bits.ofNat 3 (last + 2) ++ bits ++ litBits 256) := by
  have hlen : (data.take st.pos).length = st.pos := by
    rw [List.length_take, Nat.min_eq_left h.pos]
  have hstop : st.pos + chunk.length ≤ data.length := by
    have hpos := h.pos
    have hcut := congrArg List.length hdata
    rw [List.length_drop, List.length_append] at hcut
    omega
  have hring : Ring.Holds 65536 (copyToRing st.ring st.pos chunk)
      (data.take (st.pos + chunk.length)) := by
    have hput := h.ring.write (m := chunk) (by decide) (by omega)
    rw [hlen] at hput
    rw [take_add_of_drop hdata, copyToRing, h.ring.length]
    exact hput
  obtain ⟨hokHead, hbitsHead⟩ := @writeBits_spec (last + 2) 3 st.w h.w (by omega)
  obtain ⟨bits, hcoded, hhash, hok, hbits⟩ := deflateLoop_spec hring hstop chunk.length st.pos st.hash
    (writeBits (last + 2) 3 st.w) h.hash (by omega) (by omega) le_rfl hokHead
  obtain ⟨hokEnd, hbitsEnd⟩ := writeBits_spec hok (@lcodes_lt 256 (by decide))
  refine ⟨bits, hcoded, ⟨hring, hhash, hokEnd, hstop⟩, hbitsEnd.trans ?_⟩
  rw [hbits, hbitsHead]
  simp only [litBits, List.append_assoc]

/-- The blocks are written as bits that say all of the data, from where they begin. -/
theorem deflateChunks_spec {data : Str} (chunks : List Str) :
    ∀ st : DeflateState, st.Between data → chunks ≠ [] → data.drop st.pos = chunks.flatten →
      (∀ chunk ∈ chunks, chunk.length ≤ 32768) →
      ∃ bits, CodedBlocks data st.pos bits ∧ (deflateChunks deflateFixed chunks st).w.Ok ∧
        (deflateChunks deflateFixed chunks st).w.bits = st.w.bits ++ bits := by
  induction chunks with
  | nil => exact fun st _ hne _ _ => absurd rfl hne
  | cons chunk chunks ih =>
    intro st h _ hdata hsmall
    rw [List.flatten_cons] at hdata
    have hchunk : chunk.length ≤ 32768 := hsmall chunk List.mem_cons_self
    have hend : st.pos + chunk.length + chunks.flatten.length = data.length := by
      have hpos := h.pos
      have hcut := congrArg List.length hdata
      rw [List.length_drop, List.length_append] at hcut
      omega
    cases chunks with
    | nil =>
      obtain ⟨bits, hcoded, hst, hbits⟩ := @deflateBlock_spec data chunk _ st 1 h hdata hchunk le_rfl
      have hall : st.pos + chunk.length = data.length := hend
      rw [hall] at hcoded
      exact ⟨_, CodedBlocks.last hcoded, hst.w, hbits⟩
    | cons next rest =>
      obtain ⟨bits, hcoded, hst, hbits⟩ :=
        @deflateBlock_spec data chunk _ st 0 h hdata hchunk (Nat.zero_le 1)
      have hnext : data.drop (deflateBlock deflateFixed st chunk 0).pos = (next :: rest).flatten := by
        show data.drop (st.pos + chunk.length) = (next :: rest).flatten
        rw [← List.drop_drop, hdata, List.drop_left]
      obtain ⟨more, hmore, hok, hbits'⟩ := ih _ hst (List.cons_ne_nil next rest) hnext
        (fun c hc => hsmall c (List.mem_cons_of_mem chunk hc))
      refine ⟨_, CodedBlocks.more hcoded hmore, hok, hbits'.trans ?_⟩
      rw [hbits]
      simp only [List.append_assoc]

/-- What is deflated: zlib's head or nothing, bits that say the data, and what comes after them. -/
theorem bitsOf_deflateOf (zlib : Bool) {chunks : List Str} (hne : chunks ≠ [])
    (hsmall : ∀ chunk ∈ chunks, chunk.length ≤ 32768) :
    ∃ bits more, CodedBlocks chunks.flatten 0 bits ∧
      bitsOf (deflateOf zlib chunks) = bitsOf (if zlib then [0x78, 0x01] else []) ++ bits ++ more := by
  obtain ⟨bits, hcoded, hok, hbits⟩ := @deflateChunks_spec chunks.flatten chunks
    (DeflateState.start (if zlib then [0x78, 0x01] else [])) (DeflateState.between_start _ _) hne rfl
    hsmall
  obtain ⟨fill, -, hfill⟩ := bits_flushBits hok
  rw [hbits] at hfill
  have hstart : (DeflateState.start (if zlib then [0x78, 0x01] else [])).w.bits
      = bitsOf (if zlib then [0x78, 0x01] else []) := BitWriter.bits_start _
  rw [hstart] at hfill
  cases zlib with
  | false => exact ⟨bits, fill, hcoded, hfill⟩
  | true =>
    refine ⟨bits, fill ++ bitsOf (adlerBytes chunks), hcoded, ?_⟩
    rw [← List.append_assoc, ← hfill, ← bitsOf_append]
    rfl

/-! ## The blocks of a string -/

theorem flatten_readBlks {n : ℕ} (hn : 0 < n) (s : Str) : (readBlks n s).flatten = s := by
  induction h : s.length using Nat.strong_induction_on generalizing s with
  | _ k ih =>
    rw [readBlks]
    by_cases hs : 0 < s.length
    · rw [if_pos ⟨hn, hs⟩, List.flatten_cons, ih (s.drop n).length (by rw [List.length_drop]; omega)
        (s.drop n) rfl, List.take_append_drop]
    · rw [if_neg (by omega)]
      exact (List.eq_nil_of_length_eq_zero (by omega)).symm

theorem length_of_mem_readBlks {n : ℕ} (s : Str) : ∀ blk ∈ readBlks n s, blk.length ≤ n := by
  induction h : s.length using Nat.strong_induction_on generalizing s with
  | _ k ih =>
    rw [readBlks]
    by_cases hs : 0 < n ∧ 0 < s.length
    · rw [if_pos hs]
      intro blk hblk
      rcases List.mem_cons.mp hblk with rfl | hblk
      · rw [List.length_take]
        omega
      · exact ih (s.drop n).length (by rw [List.length_drop]; omega) (s.drop n) rfl blk hblk
    · rw [if_neg hs]
      exact fun blk hblk => absurd hblk List.not_mem_nil

theorem chunksOf_spec (s : Str) :
    chunksOf (readBlks 32768 s) ≠ [] ∧ (chunksOf (readBlks 32768 s)).flatten = s ∧
      ∀ chunk ∈ chunksOf (readBlks 32768 s), chunk.length ≤ 32768 := by
  have hflat : (readBlks 32768 s).flatten = s := flatten_readBlks (by decide) s
  unfold chunksOf
  by_cases hnil : readBlks 32768 s = []
  · rw [if_pos hnil]
    rw [hnil] at hflat
    refine ⟨List.cons_ne_nil _ _, hflat, ?_⟩
    intro chunk hchunk
    rw [List.mem_singleton.mp hchunk]
    exact Nat.zero_le _
  · rw [if_neg hnil]
    exact ⟨hnil, hflat, length_of_mem_readBlks s⟩

end ChrysaLisp
