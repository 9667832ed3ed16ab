import ChrysaLisp.Streams.HuffmanCodes

set_option autoImplicit false

/-! # A stream in Huffman codes

`huffman-compress` of `lib/streams/huffman.inc` takes the tokens of a stream a block of them at a
time, each with a code made for it and the lengths of that code ahead of it, and
`huffman-decompress` makes the codes again from the lengths. With a book there is one code that both
have. The tokens come back (`comes_back_iff`), unless a block is to be of no tokens: then there is
no end to the blocks. -/

namespace ChrysaLisp.HuffmanStream

open Bounded HuffmanLengths HuffmanCodes

/-! ## The source -/

def limitFrom (symbols l : ℕ) : ℕ := if h : 1 <<< l < symbols then limitFrom symbols (l + 1) else l
termination_by symbols - l
decreasing_by
  rw [Nat.one_shiftLeft] at h
  have hlt := Nat.lt_two_pow_self (n := l)
  omega

/-- `(huffman-limit symbols)` -/
def huffmanLimit (symbols : ℕ) : ℕ := limitFrom symbols 15

/-- The symbols that have a code. -/
def coded (lengths : List ℕ) : List ℕ :=
  (List.range lengths.length).filter fun s => decide (0 < lengths.getD s 0)

/-- `(huffman-write-lengths out bits lengths symbol_bits)` -/
def huffmanWriteLengths (lengths : List ℕ) (symbolBits : ℕ) (w : BitWriter) : BitWriter :=
  (coded lengths).foldl (fun w s => writeBits (lengths.getD s 0) 5 (writeBits s symbolBits w))
    (writeBits (coded lengths).length (symbolBits + 1) w)

/-- So many symbols and their lengths. -/
def readLengths (symbols symbolBits : ℕ) : ℕ → List ℕ → BitReader → Option (List ℕ) × BitReader
  | 0, lengths, r => (some lengths, r)
  | n + 1, lengths, r =>
      let (s, r) := readBits symbolBits r
      let (len, r) := readBits 5 r
      match s, len with
      | some s, some len => if s < symbols ∧ 0 < len then readLengths symbols symbolBits n
          (lengths.set s len) r else (none, r)
      | _, _ => (none, r)

/-- `(huffman-read-lengths in bits symbols symbol_bits)` -/
def huffmanReadLengths (symbols symbolBits : ℕ) (r : BitReader) : Option (List ℕ) × BitReader :=
  match readBits (symbolBits + 1) r with
  | (some n, r) => readLengths symbols symbolBits n (List.replicate symbols 0) r
  | (none, r) => (none, r)

/-- The tokens of a block, `left` of them at the most. -/
def readTokens (tokenBits : ℕ) : ℕ → BitReader → List ℕ × BitReader
  | 0, r => ([], r)
  | left + 1, r =>
      match readBits tokenBits r with
      | (some token, r) => let (tokens, r) := readTokens tokenBits left r; (token :: tokens, r)
      | (none, r) => ([], r)

/-- How often each token is in a block, and the end of it, which is there once. -/
def blockFreqs (eob : ℕ) (tokens : List ℕ) : List (BitVec 64) :=
  (tokens.foldl (fun freqs token => freqs.modify token (· + 1)) (List.replicate (eob + 1) 0)).set eob 1

def writeCode (codes lengths : List ℕ) (w : BitWriter) (s : ℕ) : BitWriter :=
  writeBits (codes.getD s 0) (lengths.getD s 0) w

/-- A block that is not empty. -/
def compressBlock (turns tokenBits : ℕ) (tokens : List ℕ) (w : BitWriter) : Read BitWriter := do
  let eob := 1 <<< tokenBits
  let lengths ← huffmanLengths turns (blockFreqs eob tokens) (huffmanLimit (eob + 1))
  let codes := huffmanCodes lengths
  let w := huffmanWriteLengths lengths (tokenBits + 1) (writeBits 1 1 w)
  .ok (writeCode codes lengths (tokens.foldl (writeCode codes lengths) w) eob)

/-- The blocks, until one is not full. -/
def compressBlocks (turns tokenBits block : ℕ) : ℕ → BitReader → BitWriter → Read BitWriter
  | 0, _, _ => .error .endless
  | left + 1, r, w => do
      let (tokens, r) := readTokens tokenBits block r
      let w ← if tokens = [] then .ok w else compressBlock turns tokenBits tokens w
      if tokens.length = block then compressBlocks turns tokenBits block left r w else .ok w

/-- `(huffman-compress in_stream out_stream token_bits block)`, what is written. -/
def huffmanCompress (turns tokenBits block : ℕ) (input : Str) : Read Str := do
  let w ← compressBlocks turns tokenBits block turns (.start input) (writeBits tokenBits 8 (.start []))
  .ok (flushBits (writeBits 0 1 w)).out

/-- The symbols of a code up to its end, each written. -/
def readSymbols (table : HuffmanTable) (tokenBits : ℕ) :
    ℕ → BitReader → BitWriter → Read (Bool × BitReader × BitWriter)
  | 0, _, _ => .error .endless
  | turns + 1, r, w =>
      match huffmanSymbol table r with
      | (some sym, r) =>
          if sym = 1 <<< tokenBits then .ok (true, r, w)
            else readSymbols table tokenBits turns r (writeBits sym tokenBits w)
      | (none, r) => .ok (false, r, w)

/-- The blocks, until there is no more of them. -/
def decompressBlocks (turns tokenBits : ℕ) : ℕ → BitReader → BitWriter → Read (Bool × BitWriter)
  | 0, _, _ => .error .endless
  | left + 1, r, w =>
      match readBits 1 r with
      | (some 0, _) => .ok (true, w)
      | (some 1, r) =>
          match huffmanReadLengths (1 <<< tokenBits + 1) (tokenBits + 1) r with
          | (some lengths, r) => do
              let table ← value (huffmanTable lengths)
              let (ok, r, w) ← readSymbols table tokenBits turns r w
              if ok then decompressBlocks turns tokenBits left r w else .ok (false, w)
          | (none, _) => .ok (false, w)
      | _ => .ok (false, w)

/-- `(huffman-decompress in_stream out_stream)`, and what is written. -/
def huffmanDecompress (turns : ℕ) (input : Str) : Read (Bool × Str) :=
  match readBits 8 (.start input) with
  | (some tokenBits, r) =>
      if 1 ≤ tokenBits ∧ tokenBits ≤ 24 then do
        let (ok, w) ← decompressBlocks turns tokenBits turns r (.start [])
        .ok (ok, (flushBits w).out)
      else .ok (false, (flushBits (.start [])).out)
  | (none, _) => .ok (false, (flushBits (.start [])).out)

/-! ## By a book -/

/-- The width of the tokens, and the lengths. -/
structure Book where
  tokenBits : ℕ
  lengths : List ℕ
deriving DecidableEq

/-- `(huffman-book token_bits freqs)` -/
def huffmanBook (turns tokenBits : ℕ) (freqs : List (BitVec 64)) : Read Book := do
  let lengths ← huffmanLengths turns (freqs.map (· + 1) ++ [1]) (huffmanLimit (freqs.length + 1))
  .ok ⟨tokenBits, lengths⟩

def compressTokens (codes lengths : List ℕ) (tokenBits : ℕ) :
    ℕ → BitReader → BitWriter → Read (Bool × BitWriter)
  | 0, _, _ => .error .endless
  | turns + 1, r, w =>
      match readBits tokenBits r with
      | (some token, r) => do
          let len ← elem lengths token
          if 0 < len then compressTokens codes lengths tokenBits turns r (writeCode codes lengths w token)
            else .ok (false, w)
      | (none, _) => .ok (true, w)

/-- `(huffman-compress-static in_stream out_stream book)`, and what is written. -/
def huffmanCompressStatic (turns : ℕ) (book : Book) (input : Str) : Read (Bool × Str) := do
  let eob := 1 <<< book.tokenBits
  let codes := huffmanCodes book.lengths
  let len ← elem book.lengths eob
  let (ok, w) ← if 0 < len then
      compressTokens codes book.lengths book.tokenBits turns (.start input) (.start [])
    else .ok (false, .start [])
  .ok (ok, (flushBits (if ok then writeCode codes book.lengths w eob else w)).out)

/-- `(huffman-decompress-static in_stream out_stream book)`, and what is written. -/
def huffmanDecompressStatic (turns : ℕ) (book : Book) (input : Str) : Read (Bool × Str) := do
  let table ← value (huffmanTable book.lengths)
  let (ok, _, w) ← readSymbols table book.tokenBits turns (.start input) (.start [])
  .ok (ok, (flushBits w).out)

/-! ## The lengths that are made -/

theorem limitFrom_spec (symbols l : ℕ) : symbols ≤ 2 ^ limitFrom symbols l ∧ l ≤ limitFrom symbols l ∧
    ∀ k, l ≤ k → symbols ≤ 2 ^ k → limitFrom symbols l ≤ k := by
  induction l using limitFrom.induct symbols with
  | case1 l h ih =>
      obtain ⟨hge, hle, hleast⟩ := ih
      rw [limitFrom, dif_pos h]
      refine ⟨hge, Nat.le_of_succ_le hle, ?_⟩
      intro k hk hsymbols
      refine hleast k (Nat.lt_of_le_of_ne hk ?_) hsymbols
      rintro rfl
      rw [Nat.one_shiftLeft] at h
      omega
  | case2 l h =>
      rw [limitFrom, dif_neg h]
      rw [Nat.one_shiftLeft] at h
      exact ⟨Nat.le_of_not_lt h, le_rfl, fun k hk _ => hk⟩

theorem le_two_pow_huffmanLimit (symbols : ℕ) : symbols ≤ 2 ^ huffmanLimit symbols :=
    (limitFrom_spec symbols 15).1

theorem le_huffmanLimit (symbols : ℕ) : 15 ≤ huffmanLimit symbols := (limitFrom_spec symbols 15).2.1

theorem huffmanLimit_le {symbols k : ℕ} (hk : 15 ≤ k) (h : symbols ≤ 2 ^ k) : huffmanLimit symbols ≤ k :=
  (limitFrom_spec symbols 15).2.2 k hk h

theorem mem_coded {lengths : List ℕ} {s : ℕ} : s ∈ coded lengths ↔ 0 < lengths.getD s 0 := by
  rw [coded, List.mem_filter, List.mem_range, decide_eq_true_eq]
  exact ⟨And.right, fun h => ⟨lt_length_of_pos h, h⟩⟩

theorem sum_map_filter {l : List ℕ} {p : ℕ → Bool} {g : ℕ → ℚ} (h : ∀ a ∈ l, p a = false → g a = 0) :
    (l.map g).sum = ((l.filter p).map g).sum := by
  induction l with
  | nil => rfl
  | cons a l ih =>
      have hrest := ih fun b hb => h b (List.mem_cons_of_mem a hb)
      rw [List.map_cons, List.sum_cons, hrest, List.filter_cons]
      split
      · rw [List.map_cons, List.sum_cons]
      · rw [h a List.mem_cons_self (by simpa using ‹¬p a = true›), zero_add]

/-- It is enough to look at the symbols that have a code. -/
theorem whole_of_coded {lengths : List ℕ}
    (h : ((coded lengths).map fun s => (1 / 2 : ℚ) ^ lengths.getD s 0).sum ≤ 1) :
    Whole lengths := by
  refine whole_of_sum ?_
  have hrange : (lengths.map fun len => if len = 0 then 0 else (1 / 2 : ℚ) ^ len) =
      (List.range lengths.length).map fun s => if lengths.getD s 0 = 0 then 0
        else (1 / 2 : ℚ) ^ lengths.getD s 0 := by
    refine List.ext_getElem (by rw [List.length_map, List.length_map, List.length_range]) ?_
    intro i hi _
    rw [List.length_map] at hi
    rw [List.getElem_map, List.getElem_map, List.getElem_range, List.getD_eq_getElem _ _ hi]
  rw [hrange, sum_map_filter (p := fun s => decide (0 < lengths.getD s 0)) ?_]
  · have hsame : ((coded lengths).map fun s => if lengths.getD s 0 = 0 then 0
      else (1 / 2 : ℚ) ^ lengths.getD s 0) =
        (coded lengths).map fun s => (1 / 2 : ℚ) ^ lengths.getD s 0 :=
      List.map_congr_left fun s hs => if_neg (mem_coded.mp hs).ne'
    exact (congrArg List.sum hsame).trans_le h
  · intro s _ hs
    rw [decide_eq_false_iff_not] at hs
    exact if_pos (Nat.eq_zero_of_not_pos hs)

/-- Lengths of a code for what is used. -/
structure Coding (freqs : List (BitVec 64)) (limit : ℕ) (lengths : List ℕ) : Prop where
  length : lengths.length = freqs.length
  used : ∀ s, 0 < lengths.getD s 0 ↔ s ∈ used freqs
  le : ∀ s, lengths.getD s 0 ≤ limit
  whole : Whole lengths

theorem huffmanLengths_coding (freqs : List (BitVec 64)) (turns : ℕ) {limit : ℕ} (hused : used freqs ≠ [])
    (hlimit : freqs.length ≤ 2 ^ limit) (hlimit1 : 1 ≤ limit) (hturns : freqs.length + limit < turns) :
    ∃ lengths, huffmanLengths turns freqs limit = .ok lengths ∧ Coding freqs limit lengths := by
  have hle : (used freqs).length ≤ freqs.length :=
    (List.length_filter_le _ _).trans_eq List.length_range
  have hsame : ∀ lengths : List ℕ, lengths.length = freqs.length →
    (∀ s, 0 < lengths.getD s 0 ↔ s ∈ used freqs) →
      coded lengths = used freqs := by
    intro lengths hlength hpos
    rw [coded, hlength]
    refine List.filter_congr fun s hs => ?_
    rw [decide_eq_decide, hpos s, mem_used, and_iff_right (List.mem_range.mp hs)]
  by_cases hone : (used freqs).length = 1
  · obtain ⟨s, hs⟩ := List.length_eq_one_iff.mp hone
    have hslt : s < freqs.length := (mem_used.mp (hs ▸ List.mem_singleton_self s)).1
    have hget : ∀ x, ((List.replicate freqs.length 0).set s 1).getD x 0 = if x = s then 1 else 0 := by
      intro x
      rw [getD_set _ _ _ _ _ (by rwa [List.length_replicate]), getD_replicate_zero]
    have hpos : ∀ x, 0 < ((List.replicate freqs.length 0).set s 1).getD x 0 ↔ x ∈ used freqs := by
      intro x
      rw [hget, hs, List.mem_singleton]
      split <;> simp_all
    refine ⟨(List.replicate freqs.length 0).set s 1, ?_, ?_, hpos, ?_, whole_of_coded ?_⟩
    · rw [huffmanLengths, if_neg (by omega), if_pos hone, hs]
      exact put_of_lt (by rwa [List.length_replicate])
    · rw [List.length_set, List.length_replicate]
    · intro x
      rw [hget]
      split <;> omega
    · rw [hsame _ (by rw [List.length_set, List.length_replicate]) hpos, hs, List.map_singleton,
        List.sum_singleton, hget, if_pos rfl]
      norm_num
  · have hpos : 0 < (used freqs).length := List.length_pos_iff.mpr hused
    obtain ⟨lengths, hlengths, hlength, hzero, hbounds, hsum, -⟩ :=
      huffmanLengths_comes freqs limit (by omega)
      (hle.trans hlimit) turns (by omega)
    have hiff : ∀ s, 0 < lengths.getD s 0 ↔ s ∈ used freqs := by
      refine fun s => ⟨?_, fun hs => (hbounds s hs).1⟩
      intro hs
      by_contra hno
      rw [hzero s hno] at hs
      exact absurd hs (Nat.lt_irrefl 0)
    refine ⟨lengths, hlengths, hlength, hiff, ?_, whole_of_coded (by rw [hsame lengths hlength hiff, hsum])⟩
    intro s
    by_cases hs : s ∈ used freqs
    · exact (hbounds s hs).2
    · rw [hzero s hs]
      exact Nat.zero_le _

/-! ## What is written -/

section Written

variable {w : BitWriter}

/-- Writes one after another. -/
theorem foldl_writes {α : Type} {f : BitWriter → α → BitWriter} {g : α → List Bool} (l : List α)
    (hf : ∀ a ∈ l, ∀ w : BitWriter, w.Ok → (f w a).Ok ∧ (f w a).bits = w.bits ++ g a) :
    ∀ w : BitWriter, w.Ok → (l.foldl f w).Ok ∧ (l.foldl f w).bits = w.bits ++ l.flatMap g := by
  induction l with
  | nil => exact fun w hw => ⟨hw, (List.append_nil _).symm⟩
  | cons a l ih =>
      intro w hw
      obtain ⟨hok, hbits⟩ := hf a List.mem_cons_self w hw
      obtain ⟨hok', hbits'⟩ := ih (fun b hb => hf b (List.mem_cons_of_mem a hb)) (f w a) hok
      exact ⟨hok', by rw [List.foldl_cons, hbits', hbits, List.flatMap_cons, List.append_assoc]⟩

variable {lengths : List ℕ}

theorem writeCode_spec {s : ℕ} (hs : 0 < lengths.getD s 0) (h : w.Ok) :
    (writeCode (huffmanCodes lengths) lengths w s).Ok ∧
      (writeCode (huffmanCodes lengths) lengths w s).bits = w.bits ++ codeBits lengths s := by
  rw [← ofNat_huffmanCodes hs]
  exact writeBits_spec h (huffmanCodes_lt hs)

/-- The lengths of a code as they are stored. -/
def lengthsBits (lengths : List ℕ) (symbolBits : ℕ) : List Bool :=
  Bits.ofNat (symbolBits + 1) (coded lengths).length ++
    (coded lengths).flatMap fun s => Bits.ofNat symbolBits s ++ Bits.ofNat 5 (lengths.getD s 0)

theorem length_coded_lt {symbolBits : ℕ} (hlength : lengths.length ≤ 2 ^ symbolBits) :
    (coded lengths).length < 2 ^ (symbolBits + 1) := by
  have hle : (coded lengths).length ≤ lengths.length :=
    (List.length_filter_le _ _).trans_eq List.length_range
  rw [pow_succ]
  have hpos := Nat.two_pow_pos symbolBits
  omega

theorem huffmanWriteLengths_spec {symbolBits : ℕ} (hlength : lengths.length ≤ 2 ^ symbolBits)
    (hlt : ∀ s, lengths.getD s 0 < 32) (h : w.Ok) : (huffmanWriteLengths lengths symbolBits w).Ok ∧
      (huffmanWriteLengths lengths symbolBits w).bits = w.bits ++ lengthsBits lengths symbolBits := by
  obtain ⟨hok, hbits⟩ := writeBits_spec h (length_coded_lt hlength)
  have hone : ∀ s ∈ coded lengths, ∀ w : BitWriter, w.Ok →
      (writeBits (lengths.getD s 0) 5 (writeBits s symbolBits w)).Ok ∧
        (writeBits (lengths.getD s 0) 5 (writeBits s symbolBits w)).bits =
          w.bits ++ (Bits.ofNat symbolBits s ++ Bits.ofNat 5 (lengths.getD s 0)) := by
    intro s hs w hw
    have hslt := (lt_length_of_pos (mem_coded.mp hs)).trans_le hlength
    obtain ⟨hok, hbits⟩ := writeBits_spec hw hslt
    obtain ⟨hok', hbits'⟩ := writeBits_spec (n := 5) hok (hlt s)
    exact ⟨hok', by rw [hbits', hbits, List.append_assoc]⟩
  obtain ⟨hok', hbits'⟩ := foldl_writes (coded lengths) hone _ hok
  exact ⟨hok', by rw [huffmanWriteLengths, hbits', hbits, lengthsBits, List.append_assoc]⟩

end Written

/-! ## What is read -/

section Read

variable {lengths : List ℕ} {r : BitReader} {rest : List Bool}

theorem readLengths_spec {symbols symbolBits : ℕ} (us : List ℕ)
    (hus : ∀ s ∈ us, s < symbols ∧ s < 2 ^ symbolBits ∧ 0 < lengths.getD s 0 ∧ lengths.getD s 0 < 32) :
    ∀ (acc : List ℕ) {r : BitReader},
      r.bits = (us.flatMap fun s => Bits.ofNat symbolBits s ++ Bits.ofNat 5 (lengths.getD s 0)) ++ rest →
      ∃ r', readLengths symbols symbolBits us.length acc r =
        (some (us.foldl (fun acc s => acc.set s (lengths.getD s 0)) acc), r') ∧ r'.bits = rest := by
  induction us with
  | nil => exact fun _ _ h => ⟨_, rfl, h⟩
  | cons s us ih =>
      intro acc r h
      obtain ⟨hsymbols, hs, hpos, hlen⟩ := hus s List.mem_cons_self
      rw [List.flatMap_cons, List.append_assoc, List.append_assoc] at h
      obtain ⟨r1, hr1, hbits1⟩ := readBits_ofNat h hs
      obtain ⟨r2, hr2, hbits2⟩ := readBits_ofNat (n := 5) hbits1 hlen
      obtain ⟨r3, hr3, hbits3⟩ :=
        ih (fun t ht => hus t (List.mem_cons_of_mem s ht)) (acc.set s (lengths.getD s 0)) hbits2
      refine ⟨r3, ?_, hbits3⟩
      rw [List.length_cons, readLengths]
      simp only [hr1, hr2, if_pos (⟨hsymbols, hpos⟩ : s < symbols ∧ 0 < lengths.getD s 0)]
      exact hr3

theorem getD_foldl_set (lengths us : List ℕ) : ∀ (acc : List ℕ) (x : ℕ), (∀ s ∈ us, s < acc.length) →
    (us.foldl (fun acc s => acc.set s (lengths.getD s 0)) acc).length = acc.length ∧
      (x ∈ us → (us.foldl (fun acc s => acc.set s (lengths.getD s 0)) acc).getD x 0 = lengths.getD x 0) ∧
      (x ∉ us → (us.foldl (fun acc s => acc.set s (lengths.getD s 0)) acc).getD x 0 = acc.getD x 0) := by
  induction us with
  | nil => exact fun _ x _ => ⟨rfl, fun h => absurd h List.not_mem_nil, fun _ => rfl⟩
  | cons s us ih =>
      intro acc x hus
      obtain ⟨hlength, hin, hout⟩ := ih (acc.set s (lengths.getD s 0)) x fun t ht => by
        rw [List.length_set]
        exact hus t (List.mem_cons_of_mem s ht)
      have hset := getD_set acc s x (lengths.getD s 0) 0 (hus s List.mem_cons_self)
      refine ⟨hlength.trans List.length_set, ?_, ?_⟩
      · intro hx
        by_cases hxs : x ∈ us
        · exact hin hxs
        · obtain rfl := (List.mem_cons.mp hx).resolve_right hxs
          exact (hout hxs).trans (hset.trans (if_pos rfl))
      · intro hx
        have hne : x ≠ s := fun h => hx (h ▸ List.mem_cons_self)
        exact (hout fun h => hx (List.mem_cons_of_mem s h)).trans (hset.trans (if_neg hne))

/-- The lengths that are stored are the lengths. -/
theorem huffmanReadLengths_spec {symbolBits : ℕ} (hlength : lengths.length ≤ 2 ^ symbolBits)
    (hlt : ∀ s, lengths.getD s 0 < 32) (h : r.bits = lengthsBits lengths symbolBits ++ rest) :
    ∃ r', huffmanReadLengths lengths.length symbolBits r = (some lengths, r') ∧ r'.bits = rest := by
  rw [lengthsBits, List.append_assoc] at h
  obtain ⟨r1, hr1, hbits1⟩ := readBits_ofNat h (length_coded_lt hlength)
  have hus : ∀ s ∈ coded lengths, s < lengths.length ∧ s < 2 ^ symbolBits ∧ 0 < lengths.getD s 0 ∧
    lengths.getD s 0 < 32 := by
    intro s hs
    have hslt := lt_length_of_pos (mem_coded.mp hs)
    exact ⟨hslt, hslt.trans_le hlength, mem_coded.mp hs, hlt s⟩
  obtain ⟨r2, hr2, hbits2⟩ := readLengths_spec (coded lengths) hus (List.replicate lengths.length 0) hbits1
  refine ⟨r2, ?_, hbits2⟩
  have hset : ∀ x, _ := fun x => getD_foldl_set lengths (coded lengths) (List.replicate lengths.length 0) x
    fun s hs => by rw [List.length_replicate]; exact (hus s hs).1
  have hsame : (coded lengths).foldl (fun acc s => acc.set s (lengths.getD s 0))
    (List.replicate lengths.length 0) = lengths := by
    refine List.ext_getElem ((hset 0).1.trans List.length_replicate) ?_
    intro x hx hx'
    rw [← List.getD_eq_getElem _ 0 hx, ← List.getD_eq_getElem _ 0 hx']
    by_cases hx : x ∈ coded lengths
    · exact (hset x).2.1 hx
    · rw [(hset x).2.2 hx, getD_replicate_zero]
      exact (Nat.eq_zero_of_not_pos fun h => hx (mem_coded.mpr h)).symm
  rw [huffmanReadLengths, hr1]
  simp only
  rw [hr2, hsame]

/-- The symbols of a code up to its end. -/
theorem readSymbols_spec {tokenBits : ℕ} {table : HuffmanTable} (htable : huffmanTable lengths = some table)
    (hwhole : Whole lengths) (heob : 0 < lengths.getD (2 ^ tokenBits) 0) (tokens : List ℕ)
    (htokens : ∀ t ∈ tokens, t < 2 ^ tokenBits ∧ 0 < lengths.getD t 0) :
    ∀ {r : BitReader} {w : BitWriter} {turns : ℕ},
      r.bits = tokens.flatMap (codeBits lengths) ++ (codeBits lengths (2 ^ tokenBits) ++ rest) →
        w.Ok → tokens.length < turns →
      ∃ r' w', readSymbols table tokenBits turns r w = .ok (true, r', w') ∧ r'.bits = rest ∧ w'.Ok ∧
        w'.bits = w.bits ++ tokens.flatMap (Bits.ofNat tokenBits) := by
  induction tokens with
  | nil =>
      intro r w turns h hw hturns
      obtain ⟨turns, rfl⟩ := Nat.exists_eq_succ_of_ne_zero (Nat.ne_of_gt hturns)
      obtain ⟨r1, hr1, hbits1⟩ := huffmanSymbol_of_decode (h ▸ decode_codeBits htable hwhole heob rest)
      refine ⟨r1, w, ?_, hbits1, hw, (List.append_nil _).symm⟩
      rw [readSymbols, hr1]
      simp only [Nat.one_shiftLeft, if_true]
  | cons t tokens ih =>
      intro r w turns h hw hturns
      obtain ⟨turns, rfl⟩ := Nat.exists_eq_succ_of_ne_zero
        (Nat.ne_of_gt (Nat.lt_of_le_of_lt (Nat.zero_le _) hturns))
      obtain ⟨ht, hpos⟩ := htokens t List.mem_cons_self
      rw [List.flatMap_cons, List.append_assoc] at h
      obtain ⟨r1, hr1, hbits1⟩ := huffmanSymbol_of_decode (h ▸ decode_codeBits htable hwhole hpos _)
      obtain ⟨hok, hbits⟩ := writeBits_spec hw ht
      obtain ⟨r2, w2, hr2, hbits2, hok2, hw2⟩ :=
        ih (fun x hx => htokens x (List.mem_cons_of_mem t hx)) hbits1 hok
        (Nat.lt_of_succ_lt_succ hturns)
      refine ⟨r2, w2, ?_, hbits2, hok2, by rw [hw2, hbits, List.flatMap_cons, List.append_assoc]⟩
      rw [readSymbols, hr1]
      simp only [Nat.one_shiftLeft, if_neg ht.ne]
      exact hr2

end Read

/-! ## Tokens -/

/-- The whole tokens of some bits. -/
def tokensOf (tokenBits : ℕ) (bits : List Bool) : List ℕ :=
  if 0 < tokenBits ∧ tokenBits ≤ bits.length then Bits.toNat (bits.take tokenBits) ::
    tokensOf tokenBits (bits.drop tokenBits)
  else []
termination_by bits.length
decreasing_by
  rw [List.length_drop]
  omega

section Tokens

variable {tokenBits : ℕ}

theorem tokensOf_of_le {bits : List Bool} (hpos : 0 < tokenBits) (hle : tokenBits ≤ bits.length) :
    tokensOf tokenBits bits =
      Bits.toNat (bits.take tokenBits) :: tokensOf tokenBits (bits.drop tokenBits) := by
  rw [tokensOf, if_pos ⟨hpos, hle⟩]

theorem tokensOf_of_lt {bits : List Bool} (hlt : bits.length < tokenBits) : tokensOf tokenBits bits = [] := by
  rw [tokensOf, if_neg (by omega)]

/-- A token is a number of its width, and they all fit. -/
theorem tokensOf_spec (tokenBits : ℕ) (bits : List Bool) :
    (∀ t ∈ tokensOf tokenBits bits, t < 2 ^ tokenBits) ∧
    tokenBits * (tokensOf tokenBits bits).length ≤ bits.length := by
  induction bits using tokensOf.induct tokenBits with
  | case1 bits h ih =>
      obtain ⟨hlt, hlen⟩ := ih
      rw [tokensOf_of_le h.1 h.2]
      rw [List.length_drop] at hlen
      refine ⟨?_, ?_⟩
      · intro t ht
        rcases List.mem_cons.mp ht with rfl | ht
        · have hone := Bits.toNat_lt (bits.take tokenBits)
          rwa [List.length_take_of_le h.2] at hone
        · exact hlt t ht
      · rw [List.length_cons, Nat.mul_succ]
        omega
  | case2 bits h =>
      rw [tokensOf, if_neg h]
      exact ⟨fun t ht => absurd ht List.not_mem_nil, Nat.zero_le _⟩

/-- None is left out. -/
theorem length_lt_tokensOf (hpos : 0 < tokenBits) (bits : List Bool) :
    bits.length < tokenBits * (tokensOf tokenBits bits).length + tokenBits := by
  induction bits using tokensOf.induct tokenBits with
  | case1 bits h ih =>
      rw [tokensOf_of_le h.1 h.2, List.length_cons, Nat.mul_succ]
      rw [List.length_drop] at ih
      omega
  | case2 bits h =>
      rw [tokensOf, if_neg h, List.length_nil, Nat.mul_zero, Nat.zero_add]
      exact Nat.lt_of_not_le fun hle => h ⟨hpos, hle⟩

/-- Tokens written one after another. -/
theorem tokensOf_flatMap (hpos : 0 < tokenBits) (fill : List Bool) {tokens : List ℕ}
    (h : ∀ t ∈ tokens, t < 2 ^ tokenBits) :
    tokensOf tokenBits (tokens.flatMap (Bits.ofNat tokenBits) ++ fill) =
      tokens ++ tokensOf tokenBits fill := by
  induction tokens with
  | nil => rfl
  | cons t tokens ih =>
      have hlen := Bits.length_ofNat tokenBits t
      rw [List.flatMap_cons, List.append_assoc, tokensOf_of_le hpos (by rw [List.length_append]; omega),
        List.take_left' hlen, List.drop_left' hlen, Bits.toNat_ofNat,
          Nat.mod_eq_of_lt (h t List.mem_cons_self),
        ih fun x hx => h x (List.mem_cons_of_mem t hx), List.cons_append]

theorem fillPool_eq_none {n : ℕ} (input : Str) :
    ∀ {pool size : ℕ} {small : pool < 2 ^ size}, size + 8 * input.length < n →
    fillPool n input pool size small = none := by
  induction input with
  | nil =>
      intro pool size small h
      rw [List.length_nil] at h
      rw [fillPool, if_neg (by omega)]
  | cons c rest ih =>
      intro pool size small h
      rw [List.length_cons] at h
      rw [fillPool, if_neg (by omega)]
      exact ih (by omega)

theorem readBits_ended {n : ℕ} {r : BitReader} (h : r.bits.length < n) :
    readBits n r = (none, .start []) := by
  rw [BitReader.bits, List.length_append, Bits.length_ofNat, length_bitsOf] at h
  rw [readBits, fillPool_eq_none _ h]

/-- A block is the next tokens, as many as there are. -/
theorem readTokens_spec (hpos : 0 < tokenBits) (left : ℕ) : ∀ r : BitReader,
    (readTokens tokenBits left r).1 = (tokensOf tokenBits r.bits).take left ∧
      ((readTokens tokenBits left r).1.length = left →
        tokensOf tokenBits (readTokens tokenBits left r).2.bits = (tokensOf tokenBits r.bits).drop left) := by
  induction left with
  | zero => exact fun r => ⟨rfl, fun _ => rfl⟩
  | succ left ih =>
      intro r
      by_cases hle : tokenBits ≤ r.bits.length
      · obtain ⟨r', hr', hbits⟩ := readBits_append (List.take_append_drop tokenBits r.bits).symm
          (List.length_take_of_le hle)
        obtain ⟨htake, hdrop⟩ := ih r'
        rw [hbits] at htake hdrop
        rw [readTokens, hr', tokensOf_of_le hpos hle]
        simp only [List.length_cons, Nat.succ_inj]
        exact ⟨by rw [htake, List.take_succ_cons], hdrop⟩
      · rw [readTokens, readBits_ended (Nat.lt_of_not_le hle), tokensOf_of_lt (Nat.lt_of_not_le hle)]
        exact ⟨List.take_nil.symm, fun h => absurd h (Nat.succ_ne_zero left).symm⟩

end Tokens

/-! ## A block -/

section Block

variable {tokenBits : ℕ} {lengths tokens : List ℕ}

/-- The lengths are of a code that has the tokens and the end of them. -/
structure Readable (tokenBits : ℕ) (lengths tokens : List ℕ) : Prop where
  length : lengths.length = 2 ^ tokenBits + 1
  lt : ∀ s, lengths.getD s 0 < 32
  eob : 0 < lengths.getD (2 ^ tokenBits) 0
  tokens : ∀ t ∈ tokens, t < 2 ^ tokenBits ∧ 0 < lengths.getD t 0
  whole : Whole lengths

theorem huffmanTable_comes {s : ℕ} (h : 0 < lengths.getD s 0) :
    ∃ table, huffmanTable lengths = some table := by
  have hmost := getD_le_mostLength lengths s
  rw [huffmanTable, if_neg (by omega)]
  exact ⟨_, rfl⟩

theorem Readable.length_le (h : Readable tokenBits lengths tokens) :
    lengths.length ≤ 2 ^ (tokenBits + 1) := by
  have hpos := Nat.two_pow_pos tokenBits
  rw [h.length, pow_succ]
  omega

/-- The bits of a block after the one that says it is there. -/
def blockBits (tokenBits : ℕ) (lengths tokens : List ℕ) : List Bool :=
  lengthsBits lengths (tokenBits + 1) ++
    (tokens.flatMap (codeBits lengths) ++ codeBits lengths (2 ^ tokenBits))

theorem toInt_ofNat_pos {n : ℕ} (hn : n < 2 ^ 63) : 0 < (BitVec.ofNat 64 n).toInt ↔ 0 < n := by
  have hmod : (BitVec.ofNat 64 n).toNat = n := by
    rw [BitVec.toNat_ofNat]
    omega
  rw [BitVec.toInt_eq_toNat_of_lt (by omega), hmod]
  exact Int.natCast_pos

/-- What is used in a block: its tokens, and the end. -/
theorem mem_used_blockFreqs {eob s : ℕ} (hlt : ∀ t ∈ tokens, t < eob) (hlength : tokens.length < 2 ^ 63) :
    s ∈ used (blockFreqs eob tokens) ↔ s ∈ tokens ∨ s = eob := by
  obtain ⟨hlen, hget⟩ := foldl_modify tokens (List.replicate (eob + 1) (0 : BitVec 64))
  rw [List.length_replicate] at hlen hget
  have hfreq : ∀ s ≤ eob, freq (blockFreqs eob tokens) s = if s = eob then 1
    else BitVec.ofNat 64 (tokens.count s) := by
    intro s hs
    rw [freq, blockFreqs, getD_set _ _ _ _ _ (by omega)]
    split
    · rfl
    · rw [hget s (by omega), List.getD_eq_getElem _ _ (by rw [List.length_replicate]; omega),
        List.getElem_replicate, zero_add]
      rfl
  rw [mem_used, blockFreqs, List.length_set, hlen, ← blockFreqs]
  constructor
  · rintro ⟨hs, hpos⟩
    rw [hfreq s (by omega)] at hpos
    split at hpos
    · exact Or.inr ‹_›
    · rw [toInt_ofNat_pos (List.count_le_length.trans_lt hlength)] at hpos
      exact Or.inl (List.count_pos_iff.mp hpos)
  · intro h
    have hs : s ≤ eob := by
      rcases h with h | rfl
      · exact (hlt s h).le
      · exact le_rfl
    refine ⟨by omega, ?_⟩
    rw [hfreq s hs]
    split
    · decide
    · rw [toInt_ofNat_pos (List.count_le_length.trans_lt hlength)]
      exact List.count_pos_iff.mpr (h.resolve_right ‹_›)

/-- Given enough turns a block is written, with a code that has its tokens. -/
theorem compressBlock_spec {turns : ℕ} {w : BitWriter} (htokenBits : tokenBits ≤ 24)
    (hlt : ∀ t ∈ tokens, t < 2 ^ tokenBits)
    (hlength : tokens.length < 2 ^ 63)
    (hturns : 2 ^ tokenBits + 1 + huffmanLimit (2 ^ tokenBits + 1) < turns) (h : w.Ok) :
    ∃ lengths w', compressBlock turns tokenBits tokens w = .ok w' ∧
      Readable tokenBits lengths tokens ∧ w'.Ok ∧
      w'.bits = w.bits ++ true :: blockBits tokenBits lengths tokens := by
  have hfreqs : (blockFreqs (2 ^ tokenBits) tokens).length = 2 ^ tokenBits + 1 := by
    rw [blockFreqs, List.length_set, (foldl_modify tokens _).1, List.length_replicate]
  have hmem := fun s => mem_used_blockFreqs (s := s) hlt hlength
  obtain ⟨lengths, hlengths, hcoding⟩ := huffmanLengths_coding (blockFreqs (2 ^ tokenBits) tokens) turns
    (List.ne_nil_of_mem ((hmem _).mpr (Or.inr rfl))) (by rw [hfreqs]; exact le_two_pow_huffmanLimit _)
    ((by decide : 1 ≤ 15).trans (le_huffmanLimit _)) (by rwa [hfreqs])
  have hlimit : huffmanLimit (2 ^ tokenBits + 1) ≤ 25 := by
    refine huffmanLimit_le (by decide) ?_
    calc 2 ^ tokenBits + 1 ≤ 2 ^ 24 + 1 := Nat.succ_le_succ (Nat.pow_le_pow_right Nat.two_pos htokenBits)
      _ ≤ 2 ^ 25 := by norm_num
  have hread : Readable tokenBits lengths tokens :=
    ⟨hcoding.length.trans hfreqs, fun s => ((hcoding.le s).trans hlimit).trans_lt (by decide),
      (hcoding.used _).mpr ((hmem _).mpr (Or.inr rfl)),
      fun t ht => ⟨hlt t ht, (hcoding.used t).mpr ((hmem t).mpr (Or.inl ht))⟩, hcoding.whole⟩
  obtain ⟨hok1, hbits1⟩ := writeBits_spec (n := 1) h (by decide : 1 < 2 ^ 1)
  obtain ⟨hok2, hbits2⟩ := huffmanWriteLengths_spec hread.length_le hread.lt hok1
  obtain ⟨hok3, hbits3⟩ := foldl_writes (g := codeBits lengths) tokens
    (fun t ht w hw => writeCode_spec (hread.tokens t ht).2 hw) _ hok2
  obtain ⟨hok4, hbits4⟩ := writeCode_spec hread.eob hok3
  refine ⟨lengths, _, ?_, hread, hok4, ?_⟩
  · rw [compressBlock]
    simp only [Nat.one_shiftLeft, hlengths, ok_bind]
  · rw [hbits4, hbits3, hbits2, hbits1, blockBits]
    simp [Bits.ofNat]

end Block

/-! ## The blocks -/

/-- The bits are blocks that give the tokens, with a bit of 0 after them. -/
def Says (tokenBits : ℕ) (bits : List Bool) (tokens : List ℕ) : Prop :=
  ∀ {turns left : ℕ} {r : BitReader} {v : BitWriter} {rest : List Bool},
    r.bits = bits ++ false :: rest → v.Ok →
    tokens.length < turns → tokens.length < left →
      ∃ v', decompressBlocks turns tokenBits left r v = .ok (true, v') ∧
      v'.Ok ∧ v'.bits = v.bits ++ tokens.flatMap (Bits.ofNat tokenBits)

section Blocks

variable {tokenBits : ℕ} {lengths tokens : List ℕ}

theorem says_nil : Says tokenBits [] [] := by
  intro turns left r v rest h hv _ hleft
  obtain ⟨left, rfl⟩ := Nat.exists_eq_succ_of_ne_zero (Nat.ne_of_gt hleft)
  have hparts : r.bits = Bits.ofNat 1 0 ++ rest := h
  obtain ⟨r1, hr1, -⟩ := readBits_ofNat hparts (by decide)
  refine ⟨v, ?_, hv, (List.append_nil _).symm⟩
  rw [decompressBlocks, hr1]
  rfl

theorem says_block {bits : List Bool} {more : List ℕ} (hread : Readable tokenBits lengths tokens)
    (hne : tokens ≠ [])
    (hmore : Says tokenBits bits more) :
    Says tokenBits (true :: blockBits tokenBits lengths tokens ++ bits) (tokens ++ more) := by
  intro turns left r v rest h hv hturns hleft
  rw [List.length_append] at hturns hleft
  have hpos := List.length_pos_iff.mpr hne
  obtain ⟨left, rfl⟩ := Nat.exists_eq_succ_of_ne_zero
    (Nat.ne_of_gt (Nat.lt_of_le_of_lt (Nat.zero_le _) hleft))
  obtain ⟨table, htable⟩ := huffmanTable_comes hread.eob
  -- the bit that there is a block, its lengths, its symbols, and then the others
  have hparts : r.bits = [true] ++
    (lengthsBits lengths (tokenBits + 1) ++ (tokens.flatMap (codeBits lengths) ++
      (codeBits lengths (2 ^ tokenBits) ++ (bits ++ false :: rest)))) := by
    rw [h, blockBits]
    simp only [List.cons_append, List.nil_append, List.append_assoc]
  obtain ⟨r1, hr1, hbits1⟩ := readBits_append (n := 1) hparts rfl
  have hone : Bits.toNat [true] = 1 := rfl
  obtain ⟨r2, hr2, hbits2⟩ := huffmanReadLengths_spec hread.length_le hread.lt hbits1
  obtain ⟨r3, v3, hr3, hbits3, hok3, hv3⟩ :=
    readSymbols_spec htable hread.whole hread.eob tokens hread.tokens hbits2 hv
    (by omega : tokens.length < turns)
  obtain ⟨v4, hv4, hok4, hbits4⟩ :=
    hmore hbits3 hok3 (by omega : more.length < turns) (by omega : more.length < left)
  refine ⟨v4, ?_, hok4, by rw [hbits4, hv3, List.flatMap_append, List.append_assoc]⟩
  rw [hread.length] at hr2
  rw [decompressBlocks, hr1, hone]
  simp only [Nat.one_shiftLeft, hr2, htable, value, hr3, ok_bind, if_true]
  exact hv4

theorem compressBlocks_spec {turns block : ℕ} (hwidth : 1 ≤ tokenBits ∧ tokenBits ≤ 24) (hblock : 1 ≤ block)
    (hsize : block < 2 ^ 63) (hturns : 2 ^ tokenBits + 1 + huffmanLimit (2 ^ tokenBits + 1) < turns)
    (left : ℕ) :
    ∀ {r : BitReader} {w : BitWriter}, w.Ok → (tokensOf tokenBits r.bits).length < left →
      ∃ w' bits, compressBlocks turns tokenBits block left r w = .ok w' ∧ w'.Ok ∧ w'.bits = w.bits ++ bits ∧
        Says tokenBits bits (tokensOf tokenBits r.bits) := by
  induction left with
  | zero => exact fun _ h => absurd h (Nat.not_lt_zero _)
  | succ left ih =>
      intro r w hw hleft
      obtain ⟨htake, hdrop⟩ := readTokens_spec hwidth.1 block r
      have hlt := (tokensOf_spec tokenBits r.bits).1
      rw [compressBlocks]
      generalize readTokens tokenBits block r = read at htake hdrop ⊢
      obtain ⟨tokens, r'⟩ := read
      simp only at htake hdrop ⊢
      by_cases hnil : tokens = []
      · have hnone : tokensOf tokenBits r.bits = [] := by
          rw [hnil] at htake
          exact (List.take_eq_nil_iff.mp htake.symm).resolve_left (by omega)
        refine ⟨w, [], ?_, hw, (List.append_nil _).symm, hnone ▸ says_nil⟩
        rw [if_pos hnil, hnil, List.length_nil]
        simp only [ok_bind, if_neg (by omega : ¬0 = block)]
      · have hlength : tokens.length ≤ block := by
          rw [htake]
          exact List.length_take_le _ _
        have htokens : ∀ t ∈ tokens, t < 2 ^ tokenBits :=
          fun t ht => hlt t (List.mem_of_mem_take (htake ▸ ht))
        obtain ⟨lengths, w1, hw1, hread, hok1, hbits1⟩ :=
          compressBlock_spec hwidth.2 htokens (by omega) hturns hw
        rw [if_neg hnil, hw1, ok_bind]
        have hsplit := List.take_append_drop block (tokensOf tokenBits r.bits)
        rw [← htake] at hsplit
        by_cases hfull : tokens.length = block
        · have hshort : (tokensOf tokenBits r'.bits).length < left := by
            have hall := congrArg List.length hsplit
            rw [List.length_append] at hall
            rw [hdrop hfull]
            omega
          obtain ⟨w2, bits, hw2, hok2, hbits2, hsays⟩ := ih hok1 hshort
          rw [hdrop hfull] at hsays
          refine ⟨w2, true :: blockBits tokenBits lengths tokens ++ bits, ?_, hok2, ?_,
            hsplit ▸ says_block hread hnil hsays⟩
          · rw [if_pos hfull, hw2]
          · rw [hbits2, hbits1, List.append_assoc]
        · have hdropped : (tokensOf tokenBits r.bits).drop block = [] := by
            refine List.drop_eq_nil_of_le (Nat.le_of_not_lt fun hlt => hfull ?_)
            rw [htake, List.length_take_of_le hlt.le]
          rw [hdropped] at hsplit
          refine ⟨w1, true :: blockBits tokenBits lengths tokens ++ [], ?_, hok1, ?_,
            hsplit ▸ says_block hread hnil says_nil⟩
          · rw [if_neg hfull]
          · rw [hbits1, List.append_nil]

/-- No block is the last if it is to be of no tokens. -/
theorem compressBlocks_zero (turns tokenBits left : ℕ) : ∀ (r : BitReader) (w : BitWriter),
    compressBlocks turns tokenBits 0 left r w = .error .endless := by
  induction left with
  | zero => exact fun _ _ => rfl
  | succ left ih =>
      intro r w
      rw [compressBlocks, readTokens]
      exact ih r w

end Blocks

/-! ## There and back -/

/-- The tokens come back, and no byte more than they take. -/
def RoundTrips (tokenBits block : ℕ) (input : Str) : Prop :=
  ∃ enough, ∀ turns ≥ enough, ∃ coded out, huffmanCompress turns tokenBits block input = .ok coded ∧
    huffmanDecompress turns coded = .ok (true, out) ∧
    tokensOf tokenBits (bitsOf out) = tokensOf tokenBits (bitsOf input) ∧
    8 * out.length < tokenBits * (tokensOf tokenBits (bitsOf input)).length + 8

/-- The book has a code for every token of a stream. -/
def Covers (book : Book) (input : Str) : Prop :=
  ∀ t ∈ tokensOf book.tokenBits (bitsOf input), 0 < book.lengths.getD t 0

def RoundTripsStatic (book : Book) (input : Str) : Prop :=
  ∃ enough, ∀ turns ≥ enough, ∃ coded out, huffmanCompressStatic turns book input = .ok (true, coded) ∧
    huffmanDecompressStatic turns book coded = .ok (true, out) ∧
    tokensOf book.tokenBits (bitsOf out) = tokensOf book.tokenBits (bitsOf input) ∧
    8 * out.length < book.tokenBits * (tokensOf book.tokenBits (bitsOf input)).length + 8

/-- What is written of the tokens of a stream is read as them. -/
theorem tokensOf_flushBits {tokenBits : ℕ} (hpos : 0 < tokenBits) {input : Str} {v : BitWriter} (hv : v.Ok)
    (hbits : v.bits = (tokensOf tokenBits (bitsOf input)).flatMap (Bits.ofNat tokenBits)) :
    tokensOf tokenBits (bitsOf (flushBits v).out) = tokensOf tokenBits (bitsOf input) ∧
      8 * (flushBits v).out.length < tokenBits * (tokensOf tokenBits (bitsOf input)).length + 8 := by
  obtain ⟨fill, hfill, hout⟩ := bits_flushBits hv
  obtain ⟨hlt, hfits⟩ := tokensOf_spec tokenBits (bitsOf input)
  have hall := length_lt_tokensOf hpos (bitsOf input)
  have hlength : 8 * (flushBits v).out.length =
    tokenBits * (tokensOf tokenBits (bitsOf input)).length + fill.length := by
    rw [← length_bitsOf, hout, hbits, List.length_append, List.length_flatMap]
    simp [Bits.length_ofNat, Nat.mul_comm]
  rw [length_bitsOf] at hfits hall
  -- there is no room for one more: the bytes are no more than those of the stream
  refine ⟨?_, by omega⟩
  have hnone : tokensOf tokenBits fill = [] := tokensOf_of_lt (by omega)
  rw [hout, hbits, tokensOf_flatMap hpos fill hlt, hnone, List.append_nil]

theorem roundTrips_of_pos {tokenBits block : ℕ} (hwidth : 1 ≤ tokenBits ∧ tokenBits ≤ 24) (hblock : 1 ≤ block)
    (hsize : block < 2 ^ 63) (input : Str) : RoundTrips tokenBits block input := by
  refine ⟨2 ^ tokenBits + 1 + huffmanLimit (2 ^ tokenBits + 1) +
    (tokensOf tokenBits (bitsOf input)).length + 1, ?_⟩
  intro turns hturns
  have hwidth8 : tokenBits < 2 ^ 8 := hwidth.2.trans_lt (by decide)
  have hpow := Nat.two_pow_pos tokenBits
  have henough : (tokensOf tokenBits (bitsOf input)).length < turns := by omega
  -- what is written: the width, the blocks, and a bit of 0
  obtain ⟨hok1, hbits1⟩ := writeBits_spec (BitWriter.ok_start []) hwidth8
  obtain ⟨w2, bits, hw2, hok2, hbits2, hsays⟩ := compressBlocks_spec hwidth hblock hsize
    (by omega : 2 ^ tokenBits + 1 + huffmanLimit (2 ^ tokenBits + 1) < turns) turns (r := .start input) hok1
    (by rwa [BitReader.bits_start])
  obtain ⟨hok3, hbits3⟩ := writeBits_spec (n := 1) hok2 (by decide : 0 < 2 ^ 1)
  obtain ⟨fill, -, hcoded⟩ := bits_flushBits hok3
  rw [BitReader.bits_start] at hsays
  have hall : bitsOf (flushBits (writeBits 0 1 w2)).out =
    Bits.ofNat 8 tokenBits ++ (bits ++ false :: fill) := by
    rw [hcoded, hbits3, hbits2, hbits1, BitWriter.bits_start]
    simp [Bits.ofNat]
  -- and what is read of that
  obtain ⟨r1, hr1, hread⟩ := readBits_ofNat (r := .start (flushBits (writeBits 0 1 w2)).out) hall hwidth8
  obtain ⟨v, hv, hokv, hbitsv⟩ := hsays hread (BitWriter.ok_start []) henough henough
  rw [BitWriter.bits_start, bitsOf_nil, List.nil_append] at hbitsv
  obtain ⟨hback, hshort⟩ := tokensOf_flushBits hwidth.1 hokv hbitsv
  refine ⟨(flushBits (writeBits 0 1 w2)).out, _, ?_, ?_, hback, hshort⟩
  · rw [huffmanCompress, hw2, ok_bind]
  · rw [huffmanDecompress, hr1]
    simp only [if_pos hwidth, hv, ok_bind]

theorem not_roundTrips_zero (tokenBits : ℕ) (input : Str) : ¬RoundTrips tokenBits 0 input := by
  rintro ⟨enough, h⟩
  obtain ⟨_, _, hcoded, -⟩ := h enough le_rfl
  rw [huffmanCompress, compressBlocks_zero] at hcoded
  exact absurd hcoded (by simp)

/-! ## By a book, there and back -/

section Static

variable {tokenBits : ℕ} {lengths : List ℕ}

theorem compressTokens_spec (hpos : 0 < tokenBits) (hlength : lengths.length = 2 ^ tokenBits + 1)
    (turns : ℕ) :
    ∀ {r : BitReader} {w : BitWriter}, w.Ok → (∀ t ∈ tokensOf tokenBits r.bits, 0 < lengths.getD t 0) →
      (tokensOf tokenBits r.bits).length < turns →
      ∃ w', compressTokens (huffmanCodes lengths) lengths tokenBits turns r w = .ok (true, w') ∧ w'.Ok ∧
        w'.bits = w.bits ++ (tokensOf tokenBits r.bits).flatMap (codeBits lengths) := by
  induction turns with
  | zero => exact fun _ _ h => absurd h (Nat.not_lt_zero _)
  | succ turns ih =>
      intro r w hw hcovers hturns
      by_cases hle : tokenBits ≤ r.bits.length
      · obtain ⟨r', hr', hbits⟩ := readBits_append (List.take_append_drop tokenBits r.bits).symm
          (List.length_take_of_le hle)
        have hlt := (tokensOf_spec tokenBits r.bits).1
        rw [tokensOf_of_le hpos hle, ← hbits] at hcovers hturns hlt ⊢
        have htoken := hlt _ List.mem_cons_self
        have hcode := hcovers _ List.mem_cons_self
        obtain ⟨hok, hw1⟩ := writeCode_spec hcode hw
        obtain ⟨w2, hw2, hok2, hbits2⟩ := ih hok (fun t ht => hcovers t (List.mem_cons_of_mem _ ht))
          (Nat.lt_of_succ_lt_succ hturns)
        refine ⟨w2, ?_, hok2, by rw [hbits2, hw1, List.flatMap_cons, List.append_assoc]⟩
        rw [compressTokens, hr']
        simp only [elem_getD 0 (by omega : Bits.toNat (r.bits.take tokenBits) < lengths.length),
          ok_bind, if_pos hcode]
        exact hw2
      · rw [tokensOf_of_lt (Nat.lt_of_not_le hle)]
        refine ⟨w, ?_, hw, (List.append_nil _).symm⟩
        rw [compressTokens, readBits_ended (Nat.lt_of_not_le hle)]

theorem roundTripsStatic_of_covers {input : Str} (hpos : 0 < tokenBits)
    (hlength : lengths.length = 2 ^ tokenBits + 1)
    (heob : 0 < lengths.getD (2 ^ tokenBits) 0) (hwhole : Whole lengths)
    (hcovers : Covers ⟨tokenBits, lengths⟩ input) :
    RoundTripsStatic ⟨tokenBits, lengths⟩ input := by
  refine ⟨(tokensOf tokenBits (bitsOf input)).length + 1, ?_⟩
  intro turns hturns
  obtain ⟨w1, hw1, hok1, hbits1⟩ :=
    compressTokens_spec hpos hlength turns (r := .start input) (BitWriter.ok_start [])
    (by rwa [BitReader.bits_start]) (by rw [BitReader.bits_start]; omega)
  obtain ⟨hok2, hbits2⟩ := writeCode_spec heob hok1
  obtain ⟨fill, -, hcoded⟩ := bits_flushBits hok2
  obtain ⟨table, htable⟩ := huffmanTable_comes heob
  have hall : bitsOf (flushBits (writeCode (huffmanCodes lengths) lengths w1 (2 ^ tokenBits))).out =
      (tokensOf tokenBits (bitsOf input)).flatMap (codeBits lengths) ++
        (codeBits lengths (2 ^ tokenBits) ++ fill) := by
    rw [hcoded, hbits2, hbits1, BitWriter.bits_start, BitReader.bits_start, bitsOf_nil,
      List.nil_append, List.append_assoc]
  have htokens := fun t ht =>
    (⟨(tokensOf_spec tokenBits (bitsOf input)).1 t ht, hcovers t ht⟩ : t < 2 ^ tokenBits ∧ _)
  obtain ⟨r2, v, hr2, -, hokv, hbitsv⟩ :=
    readSymbols_spec htable hwhole heob (tokensOf tokenBits (bitsOf input)) htokens
    (r := .start _) hall (BitWriter.ok_start []) (by omega : _ < turns)
  rw [BitWriter.bits_start, bitsOf_nil, List.nil_append] at hbitsv
  obtain ⟨hback, hshort⟩ := tokensOf_flushBits hpos hokv hbitsv
  refine ⟨(flushBits (writeCode (huffmanCodes lengths) lengths w1 (2 ^ tokenBits))).out, _, ?_, ?_,
    hback, hshort⟩
  · rw [huffmanCompressStatic]
    simp only [Nat.one_shiftLeft, elem_getD 0 (by omega : 2 ^ tokenBits < lengths.length), ok_bind,
      if_pos heob, hw1, if_true]
  · rw [huffmanDecompressStatic]
    simp only [htable, value, ok_bind, hr2]

/-- Given enough turns there is a book, with a code for each token that is not less often than never. -/
theorem huffmanBook_spec (freqs : List (BitVec 64)) (hlength : freqs.length = 2 ^ tokenBits) {turns : ℕ}
    (hturns : 2 ^ tokenBits + 1 + huffmanLimit (2 ^ tokenBits + 1) < turns) :
    ∃ lengths, huffmanBook turns tokenBits freqs = .ok ⟨tokenBits, lengths⟩ ∧
      lengths.length = 2 ^ tokenBits + 1 ∧
      0 < lengths.getD (2 ^ tokenBits) 0 ∧ Whole lengths ∧
      ∀ t < 2 ^ tokenBits, 0 < lengths.getD t 0 ↔ 0 < (freqs.getD t 0 + 1).toInt := by
  have hfreqs : (freqs.map (· + 1) ++ [1]).length = 2 ^ tokenBits + 1 := by
    rw [List.length_append, List.length_map, hlength, List.length_singleton]
  have htoken : ∀ t < 2 ^ tokenBits, freq (freqs.map (· + 1) ++ [1]) t = freqs.getD t 0 + 1 := by
    intro t ht
    rw [freq, List.getD_append _ _ _ _ (by rwa [List.length_map, hlength]),
      List.getD_eq_getElem _ _ (by rwa [List.length_map, hlength]), List.getElem_map,
      List.getD_eq_getElem _ _ (by rwa [hlength])]
  have heob : freq (freqs.map (· + 1) ++ [1]) (2 ^ tokenBits) = 1 := by
    rw [freq, List.getD_append_right _ _ _ _ (by rw [List.length_map, hlength]), List.length_map,
      hlength, Nat.sub_self, List.getD_cons_zero]
  have hused : 2 ^ tokenBits ∈ used (freqs.map (· + 1) ++ [1]) := by
    rw [mem_used, hfreqs, heob]
    exact ⟨Nat.lt_succ_self _, by decide⟩
  obtain ⟨lengths, hlengths, hcoding⟩ := huffmanLengths_coding (freqs.map (· + 1) ++ [1]) turns
    (List.ne_nil_of_mem hused) (by rw [hfreqs]; exact le_two_pow_huffmanLimit _)
    ((by decide : 1 ≤ 15).trans (le_huffmanLimit (2 ^ tokenBits + 1))) (by rwa [hfreqs])
  refine ⟨lengths, ?_, hcoding.length.trans hfreqs, (hcoding.used _).mpr hused, hcoding.whole, ?_⟩
  · rw [huffmanBook, hlength, hlengths, ok_bind]
  · intro t ht
    rw [hcoding.used, mem_used, hfreqs, htoken t ht]
    exact and_iff_right (ht.trans (Nat.lt_succ_self _))

end Static

/-- The tokens of a stream come back, of any width, if a block is of one token at least; and by a
    book of what streams have they do of every stream it covers. -/
theorem comes_back_iff (tokenBits : ℕ) (hwidth : 1 ≤ tokenBits ∧ tokenBits ≤ 24) :
    (∀ (block : ℕ) (input : Str), block < 2 ^ 63 → (RoundTrips tokenBits block input ↔ block ≠ 0)) ∧
    ∀ freqs : List (BitVec 64), freqs.length = 2 ^ tokenBits → ∃ enough, ∀ turns ≥ enough, ∃ lengths,
      huffmanBook turns tokenBits freqs = .ok ⟨tokenBits, lengths⟩ ∧
      (∀ t < 2 ^ tokenBits, 0 < lengths.getD t 0 ↔ 0 < (freqs.getD t 0 + 1).toInt) ∧
      ∀ input, Covers ⟨tokenBits, lengths⟩ input → RoundTripsStatic ⟨tokenBits, lengths⟩ input := by
  constructor
  · intro block input hsize
    constructor
    · rintro h rfl
      exact not_roundTrips_zero tokenBits input h
    · exact fun hne => roundTrips_of_pos hwidth (Nat.pos_of_ne_zero hne) hsize input
  · intro freqs hlength
    refine ⟨2 ^ tokenBits + 1 + huffmanLimit (2 ^ tokenBits + 1) + 1, ?_⟩
    intro turns hturns
    obtain ⟨lengths, hbook, hlen, heob, hwhole, hcodes⟩ :=
      huffmanBook_spec freqs hlength (by omega : _ < turns)
    exact ⟨lengths, hbook, hcodes, fun input => roundTripsStatic_of_covers hwidth.1 hlen heob hwhole⟩

/-- Three bytes in tokens of three bits, two to a block, and two in tokens of one bit by a book that
    has seen only zeros. -/
theorem roundTrips_three_bits : RoundTrips 3 2 [1, 2, 3] ∧
    ∃ turns book, huffmanBook turns 1 [3, 0] = .ok book ∧ RoundTripsStatic book [1, 2] := by
  refine ⟨((comes_back_iff 3 (by decide)).1 2 [1, 2, 3] (by decide)).mpr (by decide), ?_⟩
  obtain ⟨enough, h⟩ := (comes_back_iff 1 (by decide)).2 [3, 0] rfl
  obtain ⟨lengths, hbook, hcodes, hback⟩ := h enough le_rfl
  refine ⟨enough, _, hbook, hback _ ?_⟩
  intro t ht
  have hlt : t < 2 ^ 1 := (tokensOf_spec 1 _).1 t ht
  refine (hcodes t hlt).mpr ?_
  rcases (by omega : t = 0 ∨ t = 1) with rfl | rfl <;> decide

/-- Blocks of no tokens, of a byte. -/
theorem not_roundTrips_empty_block : ¬RoundTrips 8 0 [65] := not_roundTrips_zero 8 [65]

end ChrysaLisp.HuffmanStream
