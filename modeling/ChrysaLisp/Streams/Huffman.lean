import ChrysaLisp.Streams.Bits

set_option autoImplicit false

/-! # Huffman codes

`(huffman-codes)`, `(huffman-table)` and `(huffman-symbol)` of `lib/streams/huffman.inc` and
`lib/streams/lisp.vp`: a code is said by the length of each symbol's code, and the codes of a length
come one after the other in the order of their symbols, after the shorter ones. A code is written
from its high bit, so `huffmanCodes` gives each the other way round.

What a table reads from a list of bits is `decode`, and `huffmanSymbol` reads that of a stream
(`huffmanSymbol_of_decode`), whatever comes after. -/

namespace ChrysaLisp

/-- `(reduce (const max) lengths 0)`. -/
def mostLength (lengths : List ℕ) : ℕ := lengths.foldl max 0

/-- How many codes there are of each length, none of length 0. -/
def lengthCounts (lengths : List ℕ) : List ℕ :=
  (lengths.foldl (fun counts len => counts.modify len (· + 1))
    (List.replicate (mostLength lengths + 1) 0)).set 0 0

/-! ## Codes to be written -/

/-- The first code of each length: `(range 1 (inc most))`, `len` the length next. -/
def firstCodes : List ℕ → (len code : ℕ) → ℕ → List ℕ → List ℕ
  | _, _, _, 0, next => next
  | counts, len, code, k + 1, next =>
    let code := (code + counts.getD (len - 1) 0) <<< 1
    firstCodes counts (len + 1) code k (next.set len code)

/-- `len` bits of a code, the other way round. -/
def reverseCode : (len c r : ℕ) → ℕ
  | 0, _, r => r
  | len + 1, c, r => reverseCode len (c >>> 1) (r <<< 1 ||| c &&& 1)

/-- Each symbol's code, the next of its length. -/
def takeCodes : List ℕ → List ℕ → List ℕ
  | [], _ => []
  | len :: lengths, next =>
    if len = 0 then 0 :: takeCodes lengths next
    else reverseCode len (next.getD len 0) 0 :: takeCodes lengths (next.modify len (· + 1))

/-- `(huffman-codes lengths)`. -/
def huffmanCodes (lengths : List ℕ) : List ℕ :=
  takeCodes lengths
    (firstCodes (lengthCounts lengths) 1 0 (mostLength lengths)
      (List.replicate (mostLength lengths + 1) 0))

/-! ## Codes to be read -/

/-- `(counts symbols)`, as `(huffman-table)` makes it. -/
structure HuffmanTable where
  counts : List ℕ
  syms : List ℕ
  deriving DecidableEq

/-- Where the symbols of each length begin: `(range 1 most)`, `len` the length next. -/
def firstOffsets : List ℕ → (len : ℕ) → ℕ → List ℕ → List ℕ
  | _, _, 0, offsets => offsets
  | counts, len, k + 1, offsets =>
    firstOffsets counts (len + 1) k
      (offsets.set (len + 1) (offsets.getD len 0 + counts.getD len 0))

/-- Each symbol, `sym` the next, put where those of its length are. -/
def putSymbols : List ℕ → (sym : ℕ) → (offsets syms : List ℕ) → List ℕ
  | [], _, _, syms => syms
  | len :: lengths, sym, offsets, syms =>
    if 0 < len then
      putSymbols lengths (sym + 1) (offsets.modify len (· + 1)) (syms.set (offsets.getD len 0) sym)
    else putSymbols lengths (sym + 1) offsets syms

/-- `(huffman-table lengths)`. `none` is an error thrown: with no length but 0, `(range 1 most)` runs
down, and there is no element 1 of the offsets. -/
def huffmanTable (lengths : List ℕ) : Option HuffmanTable :=
  let counts := lengthCounts lengths
  if mostLength lengths = 0 then none
  else some ⟨counts, putSymbols lengths 0
    (firstOffsets counts 1 (mostLength lengths - 1) (List.replicate (mostLength lengths + 1) 0))
    (List.replicate lengths.length 0)⟩

/-- The loop of `inflate-symbol`, over the counts of the lengths still to come. The code read so far
is never under the first of its length, so what it is past it is no negative number. -/
def symbolFrom (syms : List ℕ) :
    List ℕ → (code first index : ℕ) → BitReader → Option ℕ × BitReader
  | [], _, _, _, r => (none, r)
  | count :: counts, code, first, index, r =>
    match readBits 1 r with
    | (none, r) => (none, r)
    | (some bit, r) =>
      if code + bit - first < count then (syms[index + (code + bit - first)]?, r)
      else symbolFrom syms counts ((code + bit) <<< 1) ((first + count) <<< 1) (index + count) r

/-- `(huffman-symbol in bits table)`. `none` is the -1 of the end of the stream, or of bits that are
no code. -/
def huffmanSymbol (table : HuffmanTable) (r : BitReader) : Option ℕ × BitReader :=
  symbolFrom table.syms (table.counts.drop 1) 0 0 0 r

/-! ## What a table reads from bits -/

/-- The loop of `inflate-symbol`, of a list of bits: the symbol and the bits after it. -/
def decodeFrom (syms : List ℕ) :
    List ℕ → (code first index : ℕ) → List Bool → Option (ℕ × List Bool)
  | [], _, _, _, _ => none
  | _ :: _, _, _, _, [] => none
  | count :: counts, code, first, index, b :: bs =>
    if code + b.toNat - first < count then
      (syms[index + (code + b.toNat - first)]?).map (fun sym => (sym, bs))
    else decodeFrom syms counts ((code + b.toNat) <<< 1) ((first + count) <<< 1) (index + count) bs

/-- The first symbol of some bits and what is left of them. -/
def decode (table : HuffmanTable) (bs : List Bool) : Option (ℕ × List Bool) :=
  decodeFrom table.syms (table.counts.drop 1) 0 0 0 bs

/-- What comes after the bits of a symbol does not change it. -/
theorem decodeFrom_append {syms counts : List ℕ} {code first index sym : ℕ} {bs rest : List Bool}
    (more : List Bool) (h : decodeFrom syms counts code first index bs = some (sym, rest)) :
    decodeFrom syms counts code first index (bs ++ more) = some (sym, rest ++ more) := by
  induction counts generalizing code first index bs with
  | nil => simp [decodeFrom] at h
  | cons count counts ih =>
    cases bs with
    | nil => simp [decodeFrom] at h
    | cons b bs =>
      rw [List.cons_append]
      simp only [decodeFrom] at h ⊢
      by_cases hin : code + b.toNat - first < count
      · rw [if_pos hin] at h ⊢
        obtain ⟨found, hfound, hpair⟩ := Option.map_eq_some_iff.mp h
        obtain ⟨rfl, rfl⟩ := Prod.mk.inj hpair
        rw [hfound]
        rfl
      · rw [if_neg hin] at h ⊢
        exact ih h

theorem decode_append {table : HuffmanTable} {sym : ℕ} {bs : List Bool}
    (h : decode table bs = some (sym, [])) (more : List Bool) :
    decode table (bs ++ more) = some (sym, more) := decodeFrom_append more h

theorem symbolFrom_of_decodeFrom {syms counts : List ℕ} {code first index sym : ℕ} {r : BitReader}
    {rest : List Bool} (h : decodeFrom syms counts code first index r.bits = some (sym, rest)) :
    ∃ r', symbolFrom syms counts code first index r = (some sym, r') ∧ r'.bits = rest := by
  induction counts generalizing code first index r with
  | nil => simp [decodeFrom] at h
  | cons count counts ih =>
    cases hbits : r.bits with
    | nil => simp [decodeFrom, hbits] at h
    | cons b bs =>
      obtain ⟨r', hr', hrest⟩ := @readBits_append 1 r [b] bs hbits rfl
      have hbit : Bits.toNat [b] = b.toNat := by simp [Bits.toNat_cons]
      rw [hbit] at hr'
      rw [hbits] at h
      simp only [decodeFrom] at h
      simp only [symbolFrom, hr']
      by_cases hin : code + b.toNat - first < count
      · rw [if_pos hin] at h ⊢
        obtain ⟨found, hfound, hpair⟩ := Option.map_eq_some_iff.mp h
        obtain ⟨rfl, rfl⟩ := Prod.mk.inj hpair
        exact ⟨r', by rw [hfound], hrest⟩
      · rw [if_neg hin] at h ⊢
        exact ih (by rw [hrest]; exact h)

/-- What is read of a stream is what its bits say. -/
theorem huffmanSymbol_of_decode {table : HuffmanTable} {sym : ℕ} {r : BitReader} {rest : List Bool}
    (h : decode table r.bits = some (sym, rest)) :
    ∃ r', huffmanSymbol table r = (some sym, r') ∧ r'.bits = rest :=
  symbolFrom_of_decodeFrom h

end ChrysaLisp
