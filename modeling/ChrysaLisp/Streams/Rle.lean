import ChrysaLisp.Streams.BitPool

set_option autoImplicit false

/-! # Run lengths

`lib/streams/rle.inc`: tokens of `token_bits` bits are packed as runs of one token and stretches of
tokens as they are, each after a number of `run_bits` bits, with its top bit set before a run. -/

namespace ChrysaLisp.Rle

open BitPool

def signBitMask (runBits : ℕ) : BitVec 64 := (1 : BitVec 64) <<< (runBits - 1)

def lengthMask (runBits : ℕ) : BitVec 64 := signBitMask runBits - 1

/-- The most of a run, and of a stretch. -/
def maxRunLength (runBits : ℕ) : ℕ := (lengthMask runBits + 1).toNat

/-- `(fill-bits stream bits data num_bits cnt)`. -/
def fillBits (data : BitVec 64) (numBits : ℕ) : ℕ → Writer → Writer
  | 0, w => w
  | cnt + 1, w => fillBits data numBits cnt (BitPool.writeBits data numBits w)

/-- `(copy-bits wstream rstream bits bits num_bits cnt)`. -/
def copyBits (numBits : ℕ) : ℕ → Reader → Writer → Reader × Writer
  | 0, rd, w => (rd, w)
  | cnt + 1, rd, w => copyBits numBits cnt (BitPool.readBits numBits rd).2
    (BitPool.writeBits (BitPool.readBits numBits rd).1 numBits w)

variable (tokenBits runBits : ℕ)

def flushLiterals (w : Writer) (literals : List (BitVec 64)) : Writer :=
  if literals = [] then w
  else
    let w := BitPool.writeBits (BitVec.ofNat 64 (literals.length - 1)) runBits w
    writeAll w (literals.map fun token => (token, tokenBits))

/-- The loop that finds how long the run of a token is, with `left` more at the most: how long, the
    token after it, and the stream after that. -/
def peek (token : BitVec 64) : (left runLength : ℕ) → BitVec 64 → Reader → ℕ × BitVec 64 × Reader
  | 0, runLength, nextToken, rd => (runLength, nextToken, rd)
  | left + 1, runLength, nextToken, rd =>
      if nextToken = token then
        peek token left (runLength + 1) (BitPool.readBits tokenBits rd).1 (BitPool.readBits tokenBits rd).2
      else (runLength, nextToken, rd)

/-- The loop of `rle-compress`, for at most so many turns. -/
def compressLoop : ℕ → Reader → Writer → List (BitVec 64) → BitVec 64 → Option Writer
  | 0, _, _, _, _ => none
  | turns + 1, rd, w, literals, token =>
      if token = -1 then some (flushLiterals tokenBits runBits w literals)
      else
        let next := BitPool.readBits tokenBits rd
        let ahead := peek tokenBits token (maxRunLength runBits - 1) 1 next.1 next.2
        if 2 ≤ ahead.1 then
          let w := flushLiterals tokenBits runBits w literals
          let w := BitPool.writeBits (BitVec.ofNat 64 (ahead.1 - 1) ||| signBitMask runBits) runBits w
          compressLoop turns ahead.2.2 (BitPool.writeBits token tokenBits w) [] ahead.2.1
        else
          let literals := literals ++ [token]
          if literals.length = maxRunLength runBits then
            compressLoop turns ahead.2.2 (flushLiterals tokenBits runBits w literals) [] ahead.2.1
          else compressLoop turns ahead.2.2 w literals ahead.2.1

/-- `(rle-compress in_stream out_stream token_bits run_bits)`. A turn of it takes a token at the
    least, so there are no more turns than bits. -/
def rleCompress (input : Str) : Option Str :=
  let token := BitPool.readBits tokenBits (.start input)
  (compressLoop tokenBits runBits (8 * input.length + 1) token.2 (.start []) [] token.1).map
    fun w => (BitPool.flushBits w).out

/-- The loop of `rle-decompress`, for at most so many turns. -/
def decompressLoop : ℕ → ℤ → Reader → Writer → Option Writer
  | 0, _, _, _ => none
  | turns + 1, maxTokens, rd, w =>
      if maxTokens ≤ 0 then some w
      else
        let len := BitPool.readBits runBits rd
        if len.1 = -1 then some w
        else if len.1 &&& signBitMask runBits ≠ 0 then
          let token := BitPool.readBits tokenBits len.2
          let cnt := len.1 &&& lengthMask runBits
          decompressLoop turns (maxTokens - cnt.toInt - 1) token.2
            (fillBits token.1 tokenBits (cnt + 1).toNat w)
        else
          let copied := copyBits tokenBits (len.1 + 1).toNat len.2 w
          decompressLoop turns (maxTokens - len.1.toInt - 1) copied.1 copied.2

/-- `(rle-decompress in_stream out_stream token_bits run_bits max_tokens)`. -/
def rleDecompress (maxTokens : ℤ) (input : Str) : Option Str :=
  (decompressLoop tokenBits runBits (8 * input.length + 1) maxTokens (.start input) (.start [])).map
    fun w => (BitPool.flushBits w).out

/-- Tokens read until the stream ends, at most so many. -/
def readTokens : ℕ → Reader → List (BitVec 64)
  | 0, _ => []
  | turns + 1, rd =>
      let token := BitPool.readBits tokenBits rd
      if token.1 = -1 then [] else token.1 :: readTokens turns token.2

/-- The tokens of a stream. -/
def tokens (input : Str) : List (BitVec 64) := readTokens tokenBits (8 * input.length) (.start input)

/-- What is compressed and decompressed has the tokens of the input. -/
def RoundTrips (maxTokens : ℤ) (input : Str) : Prop :=
  ∃ packed unpacked, rleCompress tokenBits runBits input = some packed ∧
    rleDecompress tokenBits runBits maxTokens packed = some unpacked ∧
    tokens tokenBits unpacked = tokens tokenBits input

end ChrysaLisp.Rle
