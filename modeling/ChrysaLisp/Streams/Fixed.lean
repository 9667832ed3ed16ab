import ChrysaLisp.Streams.HuffmanCodes

set_option autoImplicit false

/-! # The fixed codes of DEFLATE

The tables of `lib/streams/deflate.inc`: the bases and extra bits of the length and distance codes,
and the fixed codes, those to be written (`deflateFixed`) and those to be read (`inflateFixed`).
What is written with the ones is read with the others (`decode_lit`, `decode_dist`), and the last
base a number is not under leaves a rest its extra bits have room for (`lastBase_len`,
`lastBase_dist`). -/

namespace ChrysaLisp

/-- `+inflate_len_base`. -/
def lenBase : List ℕ :=
  [3, 4, 5, 6, 7, 8, 9, 10, 11, 13, 15, 17, 19, 23, 27, 31, 35, 43, 51, 59, 67, 83, 99, 115, 131,
    163, 195, 227, 258]

/-- `+inflate_len_extra`. -/
def lenExtra : List ℕ :=
  [0, 0, 0, 0, 0, 0, 0, 0, 1, 1, 1, 1, 2, 2, 2, 2, 3, 3, 3, 3, 4, 4, 4, 4, 5, 5, 5, 5, 0]

/-- `+inflate_dist_base`. -/
def distBase : List ℕ :=
  [1, 2, 3, 4, 5, 7, 9, 13, 17, 25, 33, 49, 65, 97, 129, 193, 257, 385, 513, 769, 1025, 1537, 2049,
    3073, 4097, 6145, 8193, 12289, 16385, 24577]

/-- `+inflate_dist_extra`. -/
def distExtra : List ℕ :=
  [0, 0, 0, 0, 1, 1, 2, 2, 3, 3, 4, 4, 5, 5, 6, 6, 7, 7, 8, 8, 9, 9, 10, 10, 11, 11, 12, 12, 13, 13]

/-- `+deflate_fixed_lengths`. -/
def fixedLengths : List ℕ :=
  List.replicate 144 8 ++ List.replicate 112 9 ++ List.replicate 24 7 ++ List.replicate 8 8

/-- `(fill (nums) 30 5)`. -/
def fixedDistLengths : List ℕ := List.replicate 30 5

/-- The eight of `*deflate_fixed*`. -/
structure DeflateTables where
  lcodes : List ℕ
  llens : List ℕ
  dcodes : List ℕ
  dlens : List ℕ
  lbase : List ℕ
  lextra : List ℕ
  dbase : List ℕ
  dextra : List ℕ

/-- `*deflate_fixed*`. -/
def deflateFixed : DeflateTables :=
  ⟨huffmanCodes fixedLengths, fixedLengths, huffmanCodes fixedDistLengths, fixedDistLengths,
    lenBase, lenExtra, distBase, distExtra⟩

/-- `(inflate-fixed)`. -/
def inflateFixed : Option (HuffmanTable × HuffmanTable) :=
  match huffmanTable fixedLengths, huffmanTable fixedDistLengths with
  | some lit, some dist => some (lit, dist)
  | _, _ => none

/-- The last of the bases that `n` is not under, looked for from `s` down. -/
def lastBase (bases : List ℕ) (n : ℕ) : (s : ℕ) → ℕ
  | 0 => 0
  | s + 1 => if n < bases.getD (s + 1) 0 then lastBase bases n s else s + 1

/-! ## The codes -/

/-- The bits a literal or length is written as, `sym` its symbol. -/
def litBits (sym : ℕ) : List Bool :=
  Bits.ofNat (deflateFixed.llens.getD sym 0) (deflateFixed.lcodes.getD sym 0)

/-- The bits a distance is written as, but for its extra bits. -/
def distBits (sym : ℕ) : List Bool :=
  Bits.ofNat (deflateFixed.dlens.getD sym 0) (deflateFixed.dcodes.getD sym 0)

/-- The literals and lengths of `(inflate-fixed)`. -/
def fixedLit : HuffmanTable :=
  ⟨[0, 0, 0, 0, 0, 0, 0, 24, 152, 112],
    List.range' 256 24 ++ List.range' 0 144 ++ List.range' 280 8 ++ List.range' 144 112⟩

/-- The distances of `(inflate-fixed)`. -/
def fixedDist : HuffmanTable := ⟨[0, 0, 0, 0, 0, 30], List.range 30⟩

theorem huffmanTable_fixedLengths : huffmanTable fixedLengths = some fixedLit := by decide +kernel

theorem huffmanTable_fixedDistLengths : huffmanTable fixedDistLengths = some fixedDist := by decide +kernel

theorem inflateFixed_eq : inflateFixed = some (fixedLit, fixedDist) := by
  have hlit := huffmanTable_fixedLengths
  have hdist := huffmanTable_fixedDistLengths
  unfold inflateFixed
  -- not to be evaluated once more
  generalize huffmanTable fixedLengths = lit at hlit ⊢
  generalize huffmanTable fixedDistLengths = dist at hdist ⊢
  rw [hlit, hdist]

/-- The codes of the literals and lengths, said one by one: 8 bits from 0x30, 9 from 0x190, 7 from 0
and 8 from 0xc0, the other way round. -/
def fixedCode (sym : ℕ) : ℕ :=
  if sym < 144 then reverseCode 8 (0x30 + sym) 0
  else if sym < 256 then reverseCode 9 (0x190 + (sym - 144)) 0
  else if sym < 280 then reverseCode 7 (sym - 256) 0
  else reverseCode 8 (0xc0 + (sym - 280)) 0

theorem lcodes_eq : deflateFixed.lcodes = (List.range 288).map fixedCode := by decide +kernel

theorem dcodes_eq :
    deflateFixed.dcodes = (List.range 30).map (fun sym => reverseCode 5 sym 0) := by
  decide +kernel

theorem whole_fixedLengths : HuffmanCodes.Whole fixedLengths := by
  refine HuffmanCodes.whole_of_sum ?_
  simp only [fixedLengths, List.map_append, List.map_replicate, List.sum_append, List.sum_replicate]
  norm_num

theorem whole_fixedDistLengths : HuffmanCodes.Whole fixedDistLengths := by
  refine HuffmanCodes.whole_of_sum ?_
  simp only [fixedDistLengths, List.map_replicate, List.sum_replicate]
  norm_num

theorem fixedLengths_pos {sym : ℕ} (h : sym < 288) : 0 < fixedLengths.getD sym 0 := by
  have hlength : fixedLengths.length = 288 := by
    simp only [fixedLengths, List.length_append, List.length_replicate]
  have hall : ∀ len ∈ fixedLengths, 0 < len := by
    intro len hlen
    simp only [fixedLengths, List.mem_append, List.mem_replicate] at hlen
    omega
  rw [List.getD_eq_getElem _ _ (by rwa [hlength])]
  exact hall _ (List.getElem_mem _)

theorem fixedDistLengths_pos {sym : ℕ} (h : sym < 30) : 0 < fixedDistLengths.getD sym 0 := by
  rw [fixedDistLengths, List.getD_replicate _ h]
  decide

/-- A code has the bits it is written with. -/
theorem lcodes_lt {sym : ℕ} (h : sym < 288) :
    deflateFixed.lcodes.getD sym 0 < 2 ^ deflateFixed.llens.getD sym 0 :=
  HuffmanCodes.huffmanCodes_lt (fixedLengths_pos h)

theorem dcodes_lt {sym : ℕ} (h : sym < 30) :
    deflateFixed.dcodes.getD sym 0 < 2 ^ deflateFixed.dlens.getD sym 0 :=
  HuffmanCodes.huffmanCodes_lt (fixedDistLengths_pos h)

/-- What a literal or length is written as is read as it. -/
theorem decode_lit {sym : ℕ} (h : sym < 288) (more : List Bool) :
    decode fixedLit (litBits sym ++ more) = some (sym, more) := by
  have hbits : litBits sym = HuffmanCodes.codeBits fixedLengths sym :=
    HuffmanCodes.ofNat_huffmanCodes (fixedLengths_pos h)
  rw [hbits]
  exact HuffmanCodes.decode_codeBits huffmanTable_fixedLengths whole_fixedLengths (fixedLengths_pos h) more

theorem decode_dist {sym : ℕ} (h : sym < 30) (more : List Bool) :
    decode fixedDist (distBits sym ++ more) = some (sym, more) := by
  have hbits : distBits sym = HuffmanCodes.codeBits fixedDistLengths sym :=
    HuffmanCodes.ofNat_huffmanCodes (fixedDistLengths_pos h)
  rw [hbits]
  exact HuffmanCodes.decode_codeBits huffmanTable_fixedDistLengths whole_fixedDistLengths
    (fixedDistLengths_pos h) more

/-! ## The bases -/

/-- The base found is not over the number, and the next one, if there is one, is. -/
theorem lastBase_spec {bases : List ℕ} {n : ℕ} (h0 : bases.getD 0 0 ≤ n) (top : ℕ) :
    lastBase bases n top ≤ top ∧ bases.getD (lastBase bases n top) 0 ≤ n ∧
      (lastBase bases n top = top ∨ n < bases.getD (lastBase bases n top + 1) 0) := by
  induction top with
  | zero => exact ⟨le_rfl, h0, Or.inl rfl⟩
  | succ top ih =>
    rw [lastBase]
    by_cases hover : n < bases.getD (top + 1) 0
    · rw [if_pos hover]
      obtain ⟨hle, hbase, hnext⟩ := ih
      refine ⟨by omega, hbase, Or.inr ?_⟩
      rcases hnext with htop | hnext
      · rwa [htop]
      · exact hnext
    · rw [if_neg hover]
      exact ⟨le_rfl, Nat.le_of_not_lt hover, Or.inl rfl⟩

/-- Where each base reaches the next with its extra bits, what a number is over its base has room in
the bits of it. -/
theorem lastBase_rest {bases extra : List ℕ} {n top : ℕ} (h0 : bases.getD 0 0 ≤ n)
    (hreach : ∀ s < top, bases.getD (s + 1) 0 ≤ bases.getD s 0 + 2 ^ extra.getD s 0)
    (htop : n < bases.getD top 0 + 2 ^ extra.getD top 0) :
    n - bases.getD (lastBase bases n top) 0 < 2 ^ extra.getD (lastBase bases n top) 0 := by
  obtain ⟨hle, hbase, hnext⟩ := lastBase_spec h0 top
  rcases hnext with hlast | hnext
  · rw [hlast] at hbase ⊢
    omega
  · by_cases hlast : lastBase bases n top = top
    · rw [hlast] at hbase ⊢
      omega
    · have hr := hreach (lastBase bases n top) (by omega)
      omega

/-- The bases of the lengths, 3 to 258. -/
theorem lastBase_len {len : ℕ} (h3 : 3 ≤ len) (h258 : len ≤ 258) :
    lastBase lenBase len 28 ≤ 28 ∧ lenBase.getD (lastBase lenBase len 28) 0 ≤ len ∧
      len - lenBase.getD (lastBase lenBase len 28) 0
        < 2 ^ lenExtra.getD (lastBase lenBase len 28) 0 := by
  obtain ⟨hle, hbase, -⟩ := @lastBase_spec lenBase len h3 28
  have htop : lenBase.getD 28 0 + 2 ^ lenExtra.getD 28 0 = 259 := by decide
  exact ⟨hle, hbase, lastBase_rest h3 (by decide) (by omega)⟩

/-- The bases of the distances, 1 to 32768. -/
theorem lastBase_dist {dist : ℕ} (h1 : 1 ≤ dist) (hwindow : dist ≤ 32768) :
    lastBase distBase dist 29 ≤ 29 ∧ distBase.getD (lastBase distBase dist 29) 0 ≤ dist ∧
      dist - distBase.getD (lastBase distBase dist 29) 0
        < 2 ^ distExtra.getD (lastBase distBase dist 29) 0 := by
  obtain ⟨hle, hbase, -⟩ := @lastBase_spec distBase dist h1 29
  have htop : distBase.getD 29 0 + 2 ^ distExtra.getD 29 0 = 32769 := by decide
  exact ⟨hle, hbase, lastBase_rest h1 (by decide) (by omega)⟩

/-! ## What the bits of a block say

`Coded data a bits b` is that the bits, in the fixed codes, say the data from `a` to `b`, with all
before `a` to copy from: a byte, or a length and a distance back to where those bytes were before. It
knows of no ring. What is written is shown to be such bits, and such bits to be read as the data. -/

/-- A length: its code, and its extra bits. -/
def lenBits (len : ℕ) : List Bool :=
  litBits (lastBase lenBase len 28 + 257) ++
    Bits.ofNat (lenExtra.getD (lastBase lenBase len 28) 0)
      (len - lenBase.getD (lastBase lenBase len 28) 0)

/-- A distance: its code, and its extra bits. -/
def backBits (dist : ℕ) : List Bool :=
  distBits (lastBase distBase dist 29) ++
    Bits.ofNat (distExtra.getD (lastBase distBase dist 29) 0)
      (dist - distBase.getD (lastBase distBase dist 29) 0)

/-- The `len` bytes at `a` are those `dist` back, of a length and a distance that have a code. -/
structure Repeats (data : Str) (a len dist : ℕ) : Prop where
  len_le : 3 ≤ len ∧ len ≤ 258
  dist_le : 1 ≤ dist ∧ dist ≤ 32768
  start : dist ≤ a
  fits : a + len ≤ data.length
  same : ∀ k < len, data[a - dist + k]? = data[a + k]?

/-- The bits say the data from `a` to `b`. -/
inductive Coded (data : Str) : ℕ → List Bool → ℕ → Prop
  | done (a : ℕ) : Coded data a [] a
  | byte {a b : ℕ} {bits : List Bool} {x : Byte} (here : data[a]? = some x)
      (rest : Coded data (a + 1) bits b) : Coded data a (litBits x.val ++ bits) b
  | copy {a b len dist : ℕ} {bits : List Bool} (same : Repeats data a len dist)
      (rest : Coded data (a + len) bits b) : Coded data a (lenBits len ++ backBits dist ++ bits) b

/-- The bits of blocks that say the data from `a` to its end: 3 bits that say if a block is the last
and that it is of the fixed codes, what it says, and the symbol of its end. -/
inductive CodedBlocks (data : Str) : ℕ → List Bool → Prop
  | last {a : ℕ} {bits : List Bool} (block : Coded data a bits data.length) :
      CodedBlocks data a (Bits.ofNat 3 3 ++ bits ++ litBits 256)
  | more {a b : ℕ} {bits rest : List Bool} (block : Coded data a bits b)
      (blocks : CodedBlocks data b rest) :
      CodedBlocks data a (Bits.ofNat 3 2 ++ bits ++ litBits 256 ++ rest)

end ChrysaLisp
