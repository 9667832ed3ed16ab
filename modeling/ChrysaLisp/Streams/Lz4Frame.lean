import ChrysaLisp.Streams.Lz4Coded

set_option autoImplicit false

/-! # A frame of LZ4, there and back

What `(lz4-compress)` writes of a stream is blocks that each say the bytes read for it
(`lz4Encode_spec`), or are those bytes, and `(lz4-decompress)` reads each as them and writes them out
of its ring (`lz4Frame_spec`). The encoder keeps the place it is at in 32 bits, so this is of streams
of no more than that. -/

namespace ChrysaLisp

open FlatArray

/-! ## Numbers of four bytes -/

theorem readInt_intBytes {n : ℕ} (h : n < 4294967296) (rest : Str) :
    readInt (intBytes n ++ rest) = some (n, rest) := by
  have hbyte : ∀ m : ℕ, (Fin.ofNat 256 m : Byte).val = m % 256 := fun m => rfl
  show some (_, rest) = some (n, rest)
  simp only [hbyte, Nat.shiftRight_eq_div_pow, Nat.shiftLeft_eq]
  congr 2
  omega

theorem length_intBytes (n : ℕ) : (intBytes n).length = 4 := rfl

/-- The size of a block that is as it is has its highest bit set. -/
theorem size_raw {n : ℕ} (h : n < 2147483648) :
    0x80000000 ||| n = 2147483648 + n ∧ (2147483648 + n) &&& 0x7fffffff = n ∧
      (2147483648 + n).testBit 31 = true := by
  have hor : 0x80000000 ||| n = 2147483648 + n := by
    rw [show (0x80000000 : ℕ) = 1 <<< 31 from rfl, ← Nat.shiftLeft_add_eq_or_of_lt h]
  refine ⟨hor, ?_, ?_⟩
  · rw [show (0x7fffffff : ℕ) = 2 ^ 31 - 1 from rfl, Nat.and_two_pow_sub_one_eq_mod]
    omega
  · rw [Nat.testBit_eq_decide_div_mod_eq, decide_eq_true_iff]
    omega

theorem size_packed {n : ℕ} (h : n < 2147483648) :
    n &&& 0x7fffffff = n ∧ n.testBit 31 = false := by
  refine ⟨?_, Nat.testBit_lt_two_pow h⟩
  rw [show (0x7fffffff : ℕ) = 2 ^ 31 - 1 from rfl, Nat.and_two_pow_sub_one_eq_mod]
  omega

/-! ## Blocks -/

section Frame

variable {data : Str} {w most : ℕ}

/-- Between blocks: the decoder has the data as far as it has come, and all of that is written. -/
structure Lz4Reading.Written (data : Str) (w : ℕ) (r : Lz4Reading) : Prop where
  shows' : r.d.Shows data w
  out : r.out = data.take r.d.pos

theorem Lz4Reading.Written.flush {r : Lz4Reading} (h : r.Written data w) {d : Lz4Decoder}
    (hd : d.Shows data w) (hw : 0 < w) (hle : r.d.pos ≤ d.pos) (hroom : d.pos ≤ r.d.pos + w) :
    (r.flush d).Written data w := by
  refine ⟨hd, ?_⟩
  show r.out ++ Ring.read d.ring ((d.pos - (d.pos - r.d.pos)) % d.ring.length) (d.pos - r.d.pos)
    = data.take d.pos
  rw [Nat.sub_sub_self hle, read_ring hd.ring hd.pos hle le_rfl hroom hw, h.out,
    take_append_slice data hle]

/-- A block that is as it is, read. -/
theorem Lz4Decoder.Shows.read {d : Lz4Decoder} (h : d.Shows data w) (hw : 0 < w) {chunk rest : Str}
    (hdata : ∃ more, data.drop d.pos = chunk ++ more) (hroom : chunk.length ≤ w) :
    (lz4Read chunk.length (chunk ++ rest) d).Shows data w := by
  obtain ⟨more, hdata⟩ := hdata
  have hpos := h.pos
  have hstop : d.pos + chunk.length ≤ data.length := by
    have hcut := congrArg List.length hdata
    rw [List.length_drop, List.length_append] at hcut
    omega
  refine ⟨?_, hstop⟩
  have hput := h.ring.write (m := chunk) hw hroom
  rw [h.length_take] at hput
  show Ring.Holds w (copyToRing d.ring d.pos ((chunk ++ rest).take chunk.length))
    (data.take (d.pos + chunk.length))
  rw [List.take_left, take_add_of_drop hdata, copyToRing, h.ring.length]
  exact hput

/-- A block that is packed, read. -/
theorem lz4Frame_packed {stop : ℕ} {comp : Str} {r : Lz4Reading} (hr : r.Written data w)
    (hcoded : Lz4Coded data stop r.d.pos comp) (hstop : stop ≤ data.length)
    (hroom : stop ≤ r.d.pos + w) (hw : 65535 ≤ w) (hcomp : comp.length ≤ most)
    (hsize : most < 2147483648) (turns : ℕ) (rest : Str) :
    ∃ r', lz4Frame most false (turns + 1) (intBytes comp.length ++ comp ++ rest) r
        = lz4Frame most false turns rest r' ∧ r'.Written data w ∧ r'.d.pos = stop := by
  obtain ⟨hlen, hbit⟩ := @size_packed comp.length (by omega)
  have hle : r.d.pos ≤ stop := by
    cases hcoded with
    | last ha => exact ha
    | more ha hm => omega
  have hsome : 0 < comp.length := by
    cases hcoded with
    | last => simp [lz4Seq]
    | more => simp [lz4Seq]
  obtain ⟨hshows, hat⟩ := lz4Decode_spec hcoded hw hstop comp.length r.d le_rfl hr.shows' rfl hroom
  refine ⟨r.flush (lz4Decode comp.length comp r.d), ?_,
    hr.flush hshows (by omega) (by omega) (by omega), hat⟩
  rw [List.append_assoc, lz4Frame, readInt_intBytes (by omega)]
  have hne : comp ++ rest ≠ [] := fun h => by
    rw [(List.append_eq_nil_iff.mp h).1] at hsome
    exact Nat.lt_irrefl 0 hsome
  simp only [if_neg (show ¬ comp.length = 0 by omega), hlen, hbit,
    if_neg (show ¬ most < comp.length by omega), if_neg hne, List.drop_left, List.drop_zero,
    List.take_left, Bool.false_eq_true, if_false]

/-- A block that is as it is, read. -/
theorem lz4Frame_raw {r : Lz4Reading} (hr : r.Written data w) {chunk more : Str}
    (hdata : data.drop r.d.pos = chunk ++ more) (hne : chunk ≠ []) (hmost : chunk.length ≤ most)
    (hw : most ≤ w) (hsize : most < 2147483648) (turns : ℕ) (rest : Str) :
    ∃ r', lz4Frame most false (turns + 1)
        (intBytes (0x80000000 ||| chunk.length) ++ chunk ++ rest) r
        = lz4Frame most false turns rest r' ∧
      r'.Written data w ∧ r'.d.pos = r.d.pos + chunk.length := by
  have hchunk : 0 < chunk.length := List.length_pos_iff.mpr hne
  obtain ⟨hor, hlen, hbit⟩ := @size_raw chunk.length (by omega)
  have hread := @Lz4Decoder.Shows.read _ _ _ hr.shows' (by omega) _ rest ⟨more, hdata⟩ (hmost.trans hw)
  have hat : (lz4Read chunk.length (chunk ++ rest) r.d).pos = r.d.pos + chunk.length := rfl
  refine ⟨r.flush (lz4Read chunk.length (chunk ++ rest) r.d), ?_,
    hr.flush hread (by omega) (by omega) (by omega), hat⟩
  rw [hor, List.append_assoc, lz4Frame, readInt_intBytes (by omega)]
  simp only [if_neg (show ¬ 2147483648 + chunk.length = 0 by omega), hlen, hbit,
    if_neg (show ¬ most < chunk.length by omega), if_true, List.drop_left, List.drop_zero,
    Bool.false_eq_true, if_false]

/-- A turn of the loop: one block of a frame, with whatever comes after it. -/
theorem lz4Frame_block {e : Lz4Encoder} {v : ℕ} (he : e.Between data v) {r : Lz4Reading}
    (hr : r.Written data w) (hpos : r.d.pos = e.pos) {chunk more : Str}
    (hdata : data.drop e.pos = chunk ++ more) (hne : chunk ≠ []) (hmost : chunk.length ≤ most)
    (hv : most + 65535 ≤ v) (hw : 65535 ≤ w ∧ most ≤ w) (hsize : most < 2147483648)
    (hbits : e.pos + chunk.length ≤ 4294967296) (turns : ℕ) (rest : Str) :
    ∃ r', lz4Frame most false (turns + 1) (lz4Block chunk (lz4Encode e chunk).1 ++ rest) r
        = lz4Frame most false turns rest r' ∧
      r'.Written data w ∧ r'.d.pos = e.pos + chunk.length := by
  have hstop : e.pos + chunk.length ≤ data.length := by
    have hcut := congrArg List.length hdata
    have := he.pos
    rw [List.length_drop, List.length_append] at hcut
    omega
  have hchunk : 0 < chunk.length := List.length_pos_iff.mpr hne
  obtain ⟨hcoded, -⟩ := lz4Encode_spec he hdata hne (by omega) (by omega) (by omega)
  generalize (lz4Encode e chunk).1 = comp at hcoded ⊢
  unfold lz4Block
  by_cases hraw : chunk.length ≤ comp.length
  · obtain ⟨r', hframe, hwritten, hat⟩ := lz4Frame_raw hr (by rw [hpos, hdata]) hne hmost hw.2 hsize
      turns rest
    rw [if_pos hraw]
    exact ⟨r', hframe, hwritten, by rw [hat, hpos]⟩
  · rw [if_neg hraw]
    obtain ⟨r', hframe, hwritten, hat⟩ := lz4Frame_packed hr (by rw [hpos]; exact hcoded) hstop
      (by omega) hw.1 (show comp.length ≤ most by omega) hsize turns rest
    exact ⟨r', hframe, hwritten, hat⟩

theorem lz4Loop_done {ring : Str} {endLimit limit : ℕ} {t : Lz4Turns} (h : endLimit ≤ t.i) (turns : ℕ) :
    lz4Loop ring endLimit limit turns t = t := by
  cases turns with
  | zero => rfl
  | succ turns => rw [lz4Loop, if_neg (by omega)]

/-- Of 12 bytes or less no turn is made, wherever they are: they do not pack. -/
theorem lz4Encode_short {e : Lz4Encoder} {v : ℕ} (he : e.Between data v) {chunk more : Str}
    (hdata : data.drop e.pos = chunk ++ more) (hshort : chunk.length ≤ 12) (hv : 12 ≤ v) :
    chunk.length ≤ (lz4Encode e chunk).1.length := by
  have hpos := he.pos
  have hlen : (data.take e.pos).length = e.pos := by rw [List.length_take, Nat.min_eq_left hpos]
  have hstop : e.pos + chunk.length ≤ data.length := by
    have hcut := congrArg List.length hdata
    rw [List.length_drop, List.length_append] at hcut
    omega
  have hring : Ring.Holds v (copyToRing e.ring e.pos chunk) (data.take (e.pos + chunk.length)) := by
    have hput := he.ring.write (m := chunk) (by omega) (by omega)
    rw [hlen] at hput
    rw [take_add_of_drop hdata, copyToRing, he.ring.length]
    exact hput
  have hend : (if 12 ≤ chunk.length then uint (e.pos + chunk.length - 12) else uint e.pos)
      = uint e.pos := by
    by_cases h : 12 ≤ chunk.length
    · rw [if_pos h]
      congr 1
      omega
    · rw [if_neg h]
  have hall : uint ((e.pos : ℤ) + chunk.length - e.pos) = e.pos + chunk.length - e.pos := by
    unfold uint
    omega
  unfold lz4Encode
  dsimp only
  rw [hend, lz4Loop_done (le_refl (uint e.pos))]
  dsimp only
  rw [hall, lz4Literals_eq hring hstop (by omega) le_rfl (by omega) (by omega), List.nil_append]
  have hslice : (slice data e.pos (e.pos + chunk.length)).length = chunk.length := by
    rw [length_slice_of_le hstop]
    omega
  simp only [lz4Seq, List.length_append, hslice]
  omega

/-- What is kept when the blocks of these chunks are put. -/
def lz4After (chunks : List Str) (e : Lz4Encoder) : Lz4Encoder :=
  chunks.foldl (fun e chunk => (lz4Encode e chunk).2) e

theorem lz4Blocks_append (chunks more : List Str) : ∀ e : Lz4Encoder,
    lz4Blocks (chunks ++ more) e = lz4Blocks chunks e ++ lz4Blocks more (lz4After chunks e) := by
  induction chunks with
  | nil => exact fun e => rfl
  | cons chunk chunks ih =>
    intro e
    rw [List.cons_append, lz4Blocks, lz4Blocks, ih, List.append_assoc]
    rfl

/-- **Blocks of a frame are read as the data they were put of**, and what is after them is read
next. -/
theorem lz4Frame_blocks {v : ℕ} (hv : most + 65535 ≤ v) (hw : 65535 ≤ w ∧ most ≤ w)
    (hsize : most < 2147483648) (turns : ℕ) (rest : Str) (chunks : List Str) :
    ∀ (e : Lz4Encoder) (r : Lz4Reading), e.Between data v → r.Written data w → r.d.pos = e.pos →
      (∃ more, data.drop e.pos = chunks.flatten ++ more) →
      (∀ chunk ∈ chunks, chunk ≠ [] ∧ chunk.length ≤ most) →
      e.pos + chunks.flatten.length ≤ 4294967296 →
      ∃ r', lz4Frame most false (chunks.length + turns) (lz4Blocks chunks e ++ rest) r
          = lz4Frame most false turns rest r' ∧ r'.Written data w ∧
        r'.d.pos = e.pos + chunks.flatten.length ∧ (lz4After chunks e).Between data v ∧
        (lz4After chunks e).pos = e.pos + chunks.flatten.length := by
  induction chunks with
  | nil => exact fun e r he hr hpos _ _ _ => ⟨r, by rw [lz4Blocks]; simp, hr, by simpa using hpos,
      he, rfl⟩
  | cons chunk chunks ih =>
    intro e r he hr hpos hmore hchunks hbits
    obtain ⟨more, hdata⟩ := hmore
    rw [List.flatten_cons, List.append_assoc] at hdata
    rw [List.flatten_cons, List.length_append] at hbits
    obtain ⟨hne, hmost⟩ := hchunks chunk List.mem_cons_self
    obtain ⟨r', hframe, hwritten, hat⟩ := lz4Frame_block he hr hpos hdata hne hmost hv hw hsize
      (by omega) (chunks.length + turns) (lz4Blocks chunks (lz4Encode e chunk).2 ++ rest)
    obtain ⟨-, hbetween⟩ := lz4Encode_spec he hdata hne (by omega) (by omega) (by omega)
    have hnext : (lz4Encode e chunk).2.pos = e.pos + chunk.length := rfl
    obtain ⟨r'', hrest, hwritten', hat', hafter, hpos'⟩ := ih (lz4Encode e chunk).2 r' hbetween
      hwritten hat ⟨more, by rw [hnext, ← List.drop_drop, hdata, List.drop_left]⟩
      (fun c hc => hchunks c (List.mem_cons_of_mem chunk hc)) (by omega)
    have hall : e.pos + (chunk :: chunks).flatten.length
        = (lz4Encode e chunk).2.pos + chunks.flatten.length := by
      rw [List.flatten_cons, List.length_append, hnext]
      omega
    refine ⟨r'', ?_, hwritten', hat'.trans hall.symm, hafter, hpos'.trans hall.symm⟩
    rw [lz4Blocks, List.append_assoc, List.length_cons, Nat.add_right_comm]
    exact hframe.trans hrest

end Frame

/-! ## Frames -/

theorem ne_nil_of_mem_readBlks {n : ℕ} (s : Str) : ∀ blk ∈ readBlks n s, blk ≠ [] := by
  induction h : s.length using Nat.strong_induction_on generalizing s with
  | _ k ih =>
    rw [readBlks]
    by_cases hs : 0 < n ∧ 0 < s.length
    · rw [if_pos hs]
      intro blk hblk
      rcases List.mem_cons.mp hblk with rfl | hblk
      · intro hnil
        have hlen := congrArg List.length hnil
        rw [List.length_take, List.length_nil] at hlen
        omega
      · exact ih (s.drop n).length (by rw [List.length_drop]; omega) (s.drop n) rfl blk hblk
    · rw [if_neg hs]
      exact fun blk hblk => absurd hblk List.not_mem_nil

theorem readBlks_cons {n : ℕ} (hn : 0 < n) {blk : Str} (hblk : blk.length = n) (rest : Str) :
    readBlks n (blk ++ rest) = blk :: readBlks n rest := by
  rw [readBlks, if_pos ⟨hn, by rw [List.length_append]; omega⟩, List.take_left' hblk,
    List.drop_left' hblk]

/-- What is as long as so many blocks is read before what is after it. -/
theorem readBlks_append {n : ℕ} (hn : 0 < n) (rest : Str) (k : ℕ) : ∀ s : Str, s.length = k * n →
    readBlks n (s ++ rest) = readBlks n s ++ readBlks n rest := by
  induction k with
  | zero =>
    intro s hs
    rw [Nat.zero_mul] at hs
    rw [List.length_eq_zero_iff.mp hs, readBlks.eq_1 n [], if_neg (fun h => Nat.lt_irrefl 0 h.2)]
    rfl
  | succ k ih =>
    intro s hs
    rw [Nat.succ_mul] at hs
    have htake : (s.take n).length = n := by
      rw [List.length_take]
      omega
    have hdrop : (s.drop n).length = k * n := by
      rw [List.length_drop]
      omega
    have hsplit : s = s.take n ++ s.drop n := (List.take_append_drop n s).symm
    rw [hsplit, List.append_assoc, readBlks_cons hn htake, readBlks_cons hn htake, ih _ hdrop,
      List.cons_append]

theorem readBlks_short {n : ℕ} {s : Str} (hs : s ≠ []) (hn : s.length ≤ n) :
    readBlks n s = [s] := by
  have hlen : 0 < s.length := List.length_pos_iff.mpr hs
  rw [readBlks, if_pos ⟨by omega, hlen⟩, List.take_of_length_le hn, List.drop_of_length_le hn,
    readBlks.eq_1 n [], if_neg (fun h => Nat.lt_irrefl 0 h.2)]

theorem lz4Size_lt (window : ℕ) : lz4Size window < 4 := by
  unfold lz4Size
  cases h : lz4Sizes.findIdx? (fun size => decide (window ≤ size)) with
  | none => decide
  | some i => exact (List.findIdx?_eq_some_iff_findIdx_eq.mp h).1

theorem le_lz4Ring (n : ℕ) : n ≤ lz4Ring n := Nat.le_pow_clog (by decide) n

/-- The encoder and the decoder as they begin. -/
theorem Lz4Encoder.between_start (data : Str) (size : ℕ) :
    Lz4Encoder.Between data (size * 2)
      ⟨List.replicate (size * 2) 0, 0, List.replicate 8192 (-65536)⟩ := by
  refine ⟨Ring.Holds.nil List.length_replicate, ?_, Nat.zero_le _⟩
  intro m hm
  exact Or.inl (List.eq_of_mem_replicate hm)

theorem Lz4Reading.written_start (data : Str) (dirt : ℕ → Byte) (w : ℕ) :
    Lz4Reading.Written data w ⟨⟨(List.range w).map dirt, 0, []⟩, [], []⟩ :=
  ⟨⟨Ring.Holds.nil (by simp), Nat.zero_le _⟩, rfl⟩

/-- The head of a frame is read as the size of its blocks that was written, and the blocks next. -/
theorem lz4Decompress_head (dirt : ℕ → Byte) (window window' : ℕ) (s : Str) :
    ∃ most w, lz4Sizes.getD (lz4Size window) 0 = most ∧ 65536 ≤ most ∧ most ≤ 4194304 ∧
      most ∣ 4294967296 ∧ most ≤ w ∧
      lz4Decompress dirt window' (lz4Compress window s)
        = let blocks := lz4Blocks (readBlks most s)
            ⟨List.replicate (most * 2) 0, 0, List.replicate 8192 (-65536)⟩ ++ intBytes 0
          lz4Frame most false blocks.length blocks ⟨⟨(List.range w).map dirt, 0, []⟩, [], []⟩ := by
  have hall : ∀ i < 4, 65536 ≤ lz4Sizes.getD i 0 ∧ lz4Sizes.getD i 0 ≤ 4194304 ∧
      lz4Sizes.getD i 0 ∣ 4294967296 ∧
        1 <<< (8 + 2 * ((Fin.ofNat 256 (lz4Bd.getD i 0) : Byte).val >>> 4 &&& 7))
        = lz4Sizes.getD i 0 := by decide
  have hlt := lz4Size_lt window
  unfold lz4Compress
  simp only
  generalize lz4Size window = i at hlt ⊢
  obtain ⟨hleast, hmost, hdvd, hsize⟩ := hall i hlt
  refine ⟨lz4Sizes.getD i 0, lz4Ring (max window' (lz4Sizes.getD i 0)), rfl, hleast, hmost, hdvd,
    (le_max_right _ _).trans (le_lz4Ring _), ?_⟩
  generalize lz4Blocks (readBlks (lz4Sizes.getD i 0) s)
    ⟨List.replicate (lz4Sizes.getD i 0 * 2) 0, 0, List.replicate 8192 (-65536)⟩ = blocks
  unfold lz4Decompress
  simp only
  rw [List.append_assoc, List.append_assoc, readInt_intBytes (by decide)]
  simp only [List.map_cons, List.map_nil, List.cons_append, List.nil_append, hsize]
  rfl

/-- A block of a frame is some bytes. -/
theorem length_le_lz4Blocks (chunks : List Str) :
    ∀ e : Lz4Encoder, chunks.length ≤ (lz4Blocks chunks e).length := by
  induction chunks with
  | nil => exact fun e => Nat.zero_le _
  | cons chunk chunks ih =>
    intro e
    have hrest := ih (lz4Encode e chunk).2
    have hblock : 0 < (lz4Block chunk (lz4Encode e chunk).1).length := by
      unfold lz4Block
      split <;> simp [length_intBytes]
    rw [lz4Blocks, List.length_append, List.length_cons]
    omega

theorem lz4Frame_end (most : ℕ) (sums : Bool) (turns : ℕ) (r : Lz4Reading) :
    lz4Frame most sums (turns + 1) (intBytes 0) r = (.returned true, r) := by
  rw [lz4Frame, ← List.append_nil (intBytes 0), readInt_intBytes (by decide)]
  rfl

/-- **LZ4 there and back**, with every window either side, of every stream for which the encoder
makes no turn past 32 bits: the blocks end where 32 bits do, and in one of 12 bytes or less no turn
is made. -/
theorem lz4_round_trip (dirt : ℕ → Byte) (window window' : ℕ) {s : Str}
    (h : s.length ≤ 4294967308) :
    (lz4Decompress dirt window' (lz4Compress window s)).1 = .returned true ∧
      (lz4Decompress dirt window' (lz4Compress window s)).2.out = s := by
  obtain ⟨most, w, -, hleast, hmost, ⟨k, hk⟩, hw, heq⟩ := lz4Decompress_head dirt window window' s
  set first := s.take 4294967296 with hfirst
  set last := s.drop 4294967296 with hlast
  have hs : first ++ last = s := List.take_append_drop _ s
  have hlen : first.length = min 4294967296 s.length := List.length_take
  have hlen' : last.length = s.length - 4294967296 := List.length_drop
  have hread : readBlks most s = readBlks most first ++ readBlks most last := by
    by_cases hlong : s.length ≤ 4294967296
    · have hnil : last = [] := List.length_eq_zero_iff.mp (by omega)
      rw [hnil, List.append_nil] at hs
      rw [hs, hnil, readBlks.eq_1 most [], if_neg (fun h => Nat.lt_irrefl 0 h.2), List.append_nil]
    · rw [← readBlks_append (by omega) last k first (by rw [hlen, Nat.mul_comm, ← hk]; omega), hs]
  have hflat : (readBlks most first).flatten = first := flatten_readBlks (by omega) first
  have hchunks : ∀ chunk ∈ readBlks most first, chunk ≠ [] ∧ chunk.length ≤ most := fun chunk hc =>
    ⟨ne_nil_of_mem_readBlks first chunk hc, length_of_mem_readBlks first chunk hc⟩
  rw [heq]
  dsimp only
  set e : Lz4Encoder := ⟨List.replicate (most * 2) 0, 0, List.replicate 8192 (-65536)⟩ with he
  -- a turn for each block and one for the end, and there are bytes enough for so many
  have hturns : (readBlks most s).length + 1
      ≤ (lz4Blocks (readBlks most s) e ++ intBytes 0).length := by
    have hcount := length_le_lz4Blocks (readBlks most s) e
    rw [List.length_append, length_intBytes]
    omega
  obtain ⟨more, hmore⟩ := Nat.exists_eq_add_of_le hturns
  rw [hmore, hread, lz4Blocks_append, List.length_append, List.append_assoc, Nat.add_assoc,
    Nat.add_assoc]
  obtain ⟨r', hframe, hwritten, hat, hbetween, hpos⟩ := @lz4Frame_blocks s w most (most * 2)
    (by omega) ⟨by omega, hw⟩ (by omega) ((readBlks most last).length + (1 + more))
    (lz4Blocks (readBlks most last) (lz4After (readBlks most first) e) ++ intBytes 0)
    (readBlks most first) e ⟨⟨(List.range w).map dirt, 0, []⟩, [], []⟩
    (Lz4Encoder.between_start s most) (Lz4Reading.written_start s dirt w) rfl
    ⟨last, by rw [hflat, hs]; rfl⟩ hchunks (by rw [hflat]; show 0 + first.length ≤ _; omega)
  rw [hframe]
  rw [hflat] at hat hpos
  generalize lz4After (readBlks most first) e = e' at hbetween hpos
  have hstart : e'.pos = first.length := hpos.trans (Nat.zero_add _)
  have hstart' : r'.d.pos = first.length := hat.trans (Nat.zero_add _)
  by_cases hnil : last = []
  · rw [hnil, List.append_nil] at hs
    rw [hnil, readBlks.eq_1 most [], if_neg (fun h => Nat.lt_irrefl 0 h.2), lz4Blocks,
      List.length_nil, Nat.zero_add, Nat.add_comm 1 more, List.nil_append, lz4Frame_end]
    refine ⟨rfl, ?_⟩
    rw [hwritten.out, hstart', hs, List.take_length]
  · have hdrop : s.drop first.length = last ++ [] := by
      rw [← hs, List.drop_left, List.append_nil]
    have hshort := lz4Encode_short hbetween (by rw [hstart]; exact hdrop) (by omega) (by omega)
    obtain ⟨r'', hraw, hwritten', hat'⟩ := lz4Frame_raw hwritten (by rw [hstart']; exact hdrop) hnil
      (show last.length ≤ most by omega) hw (by omega) (1 + more) (intBytes 0)
    rw [readBlks_short hnil (by omega), lz4Blocks, lz4Blocks, List.append_nil, List.length_singleton,
      lz4Block, if_pos hshort, Nat.add_comm 1 (1 + more), hraw, Nat.add_comm 1 more, lz4Frame_end]
    refine ⟨rfl, ?_⟩
    have hall : r''.d.pos = s.length := by
      rw [hat', hstart', ← hs, List.length_append]
    rw [hwritten'.out, hall, List.take_length]

theorem lz4_round_trip_repeats :
    (lz4Decompress (fun n => Fin.ofNat 256 n) 0 (lz4Compress 65536 (List.replicate 40 7))).1
        = .returned true ∧
      (lz4Decompress (fun n => Fin.ofNat 256 n) 0 (lz4Compress 65536 (List.replicate 40 7))).2.out
        = List.replicate 40 7 :=
  lz4_round_trip (fun n => Fin.ofNat 256 n) 65536 0 (by decide)

end ChrysaLisp
