import ChrysaLisp.Streams.Deflate
import ChrysaLisp.Streams.Inflate

set_option autoImplicit false

/-! # Inflate undoes deflate

What `(deflate-compress)` writes of a stream, however it comes in blocks of no more than 32KB, is
bits that say it (`bitsOf_deflateOf`), and those are read as it (`inflateBlocks_spec`). -/

namespace ChrysaLisp

/-- Inflate begins with an empty ring, of which nothing is to be written. -/
theorem Window.shows_start (data : Str) :
    (Window.mk (List.replicate 32768 0) 0 0 []).Shows data :=
  ⟨Nat.zero_le _, Ring.Holds.nil List.length_replicate, le_rfl, Nat.zero_le _, rfl⟩

/-- The head deflate writes is one inflate takes. -/
theorem zlibHead_spec {r : BitReader} {rest : List Bool} (h : r.bits = bitsOf [0x78, 0x01] ++ rest) :
    ∃ r', zlibHead r = (true, r') ∧ r'.bits = rest := by
  rw [bitsOf_cons, bitsOf_cons, bitsOf_nil, List.append_nil, List.append_assoc] at h
  obtain ⟨r1, hr1, hrest1⟩ := readBits_ofNat h (by decide)
  obtain ⟨r2, hr2, hrest2⟩ := readBits_ofNat hrest1 (by decide)
  refine ⟨r2, ?_, hrest2⟩
  simp only [zlibHead, hr1, hr2]
  rfl

/-- What is deflated of some blocks is inflated to all their bytes. -/
theorem inflate_deflateOf (zlib : Bool) {chunks : List Str} (hne : chunks ≠ [])
    (hsmall : ∀ chunk ∈ chunks, chunk.length ≤ 32768) :
    ∃ m, ∀ turns, m ≤ turns →
      inflateDecompress turns zlib (deflateOf zlib chunks)
        = some (Ended.returned true, chunks.flatten) := by
  obtain ⟨bits, more, hcoded, hbits⟩ := bitsOf_deflateOf zlib hne hsmall
  obtain ⟨m, hblocks⟩ := inflateBlocks_spec hcoded
  refine ⟨m, ?_⟩
  intro turns hturns
  -- the head is taken, and the bits of the blocks come next
  obtain ⟨r, hhead, hr⟩ : ∃ r, (if zlib then zlibHead (BitReader.start (deflateOf zlib chunks))
      else (true, BitReader.start (deflateOf zlib chunks))) = (true, r) ∧ r.bits = bits ++ more := by
    cases zlib with
    | false => exact ⟨_, rfl, hbits⟩
    | true => exact zlibHead_spec (hbits.trans (List.append_assoc _ _ _))
  obtain ⟨w, hend, hout⟩ := hblocks r ⟨List.replicate 32768 0, 0, 0, []⟩ more turns turns hr
    (Window.shows_start _) rfl hturns hturns
  simp only [inflateDecompress, hhead, hend, if_pos, Option.map_some, hout]

/-- Of every string, raw or with zlib's head and sum round it, inflate gives back what deflate wrote,
and `:t`. -/
theorem inflate_deflate (zlib : Bool) (s : Str) :
    ∃ m, ∀ turns, m ≤ turns →
      inflateDecompress turns zlib (deflateCompress zlib s) = some (Ended.returned true, s) := by
  obtain ⟨hne, hflat, hsmall⟩ := chunksOf_spec s
  obtain ⟨m, hm⟩ := inflate_deflateOf zlib hne hsmall
  rw [hflat] at hm
  exact ⟨m, hm⟩

end ChrysaLisp
