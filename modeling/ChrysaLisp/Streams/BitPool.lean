import ChrysaLisp.Streams.Bits
import Mathlib.Data.BitVec
import Mathlib.Tactic.SplitIfs

set_option autoImplicit false

/-! # The pool in its register

`:stream :read_bits` and `:write_bits` of `class/stream/class.vp`, with the pool as the 64 bits of
the register it is in. What is shifted out of the top of it is lost. With widths of up to 57 nothing
is: a writer has less than a byte left over when it is called, a reader takes a byte more only while
it has fewer bits than are asked for, so the pool is the number of the same bits
(`readBits_refines`, `writeBits_refines`), and what is written comes back (`bits_round_trip`). -/

namespace ChrysaLisp.BitPool

/-! ## The source -/

/-- A stream read from by bits, with the pool and its size. -/
structure Reader where
  input : Str
  pool : BitVec 64
  size : ℕ
deriving DecidableEq

/-- A stream written to by bits. -/
structure Writer where
  out : Str
  pool : BitVec 64
  size : ℕ
deriving DecidableEq

/-- A stream, and `(array 0 0)`. -/
def Reader.start (input : Str) : Reader := ⟨input, 0, 0⟩

def Writer.start (out : Str) : Writer := ⟨out, 0, 0⟩

/-- Bytes into the pool while it has fewer bits than `n`, or none if the stream ends before. -/
def fillPool (n : ℕ) : Str → BitVec 64 → ℕ → Option Reader
  | input, pool, size =>
      if size < n then
        match input with
        | [] => none
        | data :: rest => fillPool n rest (pool + (BitVec.ofNat 64 data.val <<< size)) (size + 8)
      else some ⟨input, pool, size⟩

/-- `:stream :read_bits`. Where the stream ends before, the data is -1, and the pool is let go. -/
def readBits (n : ℕ) (r : Reader) : BitVec 64 × Reader :=
  match fillPool n r.input r.pool r.size with
  | some r => ((((-1 : BitVec 64) <<< n) ^^^ -1) &&& r.pool, ⟨r.input, r.pool >>> n, r.size - n⟩)
  | none => (-1, ⟨[], 0, 0⟩)

/-- The whole bytes of the pool out to the stream. -/
def drainPool (out : Str) (pool : BitVec 64) (size : ℕ) : Writer :=
  if 8 ≤ size then drainPool (out ++ [Fin.ofNat 256 pool.toNat]) (pool >>> 8) (size - 8)
    else ⟨out, pool, size⟩
termination_by size

/-- `:stream :write_bits`. -/
def writeBits (data : BitVec 64) (n : ℕ) (w : Writer) : Writer :=
  drainPool w.out ((data <<< w.size) ||| w.pool) (w.size + n)

/-- `(flush-bits stream bit_pool_state)`. -/
def flushBits (w : Writer) : Writer :=
  if 0 < w.size then
    if 0 < w.size % 8 then writeBits 0 (8 - w.size % 8) w else w
  else w

/-- Values written at their widths, one after another. -/
def writeAll (w : Writer) (vals : List (BitVec 64 × ℕ)) : Writer :=
  vals.foldl (fun w val => writeBits val.1 val.2 w) w

/-- Values read at widths, one after another. -/
def readAll : Reader → List ℕ → List (BitVec 64)
  | _, [] => []
  | r, n :: widths => (readBits n r).1 :: readAll (readBits n r).2 widths

/-! ## The same bits as a number -/

/-- A writer and the one whose pool is a number. -/
structure Writer.Refines (w : Writer) (w' : BitWriter) : Prop where
  out : w.out = w'.out
  pool : w.pool.toNat = w'.pool
  size : w.size = w'.size

structure Reader.Refines (r : Reader) (r' : BitReader) : Prop where
  input : r.input = r'.input
  pool : r.pool.toNat = r'.pool
  size : r.size = r'.size

theorem drainPool_refines (size : ℕ) : ∀ (out : Str) (pool : BitVec 64),
    (drainPool out pool size).Refines (ChrysaLisp.drainPool out pool.toNat size) := by
  induction size using Nat.strong_induction_on with
  | _ size ih =>
      intro out pool
      rw [drainPool, ChrysaLisp.drainPool]
      by_cases h8 : 8 ≤ size
      · rw [if_pos h8, if_pos h8, ← BitVec.toNat_ushiftRight]
        exact ih (size - 8) (by omega) _ _
      · rw [if_neg h8, if_neg h8]
        exact ⟨rfl, rfl, rfl⟩

/-- A value of 57 bits at most is written as it is. -/
theorem writeBits_refines {w : Writer} {w' : BitWriter} (h : w.Refines w') (hok : w'.Ok)
    {data : BitVec 64} {n : ℕ}
    (hn : n ≤ 57) (hdata : data.toNat < 2 ^ n) :
    (writeBits data n w).Refines (ChrysaLisp.writeBits data.toNat n w') := by
  obtain ⟨hout, hpool, hsize⟩ := h
  have hpart := hok.part
  have hfits : data.toNat <<< w'.size < 2 ^ 64 := by
    rw [Nat.shiftLeft_eq]
    calc data.toNat * 2 ^ w'.size < 2 ^ n * 2 ^ w'.size :=
      Nat.mul_lt_mul_of_pos_right hdata (Nat.two_pow_pos _)
      _ = 2 ^ (n + w'.size) := (Nat.pow_add 2 n w'.size).symm
      _ ≤ 2 ^ 64 := Nat.pow_le_pow_right Nat.two_pos (by omega)
  have hboth : ((data <<< w.size) ||| w.pool).toNat = data.toNat <<< w'.size ||| w'.pool := by
    rw [BitVec.toNat_or, BitVec.toNat_shiftLeft, hsize, Nat.mod_eq_of_lt hfits, hpool]
  rw [writeBits, ChrysaLisp.writeBits, ← hboth, hout, hsize]
  exact drainPool_refines _ _ _

theorem flushBits_refines {w : Writer} {w' : BitWriter} (h : w.Refines w') (hok : w'.Ok) :
    (flushBits w).Refines (ChrysaLisp.flushBits w') := by
  unfold flushBits ChrysaLisp.flushBits
  rw [h.size]
  split
  · split
    · exact writeBits_refines h hok (by omega) (Nat.two_pow_pos _)
    · exact h
  · exact h

theorem fillPool_refines {n : ℕ} (hn : n ≤ 57) (input : Str) :
    ∀ {pool : BitVec 64} {size : ℕ} (small : pool.toNat < 2 ^ size),
    ∀ {r' : BitReader}, ChrysaLisp.fillPool n input pool.toNat size small = some r' →
      ∃ r, fillPool n input pool size = some r ∧ r.Refines r' := by
  induction input with
  | nil =>
      intro pool size small r' hr
      rw [ChrysaLisp.fillPool] at hr
      rw [fillPool]
      by_cases hsize : n ≤ size
      · rw [if_pos hsize] at hr
        rw [if_neg (Nat.not_lt.mpr hsize)]
        exact ⟨_, rfl, by rw [← Option.some.inj hr]; exact ⟨rfl, rfl, rfl⟩⟩
      · rw [if_neg hsize] at hr
        exact absurd hr (by simp)
  | cons c rest ih =>
      intro pool size small r' hr
      rw [ChrysaLisp.fillPool] at hr
      rw [fillPool]
      by_cases hsize : n ≤ size
      · rw [if_pos hsize] at hr
        rw [if_neg (Nat.not_lt.mpr hsize)]
        exact ⟨_, rfl, by rw [← Option.some.inj hr]; exact ⟨rfl, rfl, rfl⟩⟩
      · rw [if_neg hsize] at hr
        rw [if_pos (Nat.lt_of_not_le hsize)]
        -- there is room for a byte above what the pool has
        have hlt := pool_add_lt small c
        have hroom : 2 ^ (size + 8) ≤ 2 ^ 64 := Nat.pow_le_pow_right Nat.two_pos (by omega)
        have hshift : (BitVec.ofNat 64 c.val <<< size).toNat = c.val <<< size := by
          have hbyte : c.val % 2 ^ 64 = c.val := Nat.mod_eq_of_lt (Nat.lt_trans c.isLt (by decide))
          rw [BitVec.toNat_shiftLeft, BitVec.toNat_ofNat, hbyte, Nat.mod_eq_of_lt (by omega)]
        have hpool : (pool + (BitVec.ofNat 64 c.val <<< size)).toNat = pool.toNat + c.val <<< size := by
          rw [BitVec.toNat_add, hshift, Nat.mod_eq_of_lt (by omega)]
        refine ih (hpool ▸ hlt) ?_
        simpa only [hpool] using hr

/-- The mask is the low bits. -/
theorem toNat_mask {n : ℕ} (hn : n ≤ 64) (pool : BitVec 64) :
    ((((-1 : BitVec 64) <<< n) ^^^ -1) &&& pool).toNat = pool.toNat % 2 ^ n := by
  have hbits : (((-1 : BitVec 64) <<< n) ^^^ -1) &&& pool = (pool.setWidth n).setWidth 64 := by
    refine BitVec.eq_of_getLsbD_eq ?_
    intro i hi
    have hone : (-1 : BitVec 64) = BitVec.allOnes 64 := rfl
    rw [hone]
    simp only [BitVec.getLsbD_and, BitVec.getLsbD_xor, BitVec.getLsbD_shiftLeft, BitVec.getLsbD_allOnes,
      BitVec.getLsbD_setWidth, hi, decide_true, Bool.true_and, Bool.xor_true]
    by_cases hin : i < n
    · simp [hin]
    · simp [hin, (by omega : i - n < 64)]
  have hlt : pool.toNat % 2 ^ n < 2 ^ 64 := Nat.lt_of_le_of_lt (Nat.mod_le _ _) pool.isLt
  rw [hbits, BitVec.toNat_setWidth, BitVec.toNat_setWidth, Nat.mod_eq_of_lt hlt]

/-- A number of 57 bits at most is read as it is. -/
theorem readBits_refines {r : Reader} {r' r'' : BitReader} (h : r.Refines r') {n v : ℕ} (hn : n ≤ 57)
    (hread : ChrysaLisp.readBits n r' = (some v, r'')) :
    (readBits n r).1.toNat = v ∧ (readBits n r).2.Refines r'' := by
  obtain ⟨input, pool, size⟩ := r
  obtain ⟨input', pool', size', small⟩ := r'
  obtain ⟨hinput, hpool, hsize⟩ := h
  simp only at hinput hpool hsize
  subst hinput hpool hsize
  rw [ChrysaLisp.readBits] at hread
  cases hfill : ChrysaLisp.fillPool n input pool.toNat size small with
  | none =>
      rw [hfill] at hread
      simp at hread
  | some f =>
      rw [hfill] at hread
      obtain ⟨g, hg, hrefines⟩ := fillPool_refines hn input small hfill
      simp only [Prod.mk.injEq, Option.some.injEq] at hread
      obtain ⟨rfl, rfl⟩ := hread
      rw [readBits, hg]
      refine ⟨?_, hrefines.input, ?_, ?_⟩
      · rw [toNat_mask (by omega), hrefines.pool, Nat.and_two_pow_sub_one_eq_mod]
      · rw [BitVec.toNat_ushiftRight, hrefines.pool]
      · exact congrArg (· - n) hrefines.size

/-- Where there are too few bits, the stream has ended. -/
theorem fillPool_eq_none {n : ℕ} (input : Str) :
    ∀ {pool : BitVec 64} {size : ℕ}, size + 8 * input.length < n →
    fillPool n input pool size = none := by
  induction input with
  | nil =>
      intro pool size h
      rw [fillPool, if_pos (by simpa using h)]
  | cons c rest ih =>
      intro pool size h
      rw [List.length_cons] at h
      rw [fillPool, if_pos (by omega)]
      exact ih (by omega)

/-! ## Read and written -/

/-- The bits a reader has still to come. -/
def Reads (r : Reader) (bits : List Bool) : Prop := ∃ r', r.Refines r' ∧ r'.bits = bits

/-- The bits a writer has been given. -/
def Written (w : Writer) (bits : List Bool) : Prop := ∃ w', w.Refines w' ∧ w'.Ok ∧ w'.bits = bits

theorem reads_start (s : Str) : Reads (.start s) (bitsOf s) := ⟨.start s, ⟨rfl, rfl, rfl⟩, rfl⟩

theorem written_start : Written (.start []) [] :=
    ⟨.start [], ⟨rfl, rfl, rfl⟩, BitWriter.ok_start [], BitWriter.bits_start []⟩

section Reads

variable {r : Reader} {bits : List Bool} {n : ℕ}

theorem Reads.read (h : Reads r bits) (hn : n ≤ 57) (hlen : n ≤ bits.length) :
    (readBits n r).1.toNat = Bits.toNat (bits.take n) ∧ Reads (readBits n r).2 (bits.drop n) := by
  obtain ⟨r', hrefines, rfl⟩ := h
  obtain ⟨r'', hread, hrest⟩ :=
    readBits_append (List.take_append_drop n r'.bits).symm (List.length_take_of_le hlen)
  obtain ⟨hval, hnext⟩ := readBits_refines hrefines hn hread
  exact ⟨hval, r'', hnext, hrest⟩

/-- A number at the front of the bits is read at the width it has. -/
theorem Reads.readNat {v : ℕ} {rest : List Bool} (h : Reads r (Bits.ofNat n v ++ rest))
    (hn : n ≤ 57) (hv : v < 2 ^ n) :
    (readBits n r).1.toNat = v ∧ Reads (readBits n r).2 rest := by
  have hlen := Bits.length_ofNat n v
  obtain ⟨hval, hrest⟩ := h.read hn (by rw [List.length_append]; omega)
  rw [List.take_left' hlen, Bits.toNat_ofNat, Nat.mod_eq_of_lt hv] at hval
  rw [List.drop_left' hlen] at hrest
  exact ⟨hval, hrest⟩

theorem Reads.ended (h : Reads r bits) (hlen : bits.length < n) : readBits n r = (-1, .start []) := by
  obtain ⟨r', hrefines, rfl⟩ := h
  rw [BitReader.bits, List.length_append, Bits.length_ofNat, length_bitsOf, ← hrefines.size,
    ← hrefines.input] at hlen
  rw [readBits, fillPool_eq_none _ hlen]
  rfl

end Reads

section Written

variable {w : Writer} {bits : List Bool}

theorem Written.write (h : Written w bits) {data : BitVec 64} {n : ℕ} (hn : n ≤ 57)
    (hdata : data.toNat < 2 ^ n) :
    Written (writeBits data n w) (bits ++ Bits.ofNat n data.toNat) := by
  obtain ⟨w', hrefines, hok, rfl⟩ := h
  obtain ⟨hok', hbits⟩ := writeBits_spec hok hdata
  exact ⟨_, writeBits_refines hrefines hok hn hdata, hok', hbits⟩

/-- What is flushed is the bits, and what fills the last byte. -/
theorem Written.flush (h : Written w bits) :
    ∃ fill, fill.length < 8 ∧ bitsOf (flushBits w).out = bits ++ fill := by
  obtain ⟨w', hrefines, hok, rfl⟩ := h
  rw [(flushBits_refines hrefines hok).out]
  exact bits_flushBits hok

/-- The bits of values at their widths. -/
def bitsOfAll (vals : List (BitVec 64 × ℕ)) : List Bool :=
  vals.flatMap fun val => Bits.ofNat val.2 val.1.toNat

/-- A width that may be asked for, and a value of it. -/
def Fits (val : BitVec 64 × ℕ) : Prop := 1 ≤ val.2 ∧ val.2 ≤ 57 ∧ val.1.toNat < 2 ^ val.2

theorem Written.writeAll {vals : List (BitVec 64 × ℕ)} (hfits : ∀ val ∈ vals, Fits val) :
    ∀ {w bits}, Written w bits → Written (writeAll w vals) (bits ++ bitsOfAll vals) := by
  induction vals with
  | nil =>
      intro w bits h
      rwa [bitsOfAll, List.flatMap_nil, List.append_nil]
  | cons val vals ih =>
      intro w bits h
      obtain ⟨-, hn, hdata⟩ := hfits val List.mem_cons_self
      have hrest := ih (fun val hval => hfits val (List.mem_cons_of_mem _ hval)) (h.write hn hdata)
      rwa [List.append_assoc] at hrest

end Written

theorem Reads.readAll {vals : List (BitVec 64 × ℕ)} (hfits : ∀ val ∈ vals, Fits val) :
    ∀ {r rest}, Reads r (bitsOfAll vals ++ rest) → readAll r (vals.map Prod.snd) = vals.map Prod.fst := by
  induction vals with
  | nil => exact fun _ => rfl
  | cons val vals ih =>
      intro r rest h
      obtain ⟨-, hn, hdata⟩ := hfits val List.mem_cons_self
      rw [bitsOfAll, List.flatMap_cons, List.append_assoc] at h
      obtain ⟨hval, hrest⟩ := h.readNat hn hdata
      rw [List.map_cons, List.map_cons, BitPool.readAll, BitVec.eq_of_toNat_eq hval,
        ih (fun val hval => hfits val (List.mem_cons_of_mem _ hval)) hrest]

/-! ## How much is written -/

/-- How many bits a writer has been given, of whatever values. -/
def total (w : Writer) : ℕ := 8 * w.out.length + w.size

theorem total_drainPool (size : ℕ) : ∀ (out : Str) (pool : BitVec 64),
    total (drainPool out pool size) = 8 * out.length + size ∧ (drainPool out pool size).size = size % 8 := by
  induction size using Nat.strong_induction_on with
  | _ size ih =>
      intro out pool
      rw [drainPool]
      split_ifs with h8
      · obtain ⟨htotal, hsize⟩ := ih (size - 8) (by omega) (out ++ [Fin.ofNat 256 pool.toNat]) (pool >>> 8)
        rw [List.length_append, List.length_singleton] at htotal
        exact ⟨by omega, by omega⟩
      · exact ⟨rfl, (Nat.mod_eq_of_lt (Nat.lt_of_not_le h8)).symm⟩

theorem total_writeBits (data : BitVec 64) (n : ℕ) (w : Writer) :
    total (writeBits data n w) = total w + n ∧ (writeBits data n w).size = (w.size + n) % 8 := by
  obtain ⟨htotal, hsize⟩ := total_drainPool (w.size + n) w.out ((data <<< w.size) ||| w.pool)
  refine ⟨?_, hsize⟩
  rw [writeBits, htotal, total, Nat.add_assoc]

theorem Written.size_lt {w : Writer} {bits : List Bool} (h : Written w bits) : w.size < 8 := by
  obtain ⟨w', hrefines, hok, -⟩ := h
  rw [hrefines.size]
  exact hok.part

theorem Written.total_eq {w : Writer} {bits : List Bool} (h : Written w bits) : total w = bits.length := by
  obtain ⟨w', hrefines, hok, rfl⟩ := h
  rw [total, hrefines.size, hrefines.out, BitWriter.bits, List.length_append, length_bitsOf,
    Bits.length_ofNat]

/-- None of them is lost. -/
theorem total_le_flushBits {w : Writer} (hsize : w.size < 8) : total w ≤ 8 * (flushBits w).out.length := by
  unfold flushBits
  split_ifs with hpos hpart
  · obtain ⟨htotal, hnone⟩ := total_writeBits 0 (8 - w.size % 8) w
    have hwhole : (w.size + (8 - w.size % 8)) % 8 = 0 := by omega
    rw [total, hnone, hwhole] at htotal
    omega
  · omega
  · rw [total]
    omega

/-- Values of widths from 1 to 57 that are written, flushed and read at the same widths come back. -/
theorem bits_round_trip (vals : List (BitVec 64 × ℕ)) (hfits : ∀ val ∈ vals, Fits val) :
    readAll (.start (flushBits (writeAll (.start []) vals)).out) (vals.map Prod.snd) = vals.map Prod.fst := by
  obtain ⟨fill, -, hbits⟩ := (written_start.writeAll hfits).flush
  have hreads := reads_start (flushBits (writeAll (.start []) vals)).out
  rw [hbits, List.nil_append] at hreads
  exact hreads.readAll hfits

/-- A width of 57 after one that leaves 7 bits in the pool. -/
theorem bits_round_trip_of_two :
    readAll (.start (flushBits (writeAll (.start []) [(5, 7), (0x1ffffffffffffff, 57)])).out)
    [7, 57] =
    [5, 0x1ffffffffffffff] :=
  bits_round_trip [(5, 7), (0x1ffffffffffffff, 57)] (by simp [Fits])

end ChrysaLisp.BitPool
