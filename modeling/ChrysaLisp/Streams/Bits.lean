import ChrysaLisp.Library.Bits
import ChrysaLisp.Lisp.Str

set_option autoImplicit false

/-! # The bits of a stream

`:stream :read_bits` and `:write_bits` of `class/stream`, and `(flush-bits)`, with the pool and its
size, which `(read-bits)` and `(write-bits)` keep in an array and the native code in registers. The
bits of a byte go the low ones first. The pool is a `long`: with the 57 bits at the most a call may
ask for it never passes 64, so here it is a number.

Seen as bits, a reader is the pool's and then those of the bytes to come (`BitReader.bits`), and to
read takes from the front of them (`readBits_append`); a writer is the bits of the bytes gone out and
then the pool's (`BitWriter.bits`), and to write puts at their end (`bits_writeBits`). -/

namespace ChrysaLisp

/-- The bits of a string, each byte's low bit first. -/
def bitsOf (s : Str) : List Bool := s.flatMap (fun c => Bits.ofNat 8 c.val)

@[simp] theorem bitsOf_nil : bitsOf [] = [] := rfl

@[simp] theorem bitsOf_cons (c : Byte) (s : Str) : bitsOf (c :: s) = Bits.ofNat 8 c.val ++ bitsOf s :=
  rfl

@[simp] theorem bitsOf_append (s t : Str) : bitsOf (s ++ t) = bitsOf s ++ bitsOf t :=
  List.flatMap_append

@[simp] theorem length_bitsOf (s : Str) : (bitsOf s).length = 8 * s.length := by
  induction s with
  | nil => rfl
  | cons c s ih =>
    rw [bitsOf_cons, List.length_append, Bits.length_ofNat, ih, List.length_cons]
    omega

/-! ## Reading -/

/-- A stream read from by bits: its bytes to come, and the pool of the bits got and not yet taken. -/
structure BitReader where
  input : Str
  pool : ℕ
  size : ℕ
  small : pool < 2 ^ size

/-- A stream, and `(array 0 0)`. -/
def BitReader.start (input : Str) : BitReader := ⟨input, 0, 0, Nat.one_pos⟩

def BitReader.bits (r : BitReader) : List Bool := Bits.ofNat r.size r.pool ++ bitsOf r.input

@[simp] theorem BitReader.bits_start (s : Str) : (BitReader.start s).bits = bitsOf s := rfl

theorem pool_add_lt {pool size : ℕ} (small : pool < 2 ^ size) (c : Byte) :
    pool + c.val <<< size < 2 ^ (size + 8) := by
  rw [Nat.shiftLeft_eq, Nat.mul_comm]
  exact Bits.add_mul_lt small c.isLt

/-- Bytes into the pool until it has `n` bits, or none if the stream ends before. -/
def fillPool (n : ℕ) : Str → (pool size : ℕ) → pool < 2 ^ size → Option BitReader
  | input, pool, size, small =>
    if n ≤ size then some ⟨input, pool, size, small⟩
    else
      match input with
      | [] => none
      | c :: rest => fillPool n rest (pool + c.val <<< size) (size + 8) (pool_add_lt small c)

theorem pool_shift_lt {pool size n : ℕ} (small : pool < 2 ^ size) : pool >>> n < 2 ^ (size - n) := by
  rw [Nat.shiftRight_eq_div_pow, Nat.div_lt_iff_lt_mul (Nat.two_pow_pos n), ← Nat.pow_add]
  exact lt_of_lt_of_le small (Nat.pow_le_pow_right Nat.two_pos (by omega))

/-- `:stream :read_bits`. `none` is the -1 of a stream that ends before, which leaves no pool. -/
def readBits (n : ℕ) (r : BitReader) : Option ℕ × BitReader :=
  match fillPool n r.input r.pool r.size r.small with
  | some r =>
    (some (r.pool &&& (2 ^ n - 1)), ⟨r.input, r.pool >>> n, r.size - n, pool_shift_lt r.small⟩)
  | none => (none, BitReader.start [])

/-- What is read, as the number Lisp has of it. -/
def bitsNum : Option ℕ → ℤ
  | some n => n
  | none => -1

/-- The pool of a byte more. -/
theorem ofNat_pool_add {pool size : ℕ} (small : pool < 2 ^ size) (c : Byte) :
    Bits.ofNat (size + 8) (pool + c.val <<< size) = Bits.ofNat size pool ++ Bits.ofNat 8 c.val := by
  rw [Nat.shiftLeft_eq, Nat.mul_comm, Bits.ofNat_add_mul 8 c.val small]

/-- To fill the pool leaves the bits as they are. -/
theorem fillPool_spec (n : ℕ) (input : Str) :
    ∀ (pool size : ℕ) (small : pool < 2 ^ size),
      n ≤ (BitReader.mk input pool size small).bits.length →
      ∃ r, fillPool n input pool size small = some r ∧
        r.bits = (BitReader.mk input pool size small).bits ∧ n ≤ r.size := by
  induction input with
  | nil =>
    intro pool size small h
    have hn : n ≤ size := by simpa [BitReader.bits] using h
    exact ⟨⟨[], pool, size, small⟩, by simp [fillPool, hn], rfl, hn⟩
  | cons c rest ih =>
    intro pool size small h
    by_cases hn : n ≤ size
    · exact ⟨⟨c :: rest, pool, size, small⟩, by simp [fillPool, hn], rfl, hn⟩
    · have hbits : (BitReader.mk rest (pool + c.val <<< size) (size + 8) (pool_add_lt small c)).bits
          = (BitReader.mk (c :: rest) pool size small).bits := by
        simp only [BitReader.bits, bitsOf_cons, ofNat_pool_add small c, List.append_assoc]
      obtain ⟨r, hr, hrb, hrn⟩ := ih _ _ (pool_add_lt small c) (by rw [hbits]; exact h)
      refine ⟨r, ?_, hrb.trans hbits, hrn⟩
      rw [fillPool, if_neg hn]
      exact hr

/-- To read takes the bits asked for from the front. -/
theorem readBits_append {n : ℕ} {r : BitReader} {xs rest : List Bool} (h : r.bits = xs ++ rest)
    (hn : xs.length = n) :
    ∃ r', readBits n r = (some (Bits.toNat xs), r') ∧ r'.bits = rest := by
  obtain ⟨input, pool, size, small⟩ := r
  obtain ⟨f, hf, hfb, hfn⟩ := fillPool_spec n input pool size small
    (by rw [h, List.length_append]; omega)
  obtain ⟨htake, hdrop⟩ := @Bits.ofNat_take_drop n f.size f.pool hfn
  have hbits : Bits.ofNat f.size f.pool ++ bitsOf f.input = xs ++ rest := hfb.trans h
  -- what is taken is the low bits of the pool, which are the first bits of all
  have hlen : n ≤ (Bits.ofNat f.size f.pool).length := by rwa [Bits.length_ofNat]
  have hxs : Bits.ofNat n (f.pool % 2 ^ n) = xs := by
    have hfront := congrArg (List.take n) hbits
    rwa [List.take_left' hn, List.take_append_of_le_length hlen, htake] at hfront
  have hrest : Bits.ofNat (f.size - n) (f.pool / 2 ^ n) ++ bitsOf f.input = rest := by
    have hback := congrArg (List.drop n) hbits
    rwa [List.drop_left' hn, List.drop_append_of_le_length hlen, hdrop] at hback
  refine ⟨⟨f.input, f.pool >>> n, f.size - n, pool_shift_lt f.small⟩, ?_, ?_⟩
  · have hvalue : f.pool &&& (2 ^ n - 1) = Bits.toNat xs := by
      rw [Nat.and_two_pow_sub_one_eq_mod, ← hxs, Bits.toNat_ofNat, Nat.mod_mod]
    simp only [readBits, hf, hvalue]
  · rw [← hrest, ← Nat.shiftRight_eq_div_pow]
    rfl

/-- A number read back at the width it has. -/
theorem readBits_ofNat {n v : ℕ} {r : BitReader} {rest : List Bool}
    (h : r.bits = Bits.ofNat n v ++ rest) (hv : v < 2 ^ n) :
    ∃ r', readBits n r = (some v, r') ∧ r'.bits = rest := by
  obtain ⟨r', hr', hrest⟩ := readBits_append h (Bits.length_ofNat n v)
  rw [Bits.toNat_ofNat, Nat.mod_eq_of_lt hv] at hr'
  exact ⟨r', hr', hrest⟩

/-! ## Writing -/

/-- A stream written to by bits: its bytes, and the pool of the bits that are no whole byte yet. -/
structure BitWriter where
  out : Str
  pool : ℕ
  size : ℕ

/-- A stream, and `(array 0 0)`. -/
def BitWriter.start (out : Str) : BitWriter := ⟨out, 0, 0⟩

/-- The whole bytes of the pool out to the stream. -/
def drainPool (out : Str) (pool size : ℕ) : BitWriter :=
  if 8 ≤ size then drainPool (out ++ [Fin.ofNat 256 pool]) (pool >>> 8) (size - 8)
  else ⟨out, pool, size⟩
termination_by size

/-- `:stream :write_bits`. -/
def writeBits (data n : ℕ) (w : BitWriter) : BitWriter :=
  drainPool w.out (data <<< w.size ||| w.pool) (w.size + n)

/-- `(flush-bits stream bits)`. -/
def flushBits (w : BitWriter) : BitWriter :=
  if 0 < w.size then
    if 0 < w.size % 8 then writeBits 0 (8 - w.size % 8) w else w
  else w

def BitWriter.bits (w : BitWriter) : List Bool := bitsOf w.out ++ Bits.ofNat w.size w.pool

/-- The pool has what its size says, less than a byte. -/
structure BitWriter.Ok (w : BitWriter) : Prop where
  small : w.pool < 2 ^ w.size
  part : w.size < 8

@[simp] theorem BitWriter.bits_start (s : Str) : (BitWriter.start s).bits = bitsOf s := by
  simp [BitWriter.start, BitWriter.bits]

theorem BitWriter.ok_start (s : Str) : (BitWriter.start s).Ok := ⟨Nat.one_pos, Nat.succ_pos 7⟩

/-- To drain the pool leaves the bits as they are. -/
theorem drainPool_spec (size : ℕ) :
    ∀ (out : Str) (pool : ℕ), pool < 2 ^ size →
      (drainPool out pool size).Ok ∧
        (drainPool out pool size).bits = bitsOf out ++ Bits.ofNat size pool := by
  induction size using Nat.strong_induction_on with
  | _ size ih =>
    intro out pool hpool
    rw [drainPool]
    by_cases h8 : 8 ≤ size
    · rw [if_pos h8]
      obtain ⟨hok, hbits⟩ := ih (size - 8) (by omega) (out ++ [Fin.ofNat 256 pool]) (pool >>> 8)
        (pool_shift_lt hpool)
      refine ⟨hok, ?_⟩
      have hcut := Bits.ofNat_split 8 (size - 8) pool
      rw [Nat.add_sub_cancel' h8] at hcut
      rw [hbits, hcut, Nat.shiftRight_eq_div_pow]
      simp [Fin.ofNat]
    · rw [if_neg h8]
      exact ⟨⟨hpool, Nat.lt_of_not_le h8⟩, rfl⟩

/-- To write puts the bits at the end. -/
theorem writeBits_spec {data n : ℕ} {w : BitWriter} (h : w.Ok) (hd : data < 2 ^ n) :
    (writeBits data n w).Ok ∧ (writeBits data n w).bits = w.bits ++ Bits.ofNat n data := by
  have hpool : data <<< w.size ||| w.pool = w.pool + 2 ^ w.size * data :=
    Bits.or_shiftLeft data h.small
  obtain ⟨hok, hbits⟩ := drainPool_spec (w.size + n) w.out (data <<< w.size ||| w.pool)
    (by rw [hpool]; exact Bits.add_mul_lt h.small hd)
  refine ⟨hok, hbits.trans ?_⟩
  rw [hpool, Bits.ofNat_add_mul n data h.small, BitWriter.bits, List.append_assoc]

/-- The bits of the bytes written at last: those put, and what fills the last byte. -/
theorem bits_flushBits {w : BitWriter} (h : w.Ok) :
    ∃ fill, fill.length < 8 ∧ bitsOf (flushBits w).out = w.bits ++ fill := by
  unfold flushBits
  have hpart := h.part
  by_cases h0 : w.size = 0
  · refine ⟨[], by decide, ?_⟩
    simp [h0, BitWriter.bits]
  · rw [if_pos (by omega), if_pos (by omega), Nat.mod_eq_of_lt hpart]
    obtain ⟨hok, hbits⟩ := writeBits_spec h (Nat.two_pow_pos (8 - w.size))
    refine ⟨Bits.ofNat (8 - w.size) 0, by rw [Bits.length_ofNat]; omega, ?_⟩
    rw [← hbits, BitWriter.bits]
    -- a whole byte leaves the pool empty
    have hsize : (writeBits 0 (8 - w.size) w).size = 0 := by
      have hlen := congrArg List.length hbits
      have hlt := hok.part
      simp only [BitWriter.bits, List.length_append, length_bitsOf, Bits.length_ofNat] at hlen
      omega
    rw [hsize, Bits.ofNat_zero, List.append_nil]

end ChrysaLisp
