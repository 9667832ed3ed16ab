import ChrysaLisp.Streams.Lz4

set_option autoImplicit false

/-! # What the bytes of an LZ4 block say

`Lz4Coded data stop a bytes` is that the bytes say the data from `a` to `stop`, with all before `a`
to copy from. It knows of no ring. What `lz4-encode` puts is such bytes (`lz4Encode_spec`), and such
bytes are read as the data by `lz4-decode` (`lz4Decode_spec`). -/

namespace ChrysaLisp

open FlatArray

/-- The `len` bytes at `a` are those `back` before, of a length and a distance that can be said. -/
structure Lz4Repeats (data : Str) (a len back : ℕ) : Prop where
  len_le : 4 ≤ len
  back_le : 1 ≤ back ∧ back ≤ 65535
  start : back ≤ a
  same : ∀ k < len, data[a - back + k]? = data[a + k]?

/-- A turn: bytes as they are, and a match if there is one. -/
def lz4Seq (lits : Str) (back len : ℕ) : Str :=
  [Fin.ofNat 256 (min 15 lits.length <<< 4 ||| if 0 < back then min 15 (len - 4) else 0)] ++
    (if 15 ≤ lits.length then lz4More (lits.length - 15) else []) ++ lits ++
    (if 0 < back then [Fin.ofNat 256 (back &&& 255), Fin.ofNat 256 (back >>> 8)] ++
      (if 19 ≤ len then lz4More (len - 19) else []) else [])

/-- The bytes say the data from `a` to `stop`. -/
inductive Lz4Coded (data : Str) (stop : ℕ) : ℕ → Str → Prop
  | last {a : ℕ} (ha : a ≤ stop) : Lz4Coded data stop a (lz4Seq (slice data a stop) 0 0)
  | more {a m len back : ℕ} {bytes : Str} (ha : a ≤ m) (hm : m + len ≤ stop)
      (same : Lz4Repeats data m len back) (rest : Lz4Coded data stop (m + len) bytes) :
      Lz4Coded data stop a (lz4Seq (slice data a m) back len ++ bytes)

/-! ## A turn read -/

theorem lz4LenMore_more (v len : ℕ) (rest : Str) :
    lz4LenMore (lz4More v ++ rest) len = (len + v, rest) := by
  have hmany : ∀ (q len : ℕ) (r : Byte), r ≠ 255 →
      lz4LenMore (List.replicate q 255 ++ r :: rest) len = (len + 255 * q + r.val, rest) := by
    intro q
    induction q with
    | zero =>
      intro len r hr
      rw [List.replicate_zero, List.nil_append, lz4LenMore, if_neg hr, Nat.mul_zero, Nat.add_zero]
    | succ q ih =>
      intro len r hr
      rw [List.replicate_succ, List.cons_append, lz4LenMore, if_pos rfl, ih (len + 255) r hr]
      congr 1
      omega
  have hlt : v % 255 < 255 := Nat.mod_lt v (by decide)
  have hval : (Fin.ofNat 256 (v % 255) : Byte).val = v % 255 := Nat.mod_eq_of_lt (by omega)
  have hne : (Fin.ofNat 256 (v % 255) : Byte) ≠ 255 := by
    intro h
    have h255 := congrArg Fin.val h
    rw [hval] at h255
    exact absurd h255 (by show v % 255 ≠ 255; omega)
  rw [lz4More, List.append_assoc, List.singleton_append, hmany _ _ _ hne, hval]
  congr 1
  have := Nat.div_add_mod v 255
  omega

/-- A length is read as what it was. -/
theorem lz4Len_spec (n least : ℕ) (rest : Str) :
    lz4Len (min 15 n) least ((if 15 ≤ n then lz4More (n - 15) else []) ++ rest)
      = (n + least, rest) := by
  unfold lz4Len
  by_cases h : 15 ≤ n
  · rw [if_pos (by omega), if_pos h, lz4LenMore_more]
    congr 1
    omega
  · rw [if_neg (by omega), if_neg h, List.nil_append, Nat.min_eq_right (by omega)]

theorem token_nibbles {a b : ℕ} (ha : a ≤ 15) (hb : b ≤ 15) :
    (Fin.ofNat 256 (a <<< 4 ||| b) : Byte).val >>> 4 = a ∧
      (Fin.ofNat 256 (a <<< 4 ||| b) : Byte).val &&& 15 = b := by
  have hall : ∀ a < 16, ∀ b < 16, (Fin.ofNat 256 (a <<< 4 ||| b) : Byte).val >>> 4 = a ∧
      (Fin.ofNat 256 (a <<< 4 ||| b) : Byte).val &&& 15 = b := by decide +kernel
  exact hall a (by omega) b (by omega)

theorem offset_bytes {back : ℕ} (h : back ≤ 65535) :
    (Fin.ofNat 256 (back >>> 8) : Byte).val <<< 8 ||| (Fin.ofNat 256 (back &&& 255) : Byte).val
      = back := by
  have hlow : (Fin.ofNat 256 (back &&& 255) : Byte).val = back % 256 := by
    show (back &&& 255) % 256 = back % 256
    rw [show (255 : ℕ) = 2 ^ 8 - 1 from rfl, Nat.and_two_pow_sub_one_eq_mod, Nat.mod_mod]
  have hhigh : (Fin.ofNat 256 (back >>> 8) : Byte).val = back / 256 := by
    show back >>> 8 % 256 = back / 256
    rw [Nat.shiftRight_eq_div_pow]
    omega
  rw [hlow, hhigh, ← Nat.shiftLeft_add_eq_or_of_lt (by omega), Nat.shiftLeft_eq]
  omega

/-- Bytes as they are, if there are any. -/
def Lz4Decoder.puts (d : Lz4Decoder) (lits : Str) : Lz4Decoder := if lits = [] then d else d.put lits

/-- The last turn of a block. -/
theorem lz4Decode_last (turns : ℕ) (lits : Str) (d : Lz4Decoder) :
    lz4Decode (turns + 1) (lz4Seq lits 0 0) d = d.puts lits := by
  obtain ⟨hlit, -⟩ := @token_nibbles (min 15 lits.length) 0 (Nat.min_le_left _ _) (Nat.zero_le _)
  have hlen := lz4Len_spec lits.length 0 lits
  simp only [lz4Seq, Nat.lt_irrefl, if_false, List.append_nil, List.cons_append, List.nil_append]
  rw [lz4Decode]
  simp only [hlit, hlen, Nat.add_zero, List.take_length, List.drop_length]
  rfl

/-- A turn that has a match, and more after it. -/
theorem lz4Decode_more (turns : ℕ) (lits : Str) {back len : ℕ} (hback : 1 ≤ back ∧ back ≤ 65535)
    (hlen : 4 ≤ len) (rest : Str) (d : Lz4Decoder) :
    lz4Decode (turns + 1) (lz4Seq lits back len ++ rest) d
      = lz4Decode turns rest ((d.puts lits).copy back len) := by
  obtain ⟨hlit, hmatch⟩ := @token_nibbles (min 15 lits.length) (min 15 (len - 4))
    (Nat.min_le_left _ _) (Nat.min_le_left _ _)
  have hmore : (if 19 ≤ len then lz4More (len - 19) else [])
      = (if 15 ≤ len - 4 then lz4More (len - 4 - 15) else []) := by
    by_cases h : 19 ≤ len
    · rw [if_pos h, if_pos (by omega)]
      congr 1
    · rw [if_neg h, if_neg (by omega)]
  have hlits := lz4Len_spec lits.length 0 (lits ++ (Fin.ofNat 256 (back &&& 255) ::
    Fin.ofNat 256 (back >>> 8) :: ((if 19 ≤ len then lz4More (len - 19) else []) ++ rest)))
  have hlen' := lz4Len_spec (len - 4) 4 rest
  rw [← hmore, Nat.sub_add_cancel hlen] at hlen'
  have hpos : 0 < back := hback.1
  simp only [lz4Seq, if_pos hpos, List.cons_append, List.append_assoc, List.nil_append]
  rw [lz4Decode]
  simp only [hlit, hmatch, hlits, Nat.add_zero, List.take_left, List.drop_left, hlen',
    offset_bytes hback.2]
  rfl

/-! ## A block read -/

section Decode

variable {data : Str} {w : ℕ} {d : Lz4Decoder}

/-- The data as far as the decoder has come is in its ring. -/
structure Lz4Decoder.Shows (data : Str) (w : ℕ) (d : Lz4Decoder) : Prop where
  ring : Ring.Holds w d.ring (data.take d.pos)
  pos : d.pos ≤ data.length

theorem Lz4Decoder.Shows.length_take (h : d.Shows data w) : (data.take d.pos).length = d.pos := by
  rw [List.length_take, Nat.min_eq_left h.pos]

/-- The data as far as one part of it, and then as far as another. -/
theorem take_append_slice (data : Str) {a b : ℕ} (h : a ≤ b) :
    data.take a ++ slice data a b = data.take b := by
  rw [slice, ← List.take_add, Nat.add_sub_cancel' h]

theorem Lz4Decoder.Shows.put (h : d.Shows data w) (hw : 0 < w) {m : ℕ} (hm : d.pos ≤ m)
    (hroom : m ≤ d.pos + w) (hdata : m ≤ data.length) :
    (d.put (slice data d.pos m)).Shows data w ∧ (d.put (slice data d.pos m)).pos = m := by
  have hlen : (slice data d.pos m).length = m - d.pos := length_slice_of_le hdata
  have hpos : (d.put (slice data d.pos m)).pos = m := by
    show d.pos + (slice data d.pos m).length = m
    omega
  have hput := h.ring.write (m := slice data d.pos m) hw (by omega)
  rw [h.length_take, take_append_slice data hm] at hput
  refine ⟨⟨?_, hpos.trans_le hdata⟩, hpos⟩
  rw [hpos]
  show Ring.Holds w (Ring.write d.ring (d.pos % d.ring.length) _) _
  rw [h.ring.length]
  exact hput

theorem Lz4Decoder.Shows.puts (h : d.Shows data w) (hw : 0 < w) {m : ℕ} (hm : d.pos ≤ m)
    (hroom : m ≤ d.pos + w) (hdata : m ≤ data.length) :
    (d.puts (slice data d.pos m)).Shows data w ∧ (d.puts (slice data d.pos m)).pos = m := by
  unfold Lz4Decoder.puts
  by_cases hnil : slice data d.pos m = []
  · have hlen := length_slice_of_le (i := d.pos) hdata
    rw [hnil, List.length_nil] at hlen
    rw [if_pos hnil]
    exact ⟨h, by omega⟩
  · rw [if_neg hnil]
    exact h.put hw hm hroom hdata

/-- One byte more. -/
theorem Lz4Decoder.Shows.byte (h : d.Shows data w) (hw : 0 < w) {c : Byte}
    (hc : data[d.pos]? = some c) (touched : List (ℕ × ℕ)) :
    Lz4Decoder.Shows data w ⟨d.ring.set (d.pos % d.ring.length) c, d.pos + 1, touched⟩ := by
  obtain ⟨hlt, -⟩ := List.getElem?_eq_some_iff.mp hc
  have hset := h.ring.set hw c
  rw [h.length_take] at hset
  refine ⟨?_, hlt⟩
  show Ring.Holds w (d.ring.set (d.pos % d.ring.length) c) (data.take (d.pos + 1))
  rw [h.ring.length, List.take_add_one, hc]
  exact hset

/-- The byte of the ring that is so far back. -/
theorem Lz4Decoder.Shows.back (h : d.Shows data w) {back : ℕ} (h1 : 1 ≤ back) (hback : back ≤ d.pos)
    (hring : back ≤ w) :
    data[d.pos - back]?
      = some (d.ring.getD (((d.pos : ℤ) - back) % d.ring.length).toNat 0) := by
  have hcell : (((d.pos : ℤ) - back) % d.ring.length).toNat = (d.pos - back) % d.ring.length := by
    rw [← Nat.cast_sub hback]
    norm_cast
  rw [hcell]
  exact ringElem_eq h.ring h.pos (by omega) (by omega)

/-- Bytes that are the same as those before, copied from there one at a time. -/
theorem Lz4Decoder.Shows.copyBytes (hw : 0 < w) {back : ℕ} (h1 : 1 ≤ back) (hring : back ≤ w) (n : ℕ) :
    ∀ d : Lz4Decoder, d.Shows data w → back ≤ d.pos → d.pos + n ≤ data.length →
      (∀ k < n, data[d.pos - back + k]? = data[d.pos + k]?) →
      (Lz4Decoder.copyBytes (d.pos - back) n d).Shows data w ∧
        (Lz4Decoder.copyBytes (d.pos - back) n d).pos = d.pos + n := by
  induction n with
  | zero => exact fun d h _ _ _ => ⟨h, rfl⟩
  | succ n ih =>
    intro d h hback hfits hsame
    have hnext := hsame 0 (Nat.succ_pos n)
    rw [Nat.add_zero, Nat.add_zero, h.back h1 hback hring] at hnext
    rw [Lz4Decoder.copyBytes]
    have hshows := h.byte hw hnext.symm (d.touched ++
      [((((d.pos : ℤ) - back) % d.ring.length).toNat, 1), (d.pos % d.ring.length, 1)])
    have hmove : (d.pos : ℤ) - back + 1 = ((d.pos + 1 : ℕ) : ℤ) - back := by
      push_cast
      ring
    rw [hmove]
    obtain ⟨hnow, hpos⟩ := ih _ hshows (Nat.le_succ_of_le hback) (by show d.pos + 1 + n ≤ _; omega)
      (fun k hk => by
        have hk' := hsame (k + 1) (by omega)
        show data[d.pos + 1 - back + k]? = data[d.pos + 1 + k]?
        rw [show d.pos + 1 - back + k = d.pos - back + (k + 1) by omega,
          show d.pos + 1 + k = d.pos + (k + 1) by omega]
        exact hk')
    refine ⟨hnow, hpos.trans ?_⟩
    show d.pos + 1 + n = d.pos + (n + 1)
    omega

/-- A match is copied as what it repeats. -/
theorem Lz4Decoder.Shows.copy (h : d.Shows data w) {len back : ℕ}
    (hsame : Lz4Repeats data d.pos len back) (hw : 65535 ≤ w) (hfits : d.pos + len ≤ data.length) :
    (d.copy back len).Shows data w ∧ (d.copy back len).pos = d.pos + len := by
  have hlen4 := hsame.len_le
  obtain ⟨h1, hle⟩ := hsame.back_le
  have hstart := hsame.start
  unfold Lz4Decoder.copy
  by_cases hall : len ≤ back
  · rw [if_pos hall]
    refine ⟨⟨?_, hfits⟩, rfl⟩
    have hcell : (((d.pos : ℤ) - back) % d.ring.length).toNat = (d.pos - back) % w := by
      rw [← Nat.cast_sub hstart, h.ring.length]
      norm_cast
    have hread := h.ring.read (a := d.pos - back) (n := len) (by omega)
      (by rw [h.length_take]; omega) (by rw [h.length_take]; omega)
    -- what is so far back is what comes next
    have hpart : slice (data.take d.pos) (d.pos - back) (d.pos - back + len)
        = slice data d.pos (d.pos + len) := by
      apply List.ext_getElem?
      intro k
      rw [getElem?_slice, getElem?_slice]
      by_cases hk : k < len
      · rw [if_pos (by omega), if_pos (by omega), List.getElem?_take_of_lt (by omega)]
        exact hsame.same k hk
      · rw [if_neg (by omega), if_neg (by omega)]
    have hlen : (slice data d.pos (d.pos + len)).length = len := by
      rw [length_slice_of_le hfits]
      omega
    have hput := h.ring.write (m := slice data d.pos (d.pos + len)) (by omega) (by omega)
    rw [h.length_take, take_append_slice data (by omega)] at hput
    show Ring.Holds w (Ring.write d.ring (d.pos % d.ring.length) (Ring.read d.ring
      (((d.pos : ℤ) - back) % d.ring.length).toNat len)) (data.take (d.pos + len))
    rw [hcell, hread, hpart, h.ring.length]
    exact hput
  · rw [if_neg hall]
    exact Lz4Decoder.Shows.copyBytes (by omega) h1 (by omega) len d h hstart hfits hsame.same

/-- **What is said is what is read**: bytes that say the data from where the decoder is are read as
that data. -/
theorem lz4Decode_spec {stop a : ℕ} {bytes : Str} (hcoded : Lz4Coded data stop a bytes)
    (hw : 65535 ≤ w) (hdata : stop ≤ data.length) :
    ∀ (turns : ℕ) (d : Lz4Decoder), bytes.length ≤ turns → d.Shows data w → d.pos = a →
      stop ≤ a + w →
      (lz4Decode turns bytes d).Shows data w ∧ (lz4Decode turns bytes d).pos = stop := by
  have hone : ∀ (lits : Str) (back len : ℕ), 0 < (lz4Seq lits back len).length := by
    intro lits back len
    simp [lz4Seq]
  induction hcoded with
  | last ha =>
    intro turns d hturns h hpos hroom
    subst hpos
    obtain ⟨turns, rfl⟩ := Nat.exists_eq_succ_of_ne_zero
      (Nat.pos_iff_ne_zero.mp ((hone (slice data d.pos stop) 0 0).trans_le hturns))
    rw [lz4Decode_last]
    exact h.puts (by omega) ha hroom hdata
  | @more a m len back bytes ha hm hsame _ ih =>
    intro turns d hturns h hpos hroom
    subst hpos
    rw [List.length_append] at hturns
    have hfirst := hone (slice data d.pos m) back len
    obtain ⟨turns, rfl⟩ := Nat.exists_eq_succ_of_ne_zero
      (Nat.pos_iff_ne_zero.mp (show 0 < turns by omega))
    rw [lz4Decode_more turns _ hsame.back_le hsame.len_le]
    obtain ⟨hputs, hat⟩ := h.puts (show 0 < w by omega) ha (by omega) (by omega)
    obtain ⟨hcopied, hnow⟩ := hputs.copy (by rw [hat]; exact hsame) hw (by omega)
    rw [hat] at hnow
    exact ih turns _ (by omega) hcopied hnow (by omega)

end Decode

/-! ## A block written -/

section Encode

variable {data ring : Str} {w pos stop : ℕ}

theorem uint_of_lt {n : ℕ} (h : n < 4294967296) : uint n = n := by
  unfold uint
  omega

/-- Four bytes that are one number are the same bytes. -/
theorem ringElem_of_readUint32 {a b : ℕ} (h : readUint32 ring a = readUint32 ring b) :
    ∀ n < 4, ringElem ring (a + n) = ringElem ring (b + n) := by
  unfold readUint32 at h
  simp only [Nat.shiftLeft_eq] at h
  have hlt := fun p => (ringElem ring p).isLt
  have ha := And.intro (hlt a) (And.intro (hlt (a + 1)) (And.intro (hlt (a + 2)) (hlt (a + 3))))
  have hb := And.intro (hlt b) (And.intro (hlt (b + 1)) (And.intro (hlt (b + 2)) (hlt (b + 3))))
  have hall : ringElem ring a = ringElem ring b ∧ ringElem ring (a + 1) = ringElem ring (b + 1) ∧
      ringElem ring (a + 2) = ringElem ring (b + 2) ∧ ringElem ring (a + 3) = ringElem ring (b + 3) := by
    refine ⟨Fin.ext ?_, Fin.ext ?_, Fin.ext ?_, Fin.ext ?_⟩ <;> omega
  intro n hn
  match n, hn with
  | 0, _ => exact hall.1
  | 1, _ => exact hall.2.1
  | 2, _ => exact hall.2.2.1
  | 3, _ => exact hall.2.2.2

/-- A part of the data that is in the ring of a block. -/
theorem read_ring (hring : Ring.Holds w ring (data.take stop)) (hstop : stop ≤ data.length)
    {a m : ℕ} (ham : a ≤ m) (hm : m ≤ stop) (hnear : stop ≤ a + w) (hw : 0 < w) :
    Ring.read ring (a % ring.length) (m - a) = slice data a m := by
  have hlen : (data.take stop).length = stop := by rw [List.length_take, Nat.min_eq_left hstop]
  rw [hring.length, hring.read hw (by omega) (by omega), Nat.add_sub_cancel' ham]
  apply List.ext_getElem?
  intro k
  rw [getElem?_slice, getElem?_slice]
  by_cases hk : a + k < m
  · rw [if_pos hk, if_pos hk, List.getElem?_take_of_lt (by omega)]
  · rw [if_neg hk, if_neg hk]

/-- What the subroutine puts is a turn. -/
theorem lz4Literals_eq (hring : Ring.Holds w ring (data.take stop)) (hstop : stop ≤ data.length)
    {a m : ℕ} (ham : a ≤ m) (hm : m ≤ stop) (hnear : stop ≤ a + w) (hw : 0 < w) (back len : ℕ) :
    lz4Literals ring a (m - a) back len = lz4Seq (slice data a m) back len := by
  have hlen : (slice data a m).length = m - a := length_slice_of_le (hm.trans hstop)
  have hlits : (if 0 < m - a then Ring.read ring (a % ring.length) (m - a) else [])
      = slice data a m := by
    by_cases hpos : 0 < m - a
    · rw [if_pos hpos, read_ring hring hstop ham hm hnear hw]
    · rw [if_neg hpos]
      exact (List.length_eq_zero_iff.mp (by omega)).symm
  unfold lz4Literals lz4Seq
  simp only [hlits, hlen]

/-- Where the turns of a block have come to: what they have put says the data as far as the anchor,
whatever comes after it says from there on. -/
structure Lz4Turns.Says (data : Str) (stop pos : ℕ) (t : Lz4Turns) : Prop where
  start : pos ≤ t.anchor
  anchor : t.anchor ≤ t.i
  inside : t.i ≤ stop
  table : HashBefore t.table t.i
  told : ∀ bytes, Lz4Coded data stop t.anchor bytes → Lz4Coded data stop pos (t.out ++ bytes)

/-- A match that is said is one. -/
theorem lz4_repeats (hring : Ring.Holds w ring (data.take stop)) (hstop : stop ≤ data.length)
    {i m limit : ℕ} (hm : m < i) (hback : i - m ≤ 65535) (hnear : stop ≤ m + w)
    (hi : i + 4 ≤ limit) (hlimit : limit ≤ stop) (hsame : readUint32 ring i = readUint32 ring m) :
    Lz4Repeats data i (matchLen ring m i (limit - (i + 4)) 4) (i - m) ∧
      i + matchLen ring m i (limit - (i + 4)) 4 ≤ limit := by
  have hfour := ringElem_of_readUint32 hsame.symm
  have hlen4 : ∀ k j, j ≤ matchLen ring m i k j := by
    intro k
    induction k with
    | zero => exact fun j => le_rfl
    | succ k ih =>
      intro j
      rw [matchLen]
      split
      · exact le_rfl
      · exact (Nat.le_succ j).trans (ih (j + 1))
  obtain ⟨hle, hall⟩ := matchLen_spec ring m i (limit - (i + 4)) 4 hfour
  have hlen := hlen4 (limit - (i + 4)) 4
  generalize matchLen ring m i (limit - (i + 4)) 4 = len at hle hall hlen ⊢
  refine ⟨⟨hlen, ⟨by omega, hback⟩, by omega, ?_⟩, by omega⟩
  intro k hk
  rw [show i - (i - m) + k = m + k by omega, ringElem_eq hring hstop (by omega) (by omega),
    ringElem_eq hring hstop (by omega) (by omega), hall k hk]

/-- A turn goes on saying the data, in a block that ends before 32 bits do. -/
theorem lz4Turn_told (hring : Ring.Holds w ring (data.take stop)) (hstop : stop ≤ data.length)
    (hnear : stop + 65535 ≤ pos + w) (hbits : stop ≤ 4294967296) {limit : ℕ} {t : Lz4Turns}
    (h : t.Says data stop pos) (hi : t.i + 4 < limit) (hlimit : limit < stop) :
    (lz4Turn ring limit t).Says data stop pos := by
  have hstart := h.start
  have hanchor := h.anchor
  have hplace := h.table.getD (lz4Slot (readUint32 ring t.i))
  have htable := h.table.set (lz4Slot (readUint32 ring t.i))
  unfold lz4Turn
  dsimp only
  generalize t.table.getD (lz4Slot (readUint32 ring t.i)) (-65536) = mPos at hplace ⊢
  by_cases hmatch : (t.i : ℤ) - mPos ≤ 65535 ∧ readUint32 ring t.i = readUint32 ring mPos.toNat
  · rw [if_pos hmatch]
    obtain ⟨hback, hsame⟩ := hmatch
    -- no place is 65536 before the start, so no match is found at it
    have hm : 0 ≤ mPos ∧ mPos < t.i := by
      rcases hplace with hnone | hplace
      · omega
      · exact hplace
    obtain ⟨m, rfl⟩ := Int.eq_ofNat_of_zero_le hm.1
    rw [Int.toNat_natCast] at hsame ⊢
    obtain ⟨hrepeats, hfits⟩ := lz4_repeats hring hstop (show m < t.i by omega) (by omega)
      (by omega) hi.le hlimit.le hsame
    have hlen4 := hrepeats.len_le
    generalize matchLen ring m t.i (limit - (t.i + 4)) 4 = len at hrepeats hfits hlen4 ⊢
    have hnext := @uint_of_lt (t.i + len) (by omega)
    have hlit := @uint_of_lt (t.i - t.anchor) (by omega)
    have hdist := @uint_of_lt (t.i - m) (by omega)
    rw [Nat.cast_sub hanchor] at hlit
    rw [Nat.cast_sub (show m ≤ t.i by omega)] at hdist
    push_cast at hnext
    rw [hnext, hlit, hdist, lz4Literals_eq hring hstop hanchor h.inside (by omega) (by omega)]
    refine ⟨by show pos ≤ t.i + len; omega, le_rfl, by show t.i + len ≤ stop; omega,
      htable.mono (by show t.i + 1 ≤ t.i + len; omega), fun bytes hbytes => ?_⟩
    rw [List.append_assoc]
    exact h.told _ (Lz4Coded.more hanchor (by omega) hrepeats hbytes)
  · rw [if_neg hmatch]
    have huint := @uint_of_lt (t.i + 1) (by omega)
    push_cast at huint
    rw [huint]
    exact ⟨hstart, Nat.le_succ_of_le hanchor, by show t.i + 1 ≤ stop; omega, htable, h.told⟩

/-- The turns of a block, however many of them are made. -/
theorem lz4Loop_told (hring : Ring.Holds w ring (data.take stop)) (hstop : stop ≤ data.length)
    (hnear : stop + 65535 ≤ pos + w) (hbits : stop ≤ 4294967296) {endLimit limit : ℕ}
    (hlimit : endLimit ≤ pos ∨ (endLimit + 4 ≤ limit ∧ limit < stop)) (turns : ℕ) :
    ∀ t : Lz4Turns, t.Says data stop pos →
      (lz4Loop ring endLimit limit turns t).Says data stop pos := by
  induction turns with
  | zero => exact fun t h => h
  | succ turns ih =>
    intro t h
    rw [lz4Loop]
    by_cases hi : t.i < endLimit
    · rw [if_pos hi]
      have hstart := h.start
      have hanchor := h.anchor
      rcases hlimit with hnone | ⟨hend, hlt⟩
      · omega
      · exact ih _ (lz4Turn_told hring hstop hnear hbits h (by omega) hlt)
    · rw [if_neg hi]
      exact h

/-- Between blocks: the ring has what was before, and the hash no place after it. -/
structure Lz4Encoder.Between (data : Str) (w : ℕ) (e : Lz4Encoder) : Prop where
  ring : Ring.Holds w e.ring (data.take e.pos)
  table : HashBefore e.table e.pos
  pos : e.pos ≤ data.length

/-- **What is put of a block says it**, where the block ends before 32 bits do. -/
theorem lz4Encode_spec {e : Lz4Encoder} (h : e.Between data w) {chunk rest : Str}
    (hdata : data.drop e.pos = chunk ++ rest) (hne : chunk ≠ [])
    (hsmall : chunk.length < 4294967296) (hroom : chunk.length + 65535 ≤ w)
    (hbits : e.pos + chunk.length ≤ 4294967296) :
    Lz4Coded data (e.pos + chunk.length) e.pos (lz4Encode e chunk).1 ∧
      (lz4Encode e chunk).2.Between data w := by
  have hpos := h.pos
  have hlen : (data.take e.pos).length = e.pos := by rw [List.length_take, Nat.min_eq_left hpos]
  have hchunk : 0 < chunk.length := List.length_pos_iff.mpr hne
  have hstop : e.pos + chunk.length ≤ data.length := by
    have hcut := congrArg List.length hdata
    rw [List.length_drop, List.length_append] at hcut
    omega
  have hring : Ring.Holds w (copyToRing e.ring e.pos chunk) (data.take (e.pos + chunk.length)) := by
    have hput := h.ring.write (m := chunk) (by omega) (by omega)
    rw [hlen] at hput
    rw [take_add_of_drop hdata, copyToRing, h.ring.length]
    exact hput
  have hstart : uint (e.pos : ℤ) = e.pos := uint_of_lt (by omega)
  set endLimit := if 12 ≤ chunk.length then uint (e.pos + chunk.length - 12) else uint e.pos
    with hend
  set limit := if 12 ≤ chunk.length then uint (e.pos + chunk.length - 5) else uint e.pos with hlimit
  have hbefore : endLimit ≤ e.pos ∨ (endLimit + 4 ≤ limit ∧ limit < e.pos + chunk.length) := by
    rw [hend, hlimit]
    by_cases hlong : 12 ≤ chunk.length
    · rw [if_pos hlong, if_pos hlong]
      unfold uint
      omega
    · rw [if_neg hlong, hstart]
      exact Or.inl le_rfl
  have hrun := lz4Loop_told hring hstop (by omega) hbits hbefore chunk.length
    ⟨uint e.pos, e.pos, e.table, []⟩
    ⟨le_rfl, by rw [hstart], by show uint e.pos ≤ _; omega,
      by show HashBefore e.table (uint e.pos); rw [hstart]; exact h.table, fun _ hb => hb⟩
  unfold lz4Encode
  dsimp only
  rw [← hend, ← hlimit]
  generalize lz4Loop (copyToRing e.ring e.pos chunk) endLimit limit chunk.length
    ⟨uint e.pos, e.pos, e.table, []⟩ = t at hrun ⊢
  have hanchor := hrun.start
  have hinside := hrun.anchor.trans hrun.inside
  have hlit := @uint_of_lt (e.pos + chunk.length - t.anchor) (by omega)
  rw [Nat.cast_sub hinside] at hlit
  push_cast at hlit
  rw [hlit, lz4Literals_eq hring hstop hinside le_rfl (by omega) (by omega)]
  exact ⟨hrun.told _ (Lz4Coded.last hinside), hring, hrun.table.mono hrun.inside, hstop⟩

end Encode

end ChrysaLisp
