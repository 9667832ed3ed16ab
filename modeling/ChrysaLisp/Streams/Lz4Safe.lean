import ChrysaLisp.Streams.Lz4Frame

set_option autoImplicit false

/-! # LZ4 of any bytes

What `(lz4-decompress)` does with a stream whatever its bytes. The frame is said first with no ring:
the blocks there are in it and how it stops (`lz4Parts`). What is read is those blocks one after
another (`lz4Frame_eq`), so what a block keeps all of them do: no part of the ring that
`(lz4-read)` and `(lz4-decode)` touch is past its end (`lz4Decode_inside`), and none that
`(lz4-write)` reads, where the block is no more than the ring holds.

A stream that stops where a size is to be read is at its end, by the loop, whatever it said before:
it is not `:nil` that says so. -/

namespace ChrysaLisp

/-! ## Parts of the ring -/

/-- Every part is in a ring of so many cells. -/
def InRing (w : ℕ) (parts : List (ℕ × ℕ)) : Prop := ∀ p ∈ parts, p.1 + p.2 ≤ w

@[simp] theorem inRing_nil (w : ℕ) : InRing w [] := fun _ h => absurd h List.not_mem_nil

@[simp] theorem inRing_cons (w : ℕ) (p : ℕ × ℕ) (parts : List (ℕ × ℕ)) :
    InRing w (p :: parts) ↔ p.1 + p.2 ≤ w ∧ InRing w parts := List.forall_mem_cons

@[simp] theorem inRing_append (w : ℕ) (parts more : List (ℕ × ℕ)) :
    InRing w (parts ++ more) ↔ InRing w parts ∧ InRing w more := List.forall_mem_append

/-- What is no more than the ring, cut where it ends, is in it. -/
theorem inRing_cutParts {w start n : ℕ} (hstart : start ≤ w) (hn : n ≤ w) :
    InRing w (cutParts w start n) := by
  unfold cutParts
  by_cases h : w < start + n
  · rw [if_pos h, inRing_cons, inRing_cons]
    exact ⟨by show start + (w - start) ≤ w; omega, by show 0 + (start + n - w) ≤ w; omega,
      inRing_nil w⟩
  · rw [if_neg h, inRing_cons]
    exact ⟨by show start + n ≤ w; omega, inRing_nil w⟩

theorem toNat_emod_lt (m : ℤ) {w : ℕ} (hw : 0 < w) : (m % w).toNat < w := by
  have hnonneg := Int.emod_nonneg m (show (w : ℤ) ≠ 0 by omega)
  have hlt := Int.emod_lt_of_pos m (show (0 : ℤ) < w by omega)
  omega

/-! ## A block -/

namespace Lz4Decoder

/-- The decoder has the ring it was given, and has touched nothing past its end. -/
structure Inside (w : ℕ) (d : Lz4Decoder) : Prop where
  length : d.ring.length = w
  touched : InRing w d.touched

variable {w : ℕ} {d : Lz4Decoder}

theorem Inside.put (h : d.Inside w) (hw : 0 < w) {m : Str} (hm : m.length ≤ w) :
    (d.put m).Inside w := by
  have hlen := h.length
  have hstart : d.pos % d.ring.length ≤ d.ring.length := (Nat.mod_lt _ (by omega)).le
  refine ⟨(Ring.length_write hstart (by omega)).trans h.length, ?_⟩
  show InRing w (d.touched ++ cutParts d.ring.length (d.pos % d.ring.length) m.length)
  rw [h.length, inRing_append]
  exact ⟨h.touched, inRing_cutParts (Nat.mod_lt _ hw).le hm⟩

theorem Inside.copyBytes (hw : 0 < w) (n : ℕ) : ∀ (m : ℤ) (d : Lz4Decoder), d.Inside w →
    (Lz4Decoder.copyBytes m n d).Inside w := by
  induction n with
  | zero => exact fun m d h => h
  | succ n ih =>
    intro m d h
    have hcell : (m % d.ring.length).toNat < w := by
      rw [h.length]
      exact toNat_emod_lt m hw
    have hto : d.pos % d.ring.length < w := by
      rw [h.length]
      exact Nat.mod_lt _ hw
    refine ih (m + 1) _ ⟨List.length_set.trans h.length, ?_⟩
    rw [inRing_append, inRing_cons, inRing_cons]
    exact ⟨h.touched, hcell, hto, inRing_nil w⟩

/-- All at once, both ends cut where the ring ends. -/
theorem Inside.copyIn (h : d.Inside w) (hw : 0 < w) (m : ℤ) {n : ℕ} (hn : n ≤ w) :
    (d.copyIn m n).Inside w := by
  have hcell : (m % w).toNat < w := toNat_emod_lt m hw
  have hto : d.pos % w < w := Nat.mod_lt _ hw
  have hlen := h.length
  have hread := Ring.length_read_le d.ring (m % d.ring.length).toNat n
  have hstart : d.pos % d.ring.length ≤ d.ring.length := (Nat.mod_lt _ (by omega)).le
  refine ⟨(Ring.length_write hstart (by omega)).trans h.length, ?_⟩
  unfold Lz4Decoder.copyIn
  dsimp only
  rw [h.length, inRing_append]
  refine ⟨h.touched, ?_⟩
  by_cases hcut : w < (m % w).toNat + n
  · have hnext : (if w < d.pos % w + (w - (m % w).toNat) then d.pos % w + (w - (m % w).toNat) - w
        else d.pos % w + (w - (m % w).toNat)) ≤ w := by
      split <;> omega
    rw [if_pos hcut, inRing_append, inRing_cons, inRing_cons]
    exact ⟨⟨by show (m % w).toNat + (w - (m % w).toNat) ≤ w; omega,
      inRing_cutParts hto.le (by omega)⟩, by show 0 + (n - (w - (m % w).toNat)) ≤ w; omega,
      inRing_cutParts hnext (by omega)⟩
  · rw [if_neg hcut, inRing_cons]
    exact ⟨by show (m % w).toNat + n ≤ w; omega, inRing_cutParts hto.le hn⟩

/-- A match is as far back as two bytes say, so one that does not reach into itself is no longer. -/
theorem Inside.copy (h : d.Inside w) (hw : 65535 ≤ w) {offset : ℕ} (hoffset : offset ≤ 65535)
    (n : ℕ) : (d.copy offset n).Inside w := by
  unfold Lz4Decoder.copy
  by_cases hall : n ≤ offset
  · rw [if_pos hall]
    exact h.copyIn (by omega) _ (by omega)
  · rw [if_neg hall]
    exact Inside.copyBytes (by omega) n _ d h

end Lz4Decoder

/-- What is left when a length has been read is no more than there was. -/
theorem length_lz4Len (nibble least : ℕ) (rest : Str) :
    (lz4Len nibble least rest).2.length ≤ rest.length := by
  have hmore : ∀ (rest : Str) (len : ℕ), (lz4LenMore rest len).2.length ≤ rest.length := by
    intro rest
    induction rest with
    | nil => exact fun len => le_rfl
    | cons v rest ih =>
      intro len
      rw [lz4LenMore]
      by_cases hv : v = 255
      · rw [if_pos hv]
        exact (ih _).trans (Nat.le_succ _)
      · rw [if_neg hv]
        exact Nat.le_succ _
  unfold lz4Len
  by_cases h : nibble = 15
  · rw [if_pos h]
    exact hmore rest _
  · rw [if_neg h]

theorem two_bytes_le (low high : Byte) : high.val <<< 8 ||| low.val ≤ 65535 := by
  have hlow := low.isLt
  have hhigh := high.isLt
  rw [← Nat.shiftLeft_add_eq_or_of_lt (show low.val < 2 ^ 8 from hlow), Nat.shiftLeft_eq]
  omega

/-- **No part of the ring that a block touches is past its end**, whatever its bytes are. -/
theorem lz4Decode_inside {w : ℕ} (hw : 65535 ≤ w) (turns : ℕ) : ∀ (chunk : Str) (d : Lz4Decoder),
    chunk.length ≤ w → d.Inside w → (lz4Decode turns chunk d).Inside w := by
  induction turns with
  | zero => exact fun chunk d _ h => h
  | succ turns ih =>
    intro chunk d hchunk h
    cases chunk with
    | nil => exact h
    | cons token chunk =>
      rw [List.length_cons] at hchunk
      have hlen := length_lz4Len (token.val >>> 4) 0 chunk
      rw [lz4Decode]
      generalize lz4Len (token.val >>> 4) 0 chunk = lit at hlen ⊢
      have hput : (if lit.2.take lit.1 = [] then d else d.put (lit.2.take lit.1)).Inside w := by
        by_cases hnil : lit.2.take lit.1 = []
        · rw [if_pos hnil]
          exact h
        · rw [if_neg hnil]
          refine h.put (by omega) ?_
          rw [List.length_take]
          omega
      have hdrop : (lit.2.drop lit.1).length ≤ lit.2.length := by
        rw [List.length_drop]
        omega
      dsimp only
      generalize lit.2.drop lit.1 = rest at hdrop
      cases rest with
      | nil => exact hput
      | cons low rest =>
        cases rest with
        | nil => exact hput
        | cons high rest =>
          have hmatch := length_lz4Len (token.val &&& 15) 4 rest
          rw [List.length_cons, List.length_cons] at hdrop
          exact ih _ _ (by omega) (hput.copy hw (two_bytes_le low high) _)

/-- How many bytes a block says. -/
def lz4Says : (turns : ℕ) → Str → ℕ
  | 0, _ => 0
  | _ + 1, [] => 0
  | turns + 1, token :: chunk =>
    let lit := lz4Len (token.val >>> 4) 0 chunk
    (lit.2.take lit.1).length +
      match lit.2.drop lit.1 with
      | _ :: _ :: rest =>
        let len := lz4Len (token.val &&& 15) 4 rest
        len.1 + lz4Says turns len.2
      | _ => 0

theorem Lz4Decoder.pos_copy (d : Lz4Decoder) (offset n : ℕ) : (d.copy offset n).pos = d.pos + n := by
  have hbytes : ∀ (n : ℕ) (m : ℤ) (d : Lz4Decoder), (Lz4Decoder.copyBytes m n d).pos = d.pos + n := by
    intro n
    induction n with
    | zero => exact fun m d => rfl
    | succ n ih =>
      intro m d
      rw [Lz4Decoder.copyBytes, ih]
      show d.pos + 1 + n = d.pos + (n + 1)
      omega
  unfold Lz4Decoder.copy
  by_cases h : n ≤ offset
  · rw [if_pos h]
    rfl
  · rw [if_neg h, hbytes]

/-- The place goes on by as many bytes as the block says. -/
theorem pos_lz4Decode (turns : ℕ) : ∀ (chunk : Str) (d : Lz4Decoder),
    (lz4Decode turns chunk d).pos = d.pos + lz4Says turns chunk := by
  induction turns with
  | zero => exact fun chunk d => rfl
  | succ turns ih =>
    intro chunk d
    cases chunk with
    | nil => rfl
    | cons token chunk =>
      rw [lz4Decode, lz4Says]
      generalize lz4Len (token.val >>> 4) 0 chunk = lit
      have hput : (if lit.2.take lit.1 = [] then d else d.put (lit.2.take lit.1)).pos
          = d.pos + (lit.2.take lit.1).length := by
        by_cases hnil : lit.2.take lit.1 = []
        · rw [if_pos hnil, hnil]
          rfl
        · rw [if_neg hnil]
          rfl
      dsimp only
      generalize lit.2.drop lit.1 = rest
      cases rest with
      | nil => exact hput
      | cons low rest =>
        cases rest with
        | nil => exact hput
        | cons high rest =>
          rw [ih, Lz4Decoder.pos_copy, hput, Nat.add_assoc, Nat.add_assoc]

/-- A turn takes a byte or more, so as many turns as there are bytes are all there are. -/
theorem lz4Decode_turns (turns more : ℕ) : ∀ (chunk : Str) (d : Lz4Decoder), chunk.length ≤ turns →
    lz4Decode (turns + more) chunk d = lz4Decode turns chunk d := by
  induction turns with
  | zero =>
    intro chunk d h
    rw [List.length_eq_zero_iff.mp (Nat.le_zero.mp h)]
    cases 0 + more <;> rfl
  | succ turns ih =>
    intro chunk d h
    rw [Nat.add_right_comm]
    cases chunk with
    | nil => rfl
    | cons token chunk =>
      rw [List.length_cons] at h
      have hlen := length_lz4Len (token.val >>> 4) 0 chunk
      rw [lz4Decode, lz4Decode]
      generalize lz4Len (token.val >>> 4) 0 chunk = lit at hlen ⊢
      have hdrop : (lit.2.drop lit.1).length ≤ lit.2.length := by
        rw [List.length_drop]
        omega
      dsimp only
      generalize lit.2.drop lit.1 = rest at hdrop
      cases rest with
      | nil => rfl
      | cons low rest =>
        cases rest with
        | nil => rfl
        | cons high rest =>
          have hmatch := length_lz4Len (token.val &&& 15) 4 rest
          rw [List.length_cons, List.length_cons] at hdrop
          exact ih _ _ (by omega)

/-! ## A frame -/

/-- A block of a frame: as it is or packed, how long it is said to be, and what there is of it. -/
structure Lz4Part where
  raw : Bool
  len : ℕ
  bytes : Str

/-- How many bytes it is of the stream. -/
def Lz4Part.told (b : Lz4Part) : ℕ := if b.raw then b.len else lz4Says b.len b.bytes

/-- How a frame stops: it is none, at its end mark, where there is not a size, at a block that is
said to be more than it may be, or at one that is packed and not there. -/
inductive Lz4Stop where
  | head
  | mark
  | short
  | big
  | missing
  deriving DecidableEq

/-- What comes of it. -/
def Lz4Stop.ended : Lz4Stop → Lz4Ended
  | head => .returned false
  | mark => .returned true
  | short => .returned true
  | big => .returned false
  | missing => .threw

theorem Lz4Stop.ended_eq_nil (stop : Lz4Stop) :
    stop.ended = .returned false ↔ stop = head ∨ stop = big := by
  cases stop <;> decide

theorem Lz4Stop.ended_eq_threw (stop : Lz4Stop) : stop.ended = .threw ↔ stop = missing := by
  cases stop <;> decide

/-- The blocks there are, and how they stop. -/
def lz4Parts (most : ℕ) (sums : Bool) : (turns : ℕ) → Str → List Lz4Part × Lz4Stop
  | 0, _ => ([], .short)
  | turns + 1, s =>
    match readInt s with
    | none => ([], .short)
    | some (size, s) =>
      if size = 0 then ([], .mark)
      else
        let len := size &&& 0x7fffffff
        let next := lz4Parts most sums turns ((s.drop len).drop (if sums then 4 else 0))
        if most < len then ([], .big)
        else if size.testBit 31 then (⟨true, len, s.take len⟩ :: next.1, next.2)
        else if s = [] then ([], .missing)
        else (⟨false, len, s.take len⟩ :: next.1, next.2)

/-- What the head of a frame says: the most a block may be, whether a sum is after each, and what
comes after the head. -/
def lz4Head (s : Str) : Option (ℕ × Bool × Str) :=
  match readInt s with
  | some (magic, flg :: bd :: s) =>
    if magic = lz4Magic ∧ flg.val &&& 0xc0 = 0x40 then
      some (1 <<< (8 + 2 * (bd.val >>> 4 &&& 7)), flg.val.testBit 4,
        ((s.drop (if flg.val.testBit 3 then 8 else 0)).drop
          (if flg.val.testBit 0 then 4 else 0)).drop 1)
    else none
  | _ => none

/-- What a stream says, with no ring. -/
def lz4Said (s : Str) : List Lz4Part × Lz4Stop :=
  match lz4Head s with
  | none => ([], .head)
  | some (most, sums, blocks) => lz4Parts most sums blocks.length blocks

/-- A block read, and written out. -/
def Lz4Reading.part (r : Lz4Reading) (b : Lz4Part) : Lz4Reading :=
  r.flush (if b.raw then lz4Read b.len b.bytes r.d else lz4Decode b.len b.bytes r.d)

/-- The loop is the blocks there are, one after another. -/
theorem lz4Frame_eq (most : ℕ) (sums : Bool) (turns : ℕ) : ∀ (s : Str) (r : Lz4Reading),
    lz4Frame most sums turns s r
      = ((lz4Parts most sums turns s).2.ended,
        (lz4Parts most sums turns s).1.foldl Lz4Reading.part r) := by
  induction turns with
  | zero => exact fun s r => rfl
  | succ turns ih =>
    intro s r
    rw [lz4Frame, lz4Parts]
    cases hread : readInt s with
    | none => rfl
    | some p =>
      obtain ⟨size, rest⟩ := p
      dsimp only
      by_cases hzero : size = 0
      · rw [if_pos hzero, if_pos hzero]
        rfl
      · rw [if_neg hzero, if_neg hzero]
        by_cases hbig : most < size &&& 0x7fffffff
        · rw [if_pos hbig, if_pos hbig]
          rfl
        · rw [if_neg hbig, if_neg hbig, ih, ih]
          have hcut : lz4Read (size &&& 0x7fffffff) rest r.d
              = lz4Read (size &&& 0x7fffffff) (rest.take (size &&& 0x7fffffff)) r.d := by
            unfold lz4Read
            rw [List.take_take, Nat.min_self]
          by_cases hraw : size.testBit 31
          · rw [if_pos hraw, if_pos hraw, hcut]
            rfl
          · rw [if_neg hraw, if_neg hraw]
            by_cases hnil : rest = []
            · rw [if_pos hnil, if_pos hnil]
              rfl
            · rw [if_neg hnil, if_neg hnil]
              rfl

/-- No block there is is said to be more than it may be, and none has more than it is said. -/
theorem lz4Parts_le (most : ℕ) (sums : Bool) (turns : ℕ) : ∀ s : Str,
    ∀ b ∈ (lz4Parts most sums turns s).1, b.len ≤ most ∧ b.bytes.length ≤ b.len := by
  induction turns with
  | zero => exact fun s b h => absurd h List.not_mem_nil
  | succ turns ih =>
    intro s
    rw [lz4Parts]
    cases hread : readInt s with
    | none => exact fun b h => absurd h List.not_mem_nil
    | some p =>
      obtain ⟨size, rest⟩ := p
      dsimp only
      by_cases hzero : size = 0
      · rw [if_pos hzero]
        exact fun b h => absurd h List.not_mem_nil
      · rw [if_neg hzero]
        by_cases hbig : most < size &&& 0x7fffffff
        · rw [if_pos hbig]
          exact fun b h => absurd h List.not_mem_nil
        · have hone : ∀ raw, (⟨raw, size &&& 0x7fffffff, rest.take (size &&& 0x7fffffff)⟩ :
              Lz4Part).len ≤ most ∧ (rest.take (size &&& 0x7fffffff)).length
                ≤ size &&& 0x7fffffff :=
            fun raw => ⟨Nat.le_of_not_lt hbig, List.length_take_le _ _⟩
          rw [if_neg hbig]
          by_cases hraw : size.testBit 31
          · rw [if_pos hraw]
            exact List.forall_mem_cons.mpr ⟨hone true, ih _⟩
          · rw [if_neg hraw]
            by_cases hnil : rest = []
            · rw [if_pos hnil]
              exact fun b h => absurd h List.not_mem_nil
            · rw [if_neg hnil]
              exact List.forall_mem_cons.mpr ⟨hone false, ih _⟩

/-- A size is four bytes, so as many turns as there are bytes are all there are. -/
theorem lz4Parts_turns (most : ℕ) (sums : Bool) (more turns : ℕ) : ∀ s : Str, s.length ≤ turns →
    lz4Parts most sums (turns + more) s = lz4Parts most sums turns s := by
  induction turns with
  | zero =>
    intro s h
    rw [List.length_eq_zero_iff.mp (Nat.le_zero.mp h)]
    cases 0 + more <;> rfl
  | succ turns ih =>
    intro s h
    rw [Nat.add_right_comm, lz4Parts, lz4Parts]
    cases hread : readInt s with
    | none => rfl
    | some p =>
      obtain ⟨size, rest⟩ := p
      have hrest : rest.length ≤ turns := by
        match s with
        | a :: b :: c :: d :: tail =>
          obtain ⟨-, rfl⟩ := Prod.mk.inj (Option.some.inj hread)
          simp only [List.length_cons] at h
          omega
      dsimp only
      rw [ih _ (by rw [List.length_drop, List.length_drop]; omega)]

section Inside

variable {w : ℕ} {r : Lz4Reading} {b : Lz4Part}

theorem Lz4Reading.part_inside (hw : 65535 ≤ w) (h : r.d.Inside w) (hlen : b.len ≤ w)
    (hbytes : b.bytes.length ≤ b.len) : (r.part b).d.Inside w := by
  have hring := h.length
  have hstart : r.d.pos % r.d.ring.length ≤ r.d.ring.length := (Nat.mod_lt _ (by omega)).le
  have htake : (b.bytes.take b.len).length ≤ b.len := List.length_take_le _ _
  show (if b.raw then lz4Read b.len b.bytes r.d else lz4Decode b.len b.bytes r.d).Inside w
  by_cases hraw : b.raw
  · rw [if_pos hraw]
    refine ⟨(Ring.length_write hstart (by omega)).trans hring, ?_⟩
    show InRing w (r.d.touched ++ cutParts r.d.ring.length (r.d.pos % r.d.ring.length) b.len)
    rw [inRing_append]
    rw [hring] at hstart ⊢
    exact ⟨h.touched, inRing_cutParts hstart hlen⟩
  · rw [if_neg hraw]
    exact lz4Decode_inside hw b.len b.bytes r.d (by omega) h

/-- The place goes on by as many bytes as the block says. -/
theorem Lz4Reading.pos_part (r : Lz4Reading) (b : Lz4Part) : (r.part b).d.pos = r.d.pos + b.told := by
  show (if b.raw then lz4Read b.len b.bytes r.d else lz4Decode b.len b.bytes r.d).pos = _
  unfold Lz4Part.told
  by_cases hraw : b.raw
  · rw [if_pos hraw, if_pos hraw]
    rfl
  · rw [if_neg hraw, if_neg hraw, pos_lz4Decode]

/-- What is written of a block that the ring holds is read from in it. -/
theorem Lz4Reading.part_written (hw : 0 < w) (h : (r.part b).d.Inside w) (htold : b.told ≤ w)
    (hwritten : InRing w r.written) : InRing w (r.part b).written := by
  have hpos := r.pos_part b
  show InRing w (r.written ++ cutParts (r.part b).d.ring.length
    (((r.part b).d.pos - ((r.part b).d.pos - r.d.pos)) % (r.part b).d.ring.length)
    ((r.part b).d.pos - r.d.pos))
  rw [h.length, hpos, Nat.add_sub_cancel_left, inRing_append]
  exact ⟨hwritten, inRing_cutParts (Nat.mod_lt _ hw).le htold⟩

/-- Every block after every other. -/
theorem lz4Parts_inside (hw : 65535 ≤ w) (parts : List Lz4Part) : ∀ r : Lz4Reading, r.d.Inside w →
    (∀ b ∈ parts, b.len ≤ w ∧ b.bytes.length ≤ b.len) →
    (parts.foldl Lz4Reading.part r).d.Inside w := by
  induction parts with
  | nil => exact fun r h _ => h
  | cons b parts ih =>
    intro r h hparts
    obtain ⟨⟨hlen, hbytes⟩, hrest⟩ := List.forall_mem_cons.mp hparts
    exact ih (r.part b) (Lz4Reading.part_inside hw h hlen hbytes) hrest

theorem lz4Parts_written (hw : 65535 ≤ w) (parts : List Lz4Part) : ∀ r : Lz4Reading, r.d.Inside w →
    InRing w r.written → (∀ b ∈ parts, b.len ≤ w ∧ b.bytes.length ≤ b.len) →
    (∀ b ∈ parts, b.told ≤ w) → InRing w (parts.foldl Lz4Reading.part r).written := by
  induction parts with
  | nil => exact fun r _ hwritten _ _ => hwritten
  | cons b parts ih =>
    intro r h hwritten hparts htold
    obtain ⟨⟨hlen, hbytes⟩, hrest⟩ := List.forall_mem_cons.mp hparts
    obtain ⟨hone, hmore⟩ := List.forall_mem_cons.mp htold
    have hb := Lz4Reading.part_inside hw h hlen hbytes
    exact ih (r.part b) hb (Lz4Reading.part_written (by omega) hb hone hwritten) hrest hmore

end Inside

/-- How many cells the ring is made with. -/
def lz4Cells (window : ℕ) (s : Str) : ℕ :=
  match lz4Head s with
  | none => 0
  | some (most, _, _) => lz4Ring (max window most)

/-- It is no less than the window. -/
theorem le_lz4Cells {window : ℕ} {s : Str} (h : lz4Head s ≠ none) : window ≤ lz4Cells window s := by
  unfold lz4Cells
  cases hhead : lz4Head s with
  | none => exact absurd hhead h
  | some head => exact (le_max_left _ _).trans (le_lz4Ring _)

/-- A frame is read as what it says, in a ring that is made for it. -/
theorem lz4Decompress_eq (dirt : ℕ → Byte) (window : ℕ) (s : Str) :
    lz4Decompress dirt window s
      = ((lz4Said s).2.ended, (lz4Said s).1.foldl Lz4Reading.part
        ⟨⟨(List.range (lz4Cells window s)).map dirt, 0, []⟩, [], []⟩) := by
  unfold lz4Decompress lz4Said lz4Cells lz4Head
  cases hread : readInt s with
  | none => rfl
  | some p =>
    obtain ⟨magic, rest⟩ := p
    match rest with
    | [] => rfl
    | [_] => rfl
    | flg :: bd :: rest =>
      dsimp only
      by_cases hhead : magic = lz4Magic ∧ flg.val &&& 0xc0 = 0x40
      · simp only [if_pos hhead]
        rw [lz4Frame_eq]
      · simp only [if_neg hhead]
        rfl

/-- No block is said to be more than the ring holds. -/
theorem lz4Said_le (window : ℕ) (s : Str) :
    ∀ b ∈ (lz4Said s).1, b.len ≤ lz4Cells window s ∧ b.bytes.length ≤ b.len := by
  unfold lz4Said lz4Cells
  cases lz4Head s with
  | none => exact fun b h => absurd h List.not_mem_nil
  | some head =>
    obtain ⟨most, sums, blocks⟩ := head
    intro b hb
    obtain ⟨hlen, hbytes⟩ := lz4Parts_le most sums blocks.length blocks b hb
    exact ⟨hlen.trans ((le_max_right _ _).trans (le_lz4Ring _)), hbytes⟩

end ChrysaLisp
