import ChrysaLisp.Streams.Lz4Frame

set_option autoImplicit false

/-! # LZ4 past 32 bits

The place `lz4-encode` is at is 64 bits, but the `i` of its loop is 32 of them, and what it has put
in the hash table is such an `i`. In the block where it has gone round, what was put before is after
it, so the distance back comes out negative, and a negative number is no more than 65535: a match is
said that is too far back for the two bytes its distance is said in.

So the round trip is of streams for which no turn is made past 32 bits (`lz4_round_trip`), and here
is a longer one that does not come back (`lz4_goes_round`). -/

namespace ChrysaLisp

open FlatArray

/-! ## Bytes that are all 0 -/

/-- So many bytes of 0. -/
def zeros (n : ℕ) : Str := List.replicate n 0

@[simp] theorem length_zeros (n : ℕ) : (zeros n).length = n := List.length_replicate

theorem getElem?_zeros (n k : ℕ) : (zeros n)[k]? = if k < n then some 0 else none := by
  unfold zeros
  rw [List.getElem?_replicate]

section Zeros

variable {data ring : Str} {w pos stop : ℕ}

/-- Where the data is 0, the ring is. -/
theorem ringElem_zero (hring : Ring.Holds w ring (data.take stop)) (hstop : stop ≤ data.length)
    {p : ℕ} (hp : p < stop) (hnear : stop ≤ p + w) (hzero : data[p]? = some 0) :
    ringElem ring p = 0 := by
  rw [ringElem_eq hring hstop hp hnear] at hzero
  exact Option.some.inj hzero

theorem readUint32_zero {i : ℕ} (h : ∀ k < 4, ringElem ring (i + k) = 0) : readUint32 ring i = 0 := by
  have h0 := h 0 (by omega)
  rw [Nat.add_zero] at h0
  unfold readUint32
  rw [h0, h 1 (by omega), h 2 (by omega), h 3 (by omega)]
  rfl

/-- Bytes that are all the same are counted to the end. -/
theorem matchLen_all {m i : ℕ} (k : ℕ) : ∀ j,
    (∀ n < j + k, ringElem ring (m + n) = ringElem ring (i + n)) → matchLen ring m i k j = j + k := by
  induction k with
  | zero => exact fun j _ => rfl
  | succ k ih =>
    intro j h
    rw [matchLen, if_neg (not_not.mpr (h j (by omega))), ih (j + 1) (fun n hn => h n (by omega))]
    omega

theorem lz4Slot_zero : lz4Slot 0 = 0 := rfl

/-- A turn where the four bytes are 0 and nothing of them is near enough. -/
theorem lz4Turn_far {limit : ℕ} {t : Lz4Turns} (hval : readUint32 ring t.i = 0)
    (hfar : 65535 < (t.i : ℤ) - t.table.getD 0 (-65536)) (hi : t.i + 1 < 4294967296) :
    lz4Turn ring limit t = { t with i := t.i + 1, table := t.table.set 0 t.i } := by
  have huint := uint_of_lt hi
  push_cast at huint
  unfold lz4Turn
  dsimp only
  rw [hval, lz4Slot_zero, if_neg (fun h => absurd h.1 (by omega)), huint]

/-- A turn where the four bytes are 0 and so are those the table has. -/
theorem lz4Turn_near {limit m : ℕ} {t : Lz4Turns} (hval : readUint32 ring t.i = 0)
    (htable : t.table.getD 0 (-65536) = m) (hnear : (t.i : ℤ) - m ≤ 65535)
    (hsame : readUint32 ring m = 0) :
    lz4Turn ring limit t =
      let mLen := matchLen ring m t.i (limit - (t.i + 4)) 4
      { i := uint (t.i + mLen), anchor := t.i + mLen, table := t.table.set 0 t.i
        out := t.out ++ lz4Literals ring t.anchor (uint (t.i - t.anchor)) (uint (t.i - m)) mLen } := by
  unfold lz4Turn
  dsimp only
  rw [hval, lz4Slot_zero, htable, Int.toNat_natCast, hsame, if_pos ⟨hnear, rfl⟩]

/-- A block of 0s, but for its last byte, that nothing is near enough to: the table has its second
place then. -/
theorem lz4Encode_zeros {e : Lz4Encoder} (h : e.Between data w) {chunk rest : Str}
    (hdata : data.drop e.pos = chunk ++ rest) (hlong : 20 ≤ chunk.length)
    (hzero : ∀ k < chunk.length - 1, chunk[k]? = some 0) (hroom : chunk.length ≤ w)
    (hbits : e.pos + chunk.length ≤ 4294967296) (htable : 0 < e.table.length)
    (hfar : 65535 < (e.pos : ℤ) - e.table.getD 0 (-65536)) :
    (lz4Encode e chunk).2.table.getD 0 (-65536) = e.pos + 1 ∧
      (lz4Encode e chunk).2.table.length = e.table.length := by
  have hpos := h.pos
  have hlen : (data.take e.pos).length = e.pos := by rw [List.length_take, Nat.min_eq_left hpos]
  have hstop : e.pos + chunk.length ≤ data.length := by
    have hcut := congrArg List.length hdata
    rw [List.length_drop, List.length_append] at hcut
    omega
  have hring : Ring.Holds w (copyToRing e.ring e.pos chunk) (data.take (e.pos + chunk.length)) := by
    have hput := h.ring.write (m := chunk) (by omega) hroom
    rw [hlen] at hput
    rw [take_add_of_drop hdata, copyToRing, h.ring.length]
    exact hput
  have hcell : ∀ p, e.pos ≤ p → p < e.pos + chunk.length - 1 →
      ringElem (copyToRing e.ring e.pos chunk) p = 0 := by
    intro p hle hlt
    refine ringElem_zero hring hstop (by omega) (by omega) ?_
    have hp : data[p]? = (data.drop e.pos)[p - e.pos]? := by
      rw [List.getElem?_drop]
      congr 1
      omega
    rw [hp, hdata, List.getElem?_append_left (by omega)]
    exact hzero _ (by omega)
  have hstart : uint (e.pos : ℤ) = e.pos := uint_of_lt (by omega)
  have hend : uint ((e.pos : ℤ) + chunk.length - 12) = e.pos + chunk.length - 12 := by
    unfold uint
    omega
  have hlimit : uint ((e.pos : ℤ) + chunk.length - 5) = e.pos + chunk.length - 5 := by
    unfold uint
    omega
  unfold lz4Encode
  dsimp only
  rw [if_pos (by omega), if_pos (by omega), hstart, hend, hlimit]
  generalize copyToRing e.ring e.pos chunk = ring at hcell ⊢
  obtain ⟨turns, hturns⟩ := Nat.exists_eq_add_of_le' (show 2 ≤ chunk.length by omega)
  have hfuel : lz4Loop ring (e.pos + chunk.length - 12) (e.pos + chunk.length - 5) chunk.length
      ⟨e.pos, e.pos, e.table, []⟩
      = lz4Loop ring (e.pos + chunk.length - 12) (e.pos + chunk.length - 5) (turns + 2)
        ⟨e.pos, e.pos, e.table, []⟩ := congrArg
      (fun n => lz4Loop ring (e.pos + chunk.length - 12) (e.pos + chunk.length - 5) n
        ⟨e.pos, e.pos, e.table, []⟩) hturns
  have hloop : lz4Loop ring (e.pos + chunk.length - 12) (e.pos + chunk.length - 5) (turns + 2)
      ⟨e.pos, e.pos, e.table, []⟩
      = lz4Loop ring (e.pos + chunk.length - 12) (e.pos + chunk.length - 5) turns
        (lz4Turn ring (e.pos + chunk.length - 5)
          ⟨e.pos + 1, e.pos, e.table.set 0 e.pos, []⟩) := by
    rw [lz4Loop, if_pos (by show e.pos < _; omega),
      lz4Turn_far (readUint32_zero (fun k hk => hcell _ (by show e.pos ≤ e.pos + k; omega)
        (by show e.pos + k < _; omega)))
        hfar (by show e.pos + 1 < _; omega),
      lz4Loop, if_pos (by show e.pos + 1 < _; omega)]
  have hset : (e.table.set 0 (e.pos : ℤ)).getD 0 (-65536) = e.pos := by
    rw [List.getD_eq_getElem?_getD, List.getElem?_set_self htable]
    rfl
  have hall : matchLen ring e.pos (e.pos + 1) (e.pos + chunk.length - 5 - (e.pos + 1 + 4)) 4
      = chunk.length - 6 := by
    rw [matchLen_all _ 4 (fun n hn => by rw [hcell _ (by omega) (by omega), hcell _ (by omega) (by omega)])]
    omega
  have hnear := @lz4Turn_near ring (e.pos + chunk.length - 5) e.pos
    ⟨e.pos + 1, e.pos, e.table.set 0 e.pos, []⟩
    (readUint32_zero (fun k hk => hcell _ (by show e.pos ≤ e.pos + 1 + k; omega)
      (by show e.pos + 1 + k < _; omega))) hset (by push_cast; omega)
    (readUint32_zero (fun k hk => hcell _ (by omega) (by omega)))
  dsimp only at hnear
  rw [hall] at hnear
  have hnext := @uint_of_lt (e.pos + 1 + (chunk.length - 6)) (by omega)
  rw [Nat.cast_add] at hnext
  rw [hfuel, hloop, hnear, hnext,
    lz4Loop_done (by show e.pos + chunk.length - 12 ≤ e.pos + 1 + (chunk.length - 6); omega)]
  refine ⟨?_, ?_⟩
  · show ((e.table.set 0 (e.pos : ℤ)).set 0 ((e.pos + 1 : ℕ) : ℤ)).getD 0 (-65536) = e.pos + 1
    rw [List.getD_eq_getElem?_getD, List.getElem?_set_self (by rw [List.length_set]; exact htable)]
    rfl
  · show ((e.table.set 0 (e.pos : ℤ)).set 0 ((e.pos + 1 : ℕ) : ℤ)).length = e.table.length
    rw [List.length_set, List.length_set]

end Zeros

/-! ## A stream that does not come back -/

/-- Bytes of 0, one that is not, and more of 0. -/
def oneAmong (a b : ℕ) : Str := zeros a ++ [1] ++ zeros b

@[simp] theorem length_oneAmong (a b : ℕ) : (oneAmong a b).length = a + 1 + b := by
  rw [oneAmong, List.length_append, List.length_append, length_zeros, length_zeros,
    List.length_singleton]

theorem getElem?_oneAmong (a b k : ℕ) : (oneAmong a b)[k]?
    = if k = a then some 1 else if k < a + 1 + b then some 0 else none := by
  rw [oneAmong, List.append_assoc, List.getElem?_append, length_zeros]
  by_cases hlt : k < a
  · rw [if_pos hlt, getElem?_zeros, if_pos hlt, if_neg (by omega), if_pos (by omega)]
  · rw [if_neg hlt, List.singleton_append]
    obtain ⟨n, rfl⟩ := Nat.exists_eq_add_of_le (Nat.le_of_not_lt hlt)
    rw [Nat.add_sub_cancel_left]
    cases n with
    | zero => simp
    | succ n =>
      have hpast : ¬ a + (n + 1) = a := by omega
      rw [List.getElem?_cons_succ, getElem?_zeros, if_neg hpast]
      by_cases hn : n < b
      · rw [if_pos hn, if_pos (by omega)]
      · rw [if_neg hn, if_neg (by omega)]

theorem zeros_append (a b : ℕ) : zeros a ++ zeros b = zeros (a + b) :=
  List.replicate_append_replicate

theorem zeros_append_oneAmong (a b c : ℕ) : zeros a ++ oneAmong b c = oneAmong (a + b) c := by
  rw [oneAmong, oneAmong, ← List.append_assoc, ← List.append_assoc, zeros_append]

theorem oneAmong_append_zeros (a b c : ℕ) : oneAmong a b ++ zeros c = oneAmong a (b + c) := by
  rw [oneAmong, oneAmong, List.append_assoc, zeros_append]

theorem flatten_zeros (k n : ℕ) : (List.replicate k (zeros n)).flatten = zeros (k * n) :=
  List.flatten_replicate_replicate

/-- A byte that is not 0, copied where a 0 is to be. -/
theorem oneAmong_append_ne {a b c d : ℕ} (hb : b < c) :
    oneAmong a 0 ++ oneAmong b d ≠ oneAmong a c := by
  intro h
  have hat : (oneAmong a 0 ++ oneAmong b d)[a + 1 + b]? = (oneAmong a c)[a + 1 + b]? := by rw [h]
  rw [List.getElem?_append_right (by simp), length_oneAmong, Nat.add_zero, Nat.add_sub_cancel_left,
    getElem?_oneAmong, getElem?_oneAmong, if_pos rfl, if_neg (by omega), if_pos (by omega)] at hat
  exact absurd (Option.some.inj hat) (by decide)

/-- The encoder after so many blocks of 0s: nothing in its table is near enough to be a match of 0s
where the next block begins. -/
theorem lz4After_zeros {data : Str} {size w : ℕ} (hsize : 65537 < size ∧ size < 4294967296)
    (hroom : size + 65535 ≤ w) (k : ℕ) : ∀ e : Lz4Encoder, e.Between data w →
    (∃ more, data.drop e.pos = zeros (k * size) ++ more) → 0 < e.table.length →
    65535 < (e.pos : ℤ) - e.table.getD 0 (-65536) → e.pos + k * size ≤ 4294967296 →
    let now := lz4After (List.replicate k (zeros size)) e
    now.Between data w ∧ now.pos = e.pos + k * size ∧ 0 < now.table.length ∧
      65535 < (now.pos : ℤ) - now.table.getD 0 (-65536) := by
  induction k with
  | zero => exact fun e he _ htable hfar _ => ⟨he, by simp [lz4After], htable, hfar⟩
  | succ k ih =>
    intro e he hmore htable hfar hbits
    obtain ⟨more, hdata⟩ := hmore
    have hk : (k + 1) * size = size + k * size := by rw [Nat.succ_mul, Nat.add_comm]
    have hsplit : data.drop e.pos = zeros size ++ (zeros (k * size) ++ more) := by
      rw [hdata, ← List.append_assoc, zeros_append, hk]
    have hzero : ∀ j < (zeros size).length - 1, (zeros size)[j]? = some 0 := by
      intro j hj
      rw [length_zeros] at hj
      rw [getElem?_zeros, if_pos (by omega)]
    have hlen := length_zeros size
    have hne : zeros size ≠ [] := fun hnil => by
      rw [hnil, List.length_nil] at hlen
      omega
    obtain ⟨-, hbetween⟩ := lz4Encode_spec he hsplit hne (by omega) (by omega) (by omega)
    obtain ⟨hslot, htable'⟩ := lz4Encode_zeros he hsplit (by omega) hzero (by omega) (by omega)
      htable hfar
    have hpos : (lz4Encode e (zeros size)).2.pos = e.pos + size := by
      show e.pos + (zeros size).length = _
      rw [hlen]
    obtain ⟨h1, h2, h3, h4⟩ := ih (lz4Encode e (zeros size)).2 hbetween
      ⟨more, by rw [hpos, ← List.drop_drop, hsplit, List.drop_left' hlen]⟩ (by omega)
      (by rw [hslot, hpos]; push_cast; omega) (by omega)
    rw [List.replicate_succ]
    exact ⟨h1, h2.trans (by omega), h3, h4⟩

/-- Where the encoder is after so many of those and one whose last byte is not 0, and what its table
has for 0s: the second place of that one. -/
theorem lz4After_oneAmong {data more : Str} {size w k : ℕ} (hsize : 65537 < size ∧ size < 4294967296)
    (hroom : size + 65535 ≤ w) {e : Lz4Encoder} (he : e.Between data w) (hpos : e.pos = 0)
    (htable : 0 < e.table.length) (hfar : 65535 < -e.table.getD 0 (-65536))
    (hdata : data = zeros (k * size) ++ (oneAmong (size - 1) 0 ++ more))
    (hbits : k * size + size ≤ 4294967296) :
    let now := lz4After (List.replicate k (zeros size) ++ [oneAmong (size - 1) 0]) e
    now.Between data w ∧ now.pos = k * size + size ∧
      now.table.getD 0 (-65536) = ((k * size + 1 : ℕ) : ℤ) := by
  obtain ⟨hmid, hmidPos, hmidTable, hmidFar⟩ := lz4After_zeros hsize hroom k e he
    ⟨oneAmong (size - 1) 0 ++ more, by rw [hpos, List.drop_zero, hdata]⟩ htable
    (by rw [hpos]; push_cast; omega) (by omega)
  have hlast : lz4After (List.replicate k (zeros size) ++ [oneAmong (size - 1) 0]) e
      = (lz4Encode (lz4After (List.replicate k (zeros size)) e) (oneAmong (size - 1) 0)).2 := by
    rw [lz4After, List.foldl_append]
    rfl
  generalize lz4After (List.replicate k (zeros size)) e = mid at hmid hmidPos hmidTable hmidFar hlast
  have hlen : (oneAmong (size - 1) 0).length = size := by
    rw [length_oneAmong]
    omega
  rw [hpos, Nat.zero_add] at hmidPos
  have hdrop : data.drop mid.pos = oneAmong (size - 1) 0 ++ more := by
    rw [hmidPos, hdata, List.drop_left' (length_zeros _)]
  have hzero : ∀ j < (oneAmong (size - 1) 0).length - 1, (oneAmong (size - 1) 0)[j]? = some 0 := by
    intro j hj
    rw [getElem?_oneAmong, if_neg (by omega), if_pos (by omega)]
  have hne : oneAmong (size - 1) 0 ≠ [] := fun hnil => by
    rw [hnil, List.length_nil] at hlen
    omega
  obtain ⟨-, hbetween⟩ := lz4Encode_spec hmid hdrop hne (by omega) (by omega) (by omega)
  obtain ⟨hslot, -⟩ := lz4Encode_zeros hmid hdrop (by omega) hzero (by omega) (by omega) hmidTable
    hmidFar
  intro now
  have hnow : now = (lz4Encode mid (oneAmong (size - 1) 0)).2 := hlast
  rw [hnow]
  refine ⟨hbetween, ?_, hslot.trans (by rw [hmidPos]; push_cast; rfl)⟩
  show mid.pos + (oneAmong (size - 1) 0).length = _
  omega

theorem lz4Literals_none (ring : Str) (anchor back len : ℕ) :
    lz4Literals ring anchor 0 back len = lz4Seq [] back len := rfl

/-- What is said of a distance is its low 16 bits. -/
theorem lz4Seq_back {lits : Str} {back far len : ℕ} (hfar : 0 < far) (hback : 0 < back)
    (hlow : far &&& 255 = back &&& 255)
    (hhigh : (Fin.ofNat 256 (far >>> 8) : Byte) = Fin.ofNat 256 (back >>> 8)) :
    lz4Seq lits far len = lz4Seq lits back len := by
  unfold lz4Seq
  simp only [hlow, hhigh, hfar, hback, if_true]

/-- The block where `i` has gone round: a match of 0s that is 4194303 back, said to be 65535. -/
theorem lz4Encode_round {e : Lz4Encoder} (he : e.Between (oneAmong 4294967295 65540) 8388608)
    (hpos : e.pos = 4294967296) (htable : e.table.getD 0 (-65536) = ((4290772993 : ℕ) : ℤ)) :
    (lz4Encode e (zeros 65540)).1 = lz4Seq [] 65535 65535 ++ lz4Seq (zeros 5) 0 0 := by
  have hdata : (oneAmong 4294967295 65540).length = 4295032836 := length_oneAmong _ _
  have hdrop : (oneAmong 4294967295 65540).drop e.pos = zeros 65540 ++ [] := by
    have hsplit : oneAmong 4294967295 65540 = oneAmong 4294967295 0 ++ zeros 65540 := by
      rw [oneAmong_append_zeros, Nat.zero_add]
    have hlen : (oneAmong 4294967295 0).length = 4294967296 := length_oneAmong _ _
    rw [hpos, hsplit, List.drop_left' hlen, List.append_nil]
  have hlen : ((oneAmong 4294967295 65540).take e.pos).length = e.pos := by
    rw [List.length_take, Nat.min_eq_left he.pos]
  have hring : Ring.Holds 8388608 (copyToRing e.ring e.pos (zeros 65540))
      ((oneAmong 4294967295 65540).take 4295032836) := by
    have hput := he.ring.write (m := zeros 65540) (by omega) (by rw [length_zeros]; omega)
    rw [hlen, ← take_add_of_drop hdrop, length_zeros, hpos] at hput
    rw [copyToRing, he.ring.length, hpos]
    exact hput
  have hcell : ∀ p, 4286644228 ≤ p → p < 4295032836 → p ≠ 4294967295 →
      ringElem (copyToRing e.ring e.pos (zeros 65540)) p = 0 := by
    intro p hle hlt hne
    refine ringElem_zero hring (by omega) hlt (by omega) ?_
    rw [getElem?_oneAmong, if_neg hne, if_pos (by omega)]
  unfold lz4Encode
  dsimp only
  rw [hpos, length_zeros]
  rw [hpos] at hring hcell
  generalize copyToRing e.ring 4294967296 (zeros 65540) = ring at hring hcell ⊢
  -- the cells from the start of the ring on are those of the block
  have hround : ∀ k < 65540, ringElem ring (0 + k) = 0 := by
    intro k hk
    have hsame : ringElem ring (0 + k) = ringElem ring (4294967296 + k) := by
      unfold ringElem
      rw [hring.length]
      congr 1
      omega
    rw [hsame]
    exact hcell _ (by omega) (by omega) (by omega)
  have h0 : uint ((4294967296 : ℕ) : ℤ) = 0 := by decide
  have hend : uint (((4294967296 : ℕ) : ℤ) + ((65540 : ℕ) : ℤ) - 12) = 65528 := by decide
  have hlimit : uint (((4294967296 : ℕ) : ℤ) + ((65540 : ℕ) : ℤ) - 5) = 65535 := by decide
  rw [if_pos (by omega), if_pos (by omega), h0, hend, hlimit]
  have hall : matchLen ring 4290772993 0 (65535 - (0 + 4)) 4 = 65535 := by
    rw [matchLen_all _ 4 (fun n hn => by
      rw [hround n (by omega), hcell _ (by omega) (by omega) (by omega)])]
  have hnear := @lz4Turn_near ring 65535 4290772993 ⟨0, 4294967296, e.table, []⟩
    (readUint32_zero (fun k hk => hround k (by omega))) htable
    (by show ((0 : ℕ) : ℤ) - ((4290772993 : ℕ) : ℤ) ≤ 65535; decide)
    (readUint32_zero (fun k hk => hcell _ (by omega) (by omega) (by omega)))
  dsimp only at hnear
  have hnext : uint (((0 : ℕ) : ℤ) + ((65535 : ℕ) : ℤ)) = 65535 := by decide
  have hlit : uint (((0 : ℕ) : ℤ) - ((4294967296 : ℕ) : ℤ)) = 0 := by decide
  have hback : uint (((0 : ℕ) : ℤ) - ((4290772993 : ℕ) : ℤ)) = 4194303 := by decide
  rw [hall, hnext, hlit, hback] at hnear
  have hloop : lz4Loop ring 65528 65535 65540 ⟨0, 4294967296, e.table, []⟩
      = ⟨65535, 0 + 65535, e.table.set 0 ((0 : ℕ) : ℤ),
        [] ++ lz4Literals ring 4294967296 0 4194303 65535⟩ := by
    rw [show (65540 : ℕ) = 65539 + 1 from rfl, lz4Loop, if_pos (by show 0 < 65528; omega), hnear]
    exact lz4Loop_done (by show 65528 ≤ 65535; omega) _
  have hfirst : lz4Literals ring 4294967296 0 4194303 65535 = lz4Seq [] 65535 65535 := by
    rw [lz4Literals_none]
    exact lz4Seq_back (by omega) (by omega) (by decide) (by decide)
  have hfive : uint (((4294967296 : ℕ) : ℤ) + ((65540 : ℕ) : ℤ) - ((0 + 65535 : ℕ) : ℤ)) = 5 := by
    decide
  -- the anchor lost what was over 32 bits, and has the same cell
  have hlast : lz4Literals ring (0 + 65535) 5 0 0 = lz4Seq (zeros 5) 0 0 := by
    have hanchor : lz4Literals ring (0 + 65535) 5 0 0
        = lz4Literals ring 4295032831 (4295032836 - 4295032831) 0 0 := by
      have hcells : (0 + 65535) % ring.length = 4295032831 % ring.length := by rw [hring.length]
      have hfew : 4295032836 - 4295032831 = 5 := by norm_num
      rw [hfew]
      unfold lz4Literals
      simp only [hcells]
    have hslice : slice (oneAmong 4294967295 65540) 4295032831 4295032836 = zeros 5 := by
      apply List.ext_getElem?
      intro k
      rw [getElem?_slice, getElem?_zeros]
      by_cases hk : k < 5
      · rw [if_pos hk, if_pos (by omega), getElem?_oneAmong, if_neg (by omega), if_pos (by omega)]
      · rw [if_neg hk, if_neg (by omega)]
    exact (hanchor.trans (lz4Literals_eq hring (by omega) (by omega) le_rfl (by omega) (by omega)
      0 0)).trans (congrArg (fun lits => lz4Seq lits 0 0) hslice)
  rw [hloop]
  dsimp only
  rw [hfive, hfirst, hlast, List.nil_append]

/-- What comes back: the byte that is not 0, `before` in, again where the match reached it. -/
def cameBack (before : ℕ) : Str := oneAmong before 0 ++ oneAmong 65534 5

theorem getElem?_cameBack (k : ℕ) : (cameBack 4294967295)[k]?
    = if k = 4294967295 ∨ k = 4295032830 then some 1 else if k < 4295032836 then some 0 else none := by
  have hlen : (oneAmong 4294967295 0).length = 4294967296 := length_oneAmong _ _
  unfold cameBack
  rw [List.getElem?_append, hlen]
  by_cases hlt : k < 4294967296
  · rw [if_pos hlt, getElem?_oneAmong]
    by_cases hone : k = 4294967295
    · rw [if_pos hone, if_pos (Or.inl hone)]
    · rw [if_neg hone, if_pos (by omega), if_neg (by omega), if_pos (by omega)]
  · rw [if_neg hlt, getElem?_oneAmong]
    by_cases hone : k = 4295032830
    · rw [if_pos (by omega), if_pos (Or.inr hone)]
    · by_cases hin : k < 4295032836
      · rw [if_neg (by omega), if_pos (by omega), if_neg (by omega), if_pos hin]
      · rw [if_neg (by omega), if_neg (by omega), if_neg (by omega), if_neg hin]

/-- What the last block says is that. -/
theorem lz4Coded_cameBack : Lz4Coded (cameBack 4294967295) 4295032836 4294967296
    (lz4Seq [] 65535 65535 ++ lz4Seq (zeros 5) 0 0) := by
  have hrepeats : Lz4Repeats (cameBack 4294967295) 4294967296 65535 65535 := by
    refine ⟨by omega, by omega, by omega, fun k hk => ?_⟩
    rw [getElem?_cameBack, getElem?_cameBack]
    by_cases hone : k = 65534
    · rw [if_pos (Or.inl (by omega)), if_pos (Or.inr (by omega))]
    · rw [if_neg (by omega), if_pos (by omega), if_neg (by omega), if_pos (by omega)]
  have hslice : slice (cameBack 4294967295) 4295032831 4295032836 = zeros 5 := by
    apply List.ext_getElem?
    intro k
    rw [getElem?_slice, getElem?_zeros]
    by_cases hk : k < 5
    · rw [if_pos hk, if_pos (by omega), getElem?_cameBack, if_neg (by omega), if_pos (by omega)]
    · rw [if_neg hk, if_neg (by omega)]
  have hnone : slice (cameBack 4294967295) 4294967296 4294967296 = [] := by
    apply List.ext_getElem?
    intro k
    rw [getElem?_slice, if_neg (by omega)]
    rfl
  have hlast := @Lz4Coded.last (cameBack 4294967295) 4295032836 4295032831 (by omega)
  rw [hslice] at hlast
  have hall := @Lz4Coded.more (cameBack 4294967295) 4295032836 4294967296 4294967296 65535 65535 _
    le_rfl (by omega) hrepeats hlast
  rw [hnone] at hall
  exact hall

theorem length_round : (lz4Seq [] 65535 65535 ++ lz4Seq (zeros 5) 0 0).length = 266 := by
  rw [List.length_append]
  have hfirst : (lz4Seq [] 65535 65535).length = 260 := by decide +kernel
  have hlast : (lz4Seq (zeros 5) 0 0).length = 6 := by decide +kernel
  rw [hfirst, hlast]

/-- The blocks of that stream. -/
theorem readBlks_oneAmong : readBlks 4194304 (oneAmong 4294967295 65540)
    = (List.replicate 1023 (zeros 4194304) ++ [oneAmong 4194303 0]) ++ [zeros 65540] := by
  have hone : (oneAmong 4194303 0).length = 4194304 := length_oneAmong _ _
  have hall : oneAmong 4294967295 65540
      = (List.replicate 1023 (zeros 4194304)).flatten ++ (oneAmong 4194303 0 ++ zeros 65540) := by
    rw [flatten_zeros, oneAmong_append_zeros, zeros_append_oneAmong]
  have hmany : ∀ (k : ℕ) (rest : Str),
      readBlks 4194304 ((List.replicate k (zeros 4194304)).flatten ++ rest)
        = List.replicate k (zeros 4194304) ++ readBlks 4194304 rest := by
    intro k rest
    induction k with
    | zero => rfl
    | succ k ih =>
      rw [List.replicate_succ, List.flatten_cons, List.append_assoc,
        readBlks_cons (by omega) (length_zeros _), ih, List.cons_append]
  have hlen : (zeros 65540).length = 65540 := length_zeros _
  have hne : zeros 65540 ≠ [] := fun h => by
    rw [h, List.length_nil] at hlen
    omega
  rw [hall, hmany, readBlks_cons (by omega) hone, readBlks_short hne (by omega), List.append_assoc]
  rfl

section Round

variable {e : Lz4Encoder} {chunks : List Str}

/-- The last block of that stream, as it is put. -/
theorem lz4Encode_last (he : e.Between (oneAmong 4294967295 65540) 8388608) (hpos : e.pos = 0)
    (htable : 0 < e.table.length) (hfar : 65535 < -e.table.getD 0 (-65536))
    (hchunks : chunks = List.replicate 1023 (zeros 4194304) ++ [oneAmong 4194303 0]) :
    (lz4Encode (lz4After chunks e) (zeros 65540)).1
      = lz4Seq [] 65535 65535 ++ lz4Seq (zeros 5) 0 0 := by
  obtain ⟨hbetween, hat, hslot⟩ := @lz4After_oneAmong (oneAmong 4294967295 65540) (zeros 65540)
    4194304 8388608 1023 ⟨by omega, by omega⟩ (by omega) e he hpos htable hfar
    (by rw [oneAmong_append_zeros, zeros_append_oneAmong]) (by omega)
  rw [hchunks]
  exact lz4Encode_round hbetween hat hslot

/-- The blocks before it come back, and it as it was put. -/
theorem lz4Frame_cameBack (he : e.Between (cameBack 4294967295) 8388608) (hpos : e.pos = 0) {w : ℕ}
    (hw : 4194304 ≤ w) {r : Lz4Reading} (hr : r.Written (cameBack 4294967295) w) (hr' : r.d.pos = 0)
    (hflat : chunks.flatten = oneAmong 4294967295 0)
    (hall : ∀ chunk ∈ chunks, chunk ≠ [] ∧ chunk.length ≤ 4194304)
    (hlast : (lz4Encode (lz4After chunks e) (zeros 65540)).1
      = lz4Seq [] 65535 65535 ++ lz4Seq (zeros 5) 0 0) (turns : ℕ) :
    (lz4Frame 4194304 false (chunks.length + (turns + 2))
      (lz4Blocks (chunks ++ [zeros 65540]) e ++ intBytes 0) r).2.out = cameBack 4294967295 := by
  have hback : (cameBack 4294967295).length = 4295032836 := by
    unfold cameBack
    rw [List.length_append, length_oneAmong, length_oneAmong]
  have hlen : chunks.flatten.length = 4294967296 := by
    rw [hflat, length_oneAmong]
  obtain ⟨r', hframe, hwritten, hat, -⟩ := @lz4Frame_blocks (cameBack 4294967295) w 4194304 8388608
    (by omega) ⟨by omega, hw⟩ (by omega) (turns + 2)
    (lz4Blocks [zeros 65540] (lz4After chunks e) ++ intBytes 0) chunks e r he hr
    (by rw [hr', hpos]) ⟨oneAmong 65534 5, by rw [hflat, hpos, List.drop_zero, cameBack]⟩ hall
    (by rw [hlen, hpos])
  rw [lz4Blocks_append, List.append_assoc, hframe]
  rw [hlen, hpos] at hat
  have hpacked := length_round
  have hcoded := lz4Coded_cameBack
  rw [lz4Blocks, lz4Blocks, List.append_nil, hlast]
  generalize lz4Seq [] 65535 65535 ++ lz4Seq (zeros 5) 0 0 = comp at hcoded hpacked ⊢
  rw [lz4Block, if_neg (by rw [hpacked, length_zeros]; omega)]
  obtain ⟨r'', hend, hwritten', hat'⟩ := lz4Frame_packed hwritten (by rw [hat]; exact hcoded)
    (by omega) (by omega) (by omega) (show comp.length ≤ 4194304 by omega) (by omega) (turns + 1)
    (intBytes 0)
  rw [hend, lz4Frame_end, hwritten'.out, hat']
  exact List.take_of_length_le (by omega)

end Round

/-- **A stream that does not come back**, whatever the decoder's ring is and has in it. -/
theorem lz4Decompress_cameBack (dirt : ℕ → Byte) (window' : ℕ) :
    (lz4Decompress dirt window' (lz4Compress 4194304 (oneAmong 4294967295 65540))).2.out
      = cameBack 4294967295 := by
  obtain ⟨most, w, hsize, -, -, -, hw, heq⟩ := lz4Decompress_head dirt 4194304 window'
    (oneAmong 4294967295 65540)
  have hmost : most = 4194304 := hsize.symm.trans (by decide)
  obtain ⟨chunks, hchunks⟩ : ∃ chunks, chunks
      = List.replicate 1023 (zeros 4194304) ++ [oneAmong 4194303 0] := ⟨_, rfl⟩
  have hone : (oneAmong 4194303 0).length = 4194304 := length_oneAmong _ _
  have hflat : chunks.flatten = oneAmong 4294967295 0 := by
    rw [hchunks, List.flatten_append, flatten_zeros, List.flatten_singleton, zeros_append_oneAmong]
  have hall : ∀ chunk ∈ chunks, chunk ≠ [] ∧ chunk.length ≤ 4194304 := by
    intro chunk hc
    rw [hchunks] at hc
    have hfull : chunk.length = 4194304 := by
      rcases List.mem_append.mp hc with hc | hc
      · rw [List.eq_of_mem_replicate hc, length_zeros]
      · rw [List.mem_singleton.mp hc, hone]
    exact ⟨fun h => by rw [h, List.length_nil] at hfull; omega, hfull.le⟩
  obtain ⟨e, he⟩ : ∃ e : Lz4Encoder,
      e = ⟨List.replicate (most * 2) 0, 0, List.replicate 8192 (-65536)⟩ := ⟨_, rfl⟩
  have hbetween : ∀ data, e.Between data 8388608 := fun data => by
    have h := Lz4Encoder.between_start data most
    rw [← he, hmost] at h
    exact h
  have htable : e.table = List.replicate 8192 (-65536) := by rw [he]
  have hpos : e.pos = 0 := by rw [he]
  have hlast := lz4Encode_last (hbetween _) hpos (by rw [htable, List.length_replicate]; omega)
    (by rw [htable]; decide) hchunks
  rw [heq, ← he, hmost, readBlks_oneAmong, ← hchunks]
  -- a turn for each block and one for the end, and there are bytes enough for so many
  have hcount := length_le_lz4Blocks (chunks ++ [zeros 65540]) e
  dsimp only
  rw [List.length_append, List.length_singleton] at hcount
  obtain ⟨turns, hturns⟩ := Nat.exists_eq_add_of_le
    (show chunks.length + 2 ≤ (lz4Blocks (chunks ++ [zeros 65540]) e ++ intBytes 0).length by
      rw [List.length_append, length_intBytes]
      omega)
  rw [hturns, show chunks.length + 2 + turns = chunks.length + (turns + 2) by omega]
  exact lz4Frame_cameBack (hbetween _) hpos (by omega) (Lz4Reading.written_start _ dirt w) rfl hflat
    hall hlast turns

/-- LZ4 there and back is not the stream that went, for that stream. -/
theorem lz4_goes_round : ¬ ∀ (dirt : ℕ → Byte) (window window' : ℕ) (s : Str),
    (lz4Decompress dirt window' (lz4Compress window s)).2.out = s := by
  intro h
  have hback := (lz4Decompress_cameBack (fun _ => 0) 4194304).symm.trans
    (h (fun _ => 0) 4194304 4194304 (oneAmong 4294967295 65540))
  exact oneAmong_append_ne (by omega) hback

end ChrysaLisp
