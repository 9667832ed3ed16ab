import ChrysaLisp.Streams.Huffman
import ChrysaLisp.Streams.HuffmanComplete
import Mathlib.Algebra.Order.BigOperators.Group.List
import Mathlib.Tactic.LinearCombination
import Mathlib.Tactic.Positivity

set_option autoImplicit false

/-! # A canonical code is read back

The codes that lengths say, each by the first of its length and the symbols before it (`codeOf`).
Where they take up no more than there is (`Whole`), what `huffmanCodes` gives of a symbol is read by
the table as that symbol (`decode_codeBits`). The lengths of `huffmanLengths` are such ones. -/

namespace ChrysaLisp.HuffmanCodes

/-! ## Counts and codes -/

section

variable (lengths : List ℕ)

/-- How many codes there are of a length. -/
def countOf (len : ℕ) : ℕ := if len = 0 then 0 else lengths.count len

/-- The first code of a length. -/
def firstOf : ℕ → ℕ
  | 0 => 0
  | len + 1 => 2 * (firstOf len + countOf lengths len)

/-- Where the symbols of a length begin. -/
def startOf : ℕ → ℕ
  | 0 => 0
  | len + 1 => startOf len + countOf lengths len

/-- How many symbols before one have a code as long as its. -/
def rankOf (s : ℕ) : ℕ := (lengths.take s).count (lengths.getD s 0)

/-- The code of a symbol. -/
def codeOf (s : ℕ) : ℕ := firstOf lengths (lengths.getD s 0) + rankOf lengths s

/-- The bits of it as they are written, the high one first. -/
def codeBits (s : ℕ) : List Bool := (Bits.ofNat (lengths.getD s 0) (codeOf lengths s)).reverse

/-- The codes of every length are no more than there are. -/
def Whole : Prop := ∀ len, firstOf lengths len + countOf lengths len ≤ 2 ^ len

end

variable {lengths : List ℕ}

theorem foldl_max_le (ls : List ℕ) (a : ℕ) : a ≤ ls.foldl max a ∧ ∀ len ∈ ls, len ≤ ls.foldl max a := by
  induction ls generalizing a with
  | nil => exact ⟨le_rfl, fun _ h => absurd h List.not_mem_nil⟩
  | cons b ls ih =>
      obtain ⟨hle, hmem⟩ := ih (max a b)
      refine ⟨(le_max_left a b).trans hle, ?_⟩
      intro len hlen
      rcases List.mem_cons.mp hlen with rfl | hlen
      · exact (le_max_right a len).trans hle
      · exact hmem len hlen

theorem le_mostLength {len : ℕ} (h : len ∈ lengths) : len ≤ mostLength lengths :=
    (foldl_max_le lengths 0).2 len h

theorem getD_le_mostLength (lengths : List ℕ) (s : ℕ) : lengths.getD s 0 ≤ mostLength lengths := by
  by_cases hs : s < lengths.length
  · rw [List.getD_eq_getElem _ _ hs]
    exact le_mostLength (List.getElem_mem hs)
  · rw [List.getD_eq_default _ _ (Nat.le_of_not_lt hs)]
    exact Nat.zero_le _

/-- One more of a number, and no more of the others. -/
theorem getD_modify {α : Type} [AddCommMonoidWithOne α] {l : List α} {i j : ℕ} (hj : j < l.length) :
    (l.modify i (· + 1)).getD j 0 = l.getD j 0 + if i = j then 1 else 0 := by
  rw [List.getD_eq_getElem?_getD, List.getElem?_modify, List.getD_eq_getElem?_getD,
    List.getElem?_eq_getElem hj]
  split <;> simp

theorem foldl_modify {α : Type} [AddCommMonoidWithOne α] (ls : List ℕ) (counts : List α) :
    (ls.foldl (fun counts len => counts.modify len (· + 1)) counts).length = counts.length ∧
      ∀ j < counts.length, (ls.foldl (fun counts len => counts.modify len (· + 1)) counts).getD j 0 =
        counts.getD j 0 + (ls.count j : ℕ) := by
  induction ls generalizing counts with
  | nil => exact ⟨rfl, fun j _ => by rw [List.count_nil, Nat.cast_zero, add_zero]; rfl⟩
  | cons len ls ih =>
      obtain ⟨hlen, hget⟩ := ih (counts.modify len (· + 1))
      rw [List.length_modify] at hlen hget
      refine ⟨hlen, ?_⟩
      intro j hj
      rw [List.foldl_cons, hget j hj, getD_modify hj, List.count_cons, Nat.cast_add, add_assoc,
        add_comm (if len = j then 1 else 0)]
      simp only [beq_iff_eq]
      split <;> simp

theorem getD_replicate_zero (n j : ℕ) : (List.replicate n (0 : ℕ)).getD j 0 = 0 := by
  rw [List.getD_eq_getElem?_getD, List.getElem?_replicate]
  split <;> rfl

theorem length_lengthCounts : (lengthCounts lengths).length = mostLength lengths + 1 := by
  rw [lengthCounts, List.length_set, (foldl_modify lengths _).1, List.length_replicate]

theorem getD_lengthCounts {len : ℕ} (hlen : len ≤ mostLength lengths) :
    (lengthCounts lengths).getD len 0 = countOf lengths len := by
  obtain ⟨hlength, hget⟩ := foldl_modify lengths (List.replicate (mostLength lengths + 1) 0)
  rw [List.length_replicate] at hlength hget
  rw [lengthCounts, HuffmanLengths.getD_set _ _ _ _ _ (by omega), hget len (by omega),
    getD_replicate_zero, countOf, Nat.cast_id, Nat.zero_add]

/-! ## What is written -/

theorem toNat_append (xs ys : List Bool) :
    Bits.toNat (xs ++ ys) = Bits.toNat xs + 2 ^ xs.length * Bits.toNat ys := by
  induction xs with
  | nil => simp
  | cons b xs ih =>
      rw [List.cons_append, Bits.toNat_cons, Bits.toNat_cons, ih, List.length_cons, pow_succ]
      ring

theorem ofNat_toNat (bs : List Bool) : Bits.ofNat bs.length (Bits.toNat bs) = bs := by
  induction bs with
  | nil => rfl
  | cons b bs ih =>
      have hlow : (b.toNat + 2 * Bits.toNat bs) % 2 = b.toNat := by
        rw [Nat.add_mul_mod_self_left, Nat.mod_eq_of_lt (Bool.toNat_lt b)]
      have hhigh : (b.toNat + 2 * Bits.toNat bs) / 2 = Bits.toNat bs := by
        have hb := Bool.toNat_lt b
        omega
      rw [List.length_cons, Bits.toNat_cons, Bits.ofNat, hlow, hhigh, ih]
      cases b <;> rfl

theorem reverseCode_eq (len : ℕ) :
    ∀ c r, reverseCode len c r = r * 2 ^ len + Bits.toNat (Bits.ofNat len c).reverse := by
  induction len with
  | zero =>
      intro c r
      simp [reverseCode]
  | succ len ih =>
      intro c r
      have hbit : (r <<< 1 ||| c &&& 1) = 2 * r + c % 2 := by
        rw [Nat.and_one_is_mod, Bits.or_shiftLeft r (Nat.mod_lt c Nat.two_pos : c % 2 < 2 ^ 1),
          pow_one, Nat.add_comm]
      have hlow : (c % 2 == 1).toNat = c % 2 := by
        rcases Nat.mod_two_eq_zero_or_one c with h | h <;> rw [h] <;> rfl
      rw [reverseCode, ih, hbit, Bits.ofNat, List.reverse_cons, toNat_append, List.length_reverse,
        Bits.length_ofNat, Nat.shiftRight_one, Bits.toNat_cons, Bits.toNat_nil, hlow, pow_succ]
      ring

/-- The bits of a code the other way round. -/
theorem ofNat_reverseCode (len c : ℕ) :
    Bits.ofNat len (reverseCode len c 0) = (Bits.ofNat len c).reverse := by
  have hback := ofNat_toNat (Bits.ofNat len c).reverse
  rw [List.length_reverse, Bits.length_ofNat] at hback
  rw [reverseCode_eq, Nat.zero_mul, Nat.zero_add, hback]

theorem reverseCode_lt (len c : ℕ) : reverseCode len c 0 < 2 ^ len := by
  have hlt := Bits.toNat_lt (Bits.ofNat len c).reverse
  rw [List.length_reverse, Bits.length_ofNat] at hlt
  rwa [reverseCode_eq, Nat.zero_mul, Nat.zero_add]

theorem getD_firstCodes (k : ℕ) : ∀ (len : ℕ) (next : List ℕ), len + k = mostLength lengths →
    next.length = mostLength lengths + 1 →
    (firstCodes (lengthCounts lengths) (len + 1) (firstOf lengths len) k next).length
      = mostLength lengths + 1 ∧
      ∀ l ≤ mostLength lengths,
        (firstCodes (lengthCounts lengths) (len + 1) (firstOf lengths len) k next).getD l 0 =
        if len < l then firstOf lengths l else next.getD l 0 := by
  induction k with
  | zero =>
      intro len next hk hnext
      refine ⟨hnext, ?_⟩
      intro l hl
      rw [firstCodes, if_neg (by omega)]
  | succ k ih =>
      intro len next hk hnext
      have hcode : (firstOf lengths len + (lengthCounts lengths).getD len 0) <<< 1 =
        firstOf lengths (len + 1) := by
        rw [getD_lengthCounts (by omega), Nat.shiftLeft_eq, pow_one, firstOf, Nat.mul_comm]
      obtain ⟨hlength, hget⟩ := ih (len + 1) (next.set (len + 1) (firstOf lengths (len + 1))) (by omega)
        (by rw [List.length_set, hnext])
      simp only [firstCodes, Nat.add_sub_cancel, hcode]
      refine ⟨hlength, ?_⟩
      intro l hl
      rw [hget l hl, HuffmanLengths.getD_set _ _ _ _ _ (by omega)]
      by_cases hlt : len + 1 < l
      · rw [if_pos hlt, if_pos (by omega)]
      · rw [if_neg hlt]
        by_cases heq : l = len + 1
        · rw [if_pos heq, if_pos (by omega), heq]
        · rw [if_neg heq, if_neg (by omega)]

theorem getD_takeCodes (ls : List ℕ) :
    ∀ {next : List ℕ} {s : ℕ}, 0 < ls.getD s 0 → (∀ len ∈ ls, len < next.length) →
    (takeCodes ls next).getD s 0 =
      reverseCode (ls.getD s 0) (next.getD (ls.getD s 0) 0 + (ls.take s).count (ls.getD s 0)) 0 := by
  induction ls with
  | nil => exact fun h => absurd h (Nat.lt_irrefl 0)
  | cons a ls ih =>
      intro next s hpos hnext
      cases s with
      | zero =>
          rw [List.getD_cons_zero] at hpos ⊢
          rw [takeCodes, if_neg hpos.ne', List.getD_cons_zero, List.take_zero, List.count_nil, Nat.add_zero]
      | succ s =>
          rw [List.getD_cons_succ] at hpos ⊢
          have hrest := fun len hlen => hnext len (List.mem_cons_of_mem a hlen)
          rw [takeCodes, List.take_succ_cons, List.count_cons]
          by_cases ha : a = 0
          · rw [if_pos ha, List.getD_cons_succ, ih hpos hrest, if_neg (by rw [beq_iff_eq]; omega),
              Nat.add_zero]
          · have hlt : ls.getD s 0 < next.length := by
              have hs : s < ls.length := by
                by_contra hge
                rw [List.getD_eq_default _ _ (Nat.le_of_not_lt hge)] at hpos
                exact absurd hpos (Nat.lt_irrefl 0)
              rw [List.getD_eq_getElem _ _ hs]
              exact hrest _ (List.getElem_mem hs)
            rw [if_neg ha, List.getD_cons_succ,
              ih hpos (by simpa only [List.length_modify] using hrest), getD_modify hlt]
            simp only [beq_iff_eq]
            congr 1
            omega

/-- The code that is written of a symbol. -/
theorem getD_huffmanCodes {s : ℕ} (hs : 0 < lengths.getD s 0) :
    (huffmanCodes lengths).getD s 0 = reverseCode (lengths.getD s 0) (codeOf lengths s) 0 := by
  obtain ⟨hlength, hget⟩ := @getD_firstCodes lengths (mostLength lengths) 0
    (List.replicate (mostLength lengths + 1) 0) (Nat.zero_add _) List.length_replicate
  have hnext : ∀ len ∈ lengths, len < (firstCodes (lengthCounts lengths) 1 0 (mostLength lengths)
      (List.replicate (mostLength lengths + 1) 0)).length :=
    fun len hlen => Nat.lt_of_lt_of_eq (Nat.lt_succ_of_le (le_mostLength hlen)) hlength.symm
  rw [huffmanCodes, getD_takeCodes lengths hs hnext, codeOf, rankOf]
  exact congrArg (fun first => reverseCode _ (first + _) 0)
    ((hget _ (getD_le_mostLength lengths s)).trans (if_pos hs))

theorem ofNat_huffmanCodes {s : ℕ} (hs : 0 < lengths.getD s 0) :
    Bits.ofNat (lengths.getD s 0) ((huffmanCodes lengths).getD s 0) = codeBits lengths s := by
  rw [getD_huffmanCodes hs, ofNat_reverseCode, codeBits]

theorem huffmanCodes_lt {s : ℕ} (hs : 0 < lengths.getD s 0) :
    (huffmanCodes lengths).getD s 0 < 2 ^ lengths.getD s 0 := by
  rw [getD_huffmanCodes hs]
  exact reverseCode_lt _ _

/-! ## The table -/

theorem countP_succ (ls : List ℕ) (l : ℕ) : (ls.countP fun len => decide (0 < len ∧ len < l + 1)) =
    (ls.countP fun len => decide (0 < len ∧ len < l)) + countOf ls l := by
  induction ls with
  | nil => simp [countOf]
  | cons a ls ih =>
      simp only [countOf, List.countP_cons, List.count_cons, decide_eq_true_eq, beq_iff_eq] at ih ⊢
      rw [ih]
      split_ifs <;> omega

theorem startOf_eq (l : ℕ) : startOf lengths l = lengths.countP fun len => decide (0 < len ∧ len < l) := by
  induction l with
  | zero => simp [startOf]
  | succ l ih => rw [startOf, ih, countP_succ]

/-- They are all within the symbols. -/
theorem startOf_le (lengths : List ℕ) (l : ℕ) : startOf lengths l ≤ lengths.length := by
  rw [startOf_eq]
  exact List.countP_le_length

theorem startOf_mono (lengths : List ℕ) {l m : ℕ} (h : l < m) :
    startOf lengths l + countOf lengths l ≤ startOf lengths m := by
  induction m with
  | zero => exact absurd h (Nat.not_lt_zero l)
  | succ m ih =>
      rcases Nat.lt_succ_iff_lt_or_eq.mp h with hlt | rfl
      · exact (ih hlt).trans (Nat.le_add_right _ _)
      · exact le_rfl

theorem getD_firstOffsets (lengths : List ℕ) (k : ℕ) :
    ∀ (len : ℕ) (offsets : List ℕ), len + k = mostLength lengths →
    offsets.length = mostLength lengths + 1 → (∀ l ≤ len, offsets.getD l 0 = startOf lengths l) →
    (firstOffsets (lengthCounts lengths) len k offsets).length = mostLength lengths + 1 ∧
      ∀ l ≤ mostLength lengths, (firstOffsets (lengthCounts lengths) len k offsets).getD l 0 =
        startOf lengths l := by
  induction k with
  | zero =>
      intro len offsets hk hlength hget
      exact ⟨hlength, fun l hl => hget l (by omega)⟩
  | succ k ih =>
      intro len offsets hk hlength hget
      rw [firstOffsets]
      refine ih (len + 1) _ (by omega) (by rw [List.length_set, hlength]) ?_
      intro l hl
      rw [HuffmanLengths.getD_set _ _ _ _ _ (by omega)]
      by_cases heq : l = len + 1
      · rw [if_pos heq, heq, hget len le_rfl, getD_lengthCounts (by omega), startOf]
      · rw [if_neg heq, hget l (by omega)]

/-- Where the symbols still to be put go: none in the place of another. -/
def Apart (ls offsets : List ℕ) : Prop :=
  ∀ l m i j, 0 < l → 0 < m → i < ls.count l → j < ls.count m →
    offsets.getD l 0 + i = offsets.getD m 0 + j → l = m

theorem Apart.tail {a : ℕ} {ls offsets : List ℕ} (h : Apart (a :: ls) offsets) : Apart ls offsets :=
  fun l m i j hl hm hi hj =>
    h l m i j hl hm (hi.trans_le List.count_le_count_cons) (hj.trans_le List.count_le_count_cons)

theorem Apart.next {a : ℕ} {ls offsets : List ℕ} (h : Apart (a :: ls) offsets)
    (hlt : ∀ len ∈ a :: ls, len < offsets.length) : Apart ls (offsets.modify a (· + 1)) := by
  intro l m i j hl hm hi hj heq
  have hlen : ∀ {n k : ℕ}, k < ls.count n → n < offsets.length := fun hk =>
    hlt _ (List.mem_cons_of_mem a (List.count_pos_iff.mp (Nat.lt_of_le_of_lt (Nat.zero_le _) hk)))
  rw [getD_modify (hlen hi), getD_modify (hlen hj)] at heq
  refine h l m (i + if a = l then 1 else 0) (j + if a = m then 1 else 0) hl hm ?_ ?_ (by omega)
  · rw [List.count_cons]
    simp only [beq_iff_eq]
    omega
  · rw [List.count_cons]
    simp only [beq_iff_eq]
    omega

/-- A place that none of them goes to is left as it is. -/
theorem getD_putSymbols_of_ne (ls : List ℕ) : ∀ (sym : ℕ) (offsets syms : List ℕ) {x : ℕ},
    (∀ len ∈ ls, len < offsets.length) →
    (∀ l i, 0 < l → i < ls.count l → offsets.getD l 0 + i ≠ x) →
      (putSymbols ls sym offsets syms)[x]? = syms[x]? := by
  induction ls with
  | nil => exact fun _ _ _ _ _ _ => rfl
  | cons a ls ih =>
      intro sym offsets syms x hlt hne
      have hrest := fun len hlen => hlt len (List.mem_cons_of_mem a hlen)
      rw [putSymbols]
      split_ifs with ha
      · rw [ih (sym + 1) (offsets.modify a (· + 1)) _ (by simpa only [List.length_modify] using hrest) ?_]
        · have hhere := hne a 0 ha (by rw [List.count_cons_self]; omega)
          rw [Nat.add_zero] at hhere
          exact List.getElem?_set_ne hhere
        · intro l i hl hi
          have hlen : l < offsets.length :=
            hrest l (List.count_pos_iff.mp (Nat.lt_of_le_of_lt (Nat.zero_le _) hi))
          rw [getD_modify hlen, Nat.add_assoc]
          refine hne l _ hl ?_
          rw [List.count_cons]
          simp only [beq_iff_eq]
          omega
      · refine ih (sym + 1) offsets syms hrest ?_
        intro l i hl hi
        exact hne l i hl (hi.trans_le (List.count_le_count_cons))

/-- Each symbol is put where those of its length are, after those before it. -/
theorem getD_putSymbols (ls : List ℕ) : ∀ (sym : ℕ) (offsets syms : List ℕ) {s x : ℕ}, Apart ls offsets →
    (∀ len ∈ ls, len < offsets.length) → 0 < ls.getD s 0 →
    offsets.getD (ls.getD s 0) 0 + (ls.take s).count (ls.getD s 0) = x → x < syms.length →
    (putSymbols ls sym offsets syms)[x]? = some (sym + s) := by
  induction ls with
  | nil => exact fun _ _ _ _ _ _ _ h => absurd h (Nat.lt_irrefl 0)
  | cons a ls ih =>
      intro sym offsets syms s x hapart hlt hpos hx hroom
      have hrest := fun len hlen => hlt len (List.mem_cons_of_mem a hlen)
      rw [putSymbols]
      cases s with
      | zero =>
          rw [List.getD_cons_zero] at hpos hx
          rw [List.take_zero, List.count_nil, Nat.add_zero] at hx
          subst hx
          rw [if_pos hpos, getD_putSymbols_of_ne ls _ _ _ (by simpa only [List.length_modify] using hrest) ?_,
            List.getElem?_set_self hroom, Nat.add_zero]
          intro l i hl hi heq
          have hlen : l < offsets.length :=
            hrest l (List.count_pos_iff.mp (Nat.lt_of_le_of_lt (Nat.zero_le _) hi))
          rw [getD_modify hlen, Nat.add_assoc] at heq
          -- no other length has the place, and of its own the next are after it
          have hla : l = a := by
            refine hapart l a _ 0 hl hpos ?_ (by rw [List.count_cons_self]; omega) heq
            rw [List.count_cons]
            simp only [beq_iff_eq]
            omega
          rw [hla, if_pos rfl] at heq
          omega
      | succ s =>
          rw [List.getD_cons_succ] at hpos hx
          have hs : s < ls.length := by
            by_contra hge
            rw [List.getD_eq_default _ _ (Nat.le_of_not_lt hge)] at hpos
            exact absurd hpos (Nat.lt_irrefl 0)
          have hlen : ls.getD s 0 < offsets.length := by
            rw [List.getD_eq_getElem _ _ hs]
            exact hrest _ (List.getElem_mem hs)
          have hsym : sym + (s + 1) = sym + 1 + s := by omega
          rw [List.take_succ_cons, List.count_cons] at hx
          simp only [beq_iff_eq] at hx
          rw [hsym]
          by_cases ha : 0 < a
          · rw [if_pos ha]
            refine ih (sym + 1) _ _ (hapart.next hlt) (by simpa only [List.length_modify] using hrest) hpos ?_
              (by rwa [List.length_set])
            rw [getD_modify hlen]
            omega
          · rw [if_neg ha]
            refine ih (sym + 1) offsets syms hapart.tail hrest hpos ?_ hroom
            rw [if_neg (by omega)] at hx
            exact hx

/-! ## A code is read -/

theorem toNat_odd (v : ℕ) : (v % 2 == 1).toNat = v % 2 := by
  rcases Nat.mod_two_eq_zero_or_one v with h | h <;> rw [h] <;> rfl

theorem drop_lengthCounts {l : ℕ} (hl : l ≤ mostLength lengths) :
    (lengthCounts lengths).drop l = countOf lengths l :: (lengthCounts lengths).drop (l + 1) := by
  have hlt : l < (lengthCounts lengths).length := by
    rw [length_lengthCounts]
    omega
  rw [List.drop_eq_getElem_cons hlt, ← getD_lengthCounts hl, List.getD_eq_getElem _ _ hlt]

theorem two_pow_mul_le (lengths : List ℕ) {l L : ℕ} (h : l < L) :
    2 ^ (L - l) * (firstOf lengths l + countOf lengths l) ≤ firstOf lengths L := by
  induction L with
  | zero => exact absurd h (Nat.not_lt_zero l)
  | succ L ih =>
      rcases Nat.lt_succ_iff_lt_or_eq.mp h with hlt | rfl
      · rw [Nat.succ_sub hlt.le, pow_succ, firstOf]
        have := ih hlt
        nlinarith
      · rw [Nat.succ_sub (le_refl l), Nat.sub_self, firstOf]
        simp

/-- A code read bit by bit: it is past the codes of every length shorter than its own. -/
theorem decodeFrom_code {syms : List ℕ} {sym C L : ℕ} (hfirst : firstOf lengths L ≤ C)
    (hlast : C < firstOf lengths L + countOf lengths L) (hmost : L ≤ mostLength lengths)
    (hsym : syms[startOf lengths L + (C - firstOf lengths L)]? = some sym) (rest : List Bool) (m : ℕ) :
    ∀ (p c l : ℕ), C = p * 2 ^ (m + 1) + c → c < 2 ^ (m + 1) → L = l + m → 
      decodeFrom syms ((lengthCounts lengths).drop l) (p <<< 1) (firstOf lengths l) (startOf lengths l)
        ((Bits.ofNat (m + 1) c).reverse ++ rest) = some (sym, rest) := by
  induction m with
  | zero =>
      intro p c l hC hc hL
      obtain rfl : L = l := hL
      have hcode : p <<< 1 + (c % 2 == 1).toNat = C := by
        rw [toNat_odd, Nat.mod_eq_of_lt (by simpa using hc), Nat.shiftLeft_eq, hC]
      rw [drop_lengthCounts hmost, Bits.ofNat, Bits.ofNat, List.reverse_singleton,
        List.singleton_append, decodeFrom, hcode, if_pos (by omega), hsym]
      rfl
  | succ m ih =>
      intro p c l hC hc hL
      -- the high bit, and the rest of them
      have hhigh : c / 2 ^ (m + 1) < 2 := by
        rw [Nat.div_lt_iff_lt_mul (Nat.two_pow_pos _), ← pow_succ']
        exact hc
      have hsplit := Nat.div_add_mod c (2 ^ (m + 1))
      have hrest := Nat.mod_lt c (Nat.two_pow_pos (m + 1))
      have hbits : (Bits.ofNat (m + 1 + 1) c).reverse =
          (c / 2 ^ (m + 1) % 2 == 1) :: (Bits.ofNat (m + 1) (c % 2 ^ (m + 1))).reverse := by
        rw [Bits.ofNat_split (m + 1) 1 c, List.reverse_append]
        rfl
      have hcode : p <<< 1 + (c / 2 ^ (m + 1) % 2 == 1).toNat = 2 * p + c / 2 ^ (m + 1) := by
        rw [toNat_odd, Nat.mod_eq_of_lt hhigh, Nat.shiftLeft_eq, pow_one, Nat.mul_comm]
      have hC' : C = (2 * p + c / 2 ^ (m + 1)) * 2 ^ (m + 1) + c % 2 ^ (m + 1) := by
        rw [hC, pow_succ 2 (m + 1)]
        nlinarith
      have hpast : firstOf lengths l + countOf lengths l ≤ 2 * p + c / 2 ^ (m + 1) := by
        have hle := two_pow_mul_le lengths (by omega : l < L)
        rw [hL, Nat.add_sub_cancel_left] at hle
        refine Nat.le_of_lt_succ (Nat.lt_of_mul_lt_mul_left (a := 2 ^ (m + 1)) ?_)
        rw [Nat.mul_succ]
        rw [← hL] at hle
        nlinarith
      rw [drop_lengthCounts (by omega), hbits, List.cons_append, decodeFrom, hcode, if_neg (by omega)]
      have hnext := ih (2 * p + c / 2 ^ (m + 1)) (c % 2 ^ (m + 1)) (l + 1) hC' hrest (by omega)
      rwa [firstOf, startOf, Nat.mul_comm 2, ← pow_one 2, ← Nat.shiftLeft_eq] at hnext


theorem lt_length_of_pos {s : ℕ} (hs : 0 < lengths.getD s 0) : s < lengths.length := by
  by_contra hge
  rw [List.getD_eq_default _ _ (Nat.le_of_not_lt hge)] at hs
  exact absurd hs (Nat.lt_irrefl 0)

/-- The symbols before one that have its length are less than all that have. -/
theorem rankOf_lt {s : ℕ} (hs : 0 < lengths.getD s 0) :
    rankOf lengths s < countOf lengths (lengths.getD s 0) := by
  have hlt := lt_length_of_pos hs
  have hsplit := List.take_append_drop s lengths
  rw [List.drop_eq_getElem_cons hlt, ← List.getD_eq_getElem _ 0 hlt] at hsplit
  have hcount := congrArg (List.count (lengths.getD s 0)) hsplit
  rw [List.count_append, List.count_cons_self] at hcount
  rw [countOf, if_neg hs.ne', rankOf]
  omega

/-- The places of the symbols, by where those of a length begin. -/
theorem apart_of_startOf {offsets : List ℕ}
    (h : ∀ l ≤ mostLength lengths, offsets.getD l 0 = startOf lengths l) :
    Apart lengths offsets := by
  intro l m i j hl hm hi hj heq
  have hle : ∀ {n k : ℕ}, k < lengths.count n → n ≤ mostLength lengths := fun hk =>
    le_mostLength (List.count_pos_iff.mp (Nat.lt_of_le_of_lt (Nat.zero_le _) hk))
  have hcount : ∀ {n : ℕ}, 0 < n → countOf lengths n = lengths.count n := fun hn => if_neg hn.ne'
  rw [h l (hle hi), h m (hle hj)] at heq
  rw [← hcount hl] at hi
  rw [← hcount hm] at hj
  rcases Nat.lt_trichotomy l m with hlt | rfl | hlt
  · have := startOf_mono lengths hlt
    omega
  · rfl
  · have := startOf_mono lengths hlt
    omega

theorem table_sym {table : HuffmanTable} (htable : huffmanTable lengths = some table) {s : ℕ}
    (hs : 0 < lengths.getD s 0) :
    table.counts = lengthCounts lengths ∧
      table.syms[startOf lengths (lengths.getD s 0) + rankOf lengths s]? = some s := by
  have hmost := getD_le_mostLength lengths s
  obtain ⟨hlength, hoffsets⟩ := getD_firstOffsets lengths (mostLength lengths - 1) 1
    (List.replicate (mostLength lengths + 1) 0) (by omega) List.length_replicate (by
      intro l hl
      rw [getD_replicate_zero]
      rcases Nat.le_one_iff_eq_zero_or_eq_one.mp hl with rfl | rfl <;> rfl)
  have hlt : ∀ len ∈ lengths, len < (firstOffsets (lengthCounts lengths) 1 (mostLength lengths - 1)
      (List.replicate (mostLength lengths + 1) 0)).length :=
    fun len hlen => Nat.lt_of_lt_of_eq (Nat.lt_succ_of_le (le_mostLength hlen)) hlength.symm
  have hroom : startOf lengths (lengths.getD s 0) + rankOf lengths s < lengths.length := by
    have hrank := rankOf_lt hs
    have hmono := startOf_mono lengths (Nat.lt_succ_self (lengths.getD s 0))
    have hle := startOf_le lengths (lengths.getD s 0 + 1)
    rw [Nat.succ_eq_add_one] at hmono
    omega
  rw [huffmanTable, if_neg (by omega)] at htable
  obtain rfl := Option.some.inj htable
  refine ⟨rfl, ?_⟩
  have hsym := getD_putSymbols lengths 0 _ (List.replicate lengths.length 0)
    (apart_of_startOf hoffsets) hlt hs
    (by rw [hoffsets _ hmost]) (by rwa [List.length_replicate])
  rwa [Nat.zero_add] at hsym

/-- The bits of a symbol are read as it, whatever comes after them. -/
theorem decode_codeBits {table : HuffmanTable} (htable : huffmanTable lengths = some table)
    (hwhole : Whole lengths)
    {s : ℕ} (hs : 0 < lengths.getD s 0) (rest : List Bool) :
    decode table (codeBits lengths s ++ rest) = some (s, rest) := by
  obtain ⟨hcounts, hsym⟩ := table_sym htable hs
  have hrank := rankOf_lt hs
  have hfits := hwhole (lengths.getD s 0)
  obtain ⟨m, hm⟩ : ∃ m, lengths.getD s 0 = m + 1 := ⟨lengths.getD s 0 - 1, by omega⟩
  have hread := decodeFrom_code (C := codeOf lengths s) (L := lengths.getD s 0) (Nat.le_add_right _ _)
    (by rw [codeOf]; omega) (getD_le_mostLength lengths s)
      (by rwa [codeOf, Nat.add_sub_cancel_left]) rest m 0 (codeOf lengths s) 1
    (by rw [Nat.zero_mul, Nat.zero_add]) (by rw [← hm, codeOf]; omega) (by omega)
  rwa [← hm, ← hcounts] at hread

/-! ## Lengths that are a code -/

/-- What part of all codes those of the lengths up to one take up. -/
def part (ls : List ℕ) (l : ℕ) : ℚ :=
  (ls.map fun len => if len = 0 ∨ l < len then 0 else (1 / 2 : ℚ) ^ len).sum

theorem part_cons (a : ℕ) (ls : List ℕ) (l : ℕ) :
    part (a :: ls) l = (if a = 0 ∨ l < a then 0 else (1 / 2 : ℚ) ^ a) + part ls l := rfl

theorem part_zero (ls : List ℕ) : part ls 0 = 0 := by
  induction ls with
  | nil => rfl
  | cons a ls ih => rw [part_cons, ih, if_pos (Nat.eq_zero_or_pos a), add_zero]

theorem part_succ (ls : List ℕ) (l : ℕ) :
    part ls (l + 1) = part ls l + countOf ls (l + 1) * (1 / 2) ^ (l + 1) := by
  induction ls with
  | nil => simp [part, countOf]
  | cons a ls ih =>
      simp only [countOf, if_neg (Nat.succ_ne_zero l), List.count_cons, beq_iff_eq, part_cons] at ih ⊢
      rw [ih]
      by_cases heq : a = l + 1
      · subst heq
        rw [if_neg (by omega), if_pos (Or.inr (Nat.lt_succ_self l)), if_pos rfl]
        push_cast
        ring
      · have hiff : (a = 0 ∨ l + 1 < a) ↔ (a = 0 ∨ l < a) := by omega
        simp only [hiff, if_neg heq]
        push_cast
        ring

theorem cast_firstOf (l : ℕ) :
    ((firstOf lengths l + countOf lengths l : ℕ) : ℚ) = 2 ^ l * part lengths l := by
  induction l with
  | zero => rw [part_zero, firstOf, countOf, if_pos rfl, mul_zero, Nat.cast_zero]
  | succ l ih =>
      have hhalf : (2 : ℚ) ^ (l + 1) * (1 / 2) ^ (l + 1) = 1 := by
        rw [← mul_pow, mul_one_div_cancel two_ne_zero, one_pow]
      calc ((firstOf lengths (l + 1) + countOf lengths (l + 1) : ℕ) : ℚ)
          = 2 * ((firstOf lengths l + countOf lengths l : ℕ) : ℚ) + countOf lengths (l + 1) * 1 := by
            rw [firstOf]
            push_cast
            ring
        _ = 2 ^ (l + 1) * part lengths (l + 1) := by
            rw [ih, part_succ]
            linear_combination (-(countOf lengths (l + 1) : ℚ)) * hhalf

/-- Lengths of which all codes together take up no more than there is. -/
theorem whole_of_sum (h : (lengths.map fun len => if len = 0 then 0 else (1 / 2 : ℚ) ^ len).sum ≤ 1)
    : Whole lengths := by
  intro l
  have hpart : part lengths l ≤ 1 := by
    refine le_trans (List.sum_le_sum ?_) h
    intro len _
    by_cases hlen : len = 0
    · rw [if_pos (Or.inl hlen), if_pos hlen]
    · rw [if_neg hlen]
      split
      · positivity
      · exact le_rfl
  have hle : ((firstOf lengths l + countOf lengths l : ℕ) : ℚ) ≤ ((2 ^ l : ℕ) : ℚ) := by
    rw [cast_firstOf, Nat.cast_pow, Nat.cast_two]
    exact mul_le_of_le_one_right (by positivity) hpart
  exact Nat.cast_le.mp hle

end ChrysaLisp.HuffmanCodes
