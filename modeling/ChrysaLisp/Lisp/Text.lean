import ChrysaLisp.Lisp.Str
import Mathlib.Data.List.TakeWhile
import Mathlib.Data.Nat.Digits.Lemmas
import Mathlib.Tactic.Ring

set_option autoImplicit false

/-! # Text that is read back

The functions that read what `join`, `hexEncode` and `strNum` write, under their own names, and
that each of them does: what is cut at a separator is what was joined by it (`split_join`), and a
number and a string in hex are read as what they were (`strAsNum_strNum`, `hexDecode_hexEncode`). -/

namespace ChrysaLisp

/-- What a digit of hex is worth, as `hex-decode` works it out of the character. -/
def hexValue (c : Byte) : ℕ := (if 57 < c.val then c.val + 9 else c.val) % 16

/-- `(hex-decode str)`, of an even number of digits. -/
def hexDecode : Str → Str
  | a :: b :: rest => Fin.ofNat 256 (hexValue a * 16 + hexValue b) :: hexDecode rest
  | _ => []

/-- A decimal digit. -/
def isDigit (c : Byte) : Bool := decide (48 ≤ c.val ∧ c.val ≤ 57)

/-- `(str-as-num str)` of a decimal number: as far as the digits go. -/
def strAsNum (s : Str) : ℕ := (s.takeWhile isDigit).foldl (fun n d => n * 10 + (d.val - 48)) 0

/-- `(find c str i)`: where the first `c` is, from `i` on. -/
def findByte (c : Byte) (s : Str) (i : ℕ) : Option ℕ :=
  ((s.drop i).findIdx? (fun b => decide (b = c))).map (· + i)

example : hexDecode (asc "00AB") = [0, 171] := by decide

example : findByte 10 [65, 10, 66, 10] 2 = some 3 := by decide

/-! ## Numbers -/

/-- The digits of a number, the most significant first. -/
theorem strNum_eq (n : ℕ) : ∃ ds : List ℕ, ds ≠ [] ∧ (∀ d ∈ ds, d < 10) ∧ Nat.ofDigits 10 ds.reverse = n ∧
    strNum n = ds.map (fun d => Fin.ofNat 256 (d + 48)) := by
  unfold strNum
  by_cases hn : n = 0
  · refine ⟨[0], by simp, by simp, ?_, ?_⟩
    · rw [hn]
      rfl
    · rw [if_pos hn]
      rfl
  · refine ⟨(Nat.digits 10 n).reverse, ?_, fun d hd => ?_, ?_, ?_⟩
    · simpa [Nat.digits_ne_nil_iff_ne_zero] using hn
    · exact Nat.digits_lt_base (by decide) (List.mem_reverse.1 hd)
    · rw [List.reverse_reverse, Nat.ofDigits_digits]
    · rw [if_neg hn]

theorem val_digit {d : ℕ} (h : d < 10) : (Fin.ofNat 256 (d + 48)).val = d + 48 := by
  rw [Fin.val_ofNat]
  exact Nat.mod_eq_of_lt (by omega)

theorem isDigit_strNum (n : ℕ) : ∀ c ∈ strNum n, isDigit c = true := by
  obtain ⟨ds, -, hlt, -, hstr⟩ := strNum_eq n
  intro c hc
  rw [hstr, List.mem_map] at hc
  obtain ⟨d, hd, rfl⟩ := hc
  have hval := val_digit (hlt d hd)
  have := hlt d hd
  simp only [isDigit, decide_eq_true_eq]
  omega

theorem strNum_ne_nil (n : ℕ) : strNum n ≠ [] := by
  obtain ⟨ds, hne, -, -, hstr⟩ := strNum_eq n
  rw [hstr]
  simpa using hne

/-- A byte that is no digit is not in a number. -/
theorem not_mem_strNum {c : Byte} (h : isDigit c = false) (n : ℕ) : c ∉ strNum n :=
  fun hc => by simp [isDigit_strNum n c hc] at h

theorem foldl_digits (ds : List ℕ) (hlt : ∀ d ∈ ds, d < 10) (n : ℕ) :
    (ds.map (fun d => (Fin.ofNat 256 (d + 48) : Byte))).foldl (fun n d => n * 10 + (d.val - 48)) n
      = n * 10 ^ ds.length + Nat.ofDigits 10 ds.reverse := by
  induction ds generalizing n with
  | nil => simp
  | cons d ds ih =>
      rw [List.map_cons, List.foldl_cons, ih (fun d hd => hlt d (List.mem_cons_of_mem _ hd)),
        val_digit (hlt d List.mem_cons_self), List.reverse_cons, Nat.ofDigits_append,
        Nat.ofDigits_singleton, List.length_reverse, List.length_cons, pow_succ,
        Nat.add_sub_cancel]
      ring

/-- A number is read as what it was. A `0` before it is nothing to it. -/
theorem strAsNum_strNum (n : ℕ) : strAsNum (strNum n) = n := by
  unfold strAsNum
  rw [List.takeWhile_eq_self_iff.2 (isDigit_strNum n)]
  obtain ⟨ds, -, hlt, hval, hstr⟩ := strNum_eq n
  rw [hstr, foldl_digits ds hlt, hval, zero_mul, zero_add]

theorem strAsNum_zero_cons (s : Str) : strAsNum (48 :: s) = strAsNum s := by
  unfold strAsNum
  rw [List.takeWhile_cons_of_pos (by decide), List.foldl_cons]
  rfl

/-! ## Hex -/

theorem hexDecode_hexEncode (s : Str) : hexDecode (hexEncode s) = s := by
  have hbyte : ∀ b : Byte, Fin.ofNat 256 (hexValue (hexDigit (b.val / 16)) * 16
      + hexValue (hexDigit (b.val % 16))) = b := by decide +kernel
  induction s with
  | nil => rfl
  | cons b s ih => rw [hexEncode, hexDecode, ih, hbyte]

theorem length_hexEncode (s : Str) : (hexEncode s).length = 2 * s.length := by
  induction s with
  | nil => rfl
  | cons b s ih =>
      rw [hexEncode, List.length_cons, List.length_cons, ih, List.length_cons]
      omega

/-- What a string in hex is of. -/
theorem le_of_mem_hexEncode {s : Str} {c : Byte} (h : c ∈ hexEncode s) :
    48 ≤ c.val ∧ c.val ≤ 70 := by
  have hdigit : ∀ b : Byte, 48 ≤ (hexDigit (b.val / 16)).val ∧ (hexDigit (b.val / 16)).val ≤ 70 ∧
      48 ≤ (hexDigit (b.val % 16)).val ∧ (hexDigit (b.val % 16)).val ≤ 70 := by decide +kernel
  induction s with
  | nil => exact absurd h List.not_mem_nil
  | cons b s ih =>
      obtain ⟨h1, h2, h3, h4⟩ := hdigit b
      rw [hexEncode, List.mem_cons, List.mem_cons] at h
      rcases h with rfl | rfl | h
      · exact ⟨h1, h2⟩
      · exact ⟨h3, h4⟩
      · exact ih h

/-! ## Cutting and joining -/

section Split

variable {sep : Byte}

/-- A part: something, and no separator in it. -/
def Part (sep : Byte) (s : Str) : Prop := s ≠ [] ∧ sep ∉ s

instance (sep : Byte) (s : Str) : Decidable (Part sep s) := inferInstanceAs (Decidable (_ ∧ _))

theorem split_append {t : Str} (h : Part sep t) (rest : Str) :
    split (t ++ sep :: rest) sep = t :: split rest sep := by
  unfold split
  rw [List.splitOn_append_cons_self_of_not_mem h.2, List.filter_cons_of_pos (by simpa using h.1)]

theorem split_part {t : Str} (h : Part sep t) : split t sep = [t] := by
  unfold split
  rw [List.splitOn_eq_singleton h.2]
  simp [h.1]

theorem join_cons {s : Str} {rest : List Str} (h : rest ≠ []) (by' : Str) :
    join (s :: rest) by' = s ++ by' ++ join rest by' := by
  cases rest with
  | nil => exact absurd rfl h
  | cons t rest => rfl

theorem join_append {ts us : List Str} (ht : ts ≠ []) (hu : us ≠ []) (by' : Str) :
    join (ts ++ us) by' = join ts by' ++ by' ++ join us by' := by
  induction ts with
  | nil => exact absurd rfl ht
  | cons t ts ih =>
      cases ts with
      | nil => rw [List.singleton_append, join_cons hu]; rfl
      | cons t' ts =>
          have hne : t' :: ts ≠ [] := List.cons_ne_nil _ _
          rw [List.cons_append, join_cons (List.append_ne_nil_of_left_ne_nil hne us), ih hne,
            join_cons hne]
          simp only [List.append_assoc]

/-- **What is joined is cut into what it was.** -/
theorem split_join {ts : List Str} (h : ∀ t ∈ ts, Part sep t) : split (join ts [sep]) sep = ts := by
  induction ts with
  | nil => rfl
  | cons t ts ih =>
      have ht := h t List.mem_cons_self
      cases ts with
      | nil => exact split_part ht
      | cons t' ts =>
          rw [join_cons (by simp), List.append_assoc, List.singleton_append, split_append ht,
            ih (fun t ht => h t (List.mem_cons_of_mem _ ht))]

theorem not_mem_of_mem_splitOn {s t : Str} (h : t ∈ s.splitOn sep) : sep ∉ t := by
  induction s generalizing t with
  | nil =>
      rw [List.splitOn_nil, List.mem_singleton] at h
      rw [h]
      exact List.not_mem_nil
  | cons c s ih =>
      rw [List.splitOn_cons_eq_if_modifyHead] at h
      split at h
      · rcases List.mem_cons.1 h with rfl | h
        · exact List.not_mem_nil
        · exact ih h
      next hc =>
        cases hparts : s.splitOn sep with
        | nil => exact absurd hparts (List.splitOn_ne_nil sep s)
        | cons u us =>
            rw [hparts, List.modifyHead_cons, List.mem_cons] at h
            rw [hparts] at ih
            rcases h with rfl | h
            · rw [List.mem_cons, not_or]
              exact ⟨fun he => hc (by simp [he]), ih List.mem_cons_self⟩
            · exact ih (List.mem_cons_of_mem _ h)

theorem part_of_mem_split {s t : Str} (h : t ∈ split s sep) : Part sep t := by
  obtain ⟨hmem, hne⟩ := List.mem_filter.1 h
  exact ⟨of_decide_eq_true hne, not_mem_of_mem_splitOn hmem⟩

theorem mem_join {ts : List Str} {by' : Str} {c : Byte} (h : c ∈ join ts by') :
    c ∈ by' ∨ ∃ t ∈ ts, c ∈ t := by
  induction ts with
  | nil => exact absurd h List.not_mem_nil
  | cons t ts ih =>
      cases ts with
      | nil => exact Or.inr ⟨t, List.mem_cons_self, h⟩
      | cons t' ts =>
          rw [join_cons (by simp), List.mem_append, List.mem_append] at h
          rcases h with (h | h) | h
          · exact Or.inr ⟨t, List.mem_cons_self, h⟩
          · exact Or.inl h
          · exact (ih h).imp id (fun ⟨u, hu, hc⟩ => ⟨u, List.mem_cons_of_mem _ hu, hc⟩)

end Split

end ChrysaLisp
