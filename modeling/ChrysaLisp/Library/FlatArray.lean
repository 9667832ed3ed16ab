import Mathlib.Data.List.Basic
import Mathlib.Tactic.Common

set_option autoImplicit false

/-! # Flat arrays

A flat array is a list, read a part at a time and written a part at a time. What is written inside
of it leaves its length as it was (`length_overwrite`), is what is then read there and nowhere else
(`getElem?_overwrite`), and may as well be written in two parts, one after the other
(`overwrite_overwrite`). -/

namespace FlatArray

variable {α : Type*}

/-- The part from `i` up to `j`, as far as the array goes. -/
def slice (l : List α) (i j : ℕ) : List α := (l.drop i).take (j - i)

/-- The array with `m` written at `n`. -/
def overwrite (l : List α) (n : ℕ) (m : List α) : List α := l.take n ++ m ++ l.drop (n + m.length)

/-! ## Reading -/

theorem length_slice (l : List α) (i j : ℕ) : (slice l i j).length = min (j - i) (l.length - i) := by
  simp [slice]

theorem length_slice_of_le {l : List α} {i j : ℕ} (h : j ≤ l.length) :
    (slice l i j).length = j - i := by
  rw [length_slice]
  omega

theorem getElem?_slice (l : List α) (i j k : ℕ) :
    (slice l i j)[k]? = if i + k < j then l[i + k]? else none := by
  unfold slice
  rw [List.getElem?_take, List.getElem?_drop]
  by_cases h : i + k < j
  · rw [if_pos h, if_pos (by omega)]
  · rw [if_neg h, if_neg (by omega)]

theorem slice_all (l : List α) : slice l 0 l.length = l := by simp [slice]

/-- A part of a part. -/
theorem slice_slice (l : List α) (i j a b : ℕ) (h : i + b ≤ j) :
    slice (slice l i j) a b = slice l (i + a) (i + b) := by
  apply List.ext_getElem?
  intro k
  simp only [getElem?_slice]
  by_cases hk : a + k < b
  · rw [if_pos hk, if_pos (by omega), if_pos (by omega), Nat.add_assoc]
  · rw [if_neg hk, if_neg (by omega)]

/-- Two parts, one after the other. -/
theorem slice_append_slice (l : List α) {i j k : ℕ} (hij : i ≤ j) (hjk : j ≤ k) :
    slice l i j ++ slice l j k = slice l i k := by
  unfold slice
  have hdrop : l.drop j = (l.drop i).drop (j - i) := by
    rw [List.drop_drop, Nat.add_sub_cancel' hij]
  have hlen : k - i = (j - i) + (k - j) := by omega
  rw [hdrop, hlen, List.take_add]

/-! ## Writing -/

variable {l m : List α} {n : ℕ}

theorem length_overwrite (h : n + m.length ≤ l.length) : (overwrite l n m).length = l.length := by
  simp only [overwrite, List.length_append, List.length_take, List.length_drop]
  omega

theorem getElem?_overwrite (h : n + m.length ≤ l.length) (p : ℕ) :
    (overwrite l n m)[p]? = if n ≤ p ∧ p < n + m.length then m[p - n]? else l[p]? := by
  have hn : (l.take n).length = n := by
    rw [List.length_take]
    omega
  have htop : (l.take n ++ m).length = n + m.length := by rw [List.length_append, hn]
  unfold overwrite
  by_cases hp : p < n + m.length
  · rw [List.getElem?_append_left (by omega)]
    by_cases hnp : n ≤ p
    · rw [if_pos ⟨hnp, hp⟩, List.getElem?_append_right (by omega), hn]
    · rw [if_neg (by omega), List.getElem?_append_left (by omega),
        List.getElem?_take_of_lt (by omega)]
  · rw [if_neg (by omega), List.getElem?_append_right (by omega), htop, List.getElem?_drop]
    congr 1
    omega

/-- Writing after the first part of an array. -/
theorem overwrite_append (a b m : List α) :
    overwrite (a ++ b) a.length m = a ++ m ++ b.drop m.length := by
  unfold overwrite
  rw [List.take_left, ← List.drop_drop, List.drop_left]

@[simp] theorem overwrite_nil : overwrite l n [] = l := by simp [overwrite]

theorem overwrite_overwrite {m' : List α} (h : n + m.length + m'.length ≤ l.length) :
    overwrite (overwrite l n m) (n + m.length) m' = overwrite l n (m ++ m') := by
  apply List.ext_getElem?
  intro p
  have hl : (overwrite l n m).length = l.length := length_overwrite (by omega)
  rw [getElem?_overwrite (by omega), getElem?_overwrite (by omega),
    getElem?_overwrite (by rw [List.length_append]; omega), List.length_append]
  by_cases hlo : n ≤ p
  · by_cases hmid : p < n + m.length
    · rw [if_neg (by omega), if_pos ⟨hlo, hmid⟩, if_pos (by omega),
        List.getElem?_append_left (by omega)]
    · by_cases hhi : p < n + m.length + m'.length
      · rw [if_pos (by omega), if_pos (by omega), List.getElem?_append_right (by omega)]
        congr 1
        omega
      · rw [if_neg (by omega), if_neg (by omega), if_neg (by omega)]
  · rw [if_neg (by omega), if_neg (by omega), if_neg (by omega)]

end FlatArray
