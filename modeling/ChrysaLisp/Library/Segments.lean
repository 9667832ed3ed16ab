import ChrysaLisp.Library.Bounded
import Mathlib.Tactic.Linarith

set_option autoImplicit false

/-! # A part of a list put in another order

A list of which one part has been put in another order, all else being where it was (`Arranged`).
What is in the part then is what was in it before (`Arranged.segment`, `Arranged.exists_getElem?`),
so what holds of all that is in the part holds of it after. -/

namespace Segments

open Bounded

variable {α : Type}

/-- The elements from one place up to another. -/
def segment (l : List α) (low high : ℕ) : List α := (l.take high).drop low

/-- Only what is from one place up to another has changed places. -/
structure Arranged (low high : ℕ) (l l' : List α) : Prop where
  perm : l'.Perm l
  outside : ∀ k, k < low ∨ high ≤ k → l'[k]? = l[k]?

variable {low high i j : ℕ} {l l' l'' : List α}

theorem Arranged.refl (low high : ℕ) (l : List α) : Arranged low high l l :=
    ⟨List.Perm.refl l, fun _ _ => rfl⟩

theorem Arranged.trans (h : Arranged low high l l') (h' : Arranged low high l' l'') :
    Arranged low high l l'' :=
  ⟨h'.perm.trans h.perm, fun k hk => (h'.outside k hk).trans (h.outside k hk)⟩

theorem Arranged.mono (h : Arranged i j l l') (hlow : low ≤ i) (hhigh : j ≤ high) : Arranged low high l l' :=
  ⟨h.perm, fun k hk => h.outside k (by omega)⟩

theorem Arranged.length_eq (h : Arranged low high l l') : l'.length = l.length := h.perm.length_eq

theorem getElem?_segment {k : ℕ} :
    (segment l low high)[k]? = if low + k < high then l[low + k]? else none := by
  unfold segment
  rw [List.getElem?_drop, List.getElem?_take]

/-- What is from the one place to the other is what was. -/
theorem Arranged.segment (h : Arranged low high l l') (hle : low ≤ high) :
    (segment l' low high).Perm (segment l low high) := by
  have hsplit : ∀ m : List α, m.take low ++ (Segments.segment m low high ++ m.drop high) = m := by
    intro m
    have hinner : m.take low ++ Segments.segment m low high = m.take high := by
      have htake := List.take_append_drop low (m.take high)
      rwa [List.take_take, min_eq_left hle] at htake
    rw [← List.append_assoc, hinner, List.take_append_drop]
  have hbefore : l'.take low = l.take low := by
    apply List.ext_getElem?
    intro k
    rw [List.getElem?_take, List.getElem?_take]
    split_ifs with hk
    · exact h.outside k (Or.inl hk)
    · rfl
  have hafter : l'.drop high = l.drop high := by
    apply List.ext_getElem?
    intro k
    rw [List.getElem?_drop, List.getElem?_drop]
    exact h.outside _ (Or.inr (Nat.le_add_right high k))
  have hperm := h.perm
  rw [← hsplit l', ← hsplit l, hbefore, hafter] at hperm
  exact (List.perm_append_right_iff _).mp ((List.perm_append_left_iff _).mp hperm)

/-- Each of what is there now was there. -/
theorem Arranged.exists_getElem? (h : Arranged low high l l') {a : α} (hlow : low ≤ i) (hhigh : i < high)
    (ha : l'[i]? = some a) : ∃ j, low ≤ j ∧ j < high ∧ l[j]? = some a := by
  have hmem : a ∈ Segments.segment l' low high := by
    refine List.mem_of_getElem? (i := i - low) ?_
    rw [getElem?_segment, if_pos (by omega), show low + (i - low) = i by omega, ha]
  obtain ⟨k, hk⟩ := List.mem_iff_getElem?.mp ((h.segment (by omega)).mem_iff.mp hmem)
  rw [getElem?_segment] at hk
  by_cases hlt : low + k < high
  · rw [if_pos hlt] at hk
    exact ⟨low + k, Nat.le_add_right low k, hlt, hk⟩
  · rw [if_neg hlt] at hk
    exact absurd hk.symm (Option.some_ne_none a)

/-! ## Two change places -/

/-- Two elements change places. -/
def swap (l : List α) (i j : ℕ) : Read (List α) := do
  let a ← elem l i
  let b ← elem l j
  let l ← put l i b
  put l j a

theorem swap_comes (hi : i < l.length) (hj : j < l.length) :
    Comes (swap l i j) fun out => out.Perm l ∧ ∀ k, out[k]? = if k = i then l[j]?
      else if k = j then l[i]? else l[k]? := by
  have hj' : j < (l.set i l[j]).length := by rwa [List.length_set]
  unfold swap
  rw [elem_of_lt hi, ok_bind, elem_of_lt hj, ok_bind, put_of_lt hi, ok_bind, put_of_lt hj']
  refine ⟨_, rfl, List.set_set_perm hi hj, ?_⟩
  intro k
  rw [List.getElem?_set, List.getElem?_set, List.length_set]
  by_cases hkj : j = k
  · rw [if_pos hkj, if_pos (hkj ▸ hj)]
    by_cases hki : k = i
    · rw [if_pos hki, List.getElem?_eq_getElem hj]
      simp only [hkj, hki]
    · rw [if_neg hki, if_pos hkj.symm, List.getElem?_eq_getElem hi]
  · rw [if_neg hkj]
    by_cases hki : k = i
    · rw [if_pos hki.symm, if_pos (hki ▸ hi), if_pos hki, List.getElem?_eq_getElem hj]
    · rw [if_neg fun h => hki h.symm, if_neg hki, if_neg fun h => hkj h.symm]

/-- Two of a part change places. -/
theorem swap_arranged (low high i j : ℕ) (hhigh : high ≤ l.length) (hi : low ≤ i ∧ i < high)
    (hj : low ≤ j ∧ j < high) :
    Comes (swap l i j) fun out => Arranged low high l out ∧
      ∀ k, out[k]? = if k = i then l[j]? else if k = j then l[i]? else l[k]? := by
  obtain ⟨out, hout, hperm, hget⟩ := swap_comes (l := l) (i := i) (j := j) (by omega) (by omega)
  refine ⟨out, hout, ⟨hperm, ?_⟩, hget⟩
  intro k hk
  rw [hget, if_neg (by omega), if_neg (by omega)]

end Segments
