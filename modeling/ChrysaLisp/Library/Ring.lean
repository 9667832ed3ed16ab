import ChrysaLisp.Library.FlatArray

set_option autoImplicit false

/-! # Rings

A ring is a flat array of `w` cells in which the element at place `p` of a run of data that may be
much longer is kept in cell `p % w`, over the one `w` places before it. `Holds w ring data` is that
the last `w` elements of the data are there. It is kept by what puts one more (`Holds.set`) and by
what puts a whole part, cut where the ring ends (`Holds.write`), and what is read from the ring, cut
there too, is that part of the data (`Holds.read`). -/

namespace Ring

open FlatArray

variable {α : Type*}

/-- `m` at `start` and on, what the ring has no room for before its end at its beginning. -/
def write (ring : List α) (start : ℕ) (m : List α) : List α :=
  if start + m.length ≤ ring.length then overwrite ring start m
  else
    overwrite (overwrite ring start (m.take (ring.length - start))) 0
      (m.drop (ring.length - start))

/-- `n` elements from `start` on, those past the end of the ring from its beginning. -/
def read (ring : List α) (start n : ℕ) : List α :=
  if start + n ≤ ring.length then slice ring start (start + n)
  else slice ring start ring.length ++ slice ring 0 (n - (ring.length - start))

theorem length_write {ring m : List α} {start : ℕ} (hstart : start ≤ ring.length)
    (hm : m.length ≤ ring.length) : (write ring start m).length = ring.length := by
  unfold write
  by_cases hfit : start + m.length ≤ ring.length
  · rw [if_pos hfit, length_overwrite hfit]
  · have hroom : start + (m.take (ring.length - start)).length ≤ ring.length := by
      rw [List.length_take]
      omega
    rw [if_neg hfit, length_overwrite, length_overwrite hroom]
    rw [length_overwrite hroom, List.length_drop]
    omega

theorem length_read_le (ring : List α) (start n : ℕ) : (read ring start n).length ≤ n := by
  unfold read
  by_cases hfit : start + n ≤ ring.length
  · rw [if_pos hfit, length_slice]
    omega
  · rw [if_neg hfit, List.length_append, length_slice, length_slice]
    omega

/-- The ring has the last `w` elements of the data, each in its cell. -/
structure Holds (w : ℕ) (ring data : List α) : Prop where
  length : ring.length = w
  cell : ∀ p, p < data.length → data.length ≤ p + w → ring[p % w]? = data[p]?

/-! ## Cells -/

/-- The cells of a turn of the ring, the one `a` lies in. -/
theorem mod_of_turn {w a p : ℕ} (h : a - a % w ≤ p) (hp : p < a - a % w + w) :
    p % w = p - (a - a % w) := by
  have ha : w * (a / w) + a % w = a := Nat.div_add_mod a w
  have hturn : p = w * (a / w) + (p - (a - a % w)) := by omega
  have hcell : p - (a - a % w) < w := by omega
  calc p % w = (w * (a / w) + (p - (a - a % w))) % w := by rw [← hturn]
    _ = (p - (a - a % w)) % w := Nat.mul_add_mod_self_left ..
    _ = p - (a - a % w) := Nat.mod_eq_of_lt hcell

/-- The cells of the turn before. -/
theorem mod_of_turn_before {w a p : ℕ} (h : a - a % w ≤ p + w) (hp : p < a - a % w) :
    p % w = p + w - (a - a % w) := by
  rw [← Nat.add_mod_right p w]
  exact mod_of_turn h (by omega)

variable {w : ℕ} {ring data m : List α}

/-! ## What is put -/

theorem Holds.nil (h : ring.length = w) : Holds w ring [] :=
  ⟨h, fun p hp _ => absurd hp (Nat.not_lt_zero p)⟩

/-- A part that ends no later than the ring does. -/
theorem Holds.overwrite (h : Holds w ring data) (hw : 0 < w)
    (hm : data.length % w + m.length ≤ w) :
    Holds w (overwrite ring (data.length % w) m) (data ++ m) := by
  have hfit : data.length % w + m.length ≤ ring.length := by rw [h.length]; exact hm
  refine ⟨by rw [length_overwrite hfit, h.length], ?_⟩
  intro p hp hnear
  rw [List.length_append] at hp hnear
  rw [getElem?_overwrite hfit]
  have hle : data.length % w ≤ data.length := Nat.mod_le _ w
  by_cases hnew : data.length ≤ p
  · by_cases hin : p < data.length - data.length % w + w
    · have hcell : p % w = p - (data.length - data.length % w) := mod_of_turn (by omega) hin
      rw [if_pos (by omega), List.getElem?_append_right hnew]
      congr 1
      omega
    · omega
  · -- an old element, not under what is put: before it in the turn, or after it in the one before
    have hold : data.length ≤ p + w := by omega
    rw [List.getElem?_append_left (by omega), ← h.cell p (by omega) hold]
    by_cases hturn : data.length - data.length % w ≤ p
    · have hcell : p % w = p - (data.length - data.length % w) :=
        mod_of_turn hturn (by have := Nat.mod_lt data.length hw; omega)
      rw [if_neg (by omega)]
    · have hcell : p % w = p + w - (data.length - data.length % w) :=
        mod_of_turn_before (by omega) (by omega)
      rw [if_neg (by omega)]

/-- One more element. -/
theorem Holds.set (h : Holds w ring data) (hw : 0 < w) (x : α) :
    Holds w (ring.set (data.length % w) x) (data ++ [x]) := by
  have hlt : data.length % w < w := Nat.mod_lt _ hw
  have hput := h.overwrite (m := [x]) hw (Nat.succ_le_of_lt hlt)
  have hset : ring.set (data.length % w) x = FlatArray.overwrite ring (data.length % w) [x] := by
    have hin : data.length % w < ring.length := by rw [h.length]; exact hlt
    rw [List.set_eq_take_append_cons_drop, if_pos hin]
    simp [FlatArray.overwrite]
  rwa [hset]

/-- A part put where the data ends, cut where the ring does. -/
theorem Holds.write (h : Holds w ring data) (hw : 0 < w) (hm : m.length ≤ w) :
    Holds w (write ring (data.length % w) m) (data ++ m) := by
  have hlt : data.length % w < w := Nat.mod_lt _ hw
  unfold Ring.write
  rw [h.length]
  by_cases hfit : data.length % w + m.length ≤ w
  · rw [if_pos hfit]
    exact h.overwrite hw hfit
  · rw [if_neg hfit]
    have hroom : (m.take (w - data.length % w)).length = w - data.length % w := by
      rw [List.length_take]
      omega
    have hfirst := h.overwrite (m := m.take (w - data.length % w)) hw (by omega)
    -- the first part ends with the ring, so the rest begins with it
    have hend : (data ++ m.take (w - data.length % w)).length % w = 0 := by
      have hlen : (data ++ m.take (w - data.length % w)).length = w * (data.length / w + 1) := by
        rw [List.length_append, hroom, Nat.mul_add]
        have := Nat.div_add_mod data.length w
        omega
      rw [hlen, Nat.mul_mod_right]
    have hrest := hfirst.overwrite (m := m.drop (w - data.length % w)) hw
      (by rw [hend, List.length_drop]; omega)
    rwa [hend, List.append_assoc, List.take_append_drop] at hrest

/-! ## What is read -/

/-- A part that ends no later than the ring does. -/
theorem Holds.slice (h : Holds w ring data) {a n : ℕ} (hin : a + n ≤ data.length)
    (hnear : data.length ≤ a + w) (hn : a % w + n ≤ w) :
    slice ring (a % w) (a % w + n) = FlatArray.slice data a (a + n) := by
  apply List.ext_getElem?
  intro k
  rw [getElem?_slice, getElem?_slice]
  by_cases hk : k < n
  · have hle : a % w ≤ a := Nat.mod_le a w
    have hcell : (a + k) % w = a % w + k := by
      rw [@mod_of_turn w a (a + k) (by omega) (by omega)]
      omega
    rw [if_pos (by omega), if_pos (by omega), ← hcell]
    exact h.cell (a + k) (by omega) (by omega)
  · rw [if_neg (by omega), if_neg (by omega)]

/-- A part of the data that is still in the ring, read out of it. -/
theorem Holds.read (h : Holds w ring data) (hw : 0 < w) {a n : ℕ} (hin : a + n ≤ data.length)
    (hnear : data.length ≤ a + w) :
    read ring (a % w) n = FlatArray.slice data a (a + n) := by
  have hlt : a % w < w := Nat.mod_lt a hw
  unfold Ring.read
  rw [h.length]
  by_cases hfit : a % w + n ≤ w
  · rw [if_pos hfit]
    exact h.slice hin hnear hfit
  · rw [if_neg hfit]
    have hfirst := h.slice (a := a) (n := w - a % w) (by omega) hnear (by omega)
    have hend : (a + (w - a % w)) % w = 0 := by
      have hlen : a + (w - a % w) = w * (a / w + 1) := by
        rw [Nat.mul_add]
        have := Nat.div_add_mod a w
        omega
      rw [hlen, Nat.mul_mod_right]
    have hrest := h.slice (a := a + (w - a % w)) (n := n - (w - a % w)) (by omega) (by omega)
      (by omega)
    rw [hend, Nat.zero_add] at hrest
    rw [Nat.add_sub_cancel' (by omega)] at hfirst
    rw [hfirst, hrest, slice_append_slice _ (by omega) (by omega)]
    congr 1
    omega

end Ring
