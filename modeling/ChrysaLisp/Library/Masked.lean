import Mathlib.Data.List.Basic
import Mathlib.Tactic.Common

set_option autoImplicit false

/-! # Data under a stream

Each part of the data put together with the part of a stream at its place (`mask`). Where putting the same
thing on twice is putting nothing on, so it is for the data (`mask_mask`), and data in pieces, each with
the stream from its own place on, is as the whole (`mask_append`). -/

namespace Masked

variable {α : Type*} (op : α → α → α)

/-- The data, each part with that of the stream. -/
def mask (s : ℕ → α) (data : List α) : List α := data.mapIdx fun i b => op b (s i)

@[simp] theorem mask_nil (s : ℕ → α) : mask op s [] = [] := rfl

@[simp] theorem length_mask (s : ℕ → α) (data : List α) : (mask op s data).length = data.length :=
  List.length_mapIdx

theorem mask_append (s : ℕ → α) (a b : List α) :
    mask op s (a ++ b) = mask op s a ++ mask op (fun i => s (i + a.length)) b := by
  rw [mask, List.mapIdx_append]
  rfl

theorem getElem?_mask (s : ℕ → α) (data : List α) (i : ℕ) :
    (mask op s data)[i]? = (data[i]?).map fun b => op b (s i) :=
  List.getElem?_mapIdx

theorem mask_congr {s t : ℕ → α} {data : List α} (h : ∀ i < data.length, s i = t i) :
    mask op s data = mask op t data := by
  apply List.ext_getElem?
  intro i
  rw [getElem?_mask, getElem?_mask]
  rcases Nat.lt_or_ge i data.length with hi | hi
  · rw [h i hi]
  · rw [List.getElem?_eq_none hi]
    rfl

theorem mask_mask {op : α → α → α} (hop : ∀ a b, op (op a b) b = a) (s : ℕ → α) (data : List α) :
    mask op s (mask op s data) = data := by
  apply List.ext_getElem?
  intro i
  rw [getElem?_mask, getElem?_mask, Option.map_map]
  cases data[i]? with
  | none => rfl
  | some b => exact congrArg some (hop b (s i))

/-- With a list that is long enough. -/
theorem zipWith_eq_mask {data ks : List α} (h : data.length ≤ ks.length) (d : α) :
    List.zipWith op data ks = mask op (fun i => ks.getD i d) data := by
  induction data generalizing ks with
  | nil => rfl
  | cons b data ih =>
      cases ks with
      | nil => exact absurd h (Nat.not_succ_le_zero _)
      | cons k ks =>
        have hrest := ih (Nat.le_of_succ_le_succ h)
        rw [List.zipWith_cons_cons, hrest, mask, mask, List.mapIdx_cons]
        rfl

theorem take_mask (s : ℕ → α) (data : List α) (n : ℕ) :
    (mask op s data).take n = mask op s (data.take n) := by
  apply List.ext_getElem?
  intro i
  rw [List.getElem?_take, getElem?_mask, getElem?_mask, List.getElem?_take]
  split_ifs <;> rfl

end Masked
