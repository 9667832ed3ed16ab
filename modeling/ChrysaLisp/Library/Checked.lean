import Mathlib.Algebra.BigOperators.Group.List.Basic
import Mathlib.Algebra.Order.Ring.Nat
import Mathlib.Tactic.Ring

set_option autoImplicit false

/-! # Arithmetic that must fit

A sum or a product is a number only where it is below a limit (`fit`), so what is worked out of such
sums and products and comes to a number has kept below the limit all the way (`dot_eq`). -/

namespace Checked

/-- A number below the limit. -/
def fit (limit n : ℕ) : Option ℕ := if n < limit then some n else none

/-- Products, each added in turn to what is there. -/
def dot (limit : ℕ) : ℕ → List (ℕ × ℕ) → Option ℕ
  | d, [] => some d
  | d, (a, b) :: rest => do
      let t ← fit limit (a * b)
      let d ← fit limit (d + t)
      dot limit d rest

/-- What they come to. -/
def dotSum (l : List (ℕ × ℕ)) : ℕ := (l.map (fun p => p.1 * p.2)).sum

/-- One thing worked out and then another of it: where there is the one, and the other of any such, there is
the whole. -/
theorem exists_bind {α β : Type*} {r : Option α} {f : α → Option β} {P : α → Prop} {Q : β → Prop}
    (hr : ∃ a, r = some a ∧ P a) (hf : ∀ a, P a → ∃ b, f a = some b ∧ Q b) :
    ∃ b, r.bind f = some b ∧ Q b := by
  obtain ⟨a, rfl, ha⟩ := hr
  exact hf a ha

variable {limit : ℕ}

theorem fit_of_lt {n : ℕ} (h : n < limit) : fit limit n = some n := if_pos h

@[simp] theorem dotSum_nil : dotSum [] = 0 := rfl

@[simp] theorem dotSum_cons (a b : ℕ) (l : List (ℕ × ℕ)) : dotSum ((a, b) :: l) = a * b + dotSum l := rfl

/-- Where the whole fits, so does each part. -/
theorem dot_eq (l : List (ℕ × ℕ)) (d : ℕ) (h : d + dotSum l < limit) :
    dot limit d l = some (d + dotSum l) := by
  induction l generalizing d with
  | nil => rfl
  | cons p rest ih =>
      obtain ⟨a, b⟩ := p
      rw [dotSum_cons] at h
      have hrest : d + a * b + dotSum rest < limit := by omega
      have ht : fit limit (a * b) = some (a * b) := fit_of_lt (by omega)
      have hd : fit limit (d + a * b) = some (d + a * b) := fit_of_lt (by omega)
      rw [dot, ht, Option.bind_eq_bind, Option.bind_some, hd, Option.bind_some, ih _ hrest, dotSum_cons,
        Nat.add_assoc]

/-- As many products as there are, of numbers that are bounded. -/
theorem dotSum_le {A B : ℕ} {l : List (ℕ × ℕ)} (h : ∀ p ∈ l, p.1 ≤ A ∧ p.2 ≤ B) :
    dotSum l ≤ l.length * (A * B) := by
  induction l with
  | nil => simp
  | cons p rest ih =>
      obtain ⟨a, b⟩ := p
      obtain ⟨ha, hb⟩ := h (a, b) List.mem_cons_self
      have hab : a * b ≤ A * B := Nat.mul_le_mul ha hb
      have hrest := ih (fun p hp => h p (List.mem_cons_of_mem _ hp))
      rw [dotSum_cons, List.length_cons, Nat.add_mul, Nat.one_mul]
      omega

end Checked
