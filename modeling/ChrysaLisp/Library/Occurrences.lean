import Mathlib.Data.List.Basic
import Mathlib.Tactic.Common

set_option autoImplicit false

/-! # Occurrences of a list in a list

Where a pattern is in a text (`At`), and the occurrences one finds from a place on, each the first there is
after the end of the one before (`Leftmost`). There is one such list only (`Leftmost.unique`). -/

namespace Occurrences

variable {α : Type*} {p text : List α}

/-- The pattern is in the text at a place. -/
def At (p text : List α) (i : ℕ) : Prop := (text.drop i).take p.length = p

instance decidableAt [DecidableEq α] (p text : List α) (i : ℕ) : Decidable (At p text i) :=
  inferInstanceAs (Decidable ((text.drop i).take p.length = p))

theorem At.le {i : ℕ} (hp : p ≠ []) (h : At p text i) : i + p.length ≤ text.length := by
  have hpos := List.length_pos_iff.mpr hp
  have hlen := congrArg List.length h
  rw [List.length_take, List.length_drop] at hlen
  omega

/-- What begins where the pattern is begins as it does. -/
theorem At.head {i : ℕ} {a : α} (h : At (a :: p) text i) : text[i]? = some a := by
  have hhead := congrArg List.head? h
  rw [List.head?_take, List.length_cons, if_neg (Nat.succ_ne_zero _), List.head?_drop] at hhead
  exact hhead

/-- The occurrences from a place on that have nothing in common, the first first. -/
inductive Leftmost (p text : List α) : ℕ → List (ℕ × ℕ) → Prop
  | none {j : ℕ} (h : ∀ i, j ≤ i → ¬ At p text i) : Leftmost p text j []
  | next {j i : ℕ} {ms : List (ℕ × ℕ)} (hle : j ≤ i) (hat : At p text i)
      (hfirst : ∀ k, j ≤ k → k < i → ¬ At p text k) (hrest : Leftmost p text (i + p.length) ms) :
      Leftmost p text j ((i, i + p.length) :: ms)

/-- Places where it is not may be left out. -/
theorem Leftmost.skip {j j' : ℕ} {ms : List (ℕ × ℕ)} (hle : j ≤ j')
    (hnone : ∀ k, j ≤ k → k < j' → ¬ At p text k)
    (h : Leftmost p text j' ms) : Leftmost p text j ms := by
  have hbefore {i : ℕ} (hfirst : ∀ k, j' ≤ k → k < i → ¬ At p text k) (k : ℕ) (hk : j ≤ k) (hki : k < i) :
      ¬ At p text k := by
    rcases Nat.lt_or_ge k j' with hlt | hge
    · exact hnone k hk hlt
    · exact hfirst k hge hki
  cases h with
  | none hno =>
      exact .none fun i hi =>
        hbefore (i := i + 1) (fun k hk _ => hno k hk) i hi (Nat.lt_succ_self i)
  | next hle' hat hfirst hrest => exact .next (Nat.le_trans hle hle') hat (hbefore hfirst) hrest

theorem Leftmost.unique {j : ℕ} {ms ns : List (ℕ × ℕ)} (hms : Leftmost p text j ms)
    (hns : Leftmost p text j ns) :
    ms = ns := by
  induction hms generalizing ns with
  | none hno =>
      cases hns with
      | none => rfl
      | next hle hat => exact absurd hat (hno _ hle)
  | next hle hat hfirst hrest ih =>
      cases hns with
      | none hno => exact absurd hat (hno _ hle)
      | next hle' hat' hfirst' hrest' =>
        have hsame := Nat.le_antisymm (Nat.le_of_not_lt fun hlt => hfirst _ hle' hlt hat')
          (Nat.le_of_not_lt fun hlt => hfirst' _ hle hlt hat)
        subst hsame
        rw [ih hrest']

theorem Leftmost.ne_nil_iff {j : ℕ} {ms : List (ℕ × ℕ)} (h : Leftmost p text j ms) :
    ms ≠ [] ↔ ∃ i, j ≤ i ∧ At p text i := by
  cases h with
  | none hno => exact ⟨fun h => absurd rfl h, fun ⟨i, hle, hat⟩ => absurd hat (hno i hle)⟩
  | next hle hat => exact ⟨fun _ => ⟨_, hle, hat⟩, fun _ => List.cons_ne_nil _ _⟩

/-- One found twice would be where the first began, or after its end. -/
theorem Leftmost.pairwise {j : ℕ} {ms : List (ℕ × ℕ)} (h : Leftmost p text j ms) :
    ms.Pairwise (fun m n => m.2 ≤ n.1) ∧ ∀ m ∈ ms, j ≤ m.1 ∧ m.2 = m.1 + p.length ∧ At p text m.1 := by
  induction h with
  | none => exact ⟨.nil, fun m hm => absurd hm List.not_mem_nil⟩
  | next hle hat hfirst hrest ih =>
      refine ⟨List.pairwise_cons.mpr ⟨fun n hn => (ih.2 n hn).1, ih.1⟩, fun m hm => ?_⟩
      rcases List.mem_cons.mp hm with rfl | hm
      · exact ⟨hle, rfl, hat⟩
      · obtain ⟨hfrom, hto, hat'⟩ := ih.2 m hm
        exact ⟨Nat.le_trans hle (Nat.le_trans (Nat.le_add_right _ _) hfrom), hto, hat'⟩

end Occurrences
