import Mathlib.Data.List.Basic
import Mathlib.Tactic.Common

set_option autoImplicit false

/-! # Reading within bounds

What reads a list takes elements and slices of it by place, and there is nothing to take past the end.
A reader is what it gives, or what it took that was not there (`Past`); a loop that has not ended in the
turns it has is none of those, and gives nothing either.

`Ends x` is that a reader comes to a value. Whether one made of others does comes down, part by part, to
the places it takes (`ends_bind`, `ends_elem`, `ends_slice`). `Yields x P` is that `P` holds of what it
comes to, if it comes to anything, and `Comes x P` that it comes to something and `P` holds of that. -/

namespace Bounded

variable {α β : Type}

/-- What is not there, or does not end: an element, a slice, a value that was never set, and the end of a
loop. -/
inductive Past where
  | element
  | slice
  | unset
  | endless
deriving DecidableEq

/-- A reader. -/
abbrev Read (α : Type) := Except Past α

/-- An element of a list. -/
def elem (l : List α) (i : ℕ) : Read α :=
  match l[i]? with
  | some a => .ok a
  | none => .error .element

/-- A part of a list. -/
def slice (l : List α) (s e : ℕ) : Read (List α) :=
  if s ≤ e ∧ e ≤ l.length then .ok ((l.take e).drop s) else .error .slice

/-- A list with an element of it put in the place of what was there. -/
def put (l : List α) (i : ℕ) (a : α) : Read (List α) :=
  if i < l.length then .ok (l.set i a) else .error .element

/-- A value that may not have been set. -/
def value (v : Option α) : Read α :=
  match v with
  | some a => .ok a
  | none => .error .unset

/-- The reader comes to something. -/
def Ends (x : Read α) : Prop := ∃ a, x = .ok a

/-- What the reader comes to has `P`. -/
def Yields (x : Read α) (P : α → Prop) : Prop := ∀ a, x = .ok a → P a

/-- The reader comes to something, and that has `P`. -/
def Comes (x : Read α) (P : α → Prop) : Prop := ∃ a, x = .ok a ∧ P a

variable {P : α → Prop}

@[simp] theorem ends_ok (a : α) : Ends (.ok a : Read α) := ⟨a, rfl⟩

@[simp] theorem ends_pure (a : α) : Ends (pure a : Read α) := ⟨a, rfl⟩

@[simp] theorem not_ends_error (e : Past) : ¬ Ends (.error e : Read α) := by
  simp [Ends]

theorem ends_bind (x : Read α) (f : α → Read β) :
    Ends (x >>= f) ↔ ∃ a, x = .ok a ∧ Ends (f a) := by
  cases x with
  | error e => simp [Ends, bind, Except.bind]
  | ok a => simp [Ends, bind, Except.bind]

@[simp] theorem ok_bind (a : α) (f : α → Read β) : ((.ok a : Read α) >>= f) = f a := rfl

@[simp] theorem error_bind (e : Past) (f : α → Read β) : ((.error e : Read α) >>= f) = .error e := rfl

@[simp] theorem ends_map (x : Read α) (f : α → β) : Ends (f <$> x) ↔ Ends x := by
  cases x with
  | error e => simp
  | ok a => simp

/-- Where the first of two ends, it is the second that says whether both do. -/
theorem ends_bind_iff {x : Read α} {f : α → Read β} {E : Prop} (hx : Ends x)
    (hf : ∀ a, x = .ok a → (Ends (f a) ↔ E)) : Ends (x >>= f) ↔ E := by
  obtain ⟨a, ha⟩ := hx
  rw [ha, ok_bind]
  exact hf a ha

theorem Ends.bind {x : Read α} {f : α → Read β} (hx : Ends x) (hf : ∀ a, x = .ok a → Ends (f a)) :
    Ends (x >>= f) := by
  obtain ⟨a, ha⟩ := hx
  rw [ha, ok_bind]
  exact hf a ha

/-- What is in a reader made of two comes from what the first of them gives. -/
theorem bind_eq_ok {x : Read α} {f : α → Read β} {b : β} :
    (x >>= f) = .ok b ↔ ∃ a, x = .ok a ∧ f a = .ok b := by
  cases x with
  | error e => simp
  | ok a => simp

@[simp] theorem pure_eq_ok {a b : α} : (pure a : Read α) = .ok b ↔ a = b := by
  simp [pure, Except.pure]

@[simp] theorem yields_ok (a : α) : Yields (.ok a : Read α) P ↔ P a := by
  simp [Yields]

@[simp] theorem yields_pure (a : α) : Yields (pure a : Read α) P ↔ P a := by
  simp [Yields]

@[simp] theorem yields_error (e : Past) : Yields (.error e : Read α) P := by
  simp [Yields]

theorem yields_bind (x : Read α) (f : α → Read β) (Q : β → Prop) :
    Yields (x >>= f) Q ↔ Yields x (fun a => Yields (f a) Q) := by
  cases x with
  | error e => simp
  | ok a => simp

/-- What comes after the first of two has what is wanted, whatever the first came to. -/
theorem yields_bind_of {x : Read α} {f : α → Read β} {Q : β → Prop}
    (h : ∀ a, x = .ok a → Yields (f a) Q) : Yields (x >>= f) Q :=
  (yields_bind x f Q).mpr h

theorem Comes.bind {x : Read α} {f : α → Read β} {Q : β → Prop} (hx : Comes x P)
    (hf : ∀ a, P a → Comes (f a) Q) :
    Comes (x >>= f) Q := by
  obtain ⟨a, rfl, ha⟩ := hx
  rw [ok_bind]
  exact hf a ha

/-! ## Elements and slices -/

theorem elem_eq_ok {l : List α} {i : ℕ} {a : α} : elem l i = .ok a ↔ l[i]? = some a := by
  unfold elem
  cases l[i]? with
  | none => simp
  | some b => simp

theorem elem_of_lt {l : List α} {i : ℕ} (h : i < l.length) : elem l i = .ok l[i] :=
  elem_eq_ok.mpr (List.getElem?_eq_getElem h)

theorem elem_getD {l : List α} {i : ℕ} (d : α) (h : i < l.length) : elem l i = .ok (l.getD i d) := by
  rw [elem_of_lt h, List.getD_eq_getElem?_getD, List.getElem?_eq_getElem h, Option.getD_some]

theorem put_of_lt {l : List α} {i : ℕ} {a : α} (h : i < l.length) : put l i a = .ok (l.set i a) := if_pos h

theorem ends_elem {l : List α} {i : ℕ} : Ends (elem l i) ↔ i < l.length := by
  constructor
  · intro h
    obtain ⟨a, ha⟩ := h
    exact (List.getElem?_eq_some_iff.mp (elem_eq_ok.mp ha)).1
  · intro h
    exact ⟨_, elem_of_lt h⟩

@[simp] theorem elem_cons_zero (a : α) (l : List α) : elem (a :: l) 0 = .ok a := rfl

@[simp] theorem elem_cons_succ (a : α) (l : List α) (i : ℕ) : elem (a :: l) (i + 1) = elem l i := rfl

theorem ends_value {v : Option α} : Ends (value v) ↔ v ≠ none := by
  cases v with
  | none => simp [value]
  | some a => simp [value]

theorem slice_of_le {l : List α} {s e : ℕ} (h : s ≤ e) (he : e ≤ l.length) :
    slice l s e = .ok ((l.take e).drop s) :=
  if_pos ⟨h, he⟩

theorem slice_eq_ok {l out : List α} {s e : ℕ} :
    slice l s e = .ok out ↔ s ≤ e ∧ e ≤ l.length ∧ (l.take e).drop s = out := by
  unfold slice
  by_cases h : s ≤ e ∧ e ≤ l.length
  · rw [if_pos h]
    simp [h.1, h.2]
  · rw [if_neg h]
    simp only [reduceCtorEq, false_iff]
    exact fun hs => h ⟨hs.1, hs.2.1⟩

theorem ends_slice {l : List α} {s e : ℕ} : Ends (slice l s e) ↔ s ≤ e ∧ e ≤ l.length := by
  simp [Ends, slice_eq_ok]

theorem ends_slice_bind {l : List α} {s e : ℕ} {f : List α → Read β} :
    Ends (slice l s e >>= f) ↔ (s ≤ e ∧ e ≤ l.length) ∧ Ends (f ((l.take e).drop s)) := by
  by_cases h : s ≤ e ∧ e ≤ l.length
  · simp [slice_of_le h.1 h.2, h]
  · simp [slice, h]

theorem length_slice {l out : List α} {s e : ℕ} (h : slice l s e = .ok out) : out.length = e - s := by
  obtain ⟨-, he, rfl⟩ := slice_eq_ok.mp h
  rw [List.length_drop, List.length_take]
  omega

/-! ## Each of a list -/

/-- What is done with each ends where it ends with each. -/
theorem ends_mapM {l : List α} {f : α → Read β} : Ends (l.mapM f) ↔ ∀ a ∈ l, Ends (f a) := by
  induction l with
  | nil => simp
  | cons a l ih =>
      rw [List.mapM_cons, ends_bind]
      cases hfa : f a with
      | error e => simp [hfa]
      | ok b =>
          have hrest : Ends (do let bs ← l.mapM f; pure (b :: bs)) ↔ Ends (l.mapM f) := by
            cases l.mapM f with
            | error e => simp
            | ok bs => simp
          simp only [Except.ok.injEq, exists_eq_left', hrest, ih, List.mem_cons, forall_eq_or_imp,
            hfa, ends_ok, true_and]

/-- So does what is done with each in turn, on what there is so far, where that does not matter. -/
theorem ends_foldlM {l : List α} {f : β → α → Read β} {E : α → Prop}
    (h : ∀ b, ∀ a ∈ l, (Ends (f b a) ↔ E a)) (b : β) : Ends (l.foldlM f b) ↔ ∀ a ∈ l, E a := by
  induction l generalizing b with
  | nil => simp
  | cons a l ih =>
      have ha := h b a List.mem_cons_self
      rw [List.foldlM_cons, ends_bind]
      cases hfa : f b a with
      | error e =>
          have hno : ¬ E a := by rw [← ha, hfa]; simp
          simp [hno]
      | ok b' =>
          have hyes : E a := by rw [← ha, hfa]; simp
          have hl := ih (fun b a ha => h b a (List.mem_cons_of_mem _ ha)) b'
          simp [hyes, hl]

end Bounded
