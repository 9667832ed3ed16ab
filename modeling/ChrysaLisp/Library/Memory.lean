import Mathlib.Data.List.GetD
import Mathlib.Algebra.Order.Ring.Nat
import Mathlib.Tactic.Common

set_option autoImplicit false

/-! # Flat memory

A memory is what is in each cell. A `store` puts a run of elements from a cell on and leaves every
other cell as it was; a `load` reads a run. Stores that are apart, one after another, are each as if
it was the only one (`load_stores`), and two memories that agree on a part of the cells still agree
on it after the same stores (`Agree.stores`).

A number is kept in bytes, the low one first (`bytesOf`, `numOf`). -/

namespace Memory

variable {β : Type*}

/-- A run of elements from cell `a` on. -/
def store (mem : ℕ → β) (a : ℕ) (m : List β) : ℕ → β := fun p =>
  if a ≤ p then m.getD (p - a) (mem p) else mem p

/-- The `n` elements from cell `a` on. -/
def load (mem : ℕ → β) (a n : ℕ) : List β := (List.range n).map (fun k => mem (a + k))

/-- Stores one after another. -/
def stores (mem : ℕ → β) (sts : List (ℕ × List β)) : ℕ → β :=
  sts.foldl (fun mem st => store mem st.1 st.2) mem

/-- Two memories have the same in the cells of a part. -/
def Agree (P : ℕ → Prop) (mem mem' : ℕ → β) : Prop := ∀ p, P p → mem p = mem' p

/-- Two runs of cells have none in common. -/
def Apart (st st' : ℕ × List β) : Prop :=
  st.1 + st.2.length ≤ st'.1 ∨ st'.1 + st'.2.length ≤ st.1

variable {mem mem' : ℕ → β} {a : ℕ} {m : List β}

@[simp] theorem stores_nil : stores mem [] = mem := rfl

@[simp] theorem stores_cons (st : ℕ × List β) (sts : List (ℕ × List β)) :
    stores mem (st :: sts) = stores (store mem st.1 st.2) sts := rfl

theorem stores_append (sts sts' : List (ℕ × List β)) :
    stores mem (sts ++ sts') = stores (stores mem sts) sts' := List.foldl_append

@[simp] theorem length_load (mem : ℕ → β) (a n : ℕ) : (load mem a n).length = n := by simp [load]

theorem store_out {p : ℕ} (h : p < a ∨ a + m.length ≤ p) : store mem a m p = mem p := by
  unfold store
  by_cases ha : a ≤ p
  · rw [if_pos ha, List.getD_eq_default _ _ (by omega)]
  · rw [if_neg ha]

theorem store_in {k : ℕ} (h : k < m.length) : store mem a m (a + k) = m[k] := by
  unfold store
  rw [if_pos (Nat.le_add_right a k), Nat.add_sub_cancel_left, List.getD_eq_getElem _ _ h]

theorem load_store (mem : ℕ → β) (a : ℕ) (m : List β) : load (store mem a m) a m.length = m := by
  unfold load
  refine List.ext_getElem (by simp) ?_
  intro k hk hk'
  rw [List.getElem_map, List.getElem_range, store_in hk']

theorem load_congr {n : ℕ} (h : ∀ k < n, mem (a + k) = mem' (a + k)) : load mem a n = load mem' a n := by
  unfold load
  refine List.map_congr_left ?_
  intro k hk
  exact h k (List.mem_range.mp hk)

/-! ## Agreement -/

theorem Agree.symm {P : ℕ → Prop} (h : Agree P mem mem') : Agree P mem' mem :=
  fun p hp => (h p hp).symm

theorem Agree.imp {P Q : ℕ → Prop} (h : Agree P mem mem') (hQ : ∀ p, Q p → P p) : Agree Q mem mem' :=
  fun p hp => h p (hQ p hp)

theorem Agree.load {P : ℕ → Prop} (h : Agree P mem mem') {n : ℕ} (hP : ∀ k < n, P (a + k)) :
    load mem a n = load mem' a n := load_congr (fun k hk => h _ (hP k hk))

theorem Agree.store {P : ℕ → Prop} (h : Agree P mem mem') (a : ℕ) (m : List β) :
    Agree P (store mem a m) (store mem' a m) := by
  intro p hp
  unfold Memory.store
  rw [h p hp]

theorem Agree.stores {P : ℕ → Prop} (sts : List (ℕ × List β)) : ∀ {mem mem' : ℕ → β},
    Agree P mem mem' → Agree P (stores mem sts) (stores mem' sts) := by
  induction sts with
  | nil => exact fun h => h
  | cons st sts ih => exact fun h => ih (h.store st.1 st.2)

/-- A store leaves what is not of its cells. -/
theorem agree_store {P : ℕ → Prop} (h : ∀ p, P p → p < a ∨ a + m.length ≤ p) :
    Agree P (Memory.store mem a m) mem := fun p hp => store_out (h p hp)

theorem agree_stores {P : ℕ → Prop} {sts : List (ℕ × List β)} :
    ∀ {mem : ℕ → β}, (∀ st ∈ sts, ∀ p, P p → p < st.1 ∨ st.1 + st.2.length ≤ p) →
      Agree P (Memory.stores mem sts) mem := by
  induction sts with
  | nil => exact fun _ p _ => rfl
  | cons st sts ih =>
    intro mem h p hp
    rw [stores_cons, ih (fun st' hst' => h st' (List.mem_cons_of_mem st hst')) p hp,
      store_out (h st List.mem_cons_self p hp)]

/-- What each of some stores that are apart put is there when all are done. -/
theorem load_stores {sts : List (ℕ × List β)} (h : sts.Pairwise Apart) :
    ∀ {mem : ℕ → β}, ∀ st ∈ sts, load (stores mem sts) st.1 st.2.length = st.2 := by
  induction sts with
  | nil => exact fun st hst => absurd hst List.not_mem_nil
  | cons st sts ih =>
    obtain ⟨hst, hsts⟩ := List.pairwise_cons.mp h
    intro mem st' hst'
    rcases List.mem_cons.mp hst' with rfl | hin
    · have hagree : Agree (fun p => st'.1 ≤ p ∧ p < st'.1 + st'.2.length)
          (stores (Memory.store mem st'.1 st'.2) sts) (Memory.store mem st'.1 st'.2) := by
        refine agree_stores (fun other hother p hp => ?_)
        have hapart := hst other hother
        unfold Apart at hapart
        omega
      rw [stores_cons, hagree.load (fun k hk => by omega), load_store]
    · exact ih hsts st' hin

/-! ## Numbers -/

/-- A number in `w` bytes. -/
def bytesOf : (w : ℕ) → ℕ → List (Fin 256)
  | 0, _ => []
  | w + 1, v => Fin.ofNat 256 v :: bytesOf w (v / 256)

/-- The number that some bytes are. -/
def numOf : List (Fin 256) → ℕ
  | [] => 0
  | b :: bs => b.val + 256 * numOf bs

@[simp] theorem length_bytesOf (w v : ℕ) : (bytesOf w v).length = w := by
  induction w generalizing v with
  | zero => rfl
  | succ w ih => rw [bytesOf, List.length_cons, ih]

theorem numOf_bytesOf (w v : ℕ) : numOf (bytesOf w v) = v % 256 ^ w := by
  induction w generalizing v with
  | zero => rw [bytesOf, numOf, pow_zero, Nat.mod_one]
  | succ w ih =>
    show v % 256 + 256 * numOf (bytesOf w (v / 256)) = v % 256 ^ (w + 1)
    rw [ih, pow_succ', Nat.mod_mul]

/-- The bytes above are let go. -/
theorem bytesOf_mod (w v : ℕ) : bytesOf w (v % 256 ^ w) = bytesOf w v := by
  induction w generalizing v with
  | zero => rfl
  | succ w ih =>
    have hlow : Fin.ofNat 256 (v % 256 ^ (w + 1)) = Fin.ofNat 256 v :=
      Fin.ext (Nat.mod_mod_of_dvd v (Dvd.intro_left _ (pow_succ 256 w).symm))
    rw [bytesOf, bytesOf, hlow, pow_succ', Nat.mod_mul_right_div_self, ih]

theorem numOf_bytesOf_of_lt {w v : ℕ} (h : v < 256 ^ w) : numOf (bytesOf w v) = v := by
  rw [numOf_bytesOf, Nat.mod_eq_of_lt h]

theorem numOf_lt (bs : List (Fin 256)) : numOf bs < 256 ^ bs.length := by
  induction bs with
  | nil => exact Nat.one_pos
  | cons b bs ih =>
    have hb := b.isLt
    rw [numOf, List.length_cons, pow_succ']
    omega

end Memory
