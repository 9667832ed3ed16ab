import Mathlib.Data.Nat.Dist
import Mathlib.Order.Monotone.Basic
import Mathlib.Tactic.Ring

set_option autoImplicit false

/-! # Binary floating numbers, by their bits

The bits of a number of a binary format, its sign let go, are an index: the exponent, and below it
the `p` bits of the fraction. In units of the least number above 0 it is worth `worth p i`, which
grows with the index, so a number between two of a format lies between two indices that follow on
each other. It is rounded to the nearer of them, and to the even one of two as near (`Nearest`). A
number of a wider format is rounded so by a shift of its index (`nearest_shiftEven`), the carry into
the exponent with it. -/

namespace Floats

/-- What an index is worth. The least exponent has no leading bit. It is not for evaluating: the
    powers are large. -/
@[irreducible] def worth (p i : ℕ) : ℕ :=
  if i / 2 ^ p = 0 then i % 2 ^ p else (2 ^ p + i % 2 ^ p) * 2 ^ (i / 2 ^ p - 1)

theorem worth_mul_add {p q r : ℕ} (hq : 0 < q) (hr : r < 2 ^ p) :
    worth p (q * 2 ^ p + r) = (2 ^ p + r) * 2 ^ (q - 1) := by
  have hdiv : (q * 2 ^ p + r) / 2 ^ p = q := by
    rw [Nat.add_comm, Nat.add_mul_div_right r q (Nat.two_pow_pos p), Nat.div_eq_of_lt hr, Nat.zero_add]
  have hmod : (q * 2 ^ p + r) % 2 ^ p = r := by
    rw [Nat.add_comm, Nat.add_mul_mod_self_right, Nat.mod_eq_of_lt hr]
  rw [worth, hdiv, hmod, if_neg hq.ne']

theorem worth_of_lt {p i : ℕ} (h : i < 2 ^ p) : worth p i = i := by
  rw [worth, if_pos (Nat.div_eq_of_lt h), Nat.mod_eq_of_lt h]

@[simp] theorem worth_zero (p : ℕ) : worth p 0 = 0 := worth_of_lt (Nat.two_pow_pos p)

/-- An index is one unit of its exponent below the next. -/
theorem worth_succ (p i : ℕ) : worth p (i + 1) = worth p i + 2 ^ (i / 2 ^ p - 1) := by
  have hpos := Nat.two_pow_pos p
  have hr := Nat.mod_lt i hpos
  have hi := Nat.div_add_mod' i (2 ^ p)
  generalize i / 2 ^ p = q at hi ⊢
  generalize i % 2 ^ p = r at hi hr
  subst hi
  rcases Nat.eq_zero_or_pos q with rfl | hq
  · simp only [Nat.zero_mul, Nat.zero_add, Nat.zero_sub, Nat.pow_zero]
    rw [worth_of_lt hr]
    rcases Nat.lt_or_ge (r + 1) (2 ^ p) with hlt | hge
    · exact worth_of_lt hlt
    · have hone : r + 1 = 1 * 2 ^ p + 0 := by omega
      rw [hone, worth_mul_add Nat.one_pos hpos]
      simp only [Nat.sub_self, Nat.pow_zero]
      omega
  · rcases Nat.lt_or_ge (r + 1) (2 ^ p) with hlt | hge
    · rw [Nat.add_assoc, worth_mul_add hq hlt, worth_mul_add hq hr]
      ring
    · have hcarry : q * 2 ^ p + r + 1 = (q + 1) * 2 ^ p + 0 := by
        rw [Nat.add_mul]
        omega
      obtain ⟨k, rfl⟩ : ∃ k, q = k + 1 := ⟨q - 1, by omega⟩
      have hlast : r + 1 = 2 ^ p := by omega
      rw [hcarry, worth_mul_add (Nat.succ_pos _) hpos, worth_mul_add hq hr]
      simp only [Nat.add_sub_cancel, Nat.add_zero]
      calc 2 ^ p * 2 ^ (k + 1) = (2 ^ p + (r + 1)) * 2 ^ k := by rw [hlast]; ring
        _ = (2 ^ p + r) * 2 ^ k + 2 ^ k := by ring

theorem worth_strictMono (p : ℕ) : StrictMono (worth p) :=
  strictMono_nat_of_lt_succ fun i => by
    have hpos := Nat.two_pow_pos (i / 2 ^ p - 1)
    rw [worth_succ]
    omega

/-- A number of a format with `k` more bits of fraction, and `b` more exponents below, in units of that. -/
theorem worth_wider {p k b i r : ℕ} (hi : 2 ^ p ≤ i) (hr : r < 2 ^ k) :
    worth (p + k) (i * 2 ^ k + r + b * 2 ^ (p + k)) =
      worth p i * 2 ^ (k + b) + r * 2 ^ (i / 2 ^ p - 1 + b) := by
  have hpos := Nat.two_pow_pos p
  have hs := Nat.mod_lt i hpos
  have hq : 0 < i / 2 ^ p := Nat.div_pos hi hpos
  have hsplit := Nat.div_add_mod' i (2 ^ p)
  generalize i / 2 ^ p = q at hsplit hq ⊢
  generalize i % 2 ^ p = s at hsplit hs
  subst hsplit
  have hlow : s * 2 ^ k + r < 2 ^ (p + k) := by
    rw [pow_add]
    calc s * 2 ^ k + r < s * 2 ^ k + 2 ^ k := by omega
      _ = (s + 1) * 2 ^ k := by ring
      _ ≤ 2 ^ p * 2 ^ k := Nat.mul_le_mul_right _ hs
  have hindex : (q * 2 ^ p + s) * 2 ^ k + r + b * 2 ^ (p + k) =
    (q + b) * 2 ^ (p + k) + (s * 2 ^ k + r) := by ring
  obtain ⟨j, rfl⟩ : ∃ j, q = j + 1 := ⟨q - 1, by omega⟩
  rw [hindex, worth_mul_add (by omega) hlow, worth_mul_add hq hs,
    (by omega : j + 1 + b - 1 = j + b), Nat.add_sub_cancel]
  ring

/-! ## The nearest -/

/-- An index up to `top` whose value is the nearest to `x`, and an even one where another is as near. -/
structure Nearest (val : ℕ → ℕ) (top x i : ℕ) : Prop where
  le_top : i ≤ top
  near : ∀ j ≤ top, Nat.dist (val i) x ≤ Nat.dist (val j) x
  even : ∀ j ≤ top, j ≠ i → Nat.dist (val j) x = Nat.dist (val i) x → i % 2 = 0

variable {val : ℕ → ℕ} {top x i j : ℕ}

/-- Of two that follow on each other, the later is come to from the middle on where it is even. -/
theorem Nearest.le_iff (h : Nearest val top x i) (hmono : StrictMono val) (hj : j + 1 ≤ top)
    (hodd : j % 2 = 1) :
    i ≤ j ↔ 2 * x < val j + val (j + 1) := by
  have hstep := hmono (Nat.lt_add_one j)
  constructor
  · intro hij
    have hval := hmono.monotone hij
    have hnear := h.near (j + 1) hj
    by_contra hmiddle
    have heq : Nat.dist (val (j + 1)) x = Nat.dist (val i) x := by
      simp only [Nat.dist] at hnear ⊢
      omega
    have heven := h.even (j + 1) hj (by omega) heq
    have hlt : val i < val j := hmono (by omega)
    simp only [Nat.dist] at heq
    omega
  · intro hmiddle
    by_contra hij
    have hval := hmono.monotone (by omega : j + 1 ≤ i)
    have hnear := h.near j (by omega)
    simp only [Nat.dist] at hnear
    omega

theorem Nearest.not_lt (h : Nearest val top x i) (h' : Nearest val top x j)
    (hmono : StrictMono val) : ¬ i < j := by
  intro hij
  have heq := Nat.le_antisymm (h.near j h'.le_top) (h'.near i h.le_top)
  have hi := h.even j h'.le_top (by omega) heq.symm
  have hj := h'.even i h.le_top (by omega) heq
  have hleft := hmono (Nat.lt_add_one i)
  have hright := hmono (by omega : i + 1 < j)
  have hnear := h.near (i + 1) (by have := h'.le_top; omega)
  simp only [Nat.dist] at heq hnear
  omega

theorem Nearest.unique (h : Nearest val top x i) (h' : Nearest val top x j)
    (hmono : StrictMono val) : i = j :=
  Nat.le_antisymm (Nat.not_lt.mp (h'.not_lt h hmono)) (Nat.not_lt.mp (h.not_lt h' hmono))

theorem nearest_top (hmono : StrictMono val) (h : val top ≤ x) : Nearest val top x top where
  le_top := Nat.le_refl top
  near := fun j hj => by
    have hval := hmono.monotone hj
    simp only [Nat.dist]
    omega
  even := fun j hj hne heq => by
    have hval := hmono (Nat.lt_of_le_of_ne hj hne)
    simp only [Nat.dist] at heq
    omega

theorem nearest_left (hmono : StrictMono val) (hi : i + 1 ≤ top) (hle : val i ≤ x)
    (h : 2 * x < val i + val (i + 1) ∨ 2 * x = val i + val (i + 1) ∧ i % 2 = 0) : Nearest val top x i where
  le_top := by omega
  near := fun j _ => by
    rcases Nat.lt_or_ge i j with hlt | hge
    · have hval := hmono.monotone (by omega : i + 1 ≤ j)
      simp only [Nat.dist]
      omega
    · have hval := hmono.monotone hge
      simp only [Nat.dist]
      omega
  even := fun j _ hne heq => by
    rcases Nat.lt_or_ge i j with hlt | hge
    · have hval := hmono.monotone (by omega : i + 1 ≤ j)
      simp only [Nat.dist] at heq
      omega
    · have hval := hmono (by omega : j < i)
      simp only [Nat.dist] at heq
      omega

theorem nearest_right (hmono : StrictMono val) (hi : i + 1 ≤ top) (hle : x ≤ val (i + 1))
    (h : val i + val (i + 1) < 2 * x ∨ 2 * x = val i + val (i + 1) ∧ i % 2 = 1) :
    Nearest val top x (i + 1) where
  le_top := hi
  near := fun j _ => by
    rcases Nat.lt_or_ge i j with hlt | hge
    · have hval := hmono.monotone (by omega : i + 1 ≤ j)
      simp only [Nat.dist]
      omega
    · have hval := hmono.monotone hge
      simp only [Nat.dist]
      omega
  even := fun j _ hne heq => by
    rcases Nat.lt_or_ge i j with hlt | hge
    · have hval := hmono (by omega : i + 1 < j)
      simp only [Nat.dist] at heq
      omega
    · have hval := hmono.monotone hge
      simp only [Nat.dist] at heq
      omega

/-- There is a nearest to what is not below the first. -/
theorem exists_nearest (hmono : StrictMono val) (top : ℕ) (h : val 0 ≤ x) : ∃ i, Nearest val top x i := by
  by_cases htop : val top ≤ x
  · exact ⟨top, nearest_top hmono htop⟩
  · have hle : val (Nat.findGreatest (fun i => val i ≤ x) top) ≤ x :=
      Nat.findGreatest_spec (P := fun i => val i ≤ x) (Nat.zero_le top) h
    have hbound := Nat.findGreatest_le (P := fun i => val i ≤ x) top
    have hlt : Nat.findGreatest (fun i => val i ≤ x) top < top := by
      refine Nat.lt_of_le_of_ne hbound ?_
      intro heq
      rw [heq] at hle
      exact htop hle
    have hnext : ¬ val (Nat.findGreatest (fun i => val i ≤ x) top + 1) ≤ x :=
      Nat.findGreatest_is_greatest (P := fun i => val i ≤ x) (Nat.lt_add_one _) (Nat.succ_le_of_lt hlt)
    generalize Nat.findGreatest (fun i => val i ≤ x) top = i at hle hlt hnext
    by_cases hside : 2 * x < val i + val (i + 1) ∨ 2 * x = val i + val (i + 1) ∧ i % 2 = 0
    · exact ⟨i, nearest_left hmono hlt hle hside⟩
    · exact ⟨i + 1, nearest_right hmono hlt (by omega) (by omega)⟩

/-! ## By a shift -/

/-- The low `k` bits rounded away, to the even of two as near. -/
def shiftEven (k x : ℕ) : ℕ :=
  if 2 * (x % 2 ^ k) < 2 ^ k ∨ 2 * (x % 2 ^ k) = 2 ^ k ∧ x / 2 ^ k % 2 = 0 then x / 2 ^ k else x / 2 ^ k + 1

theorem le_shiftEven (k x : ℕ) : x / 2 ^ k ≤ shiftEven k x := by
  unfold shiftEven
  split <;> omega

theorem shiftEven_le (k x : ℕ) : shiftEven k x ≤ x / 2 ^ k + 1 := by
  unfold shiftEven
  split <;> omega

@[simp] theorem shiftEven_mul (k i : ℕ) : shiftEven k (i * 2 ^ k) = i := by
  rw [shiftEven, Nat.mul_mod_left, Nat.mul_div_cancel _ (Nat.two_pow_pos k), if_pos (Or.inl _)]
  exact Nat.two_pow_pos k

theorem shiftEven_mul_add (k a x : ℕ) : shiftEven k (2 * a * 2 ^ k + x) = 2 * a + shiftEven k x := by
  have hdiv : (2 * a * 2 ^ k + x) / 2 ^ k = 2 * a + x / 2 ^ k := by
    rw [Nat.mul_comm, Nat.mul_add_div (Nat.two_pow_pos k)]
  have hmod : (2 * a * 2 ^ k + x) % 2 ^ k = x % 2 ^ k := Nat.mul_add_mod_self_right _ _ _
  rw [shiftEven, hdiv, hmod, Nat.mul_add_mod, shiftEven]
  split <;> omega

/-- The even one after an odd one is come to from the middle on. -/
theorem lt_shiftEven_iff {k x j : ℕ} (hodd : j % 2 = 1) :
    j < shiftEven k x ↔ (2 * j + 1) * 2 ^ k ≤ 2 * x := by
  have hr := Nat.mod_lt x (Nat.two_pow_pos k)
  have hsplit := Nat.div_add_mod' x (2 ^ k)
  have hlow := le_shiftEven k x
  have hhigh := shiftEven_le k x
  have hmiddle : (2 * j + 1) * 2 ^ k = 2 * (j * 2 ^ k) + 2 ^ k := by ring
  rw [hmiddle]
  rcases Nat.lt_trichotomy (x / 2 ^ k) j with hlt | heq | hgt
  · have hmul : x / 2 ^ k * 2 ^ k + 2 ^ k ≤ j * 2 ^ k := by
      rw [← Nat.succ_mul]
      exact Nat.mul_le_mul_right _ hlt
    constructor <;> intro <;> omega
  · rw [heq] at hsplit hlow hhigh
    unfold shiftEven
    rw [heq]
    split <;> omega
  · have hmul : j * 2 ^ k + 2 ^ k ≤ x / 2 ^ k * 2 ^ k := by
      rw [← Nat.succ_mul]
      exact Nat.mul_le_mul_right _ hgt
    constructor <;> intro <;> omega

/-! ## A narrower format -/

/-- What an index of a format with `k` fewer bits of fraction, and `b` fewer exponents below, is
    worth in units of the wider one. -/
@[irreducible] def narrow (p k b i : ℕ) : ℕ := worth p i * 2 ^ (k + b)

theorem narrow_strictMono (p k b : ℕ) : StrictMono (narrow p k b) := fun i j hij => by
  rw [narrow, narrow]
  exact Nat.mul_lt_mul_of_pos_right (worth_strictMono p hij) (Nat.two_pow_pos _)

@[simp] theorem narrow_zero (p k b : ℕ) : narrow p k b 0 = 0 := by rw [narrow, worth_zero, Nat.zero_mul]

/-- A number of the narrower one, in the bits of the wider. -/
theorem worth_narrow {p k b i : ℕ} (hi : 2 ^ p ≤ i) :
    worth (p + k) (i * 2 ^ k + b * 2 ^ (p + k)) = narrow p k b i := by
  have hwider := worth_wider (b := b) hi (Nat.two_pow_pos k)
  rwa [Nat.zero_mul, Nat.add_zero, Nat.add_zero, ← narrow] at hwider

theorem narrow_least (p k b : ℕ) : narrow p k b (2 ^ p) = 2 ^ p * 2 ^ (k + b) := by
  have hleast : worth p (1 * 2 ^ p + 0) = (2 ^ p + 0) * 2 ^ (1 - 1) :=
    worth_mul_add Nat.one_pos (Nat.two_pow_pos p)
  rw [Nat.one_mul, Nat.sub_self, pow_zero, Nat.mul_one, Nat.add_zero] at hleast
  rw [narrow, hleast]

/-- The wider has a number halfway from the last of the narrower with no leading bit to the least with one. -/
theorem worth_halfway (p k : ℕ) {b : ℕ} (hb : 0 < b) :
    2 * worth (p + k) (b * 2 ^ (p + k) + (2 ^ (p + k) - 2 ^ k)) =
      narrow p k b (2 ^ p - 1) + narrow p k b (2 ^ p) := by
  have hpos := Nat.two_pow_pos p
  have hk := Nat.two_pow_pos k
  have hle : 2 ^ k ≤ 2 ^ (p + k) := Nat.pow_le_pow_right Nat.two_pos (Nat.le_add_left k p)
  obtain ⟨j, rfl⟩ : ∃ j, b = j + 1 := ⟨b - 1, by omega⟩
  rw [worth_mul_add hb (by omega), Nat.add_sub_cancel, narrow_least, narrow, worth_of_lt (by omega)]
  calc 2 * ((2 ^ (p + k) + (2 ^ (p + k) - 2 ^ k)) * 2 ^ j)
      = (2 * 2 ^ p * 2 ^ k - 2 ^ k) * 2 ^ (j + 1) := by
        rw [← Nat.add_sub_assoc hle, pow_add, pow_succ]
        have htwo : 2 ^ p * 2 ^ k + 2 ^ p * 2 ^ k = 2 * 2 ^ p * 2 ^ k := by ring
        rw [htwo]
        ring
    _ = (2 ^ p - 1 + 2 ^ p) * 2 ^ k * 2 ^ (j + 1) := by
        have hodd : 2 ^ p - 1 + 2 ^ p = 2 * 2 ^ p - 1 := by omega
        rw [hodd, Nat.sub_mul (2 * 2 ^ p) 1, Nat.one_mul]
    _ = (2 ^ p - 1) * 2 ^ (k + (j + 1)) + 2 ^ p * 2 ^ (k + (j + 1)) := by ring

/-- A number of the wider format that is not below the least with a leading bit of the narrower one
    is rounded to the nearest of that by a shift of its index. -/
theorem nearest_shiftEven {p k b top X : ℕ} (hX : 2 ^ p ≤ X / 2 ^ k) :
    Nearest (narrow p k b) top (worth (p + k) (X + b * 2 ^ (p + k))) (min top (shiftEven k X)) := by
  have hmono := narrow_strictMono p k b
  have hr := Nat.mod_lt X (Nat.two_pow_pos k)
  have hlow := le_shiftEven k X
  have hhigh := shiftEven_le k X
  have hworth := worth_wider (b := b) hX hr
  rw [Nat.div_add_mod' X (2 ^ k), ← narrow] at hworth
  rw [hworth]
  rcases Nat.lt_or_ge (X / 2 ^ k) top with hlt | hge
  · have hnext : narrow p k b (X / 2 ^ k + 1) =
        narrow p k b (X / 2 ^ k) + 2 ^ k * 2 ^ (X / 2 ^ k / 2 ^ p - 1 + b) := by
      rw [narrow, narrow, worth_succ]
      ring
    rw [min_eq_right (by omega)]
    have hunit := Nat.two_pow_pos (X / 2 ^ k / 2 ^ p - 1 + b)
    have hup : X % 2 ^ k * 2 ^ (X / 2 ^ k / 2 ^ p - 1 + b) ≤ 2 ^ k * 2 ^ (X / 2 ^ k / 2 ^ p - 1 + b) :=
      Nat.mul_le_mul_right _ hr.le
    -- twice what is rounded away, against the whole step, in units of the exponent
    have hside : ∀ {a c : ℕ}, 2 * a < c →
      2 * (a * 2 ^ (X / 2 ^ k / 2 ^ p - 1 + b)) < c * 2 ^ (X / 2 ^ k / 2 ^ p - 1 + b) :=
      fun {a c} hac => by
        rw [← Nat.mul_assoc]
        exact Nat.mul_lt_mul_of_pos_right hac hunit
    have hmiddle : ∀ {a c : ℕ}, 2 * a = c →
      2 * (a * 2 ^ (X / 2 ^ k / 2 ^ p - 1 + b)) = c * 2 ^ (X / 2 ^ k / 2 ^ p - 1 + b) :=
      fun {a c} hac => by rw [← Nat.mul_assoc, hac]
    unfold shiftEven
    split
    case isTrue hdown =>
      refine nearest_left hmono (by omega) (Nat.le_add_right _ _) ?_
      rw [hnext]
      rcases hdown with hlow | ⟨hhalf, heven⟩
      · have := hside hlow
        omega
      · have := hmiddle hhalf
        exact Or.inr ⟨by omega, heven⟩
    case isFalse hdown =>
      refine nearest_right hmono (by omega) ?_ ?_
      · rw [hnext]
        omega
      · rw [hnext]
        rcases Nat.lt_trichotomy (2 * (X % 2 ^ k)) (2 ^ k) with hlow | hhalf | hhigh
        · exact absurd (Or.inl hlow) hdown
        · have := hmiddle hhalf
          refine Or.inr ⟨by omega, ?_⟩
          have hodd : ¬ X / 2 ^ k % 2 = 0 := fun heven => hdown (Or.inr ⟨hhalf, heven⟩)
          omega
        · have hover : 2 ^ k * 2 ^ (X / 2 ^ k / 2 ^ p - 1 + b) <
            2 * (X % 2 ^ k * 2 ^ (X / 2 ^ k / 2 ^ p - 1 + b)) := by
            rw [← Nat.mul_assoc]
            exact Nat.mul_lt_mul_of_pos_right hhigh hunit
          exact Or.inl (by omega)
  · rw [min_eq_left (by omega)]
    refine nearest_top hmono ?_
    have hval := hmono.monotone hge
    omega

end Floats
