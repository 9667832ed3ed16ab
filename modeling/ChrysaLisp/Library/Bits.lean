import Mathlib.Data.Nat.Bitwise
import Mathlib.Data.List.Basic
import Mathlib.Tactic.Common
import Mathlib.Tactic.Ring

set_option autoImplicit false

/-! # Bits, the low one first

A number of `n` bits is a list of `n` bits, its lowest bit first (`ofNat`), and a list of bits is a
number (`toNat`). Numbers one above the other are lists one after the other (`ofNat_add_mul`), so
what is shifted out of one pool and into another is a list taken from the front and put at the
back. -/

namespace Bits

/-- The low `n` bits of `v`, the lowest first. -/
def ofNat : ℕ → ℕ → List Bool
  | 0, _ => []
  | n + 1, v => (v % 2 == 1) :: ofNat n (v / 2)

/-- The number a list of bits is, the lowest first. -/
def toNat : List Bool → ℕ
  | [] => 0
  | b :: bs => b.toNat + 2 * toNat bs

@[simp] theorem ofNat_zero (v : ℕ) : ofNat 0 v = [] := rfl

@[simp] theorem toNat_nil : toNat [] = 0 := rfl

theorem toNat_cons (b : Bool) (bs : List Bool) : toNat (b :: bs) = b.toNat + 2 * toNat bs := rfl

@[simp] theorem length_ofNat (n v : ℕ) : (ofNat n v).length = n := by
  induction n generalizing v with
  | zero => rfl
  | succ n ih => simp [ofNat, ih]

private theorem toNat_odd (v : ℕ) : (v % 2 == 1).toNat = v % 2 := by
  rcases Nat.mod_two_eq_zero_or_one v with h | h <;> simp [h]

theorem toNat_ofNat (n v : ℕ) : toNat (ofNat n v) = v % 2 ^ n := by
  induction n generalizing v with
  | zero => simp [Nat.mod_one]
  | succ n ih =>
    rw [ofNat, toNat_cons, toNat_odd, ih, Nat.pow_succ', Nat.mod_mul]

theorem toNat_lt (bs : List Bool) : toNat bs < 2 ^ bs.length := by
  induction bs with
  | nil => simp
  | cons b bs ih =>
    have hb : b.toNat ≤ 1 := Bool.toNat_le b
    rw [toNat_cons, List.length_cons, Nat.pow_succ']
    omega

/-- `a` of `m` bits with `b` above it is the bits of the one and then those of the other. -/
theorem ofNat_add_mul {m a : ℕ} (n b : ℕ) (ha : a < 2 ^ m) :
    ofNat (m + n) (a + 2 ^ m * b) = ofNat m a ++ ofNat n b := by
  induction m generalizing a with
  | zero =>
    have h0 : a = 0 := by simpa using ha
    simp [h0]
  | succ m ih =>
    have hlow : (a + 2 ^ (m + 1) * b) % 2 = a % 2 := by
      rw [Nat.pow_succ', Nat.mul_assoc]
      omega
    have hhigh : (a + 2 ^ (m + 1) * b) / 2 = a / 2 + 2 ^ m * b := by
      rw [Nat.pow_succ', Nat.mul_assoc]
      omega
    have hhalf : a / 2 < 2 ^ m := by
      rw [Nat.pow_succ'] at ha
      omega
    rw [Nat.succ_add, ofNat, ofNat, hlow, hhigh, ih hhalf, List.cons_append]

/-- A number of `m + n` bits, cut after the low `m`. -/
theorem ofNat_split (m n v : ℕ) : ofNat (m + n) v = ofNat m (v % 2 ^ m) ++ ofNat n (v / 2 ^ m) := by
  have hcut := ofNat_add_mul n (v / 2 ^ m) (Nat.mod_lt v (Nat.two_pow_pos m))
  rwa [Nat.mod_add_div] at hcut

/-- What is read from the low end of a pool, and what is left in it. -/
theorem ofNat_take_drop {n s v : ℕ} (h : n ≤ s) :
    (ofNat s v).take n = ofNat n (v % 2 ^ n) ∧ (ofNat s v).drop n = ofNat (s - n) (v / 2 ^ n) := by
  have hs : s = n + (s - n) := by omega
  have hcut := ofNat_split n (s - n) v
  rw [← hs] at hcut
  rw [hcut]
  exact ⟨List.take_left' (length_ofNat n _), List.drop_left' (length_ofNat n _)⟩

/-- Or-ing in what lies above a pool is adding it. -/
theorem or_shiftLeft {s v : ℕ} (d : ℕ) (hv : v < 2 ^ s) : d <<< s ||| v = v + 2 ^ s * d := by
  rw [← Nat.shiftLeft_add_eq_or_of_lt hv, Nat.shiftLeft_eq]
  ring

/-- A pool stays as small as the bits it is said to hold. -/
theorem add_mul_lt {s n v d : ℕ} (hv : v < 2 ^ s) (hd : d < 2 ^ n) :
    v + 2 ^ s * d < 2 ^ (s + n) := by
  rw [Nat.pow_add]
  calc v + 2 ^ s * d < 2 ^ s + 2 ^ s * d := by omega
    _ = 2 ^ s * (d + 1) := by ring
    _ ≤ 2 ^ s * 2 ^ n := Nat.mul_le_mul_left _ hd

end Bits
