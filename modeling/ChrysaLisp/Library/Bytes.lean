import Mathlib.Data.Nat.Digits.Lemmas
import Mathlib.Tactic.Common
import Mathlib.Tactic.Ring

set_option autoImplicit false

/-! # Numbers in bytes

A list of bytes is a number, the low byte first (`ofBytes`), and a number is so many bytes of that kind
(`toBytes`), which is again the number where it fits (`ofBytes_toBytes`). -/

namespace Bytes

/-- The number that bytes are, the low one first. -/
def ofBytes (bs : List (Fin 256)) : ℕ := Nat.ofDigits 256 (bs.map Fin.val)

local instance neZero_byte : NeZero 256 := ⟨by decide⟩

/-- The low `n` bytes of a number. -/
def toBytes : ℕ → ℕ → List (Fin 256)
  | 0, _ => []
  | n + 1, v => Fin.ofNat 256 v :: toBytes n (v / 256)

@[simp] theorem ofBytes_nil : ofBytes [] = 0 := rfl

theorem ofBytes_cons (b : Fin 256) (bs : List (Fin 256)) :
    ofBytes (b :: bs) = b.val + 256 * ofBytes bs := by
  unfold ofBytes
  rw [List.map_cons, Nat.ofDigits_cons]

theorem ofBytes_append (bs cs : List (Fin 256)) :
    ofBytes (bs ++ cs) = ofBytes bs + 256 ^ bs.length * ofBytes cs := by
  unfold ofBytes
  rw [List.map_append, Nat.ofDigits_append, List.length_map]

theorem ofBytes_lt (bs : List (Fin 256)) : ofBytes bs < 256 ^ bs.length := by
  have hlt := Nat.ofDigits_lt_base_pow_length (b := 256) (l := bs.map Fin.val) (by decide)
    (fun d hd => by obtain ⟨b, -, rfl⟩ := List.mem_map.mp hd; exact b.isLt)
  rwa [List.length_map] at hlt

@[simp] theorem ofBytes_replicate_zero (n : ℕ) : ofBytes (List.replicate n 0) = 0 := by
  induction n with
  | zero => rfl
  | succ n ih => rw [List.replicate_succ, ofBytes_cons, ih]; rfl

@[simp] theorem length_toBytes (n v : ℕ) : (toBytes n v).length = n := by
  induction n generalizing v with
  | zero => rfl
  | succ n ih => rw [toBytes, List.length_cons, ih]

theorem ofBytes_toBytes (n v : ℕ) : ofBytes (toBytes n v) = v % 256 ^ n := by
  induction n generalizing v with
  | zero => simp [toBytes, Nat.mod_one]
  | succ n ih =>
      rw [toBytes, ofBytes_cons, ih, Nat.pow_succ', Nat.mod_mul]
      rfl

/-- Bytes of a number above the bytes of another. -/
theorem toBytes_append (m n v : ℕ) : toBytes m v ++ toBytes n (v / 256 ^ m) = toBytes (m + n) v := by
  induction m generalizing v with
  | zero => simp [toBytes]
  | succ m ih =>
      rw [Nat.succ_add, toBytes, toBytes, List.cons_append, Nat.pow_succ', ← Nat.div_div_eq_div_mul, ih]

/-- Only the bytes that are kept count. -/
theorem toBytes_mod (n v : ℕ) : toBytes n (v % 256 ^ n) = toBytes n v := by
  induction n generalizing v with
  | zero => rfl
  | succ n ih =>
      have hhead : v % 256 ^ (n + 1) % 256 = v % 256 := by
        rw [Nat.pow_succ', Nat.mod_mul_right_mod]
      have hrest : v % 256 ^ (n + 1) / 256 = v / 256 % 256 ^ n := by
        rw [Nat.pow_succ', Nat.mod_mul_right_div_self]
      rw [toBytes, toBytes, hrest, ih]
      congr 1
      exact Fin.ext hhead

/-- The low bytes of what is kept are the low bytes. -/
theorem take_toBytes {m n : ℕ} (h : m ≤ n) (v : ℕ) : (toBytes n v).take m = toBytes m v := by
  rw [← Nat.add_sub_cancel' h, ← toBytes_append, List.take_left' (length_toBytes m v)]

theorem toBytes_zero (n : ℕ) : toBytes n 0 = List.replicate n 0 := by
  induction n with
  | zero => rfl
  | succ n ih =>
      rw [toBytes, Nat.zero_div, ih, List.replicate_succ]
      rfl

theorem toBytes_ofBytes (bs : List (Fin 256)) : toBytes bs.length (ofBytes bs) = bs := by
  induction bs with
  | nil => rfl
  | cons b bs ih =>
      have hb := b.isLt
      have hdiv : ofBytes (b :: bs) / 256 = ofBytes bs := by
        rw [ofBytes_cons]
        omega
      have hmod : ofBytes (b :: bs) % 256 = b.val := by
        rw [ofBytes_cons]
        omega
      rw [List.length_cons, toBytes, hdiv, ih]
      congr 1
      exact Fin.ext hmod

/-- The exclusive or of numbers is that of their bytes. -/
theorem toBytes_xor (a : ℕ) (bs : List (Fin 256)) :
    toBytes bs.length (a ^^^ ofBytes bs) = List.zipWith (· ^^^ ·) bs (toBytes bs.length a) := by
  induction bs generalizing a with
  | nil => rfl
  | cons b bs ih =>
      have hb := b.isLt
      have hdiv : ofBytes (b :: bs) / 256 = ofBytes bs := by
        rw [ofBytes_cons]
        omega
      have hmod : ofBytes (b :: bs) % 256 = b.val := by
        rw [ofBytes_cons]
        omega
      have hrest : (a ^^^ ofBytes (b :: bs)) / 256 = a / 256 ^^^ ofBytes bs := by
        rw [← hdiv]
        exact Nat.xor_div_two_pow (n := 8)
      have hhead : (a ^^^ ofBytes (b :: bs)) % 256 = a % 256 ^^^ b.val := by
        rw [← hmod]
        exact Nat.xor_mod_two_pow (n := 8)
      have hlt : b.val ^^^ a % 256 < 256 := Nat.xor_lt_two_pow (n := 8) hb (Nat.mod_lt a (by decide))
      rw [List.length_cons, toBytes, toBytes, List.zipWith_cons_cons, hrest, ih]
      congr 1
      apply Fin.ext
      change (a ^^^ ofBytes (b :: bs)) % 256 = (b.val ^^^ a % 256) % 256
      rw [hhead, Nat.mod_eq_of_lt hlt, Nat.xor_comm]

/-- What is put on twice is taken off. -/
theorem xor_xor_self (a b : Fin 256) : a ^^^ b ^^^ b = a := by
  apply Fin.ext
  change ((a.val ^^^ b.val) % 256 ^^^ b.val) % 256 = a.val
  rw [Nat.mod_eq_of_lt (Nat.xor_lt_two_pow (n := 8) a.isLt b.isLt), Nat.xor_assoc, Nat.xor_self, Nat.xor_zero,
    Nat.mod_eq_of_lt a.isLt]

end Bytes
