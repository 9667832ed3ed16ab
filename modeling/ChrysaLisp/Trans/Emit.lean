import ChrysaLisp.Library.Fields

set_option autoImplicit false

/-! # What is emitted

`lib/trans/vp.inc`: Lisp's numbers, and what `emitm-short` and `emitm-int` write of them. Code is what is
written, as shorts or as ints. A register is the number a CPU has for it. -/

namespace ChrysaLisp.Trans

open Fields

abbrev Num := BitVec 64

def emitmInt (x : Num) : List ℕ := [x.toNat % 2 ^ 32]

def emitmShort (l : List Num) : List ℕ := l.map fun x => x.toNat % 2 ^ 16

/-- What the registers hold. -/
abbrev Regs := ℕ → Num

theorem toInt_cases (c : Num) :
    (c.toNat < 2 ^ 63 ∧ c.toInt = c.toNat) ∨ (2 ^ 63 ≤ c.toNat ∧ c.toInt = c.toNat - 2 ^ 64) := by
  have hcond := c.toInt_eq_toNat_cond
  split at hcond
  · exact Or.inl ⟨by omega, hcond⟩
  · exact Or.inr ⟨by omega, by rw [hcond]; rfl⟩

theorem toNat_and_mask (c : Num) {mask : Num} (lo n : ℕ) (h : mask.toNat = (2 ^ n - 1) * 2 ^ lo) :
    (c &&& mask).toNat = field c.toNat lo n * 2 ^ lo := by
  rw [BitVec.toNat_and, h, land_mask]

end ChrysaLisp.Trans
