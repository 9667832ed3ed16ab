import Mathlib.AlgebraicGeometry.EllipticCurve.Affine.Point
import Mathlib.Tactic.FieldSimp
import Mathlib.Tactic.Abel

set_option autoImplicit false

/-! # Points as Jacobian triples

The points of `y² = x³ - 3x + b` as triples `x y z` of which `z` is not 0, for the point that is `x / z²` and
`y / z³`, and none for the one at infinity. A point has many forms; the formulas dbl-2001-b and add-2007-bl
give one of the sum, whatever the forms they are given (`IsForm.dbl`, `IsForm.add`): whether two points have
the same x, and then the same y, is seen of what is left with the `z` of each multiplied away.

Last, what a sum of two multiples comes to a bit of each at a time (`joint_step`). -/

namespace Jacobian

open WeierstrassCurve.Affine

variable {F : Type*} [Field F]

/-- `y² = x³ - 3x + b`. -/
def curve (b : F) : WeierstrassCurve.Affine F := ⟨0, 0, 0, -3, b⟩

variable {b : F}

/-- A triple is a form of the point that is `x / z²` and `y / z³`, and none is that of the one at infinity. -/
def IsForm : Option (F × F × F) → (curve b).Point → Prop
  | none, P => P = 0
  | some (x, y, z), P => z ≠ 0 ∧ ∃ h, P = .some (x / z ^ 2) (y / z ^ 3) h

@[simp] theorem negY_curve (x y : F) : (curve b).negY x y = -y := by simp [negY, curve]

theorem addX_curve (x₁ x₂ l : F) : (curve b).addX x₁ x₂ l = l ^ 2 - x₁ - x₂ := by simp [addX, curve]

theorem addY_curve (x₁ x₂ y₁ l : F) :
    (curve b).addY x₁ x₂ y₁ l = l * (x₁ - (l ^ 2 - x₁ - x₂)) - y₁ := by
  rw [addY, negY_curve, negAddY, addX_curve]
  ring

/-- A form of a point, its coordinates without the division. -/
theorem isForm_some {x y z X Y : F} {h : (curve b).Nonsingular X Y} (hz : z ≠ 0) (hx : x = X * z ^ 2)
    (hy : y = Y * z ^ 3) : IsForm (some (x, y, z)) (.some X Y h) := by
  subst hx hy
  have hX : X * z ^ 2 / z ^ 2 = X := mul_div_cancel_right₀ X (pow_ne_zero 2 hz)
  have hY : Y * z ^ 3 / z ^ 3 = Y := mul_div_cancel_right₀ Y (pow_ne_zero 3 hz)
  refine ⟨hz, by rwa [hX, hY], ?_⟩
  simp only [hX, hY]

/-- A curve that is not singular is not one of a field where 2 is 0. -/
theorem two_ne_zero_of_disc (h : WeierstrassCurve.Δ (curve b) ≠ 0) : (2 : F) ≠ 0 := by
  intro h2
  have hdisc : WeierstrassCurve.Δ (curve b) = 2 * (864 - 216 * b ^ 2) := by
    simp only [WeierstrassCurve.Δ, WeierstrassCurve.b₂, WeierstrassCurve.b₄, WeierstrassCurve.b₆,
      WeierstrassCurve.b₈, curve]
    ring
  rw [hdisc, h2, zero_mul] at h
  exact h rfl

variable [DecidableEq F]

/-- Twice a point, dbl-2001-b. -/
def dbl : Option (F × F × F) → Option (F × F × F)
  | none => none
  | some (x, y, z) =>
      if y = 0 then none
      else
        let delta := z * z
        let gamma := y * y
        let beta := x * gamma
        let alpha := (x - delta) * (x + delta) * 3
        let x₃ := alpha * alpha - beta * 8
        some (x₃, alpha * (beta * 4 - x₃) - gamma * gamma * 8, (y + z) * (y + z) - gamma - delta)

/-- The sum of two points, add-2007-bl. -/
def add : Option (F × F × F) → Option (F × F × F) → Option (F × F × F)
  | none, q => q
  | some p, none => some p
  | some (x₁, y₁, z₁), some (x₂, y₂, z₂) =>
      let u₁ := x₁ * (z₂ * z₂)
      let s₁ := y₁ * (z₂ * (z₂ * z₂))
      let h := x₂ * (z₁ * z₁) - u₁
      let r := (y₂ * (z₁ * (z₁ * z₁)) - s₁) * 2
      if h ≠ 0 then
        let i := h * 2 * (h * 2)
        let j := h * i
        let v := u₁ * i
        let x₃ := r * r - j - v * 2
        some (x₃, r * (v - x₃) - s₁ * j * 2, ((z₁ + z₂) * (z₁ + z₂) - z₁ * z₁ - z₂ * z₂) * h)
      else if r = 0 then dbl (some (x₁, y₁, z₁))
      else none

variable (h2 : (2 : F) ≠ 0)
include h2

/-- **Twice a point**, of any form of it. -/
theorem IsForm.dbl {t : Option (F × F × F)} {P : (curve b).Point} (h : IsForm t P) :
    IsForm (dbl t) (P + P) := by
  match t, h with
  | none, h =>
      rw [show P = 0 from h, add_zero]
      rfl
  | some (x, y, z), ⟨hz, hP, heq⟩ =>
      subst heq
      rw [Jacobian.dbl]
      split_ifs with hy
      · refine Point.add_self_of_Y_eq ?_
        rw [negY_curve, hy, zero_div, neg_zero]
      · have htwo : y / z ^ 3 - -(y / z ^ 3) = 2 * y / z ^ 3 := by ring
        have hne : y / z ^ 3 ≠ (curve b).negY (x / z ^ 2) (y / z ^ 3) := by
          rw [negY_curve, ← sub_ne_zero, htwo]
          exact div_ne_zero (mul_ne_zero h2 hy) (pow_ne_zero 3 hz)
        have hz3 : (y + z) * (y + z) - y * y - z * z = 2 * y * z := by ring
        have hslope : (curve b).slope (x / z ^ 2) (x / z ^ 2) (y / z ^ 3) (y / z ^ 3) =
            (x - z * z) * (x + z * z) * 3 / (2 * y * z) := by
          rw [slope_of_Y_ne rfl hne, negY_curve, htwo]
          simp only [curve]
          field_simp
          ring
        rw [Point.add_self_of_Y_ne hne]
        refine isForm_some ?_ ?_ ?_
        · rw [hz3]
          exact mul_ne_zero (mul_ne_zero h2 hy) hz
        · rw [hz3, hslope, addX_curve]
          field_simp
          ring
        · rw [hz3, hslope, addY_curve]
          field_simp
          ring

/-- **The sum of two points**, of any forms of them: of two that differ in x, of one and itself, and of one
and its negative. -/
theorem IsForm.add {s t : Option (F × F × F)} {P Q : (curve b).Point} (hs : IsForm s P) (ht : IsForm t Q) :
    IsForm (add s t) (P + Q) := by
  match s, t, hs, ht with
  | none, t, hs, ht =>
      rw [show P = 0 from hs, zero_add]
      exact ht
  | some p, none, hs, ht =>
      rw [show Q = 0 from ht, add_zero]
      exact hs
  | some (x₁, y₁, z₁), some (x₂, y₂, z₂), ⟨hz₁, hP, heqP⟩, ⟨hz₂, hQ, heqQ⟩ =>
      subst heqP heqQ
      have hdiff : x₁ / z₁ ^ 2 = x₂ / z₂ ^ 2 ↔ x₂ * (z₁ * z₁) - x₁ * (z₂ * z₂) = 0 := by
        rw [div_eq_div_iff (pow_ne_zero 2 hz₁) (pow_ne_zero 2 hz₂), sub_eq_zero, eq_comm, pow_two, pow_two]
      have hsame : y₁ / z₁ ^ 3 = y₂ / z₂ ^ 3 ↔ (y₂ * (z₁ * (z₁ * z₁)) - y₁ * (z₂ * (z₂ * z₂))) * 2 = 0 := by
        rw [div_eq_div_iff (pow_ne_zero 3 hz₁) (pow_ne_zero 3 hz₂), mul_eq_zero, or_iff_left h2, sub_eq_zero,
          eq_comm, pow_three, pow_three]
      rw [Jacobian.add]
      dsimp only
      split_ifs with hh hr
      · have hx := mt hdiff.mp hh
        have hz : (z₁ + z₂) * (z₁ + z₂) - z₁ * z₁ - z₂ * z₂ = 2 * z₁ * z₂ := by ring
        rw [hz]
        generalize hh' : x₂ * (z₁ * z₁) - x₁ * (z₂ * z₂) = h at hh ⊢
        have hslope : (curve b).slope (x₁ / z₁ ^ 2) (x₂ / z₂ ^ 2) (y₁ / z₁ ^ 3) (y₂ / z₂ ^ 3) =
            (y₂ * (z₁ * (z₁ * z₁)) - y₁ * (z₂ * (z₂ * z₂))) / (z₁ * z₂ * h) := by
          have hsub : x₁ / z₁ ^ 2 - x₂ / z₂ ^ 2 = -h / (z₁ ^ 2 * z₂ ^ 2) := by
            rw [← hh', div_sub_div _ _ (pow_ne_zero 2 hz₁) (pow_ne_zero 2 hz₂)]
            ring
          rw [slope_of_X_ne hx, hsub]
          field_simp
          ring
        rw [Point.add_of_X_ne hx]
        refine isForm_some ?_ ?_ ?_
        · exact mul_ne_zero (mul_ne_zero (mul_ne_zero h2 hz₁) hz₂) hh
        · rw [hslope, addX_curve]
          field_simp
          rw [← hh']
          ring
        · rw [hslope, addY_curve]
          field_simp
          rw [← hh']
          ring
      · have heq : Point.some _ _ hP = Point.some _ _ hQ := by
          rw [Point.some.injEq]
          exact ⟨hdiff.mpr (not_ne_iff.mp hh), hsame.mpr hr⟩
        rw [← heq]
        exact IsForm.dbl h2 ⟨hz₁, hP, rfl⟩
      · have hx := hdiff.mpr (not_ne_iff.mp hh)
        exact Point.add_of_Y_eq hx ((Y_eq_of_X_eq hP.1 hQ.1 hx).resolve_left (mt hsame.mp hr))

omit h2

/-! ## A bit at a time -/

/-- A turn of a joint double and add: what the bits so far stand for twice, and a bit of each. -/
theorem joint_step {A : Type*} [AddCommGroup A] (P Q : A) {u v u' v' : ℤ} (i j : ℤ) (hu : u' = 2 * u + i)
    (hv : v' = 2 * v + j) : u • P + v • Q + (u • P + v • Q) + (i • P + j • Q) = u' • P + v' • Q := by
  rw [hu, hv, add_smul, add_smul, two_mul, two_mul, add_smul, add_smul]
  abel

end Jacobian
