import Mathlib.Algebra.Ring.Prod
import Mathlib.Algebra.GroupWithZero.Basic
import Mathlib.Tactic.LinearCombination
import Mathlib.Tactic.Ring

set_option autoImplicit false

/-! # Corners

Twice the signed area of a ring of points is the sum of what each two that follow one another span with
the origin. A point where the ring goes on in the direction it came in, or straight back, is no corner: any
of these may be left out, and the area is the same. -/

namespace Corners

variable {R : Type*} [CommRing R]

/-- What two vectors span, signed. It is 0 when one is along the other. -/
def cross (u v : R × R) : R := u.1 * v.2 - u.2 * v.1

/-- The sum along the points from one to another. -/
def pathArea : R × R → List (R × R) → R × R → R
  | a, [], z => cross a z
  | a, p :: l, z => cross a p + pathArea p l z

/-- Twice the signed area of a ring. -/
def area : List (R × R) → R
  | [] => 0
  | a :: l => pathArea a l a

variable {u v w a p z d e f : R × R} {l l' : List (R × R)}

theorem cross_self (u : R × R) : cross u u = 0 := by
  rw [cross]
  ring

theorem cross_swap (h : cross u v = 0) : cross v u = 0 := by
  rw [cross] at h ⊢
  linear_combination -h

theorem cross_add (hu : cross u w = 0) (hv : cross v w = 0) : cross (u + v) w = 0 := by
  rw [cross] at hu hv ⊢
  rw [Prod.fst_add, Prod.snd_add]
  linear_combination hu + hv

/-- The way from one point to the next and on to a third is along one line. -/
theorem cross_between (h : cross (p - a) d = 0) (h' : cross (z - p) d = 0) : cross (z - a) d = 0 := by
  rw [← sub_add_sub_cancel z p a]
  exact cross_add h' h

theorem cross_path (h : cross (p - a) (z - p) = 0) : cross a p + cross p z = cross a z := by
  rw [cross, Prod.fst_sub, Prod.snd_sub, Prod.fst_sub, Prod.snd_sub] at h
  rw [cross, cross, cross]
  linear_combination h

theorem pathArea_skip (h : cross (p - a) (l.headD z - p) = 0) :
    cross a p + pathArea p l z = pathArea a l z := by
  cases l with
  | nil => exact cross_path h
  | cons q l =>
      rw [List.headD_cons] at h
      rw [pathArea, pathArea, ← cross_path h, add_assoc]

theorem pathArea_append (a : R × R) (l : List (R × R)) (p : R × R) (l' : List (R × R)) (z : R × R) :
    pathArea a (l ++ p :: l') z = pathArea a l p + pathArea p l' z := by
  induction l generalizing a with
  | nil => rfl
  | cons q l ih => rw [List.cons_append, pathArea, ih, pathArea, add_assoc]

/-- The last point of a closed path may be taken for its first. -/
theorem pathArea_close (a : R × R) (l : List (R × R)) (h : cross (a - l.getLastD a) (l.headD a - a) = 0) :
    pathArea a l a = area l := by
  cases l with
  | nil => exact cross_self a
  | cons p l =>
      rw [List.headD_cons] at h
      rw [pathArea, area]
      rcases List.eq_nil_or_concat l with rfl | ⟨l', q, rfl⟩
      · rw [List.getLastD_cons, List.getLastD_nil] at h
        rw [pathArea, pathArea, add_comm, cross_path h]
      · rw [List.concat_eq_append] at h ⊢
        rw [← List.cons_append, List.getLastD_concat] at h
        rw [pathArea_append, pathArea_append, pathArea, pathArea, add_left_comm,
          add_comm (cross a p), cross_path h]

/-- A ring of two points has no area. -/
theorem area_of_length_lt (h : l.length < 3) : area l = 0 := by
  rcases l with _ | ⟨a, _ | ⟨b, _ | ⟨c, l⟩⟩⟩
  · rfl
  · exact cross_self a
  · rw [area, pathArea, pathArea, cross, cross]
    ring
  · simp only [List.length_cons] at h
    omega

/-! ## Leaving points out -/

/-- Being along a vector is passed on by one that is not 0. -/
theorem cross_trans [NoZeroDivisors R] (he : e ≠ 0) (hd : cross d e = 0) (hf : cross e f = 0) :
    cross d f = 0 := by
  rw [cross] at hd hf ⊢
  by_contra hne
  refine he (Prod.ext ?_ ?_)
  · refine (mul_eq_zero.mp ?_).resolve_right hne
    linear_combination f.1 * hd + d.1 * hf
  · refine (mul_eq_zero.mp ?_).resolve_right hne
    linear_combination f.2 * hd + d.2 * hf

/-- The points that are kept. -/
def kept (l : List ((R × R) × Bool)) : List (R × R) := (l.filter Prod.snd).map Prod.fst

/-- A path of points from one to another, each with whether it is kept. It sets out in a direction, there
is one on from each point, and where a point is not kept it is the one the path came in. The last is along
`f`. -/
inductive Bends (z f : R × R) : R × R → R × R → List ((R × R) × Bool) → Prop
  | nil {d a : R × R} : d ≠ 0 → cross (z - a) d = 0 → cross d f = 0 → Bends z f d a []
  | cons {d a e p : R × R} {k : Bool} {l : List ((R × R) × Bool)} : d ≠ 0 → cross (p - a) d = 0 →
      (k = false → cross d e = 0) → Bends z f e p l → Bends z f d a ((p, k) :: l)

variable {k : Bool} {marked : List ((R × R) × Bool)}

theorem Bends.ne_zero (h : Bends z f d a marked) : d ≠ 0 := by
  cases h <;> assumption

theorem Bends.first (h : Bends z f d a marked) : cross ((marked.map Prod.fst).headD z - a) d = 0 := by
  cases h <;> assumption

variable [NoZeroDivisors R]

/-- The point before is taken for this one. -/
theorem Bends.skip (h : Bends z f e p marked) (hd : d ≠ 0) (hp : cross (p - a) d = 0) (hde : cross d e = 0) :
    Bends z f d a marked := by
  cases h with
  | nil he hz hf =>
      exact .nil hd (cross_between hp (cross_trans he hz (cross_swap hde))) (cross_trans he hde hf)
  | cons he hq hturn hrest =>
      exact .cons hd (cross_between hp (cross_trans he hq (cross_swap hde)))
        (fun hk => cross_trans he hde (hturn hk)) hrest

/-- The sum is the same without them, and the path still sets out and comes in as it did. -/
theorem Bends.keep (h : Bends z f d a marked) :
    pathArea a (kept marked) z = pathArea a (marked.map Prod.fst) z ∧
      cross ((kept marked).headD z - a) d = 0 ∧
    cross (z - (kept marked).getLastD a) f = 0 := by
  induction marked generalizing d a with
  | nil =>
      cases h with
      | nil hd hz hf => exact ⟨rfl, hz, cross_trans hd hz hf⟩
  | cons q marked ih =>
      cases h with
      | @cons _ _ e p k _ hd hp hturn hrest =>
          cases k with
          | true =>
              obtain ⟨harea, -, hlast⟩ := ih hrest
              refine ⟨?_, hp, ?_⟩
              · rw [List.map_cons, pathArea, ← harea]
                rfl
              · rw [show kept ((p, true) :: marked) = p :: kept marked from rfl, List.getLastD_cons]
                exact hlast
          | false =>
              obtain ⟨harea, hfirst, hlast⟩ := ih (hrest.skip hd hp (hturn rfl))
              have hin := cross_trans hd hp (cross_trans hrest.ne_zero (hturn rfl) (cross_swap hrest.first))
              refine ⟨?_, hfirst, hlast⟩
              rw [List.map_cons, pathArea, pathArea_skip hin, ← harea]
              rfl

/-- Around a ring, its first point as any other. -/
theorem area_keep (h : Bends p f d p marked) (hturn : k = false → cross f d = 0) (hf : f ≠ 0) :
    area (kept ((p, k) :: marked)) = area (p :: marked.map Prod.fst) := by
  obtain ⟨harea, hfirst, hlast⟩ := h.keep
  cases k with
  | true => exact harea
  | false =>
      have hin := cross_trans hf hlast (cross_trans h.ne_zero (hturn rfl) (cross_swap hfirst))
      exact (pathArea_close p _ hin).symm.trans harea

end Corners
