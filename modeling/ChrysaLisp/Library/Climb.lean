import Mathlib.Data.List.Nodup
import Mathlib.Data.List.Perm.Subperm
import Mathlib.Data.Finset.Basic
import Mathlib.Logic.Function.Basic
import Mathlib.Tactic.Common

set_option autoImplicit false

/-! # Climbing to a root

Nodes with a parent each, or none. The nodes from one up to its root, if there is an end to them, are
all different, so as many steps as there are nodes reach it. -/

namespace Climb

variable {N M : Type*}

/-- The nodes from one to its root. -/
inductive Path (parent : N → Option N) : N → List N → Prop
  | root {e : N} (h : parent e = none) : Path parent e [e]
  | up {e p : N} {l : List N} (h : parent e = some p) (hl : Path parent p l) : Path parent e (e :: l)

/-- The first node, going up, that is looked for. -/
def first (parent : N → Option N) (here : N → Bool) : ℕ → N → Option N
  | 0, _ => none
  | fuel + 1, e =>
      if here e then some e
      else
        match parent e with
        | some p => first parent here fuel p
        | none => none

/-- The nodes gone over. -/
def nodes (parent : N → Option N) : ℕ → N → List N
  | 0, _ => []
  | fuel + 1, e =>
      match parent e with
      | some p => e :: nodes parent fuel p
      | none => [e]

variable {parent parent' : N → Option N} {e p r : N} {l l' : List N}

theorem Path.mem_self (h : Path parent e l) : e ∈ l := by
  cases h with
  | root h => exact List.mem_cons_self
  | up h hl => exact List.mem_cons_self

theorem Path.length_pos (h : Path parent e l) : 0 < l.length := List.length_pos_of_mem h.mem_self

theorem Path.unique (h : Path parent e l) (h' : Path parent e l') : l = l' := by
  induction h generalizing l' with
  | root h =>
    cases h' with
    | root h' => rfl
    | up h' hl' => rw [h] at h'; exact absurd h' (by simp)
  | up h hl ih =>
    cases h' with
    | root h' => rw [h] at h'; exact absurd h' (by simp)
    | up h' hl' =>
      rw [h] at h'
      obtain rfl := Option.some.inj h'
      rw [ih hl']

/-- A node on the way has the rest of the way. -/
theorem Path.of_mem (h : Path parent e l) (hp : p ∈ l) : ∃ k, Path parent p k ∧ k <:+ l := by
  induction h with
  | root h =>
    rw [List.mem_singleton.1 hp]
    exact ⟨_, .root h, List.suffix_refl _⟩
  | up h hl ih =>
    rcases List.mem_cons.1 hp with rfl | hp
    · exact ⟨_, .up h hl, List.suffix_refl _⟩
    · obtain ⟨k, hk, hsuf⟩ := ih hp
      exact ⟨k, hk, hsuf.trans (List.suffix_cons _ _)⟩

theorem Path.nodup (h : Path parent e l) : l.Nodup := by
  induction h with
  | root h => exact List.nodup_singleton _
  | up h hl ih =>
    refine List.nodup_cons.2 ⟨fun hmem => ?_, ih⟩
    obtain ⟨k, hk, hsuf⟩ := hl.of_mem hmem
    have hlen := hsuf.length_le
    rw [hk.unique (.up h hl), List.length_cons] at hlen
    omega

theorem Path.congr (h : Path parent e l) (heq : ∀ x ∈ l, parent' x = parent x) :
    Path parent' e l := by
  induction h with
  | root h => exact .root (by rw [heq _ List.mem_cons_self, h])
  | up h hl ih =>
    exact .up (by rw [heq _ List.mem_cons_self, h]) (ih (fun x hx => heq x (List.mem_cons_of_mem _ hx)))

/-- The parents are where the node is. -/
theorem Path.closed {s : N → Prop} (h : Path parent e l) (he : s e)
    (hs : ∀ x p, s x → parent x = some p → s p) : ∀ x ∈ l, s x := by
  induction h with
  | root h =>
    intro x hx
    rw [List.mem_singleton.1 hx]
    exact he
  | up h hl ih => exact List.forall_mem_cons.2 ⟨he, ih (hs _ _ he h)⟩

/-- Nodes with other names climb the same. -/
theorem Path.map {parent' : M → Option M} {f : N → M} {s : N → Prop} (h : Path parent e l) (he : s e)
    (hs : ∀ x, s x → parent' (f x) = (parent x).map f ∧ ∀ p, parent x = some p → s p) :
    Path parent' (f e) (l.map f) := by
  induction h with
  | root h => exact .root (by rw [(hs _ he).1, h, Option.map_none])
  | up h hl ih => exact .up (by rw [(hs _ he).1, h, Option.map_some]) (ih ((hs _ he).2 _ h))

theorem Path.of_map {parent' : M → Option M} {f : N → M} {s : N → Prop} {k : List M} {e' : M}
    (h : Path parent' e' k) (hf : f e = e') (he : s e)
    (hs : ∀ x, s x → parent' (f x) = (parent x).map f ∧ ∀ p, parent x = some p → s p) :
    ∃ l, Path parent e l ∧ k = l.map f := by
  induction h generalizing e with
  | root h =>
    subst hf
    have hnone : parent e = none := by
      rw [(hs e he).1] at h
      exact Option.map_eq_none_iff.1 h
    exact ⟨[e], .root hnone, rfl⟩
  | up h hl ih =>
    subst hf
    rw [(hs e he).1] at h
    obtain ⟨p, hp, rfl⟩ := Option.map_eq_some_iff.1 h
    obtain ⟨l, hpath, rfl⟩ := ih rfl ((hs e he).2 p hp)
    exact ⟨e :: l, .up hp hpath, rfl⟩

/-- No more nodes than there are. -/
theorem Path.length_le {all : List N} (h : Path parent e l) (hall : ∀ x ∈ l, x ∈ all) :
    l.length ≤ all.length := (h.nodup.subperm hall).length_le

/-! ## Looking on the way -/

theorem first_eq {here : N → Bool} {fuel : ℕ} (h : Path parent e l) (hle : l.length ≤ fuel) :
    first parent here fuel e = l.find? here := by
  induction h generalizing fuel with
  | root h =>
    obtain ⟨fuel, rfl⟩ : ∃ n, fuel = n + 1 := ⟨fuel - 1, by simp at hle; omega⟩
    rw [first, List.find?_cons]
    split_ifs with he
    · rw [he]
    · rw [h, Bool.eq_false_iff.2 he, List.find?_nil]
  | up h hl ih =>
    obtain ⟨fuel, rfl⟩ : ∃ n, fuel = n + 1 := ⟨fuel - 1, by simp at hle; omega⟩
    rw [first, List.find?_cons]
    split_ifs with he
    · rw [he]
    · rw [h, Bool.eq_false_iff.2 he]
      exact ih (by simpa using hle)

theorem nodes_eq {fuel : ℕ} (h : Path parent e l) (hle : l.length ≤ fuel) :
    nodes parent fuel e = l := by
  induction h generalizing fuel with
  | root h =>
    obtain ⟨fuel, rfl⟩ : ∃ n, fuel = n + 1 := ⟨fuel - 1, by simp at hle; omega⟩
    rw [nodes, h]
  | up h hl ih =>
    obtain ⟨fuel, rfl⟩ : ∃ n, fuel = n + 1 := ⟨fuel - 1, by simp at hle; omega⟩
    rw [nodes, h]
    exact congrArg (_ :: ·) (ih (by simpa using hle))

/-! ## A parent given, or taken -/

variable [DecidableEq N]

/-- One that is not on the way is no matter. -/
theorem Path.update_of_notMem (h : Path parent e l) {x : N} (hx : x ∉ l) (q : Option N) :
    Path (Function.update parent x q) e l :=
  h.congr (fun _ hy => Function.update_of_ne (ne_of_mem_of_not_mem hy hx) _ _)

/-- A root put under a node that is not one of its own. -/
theorem Path.hang (h : Path parent e l) (hr : parent r = none) (hp : Path parent p l') (hnot : r ∉ l') :
    ∃ k, Path (Function.update parent r (some p)) e k := by
  have hp' := hp.update_of_notMem hnot (some p)
  induction h with
  | @root e h =>
    by_cases he : e = r
    · subst he
      exact ⟨_, .up (Function.update_self ..) hp'⟩
    · exact ⟨_, .root (by rw [Function.update_of_ne he, h])⟩
  | @up e q l h hl ih =>
    obtain ⟨k, hk⟩ := ih
    have he : e ≠ r := by
      rintro rfl
      rw [hr] at h
      exact absurd h (by simp)
    exact ⟨_, .up (by rw [Function.update_of_ne he, h]) hk⟩

/-- A node made a root. -/
theorem Path.cut (h : Path parent e l) (r : N) : ∃ k, Path (Function.update parent r none) e k := by
  induction h with
  | @root e h =>
    refine ⟨_, .root ?_⟩
    by_cases he : e = r
    · rw [he, Function.update_self]
    · rw [Function.update_of_ne he, h]
  | @up e q l h hl ih =>
    by_cases he : e = r
    · exact ⟨_, .root (by rw [he, Function.update_self])⟩
    · obtain ⟨k, hk⟩ := ih
      exact ⟨_, .up (by rw [Function.update_of_ne he, h]) hk⟩

end Climb
