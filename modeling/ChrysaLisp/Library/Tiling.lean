import Mathlib.Data.Set.Lattice
import Mathlib.Order.CompletePartialOrder
import Mathlib.Data.List.Perm.Basic
import Mathlib.Tactic.Common

set_option autoImplicit false

/-! # Tilings

A tile has a set of points. A list of tiles is a tiling when no tile is empty and no two have a
point in common, and it covers the points of its tiles. -/

namespace Tiling

variable {α β : Type*} (pts : α → Set β)

/-- The points of the tiles. -/
def cover (l : List α) : Set β := {p | ∃ t ∈ l, p ∈ pts t}

/-- No tile is empty, and no two have a point in common. -/
structure Tiles (l : List α) : Prop where
  nonempty : ∀ t ∈ l, (pts t).Nonempty
  apart : l.Pairwise (fun s t => Disjoint (pts s) (pts t))

variable {pts} {l m : List α}

theorem mem_cover {p : β} : p ∈ cover pts l ↔ ∃ t ∈ l, p ∈ pts t := Iff.rfl

@[simp] theorem cover_nil : cover pts [] = ∅ := by
  ext p
  simp [mem_cover]

@[simp] theorem cover_cons (t : α) : cover pts (t :: l) = pts t ∪ cover pts l := by
  ext p
  simp [mem_cover]

@[simp] theorem cover_append : cover pts (l ++ m) = cover pts l ∪ cover pts m := by
  ext p
  simp only [mem_cover, List.mem_append, Set.mem_union, or_and_right, exists_or]

theorem cover_perm (h : l.Perm m) : cover pts l = cover pts m := by
  ext p
  simp only [mem_cover, h.mem_iff]

theorem Tiles.nil : Tiles pts [] := ⟨by simp, List.Pairwise.nil⟩

theorem Tiles.perm (h : Tiles pts l) (hp : l.Perm m) : Tiles pts m where
  nonempty t ht := h.nonempty t (hp.mem_iff.2 ht)
  apart := (hp.pairwise_iff (fun hst => hst.symm)).1 h.apart

theorem tiles_append :
    Tiles pts (l ++ m) ↔ Tiles pts l ∧ Tiles pts m ∧ Disjoint (cover pts l) (cover pts m) := by
  constructor
  · intro h
    obtain ⟨hl, hm, hlm⟩ := List.pairwise_append.1 h.apart
    refine ⟨⟨fun t ht => h.nonempty t (List.mem_append_left _ ht), hl⟩,
      ⟨fun t ht => h.nonempty t (List.mem_append_right _ ht), hm⟩, ?_⟩
    refine Set.disjoint_left.2 (fun p hp hp' => ?_)
    obtain ⟨s, hs, hps⟩ := hp
    obtain ⟨t, ht, hpt⟩ := hp'
    exact Set.disjoint_left.1 (hlm s hs t ht) hps hpt
  · rintro ⟨hl, hm, hlm⟩
    refine ⟨fun t ht => ?_, List.pairwise_append.2 ⟨hl.apart, hm.apart, fun s hs t ht => ?_⟩⟩
    · rcases List.mem_append.1 ht with ht | ht
      · exact hl.nonempty t ht
      · exact hm.nonempty t ht
    · exact Set.disjoint_left.2
        (fun p hp hp' => Set.disjoint_left.1 hlm ⟨s, hs, hp⟩ ⟨t, ht, hp'⟩)

theorem tiles_cons {t : α} :
    Tiles pts (t :: l) ↔ (pts t).Nonempty ∧ Tiles pts l ∧ Disjoint (pts t) (cover pts l) := by
  have hone : cover pts [t] = pts t := by simp
  have : t :: l = [t] ++ l := rfl
  rw [this, tiles_append, hone]
  constructor
  · exact fun h => ⟨h.1.nonempty t List.mem_cons_self, h.2⟩
  · exact fun h => ⟨⟨by simpa using h.1, List.pairwise_singleton _ t⟩, h.2⟩

end Tiling
