import Mathlib.Data.List.Sort
import Mathlib.Data.List.Lex
import Mathlib.Order.Lattice
import Mathlib.Tactic.Common

set_option autoImplicit false

/-! # Counts kept as a list

A finitely supported map `α → ℕ` kept as a list of `(key, count)` pairs. `count` is the map a list
stands for; a list is `Canonical` when its keys ascend strictly and no count is zero, and two
canonical lists of one map are the one list (`Canonical.ext`). So what is said of the lists can be
said of the maps, in the pointwise order of `α → ℕ`, and brought back.

The list operations are the usual ones of a version vector: add one to a key, and take the
greater of two lists at every key, each put in order of the keys afterwards (`sortKeys`). -/

namespace CountList

variable {α : Type*} [DecidableEq α]

/-! ## The map a list stands for -/

/-- The count of the first pair of that key, 0 if there is none. -/
def count (l : List (α × ℕ)) (a : α) : ℕ :=
  ((l.find? (fun p => p.1 = a)).map Prod.snd).getD 0

/-- Is there a pair of that key. -/
def has (l : List (α × ℕ)) (a : α) : Bool := l.any (fun p => p.1 = a)

section Ordered

variable [LinearOrder α]

/-- In the order of the keys. -/
def sortKeys (l : List (α × ℕ)) : List (α × ℕ) := l.insertionSort (fun p q => p.1 ≤ q.1)

/-- The keys ascend strictly, and no count is 0. -/
structure Canonical (l : List (α × ℕ)) : Prop where
  ascending : l.Pairwise (fun p q => p.1 < q.1)
  positive : ∀ p ∈ l, 0 < p.2

end Ordered

@[simp] theorem count_nil (a : α) : count ([] : List (α × ℕ)) a = 0 := rfl

theorem count_cons (p : α × ℕ) (l : List (α × ℕ)) (a : α) :
    count (p :: l) a = if p.1 = a then p.2 else count l a := by
  unfold count
  rw [List.find?_cons]
  by_cases h : p.1 = a
  · simp [h]
  · simp [h]

theorem has_iff (l : List (α × ℕ)) (a : α) : has l a = true ↔ ∃ p ∈ l, p.1 = a := by
  simp [has]

theorem count_of_not_has {l : List (α × ℕ)} {a : α} (h : has l a = false) : count l a = 0 := by
  induction l with
  | nil => rfl
  | cons p l ih =>
      simp only [has, List.any_cons, Bool.or_eq_false_iff, decide_eq_false_iff_not] at h
      rw [count_cons, if_neg h.1]
      exact ih h.2

/-- With distinct keys, the pair of a key is the one `count` finds. -/
theorem count_of_mem {l : List (α × ℕ)} (hl : (l.map Prod.fst).Nodup) {p : α × ℕ} (hp : p ∈ l) :
    count l p.1 = p.2 := by
  induction l with
  | nil => exact absurd hp (List.not_mem_nil)
  | cons q l ih =>
      rw [List.map_cons, List.nodup_cons] at hl
      rw [count_cons]
      rcases List.mem_cons.1 hp with rfl | hp'
      · rw [if_pos rfl]
      · have hne : q.1 ≠ p.1 := fun he => hl.1 (he ▸ List.mem_map_of_mem hp')
        rw [if_neg hne]
        exact ih hl.2 hp'

theorem mem_of_count_pos {l : List (α × ℕ)} {a : α} (h : 0 < count l a) : (a, count l a) ∈ l := by
  induction l with
  | nil => simp at h
  | cons p l ih =>
      rw [count_cons] at h ⊢
      by_cases hp : p.1 = a
      · rw [if_pos hp]
        exact List.mem_cons.2 (Or.inl (by rw [← hp]))
      · rw [if_neg hp] at h ⊢
        exact List.mem_cons_of_mem _ (ih h)

variable [LinearOrder α]

namespace Canonical

omit [DecidableEq α] in
theorem nodup {l : List (α × ℕ)} (hl : Canonical l) : (l.map Prod.fst).Nodup := by
  rw [List.nodup_iff_pairwise_ne, List.pairwise_map]
  exact hl.ascending.imp (fun h => ne_of_lt h)

omit [DecidableEq α] in
theorem nil : Canonical ([] : List (α × ℕ)) := ⟨List.Pairwise.nil, by simp⟩

theorem count_pos_iff {l : List (α × ℕ)} (hl : Canonical l) (a : α) :
    0 < count l a ↔ ∃ p ∈ l, p.1 = a := by
  constructor
  · intro h
    exact ⟨_, mem_of_count_pos h, rfl⟩
  · rintro ⟨p, hp, rfl⟩
    rw [count_of_mem hl.nodup hp]
    exact hl.positive p hp

/-- Two canonical lists of one map are one list. -/
theorem ext {l m : List (α × ℕ)} (hl : Canonical l) (hm : Canonical m)
    (h : ∀ a, count l a = count m a) : l = m := by
  have hperm : l.Perm m := by
    have hln : l.Nodup := List.Nodup.of_map _ hl.nodup
    have hmn : m.Nodup := List.Nodup.of_map _ hm.nodup
    refine (List.perm_ext_iff_of_nodup hln hmn).2 (fun p => ⟨fun hp => ?_, fun hp => ?_⟩)
    · have hc : count l p.1 = p.2 := count_of_mem hl.nodup hp
      have hpos : 0 < count m p.1 := by rw [← h, hc]; exact hl.positive p hp
      have := mem_of_count_pos hpos
      rwa [← h, hc] at this
    · have hc : count m p.1 = p.2 := count_of_mem hm.nodup hp
      have hpos : 0 < count l p.1 := by rw [h, hc]; exact hm.positive p hp
      have := mem_of_count_pos hpos
      rwa [h, hc] at this
  exact hperm.eq_of_pairwise (fun p q _ _ hpq hqp => absurd (hpq.trans hqp) (lt_irrefl _))
    hl.ascending hm.ascending

end Canonical

/-! ## Putting a list in order -/

omit [DecidableEq α] in
theorem sortKeys_perm (l : List (α × ℕ)) : (sortKeys l).Perm l := List.perm_insertionSort _ l

omit [DecidableEq α] in
theorem canonical_sortKeys {l : List (α × ℕ)} (hn : (l.map Prod.fst).Nodup)
    (hpos : ∀ p ∈ l, 0 < p.2) : Canonical (sortKeys l) := by
  constructor
  · have hle : (sortKeys l).Pairwise (fun p q : α × ℕ => p.1 ≤ q.1) := by
      have : Std.Total (fun p q : α × ℕ => p.1 ≤ q.1) := ⟨fun p q => le_total p.1 q.1⟩
      have : IsTrans (α × ℕ) (fun p q : α × ℕ => p.1 ≤ q.1) := ⟨fun _ _ _ h h' => le_trans h h'⟩
      exact List.pairwise_insertionSort _ l
    have hne : (sortKeys l).Pairwise (fun p q : α × ℕ => p.1 ≠ q.1) := by
      have := ((sortKeys_perm l).map Prod.fst).nodup_iff.2 hn
      rwa [List.nodup_iff_pairwise_ne, List.pairwise_map] at this
    exact (hle.and hne).imp (fun h => lt_of_le_of_ne h.1 h.2)
  · intro p hp
    exact hpos p ((sortKeys_perm l).mem_iff.1 hp)

/-- Order does not change the map, as long as the keys are distinct. -/
theorem count_sortKeys {l : List (α × ℕ)} (hn : (l.map Prod.fst).Nodup) (a : α) :
    count (sortKeys l) a = count l a := by
  have hn' : ((sortKeys l).map Prod.fst).Nodup := ((sortKeys_perm l).map Prod.fst).nodup_iff.2 hn
  by_cases h : 0 < count l a
  · have hmem := (sortKeys_perm l).mem_iff.2 (mem_of_count_pos h)
    exact count_of_mem hn' hmem
  · by_cases h' : 0 < count (sortKeys l) a
    · have hmem := (sortKeys_perm l).mem_iff.1 (mem_of_count_pos h')
      have := count_of_mem hn hmem
      simp only at this
      omega
    · omega

/-! ## One more for a key -/

/-- One added to the count of a key, before the list is put in order. -/
def bumped (l : List (α × ℕ)) (a : α) : List (α × ℕ) :=
  l.map (fun p => if p.1 = a then (p.1, p.2 + 1) else p) ++ (if has l a then [] else [(a, 1)])

/-- One added to the count of a key, which is made if there is none. -/
def bump (l : List (α × ℕ)) (a : α) : List (α × ℕ) := sortKeys (bumped l a)

omit [LinearOrder α] in
theorem map_fst_bumped (l : List (α × ℕ)) (a : α) :
    (bumped l a).map Prod.fst = l.map Prod.fst ++ (if has l a then [] else [a]) := by
  unfold bumped
  rw [List.map_append, List.map_map]
  congr 1
  · apply List.map_congr_left
    intro p _
    simp only [Function.comp_apply]
    split <;> rfl
  · split <;> rfl

omit [LinearOrder α] in
theorem nodup_bumped {l : List (α × ℕ)} (hn : (l.map Prod.fst).Nodup) (a : α) :
    ((bumped l a).map Prod.fst).Nodup := by
  rw [map_fst_bumped]
  by_cases h : has l a = true
  · simpa [h] using hn
  · have hnot : a ∉ l.map Prod.fst := by
      intro hmem
      obtain ⟨p, hp, he⟩ := List.mem_map.1 hmem
      exact h ((has_iff l a).2 ⟨p, hp, he⟩)
    simp only [h, Bool.false_eq_true, if_false]
    exact hn.append (List.nodup_singleton a) (List.disjoint_singleton.2 hnot)

omit [LinearOrder α] in
theorem count_map_bump (l : List (α × ℕ)) (a b : α) (t : List (α × ℕ)) :
    count (l.map (fun p => if p.1 = a then (p.1, p.2 + 1) else p) ++ t) b
      = if has l b then count l b + (if b = a then 1 else 0) else count t b := by
  induction l with
  | nil => simp [has]
  | cons p l ih =>
      simp only [List.map_cons, List.cons_append, count_cons, has, List.any_cons] at ih ⊢
      by_cases hp : p.1 = a
      · by_cases hb : p.1 = b
        · simp [hp, ← hb]
        · simp only [if_pos hp, hb, if_false, decide_false, Bool.false_or] at ih ⊢
          exact ih
      · by_cases hb : p.1 = b
        · have hba : ¬ b = a := fun he => hp (hb.trans he)
          simp [hb, hba]
        · simp only [hp, if_false, hb, decide_false, Bool.false_or]
          exact ih

/-- What one more for a key does to the map. -/
theorem count_bump {l : List (α × ℕ)} (hl : Canonical l) (a b : α) :
    count (bump l a) b = if b = a then count l b + 1 else count l b := by
  unfold bump
  rw [count_sortKeys (nodup_bumped hl.nodup a)]
  unfold bumped
  rw [count_map_bump]
  by_cases hb : has l b = true
  · rw [if_pos hb]
    split <;> rfl
  · have hb' : has l b = false := by simpa using hb
    rw [if_neg hb, count_of_not_has hb']
    by_cases he : b = a
    · subst he
      simp [hb', count_cons]
    · have hne : ¬ a = b := fun h => he h.symm
      split <;> simp [count_cons, hne]

theorem canonical_bump {l : List (α × ℕ)} (hl : Canonical l) (a : α) : Canonical (bump l a) := by
  refine canonical_sortKeys (nodup_bumped hl.nodup a) (fun p hp => ?_)
  unfold bumped at hp
  rcases List.mem_append.1 hp with hp | hp
  · obtain ⟨q, hq, rfl⟩ := List.mem_map.1 hp
    have := hl.positive q hq
    split
    · exact Nat.succ_pos _
    · exact this
  · split at hp
    · exact absurd hp List.not_mem_nil
    · rw [List.mem_singleton.1 hp]
      exact Nat.one_pos

/-! ## The greater of two at every key -/

/-- The two lists put together, before they are put in order. -/
def merged (l m : List (α × ℕ)) : List (α × ℕ) :=
  l.map (fun p => (p.1, max p.2 (count m p.1))) ++ m.filter (fun p => !has l p.1)

/-- The most that either list has of every key. -/
def merge (l m : List (α × ℕ)) : List (α × ℕ) := sortKeys (merged l m)

omit [LinearOrder α] in
theorem map_fst_merged (l m : List (α × ℕ)) :
    (merged l m).map Prod.fst
      = l.map Prod.fst ++ (m.filter (fun p => !has l p.1)).map Prod.fst := by
  unfold merged
  rw [List.map_append, List.map_map]
  rfl

omit [LinearOrder α] in
theorem nodup_merged {l m : List (α × ℕ)} (hl : (l.map Prod.fst).Nodup)
    (hm : (m.map Prod.fst).Nodup) : ((merged l m).map Prod.fst).Nodup := by
  rw [map_fst_merged]
  refine hl.append (hm.sublist (List.filter_sublist.map _)) ?_
  intro a hal ham
  obtain ⟨p, hp, rfl⟩ := List.mem_map.1 ham
  obtain ⟨q, hq, he⟩ := List.mem_map.1 hal
  have hnot := (List.mem_filter.1 hp).2
  rw [(has_iff l p.1).2 ⟨q, hq, he⟩] at hnot
  simp at hnot

omit [LinearOrder α] in
theorem count_filter_not_has (l m : List (α × ℕ)) (a : α) :
    count (m.filter (fun p => !has l p.1)) a = if has l a then 0 else count m a := by
  induction m with
  | nil => simp
  | cons p m ih =>
      rw [List.filter_cons]
      by_cases hp : p.1 = a
      · subst hp
        by_cases h : has l p.1 = true
        · simpa [h] using ih
        · simp [h, count_cons]
      · split
        · simpa [count_cons, hp] using ih
        · simpa [count_cons, hp] using ih

omit [LinearOrder α] in
theorem count_merge_left (l m t : List (α × ℕ)) (a : α) :
    count (l.map (fun p => (p.1, max p.2 (count m p.1))) ++ t) a
      = if has l a then max (count l a) (count m a) else count t a := by
  induction l with
  | nil => simp [has]
  | cons p l ih =>
      simp only [List.map_cons, List.cons_append, count_cons, has, List.any_cons] at ih ⊢
      by_cases hp : p.1 = a
      · subst hp
        simp
      · simp only [hp, if_false, decide_false, Bool.false_or]
        exact ih

/-- The map of two put together is the greater of the two maps at every key. -/
theorem count_merge {l m : List (α × ℕ)} (hl : Canonical l) (hm : Canonical m) (a : α) :
    count (merge l m) a = max (count l a) (count m a) := by
  have hs : count (merge l m) a = count (merged l m) a :=
    count_sortKeys (nodup_merged hl.nodup hm.nodup) a
  rw [hs]
  unfold merged
  rw [count_merge_left]
  by_cases h : has l a = true
  · rw [if_pos h]
  · have h' : has l a = false := by simpa using h
    rw [if_neg h, count_filter_not_has, h', count_of_not_has h']
    simp

theorem canonical_merge {l m : List (α × ℕ)} (hl : Canonical l) (hm : Canonical m) :
    Canonical (merge l m) := by
  refine canonical_sortKeys (nodup_merged hl.nodup hm.nodup) (fun p hp => ?_)
  rcases List.mem_append.1 hp with hp | hp
  · obtain ⟨q, hq, rfl⟩ := List.mem_map.1 hp
    exact lt_of_lt_of_le (hl.positive q hq) (le_max_left _ _)
  · exact hm.positive p (List.mem_filter.1 hp).1

end CountList
