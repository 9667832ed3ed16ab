import Mathlib.Data.List.Basic
import Mathlib.Data.Set.Basic
import Mathlib.Data.List.Perm.Basic
import Mathlib.Tactic.Common

set_option autoImplicit false

/-! # Finite maps and the lists of pairs that hold them

A finite map says for a key which pair it has, if any. Keys are the same when a decided equivalence
says so, and the pair has the key that came first. A list of pairs holds a map when no two of its
keys are the same and its pairs are the map's, so it may be put in any order.

A map may be held in buckets, lists of pairs, each key in the bucket its place is. What an
operation does to the one bucket it does to the map. -/

namespace FiniteMap

variable {K V : Type*}

/-- What a finite map has for each key: the key as it came first, and the value. -/
abbrev Map (K V : Type*) := K → Option (K × V)

/-- The keys' comparison is an equivalence. -/
structure Same (same : K → K → Bool) : Prop where
  refl : ∀ a, same a a
  symm : ∀ {a b}, same a b → same b a
  trans : ∀ {a b c}, same a b → same b c → same a c

section Maps

variable (same : K → K → Bool)

def Map.empty : Map K V := fun _ => none

/-- The value of a key. -/
def Map.find (m : Map K V) (k : K) : Option V := (m k).map Prod.snd

/-- A key that is there keeps the key it came with. -/
def Map.put (m : Map K V) (k : K) (v : V) : Map K V :=
  fun x => if same k x then some ((m k).elim k Prod.fst, v) else m x

def Map.drop (m : Map K V) (k : K) : Map K V := fun x => if same k x then none else m x

/-- The pairs of a map. -/
def Map.pairs (m : Map K V) : Set (K × V) := {p | m p.1 = some p}

end Maps

/-! ## Lists of pairs -/

/-- The list has the pairs of the map, and no key twice. -/
structure Holds (same : K → K → Bool) (l : List (K × V)) (m : Map K V) : Prop where
  apart : l.Pairwise (fun p q => ¬ same p.1 q.1)
  look : ∀ k p, m k = some p ↔ p ∈ l ∧ same p.1 k

section Holds

variable {same : K → K → Bool} {l l' : List (K × V)} {m : Map K V}

theorem Holds.nil : Holds same ([] : List (K × V)) Map.empty :=
  ⟨List.Pairwise.nil, by simp [Map.empty]⟩

theorem Holds.look_none (h : Holds same l m) (k : K) :
    m k = none ↔ ∀ p ∈ l, ¬ same p.1 k := by
  constructor
  · intro hk p hp hs
    have := (h.look k p).2 ⟨hp, hs⟩
    simp [hk] at this
  · intro hk
    cases hm : m k with
    | none => rfl
    | some p => exact absurd ((h.look k p).1 hm).2 (hk p ((h.look k p).1 hm).1)

variable (hsame : Same same)
include hsame

/-- The order of the pairs says nothing. -/
theorem Holds.perm (h : Holds same l m) (hp : l.Perm l') : Holds same l' m where
  apart := (hp.pairwise_iff (fun hab hba => hab (hsame.symm hba))).1 h.apart
  look k p := by rw [h.look k p, hp.mem_iff]

theorem Holds.mem_pairs (h : Holds same l m) (p : K × V) : p ∈ m.pairs ↔ p ∈ l := by
  rw [Map.pairs, Set.mem_ofPred_eq, h.look]
  exact and_iff_left (hsame.refl p.1)

theorem Holds.nodup (h : Holds same l m) : l.Nodup :=
  List.nodup_iff_pairwise_ne.2
    (h.apart.imp (fun {p q} hpq he => hpq (by rw [← he]; exact hsame.refl p.1)))

/-- A key with no pair gets one. -/
theorem Holds.put_new (h : Holds same l m) {k : K} (hk : m k = none) (v : V) :
    Holds same ((k, v) :: l) (m.put same k v) where
  apart := by
    refine List.pairwise_cons.2 ⟨fun p hp hs => ?_, h.apart⟩
    exact (h.look_none k).1 hk p hp (hsame.symm hs)
  look x p := by
    rw [Map.put, hk, List.mem_cons]
    by_cases hx : same k x
    · rw [if_pos hx, Option.elim_none, Option.some_inj]
      constructor
      · rintro rfl
        exact ⟨Or.inl rfl, hx⟩
      · rintro ⟨rfl | hp, hpx⟩
        · rfl
        · exact absurd (hsame.trans hpx (hsame.symm hx)) ((h.look_none k).1 hk p hp)
    · rw [if_neg hx, h.look]
      constructor
      · exact fun hp => ⟨Or.inr hp.1, hp.2⟩
      · rintro ⟨rfl | hp, hpx⟩
        · exact absurd hpx hx
        · exact ⟨hp, hpx⟩

/-- What has the key in front: the rest has no pair of a same key. -/
theorem Holds.rest_apart {k k' : K} {w : V} (h : Holds same ((k', w) :: l) m) (hk : same k' k) :
    ∀ p ∈ l, ¬ same p.1 k := fun p hp hs =>
  (List.pairwise_cons.1 h.apart).1 p hp (hsame.trans hk (hsame.symm hs))

/-- A key with a pair keeps its key and gets the value. -/
theorem Holds.put_old {k k' : K} {w : V} (h : Holds same ((k', w) :: l) m) (hk : same k' k)
    (v : V) : Holds same ((k', v) :: l) (m.put same k v) where
  apart := List.pairwise_cons.2 (List.pairwise_cons.1 h.apart)
  look x p := by
    have hmk : m k = some (k', w) := (h.look k _).2 ⟨List.mem_cons_self, hk⟩
    rw [Map.put, hmk, List.mem_cons]
    by_cases hx : same k x
    · rw [if_pos hx, Option.elim_some, Option.some_inj]
      constructor
      · rintro rfl
        exact ⟨Or.inl rfl, hsame.trans hk hx⟩
      · rintro ⟨rfl | hp, hpx⟩
        · rfl
        · exact absurd (hsame.trans hpx (hsame.symm hx)) (h.rest_apart hsame hk p hp)
    · rw [if_neg hx, h.look, List.mem_cons]
      have hx' : ¬ same k' x := fun hs => hx (hsame.trans (hsame.symm hk) hs)
      constructor
      · rintro ⟨rfl | hp, hpx⟩
        · exact absurd hpx hx'
        · exact ⟨Or.inr hp, hpx⟩
      · rintro ⟨rfl | hp, hpx⟩
        · exact absurd hpx hx'
        · exact ⟨Or.inr hp, hpx⟩

/-- A key's pair goes. -/
theorem Holds.drop_old {k k' : K} {w : V} (h : Holds same ((k', w) :: l) m) (hk : same k' k) :
    Holds same l (m.drop same k) where
  apart := (List.pairwise_cons.1 h.apart).2
  look x p := by
    rw [Map.drop]
    by_cases hx : same k x
    · rw [if_pos hx]
      constructor
      · intro hp
        cases hp
      · rintro ⟨hp, hpx⟩
        exact absurd (hsame.trans hpx (hsame.symm hx)) (h.rest_apart hsame hk p hp)
    · rw [if_neg hx, h.look, List.mem_cons]
      constructor
      · rintro ⟨rfl | hp, hpx⟩
        · exact absurd (hsame.trans (hsame.symm hk) hpx) hx
        · exact ⟨hp, hpx⟩
      · exact fun hp => ⟨Or.inr hp.1, hp.2⟩

/-- A key with no pair has none to go. -/
theorem Holds.drop_none (h : Holds same l m) {k : K} (hk : m k = none) : m.drop same k = m := by
  funext x
  rw [Map.drop]
  by_cases hx : same k x
  · rw [if_pos hx, eq_comm, h.look_none]
    exact fun p hp hs => (h.look_none k).1 hk p hp (hsame.trans hs (hsame.symm hx))
  · rw [if_neg hx]

/-- The value a key has, put again. -/
theorem Holds.put_same (h : Holds same l m) {k : K} {v : V} (hk : m.find k = some v) :
    m.put same k v = m := by
  obtain ⟨p, hp, rfl⟩ := Option.map_eq_some_iff.1 hk
  funext x
  rw [Map.put, hp, Option.elim_some]
  by_cases hx : same k x
  · rw [if_pos hx, eq_comm, h.look]
    have hkp := (h.look k p).1 hp
    exact ⟨hkp.1, hsame.trans hkp.2 hx⟩
  · rw [if_neg hx]

omit hsame in
/-- A list holds one map. -/
theorem Holds.unique {m' : Map K V} (h : Holds same l m) (h' : Holds same l m') : m = m' := by
  funext k
  exact Option.ext (fun p => by rw [h.look k p, h'.look k p])

/-- The pairs put one by one are the map. -/
theorem Holds.foldl_put (h : Holds same l m) :
    l.foldl (fun m p => m.put same p.1 p.2) Map.empty = m := by
  have hfold : ∀ (l done : List (K × V)) (m₀ : Map K V), Holds same done m₀ →
      (done ++ l).Pairwise (fun p q => ¬ same p.1 q.1) →
      Holds same (l.reverse ++ done) (l.foldl (fun m p => m.put same p.1 p.2) m₀) := by
    intro l
    induction l with
    | nil => exact fun done m₀ h₀ _ => h₀
    | cons p l ih =>
        intro done m₀ h₀ hpair
        have hp : m₀ p.1 = none := by
          refine (h₀.look_none p.1).2 (fun q hq => ?_)
          exact (List.pairwise_append.1 hpair).2.2 q hq p List.mem_cons_self
        rw [List.foldl_cons, List.reverse_cons, List.append_assoc]
        refine ih (p :: done) _ (h₀.put_new hsame hp p.2) ?_
        have hperm : (done ++ p :: l).Perm (p :: done ++ l) := List.perm_middle
        exact (hperm.pairwise_iff (fun hab hba => hab (hsame.symm hba))).1 hpair
  have hl := hfold l [] Map.empty Holds.nil (by rw [List.nil_append]; exact h.apart)
  rw [List.append_nil] at hl
  exact (hl.perm hsame l.reverse_perm).unique h

end Holds

/-! ## One list searched, put to and erased from -/

/-- What a search of a list for a key comes back with: a place that has the key, or none as no
    place has. -/
def Found (same : K → K → Bool) (b : List (K × V)) (k : K) : Option ℕ → Prop
  | some i => ∃ p, b[i]? = some p ∧ same p.1 k
  | none => ∀ p ∈ b, ¬ same p.1 k

theorem found_lt {same : K → K → Bool} {b : List (K × V)} {k : K} {i : ℕ}
    (h : Found same b k (some i)) : i < b.length := by
  obtain ⟨p, hp, -⟩ := h
  exact (List.getElem?_eq_some_iff.1 hp).1

/-- The first place of the key is a search. -/
theorem found_findIdx? {same : K → K → Bool} {test : K × V → Bool} {b : List (K × V)} {k : K}
    (h : ∀ p ∈ b, test p = same p.1 k) : Found same b k (b.findIdx? test) := by
  cases hr : b.findIdx? test with
  | none =>
      intro p hp hs
      rw [List.findIdx?_eq_none_iff] at hr
      rw [← h p hp, hr p hp] at hs
      cases hs
  | some i =>
      obtain ⟨hi, htest, -⟩ := List.findIdx?_eq_some_iff_getElem.1 hr
      exact ⟨b[i], List.getElem?_eq_getElem hi, by rw [← h _ (List.getElem_mem hi)]; exact htest⟩

/-- A new pair at the end, or a new value at the place of the key. -/
def putAt (b : List (K × V)) (k : K) (v : V) : Option ℕ → List (K × V)
  | some i => b.modify i (fun p => (p.1, v))
  | none => b ++ [(k, v)]

/-- The last pair put in the place, and the end let go of. -/
def swapOut {α : Type*} (b : List α) (i : ℕ) : List α :=
  b.getLast?.elim b (fun q => (b.set i q).dropLast)

def dropAt (b : List (K × V)) : Option ℕ → List (K × V)
  | some i => swapOut b i
  | none => b

theorem perm_cons_eraseIdx {α : Type*} {b : List α} {i : ℕ} {p : α} (h : b[i]? = some p) :
    b.Perm (p :: b.eraseIdx i) := by
  obtain ⟨hi, rfl⟩ := List.getElem?_eq_some_iff.1 h
  exact (List.getElem_cons_eraseIdx_perm hi).symm

theorem set_perm_cons_eraseIdx {α : Type*} {b : List α} {i : ℕ} (hi : i < b.length) (q : α) :
    (b.set i q).Perm (q :: b.eraseIdx i) := by
  have h := perm_cons_eraseIdx (b := b.set i q) (i := i) (p := q) (by simp [hi])
  rwa [List.eraseIdx_set_eq] at h

theorem swapOut_perm {α : Type*} {b : List α} {i : ℕ} (hi : i < b.length) :
    (swapOut b i).Perm (b.eraseIdx i) := by
  obtain ⟨c, q, rfl⟩ := List.eq_nil_or_concat b |>.resolve_left (by rintro rfl; simp at hi)
  rw [List.concat_eq_append] at *
  rw [swapOut, List.getLast?_concat, Option.elim_some]
  rcases Nat.lt_or_ge i c.length with hc | hc
  · rw [List.set_append_left _ _ hc, List.dropLast_concat, List.eraseIdx_append_of_lt_length hc]
    exact (set_perm_cons_eraseIdx hc q).trans (List.perm_append_singleton q _).symm
  · have hic : i = c.length := by
      rw [List.length_append, List.length_singleton] at hi
      omega
    subst hic
    rw [List.set_append_right _ _ le_rfl, Nat.sub_self, List.set_cons_zero, List.dropLast_concat,
      List.eraseIdx_append_of_length_le le_rfl, Nat.sub_self, List.eraseIdx_cons_zero,
      List.append_nil]

/-! ## Maps held in buckets -/

theorem flatten_perm {α : Type*} {bs : List (List α)} {j : ℕ} {b : List α} (h : bs[j]? = some b) :
    bs.flatten.Perm (b ++ (bs.eraseIdx j).flatten) := by
  have := (perm_cons_eraseIdx h).flatten
  rwa [List.flatten_cons] at this

theorem flatten_set_perm {α : Type*} {bs : List (List α)} {j : ℕ} (h : j < bs.length)
    (b : List α) : (bs.set j b).flatten.Perm (b ++ (bs.eraseIdx j).flatten) := by
  have := (set_perm_cons_eraseIdx h b).flatten
  rwa [List.flatten_cons] at this

/-- The buckets have the pairs of the map, each in the bucket its key's place is. -/
structure Kept (same : K → K → Bool) (place : K → Option ℕ) (bs : List (List (K × V)))
    (m : Map K V) : Prop where
  holds : Holds same bs.flatten m
  placed : ∀ j b, bs[j]? = some b → ∀ p ∈ b, place p.1 = some j

section Kept

variable {same : K → K → Bool} {place : K → Option ℕ} {bs : List (List (K × V))} {m : Map K V}

/-- A key is put in a bucket, and no pair of a same key is in another. -/
structure Goes (same : K → K → Bool) (place : K → Option ℕ) (bs : List (List (K × V))) (k : K)
    (j : ℕ) : Prop where
  here : place k = some j
  agree : ∀ p ∈ bs.flatten, same p.1 k → place p.1 = some j

theorem Kept.mem_bucket (h : Kept same place bs m) {j : ℕ} {b : List (K × V)}
    (hb : bs[j]? = some b) {p : K × V} (hp : p ∈ bs.flatten) (hpj : place p.1 = some j) :
    p ∈ b := by
  obtain ⟨c, hc, hpc⟩ := List.mem_flatten.1 hp
  obtain ⟨i, hi⟩ := List.mem_iff_getElem?.1 hc
  have hij : i = j := by
    have := h.placed i c hi p hpc
    rw [hpj, Option.some_inj] at this
    exact this.symm
  rw [hij, hb, Option.some_inj] at hi
  rwa [hi]

/-- The bucket a key goes to says all there is of the key. -/
theorem Kept.look (h : Kept same place bs m) {k : K} {j : ℕ} (hk : Goes same place bs k j)
    {b : List (K × V)} (hb : bs[j]? = some b) (p : K × V) :
    m k = some p ↔ p ∈ b ∧ same p.1 k := by
  rw [h.holds.look]
  constructor
  · exact fun hp => ⟨h.mem_bucket hb hp.1 (hk.agree p hp.1 hp.2), hp.2⟩
  · exact fun hp => ⟨List.mem_flatten.2 ⟨b, List.mem_of_getElem? hb, hp.1⟩, hp.2⟩

theorem Kept.look_found (h : Kept same place bs m) {k : K} {j : ℕ} (hk : Goes same place bs k j)
    {b : List (K × V)} (hb : bs[j]? = some b) {r : Option ℕ} (hr : Found same b k r) :
    m k = r.bind (fun i => b[i]?) := by
  cases r with
  | none =>
      rw [Option.bind_none]
      cases hm : m k with
      | none => rfl
      | some p =>
          have := (h.look hk hb p).1 hm
          exact absurd this.2 (hr p this.1)
  | some i =>
      obtain ⟨p, hp, hs⟩ := hr
      rw [Option.bind_some, hp]
      exact (h.look hk hb p).2 ⟨List.mem_of_getElem? hp, hs⟩

/-- Another bucket in the one's place, of keys that go there. -/
theorem placed_set {j : ℕ} {b : List (K × V)}
    (h : ∀ j b, bs[j]? = some b → ∀ p ∈ b, place p.1 = some j)
    (hb : ∀ p ∈ b, place p.1 = some j) :
    ∀ i c, (bs.set j b)[i]? = some c → ∀ p ∈ c, place p.1 = some i := by
  intro i c hc p hp
  rw [List.getElem?_set] at hc
  by_cases hij : j = i
  · subst hij
    rw [if_pos rfl] at hc
    split at hc
    · cases hc
      exact hb p hp
    · cases hc
  · rw [if_neg hij] at hc
    exact h i c hc p hp

variable (hsame : Same same)
include hsame

/-- A value put for a key, where the search of the key's bucket says. -/
theorem Kept.put (h : Kept same place bs m) {k : K} {j : ℕ} (hk : Goes same place bs k j)
    {b : List (K × V)} (hb : bs[j]? = some b) {r : Option ℕ} (hr : Found same b k r) (v : V) :
    Kept same place (bs.set j (putAt b k v r)) (m.put same k v) := by
  have hj : j < bs.length := (List.getElem?_eq_some_iff.1 hb).1
  have hmk := h.look_found hk hb hr
  have hold := h.placed j b hb
  cases r with
  | none =>
      have hperm : (bs.set j (b ++ [(k, v)])).flatten.Perm ((k, v) :: bs.flatten) := by
        refine (flatten_set_perm hj _).trans ?_
        rw [List.append_assoc, List.singleton_append]
        exact List.perm_middle.trans ((flatten_perm hb).symm.cons _)
      refine ⟨(h.holds.put_new hsame hmk v).perm hsame hperm.symm, placed_set h.placed ?_⟩
      intro p hp
      rcases List.mem_append.1 hp with hp | hp
      · exact hold p hp
      · rw [List.mem_singleton.1 hp]
        exact hk.here
  | some i =>
      obtain ⟨⟨k', w⟩, hp, hs⟩ := hr
      have hi : i < b.length := (List.getElem?_eq_some_iff.1 hp).1
      have hset : b.modify i (fun p => (p.1, v)) = b.set i (k', v) := by
        rw [List.modify_eq_set_getElem?, hp]
        rfl
      have hwas : bs.flatten.Perm ((k', w) :: (b.eraseIdx i ++ (bs.eraseIdx j).flatten)) :=
        (flatten_perm hb).trans ((perm_cons_eraseIdx hp).append_right _)
      have hnow : (bs.set j (b.set i (k', v))).flatten.Perm
          ((k', v) :: (b.eraseIdx i ++ (bs.eraseIdx j).flatten)) :=
        (flatten_set_perm hj _).trans ((set_perm_cons_eraseIdx hi _).append_right _)
      rw [putAt, hset]
      refine ⟨((h.holds.perm hsame hwas).put_old hsame hs v).perm hsame hnow.symm,
        placed_set h.placed ?_⟩
      intro p hp'
      rcases List.mem_or_eq_of_mem_set hp' with hp' | rfl
      · exact hold p hp'
      · exact hold (k', w) (List.mem_of_getElem? hp)

/-- A key's pair let go of, where the search of the key's bucket says. -/
theorem Kept.drop (h : Kept same place bs m) {k : K} {j : ℕ} (hk : Goes same place bs k j)
    {b : List (K × V)} (hb : bs[j]? = some b) {r : Option ℕ} (hr : Found same b k r) :
    Kept same place (bs.set j (dropAt b r)) (m.drop same k) := by
  have hj : j < bs.length := (List.getElem?_eq_some_iff.1 hb).1
  cases r with
  | none =>
      have hmk : m k = none := h.look_found hk hb hr
      have hset : bs.set j b = bs := by
        obtain ⟨_, rfl⟩ := List.getElem?_eq_some_iff.1 hb
        exact List.set_getElem_self hj
      rw [dropAt, hset, h.holds.drop_none hsame hmk]
      exact h
  | some i =>
      obtain ⟨⟨k', w⟩, hp, hs⟩ := hr
      have hi : i < b.length := (List.getElem?_eq_some_iff.1 hp).1
      have hwas : bs.flatten.Perm ((k', w) :: (b.eraseIdx i ++ (bs.eraseIdx j).flatten)) :=
        (flatten_perm hb).trans ((perm_cons_eraseIdx hp).append_right _)
      have hnow : (bs.set j (swapOut b i)).flatten.Perm
          (b.eraseIdx i ++ (bs.eraseIdx j).flatten) :=
        (flatten_set_perm hj _).trans ((swapOut_perm hi).append_right _)
      refine ⟨((h.holds.perm hsame hwas).drop_old hsame hs).perm hsame hnow.symm,
        placed_set h.placed ?_⟩
      intro p hp'
      exact h.placed j b hb p (List.mem_of_mem_eraseIdx ((swapOut_perm hi).mem_iff.1 hp'))

end Kept

/-! ## Buckets filled from a list -/

/-- The buckets have the pairs of the list, each where its key's place is. -/
structure Filled (place : K → Option ℕ) (bs : List (List (K × V))) (l : List (K × V)) : Prop where
  perm : bs.flatten.Perm l
  placed : ∀ j b, bs[j]? = some b → ∀ p ∈ b, place p.1 = some j

section Filled

variable {place : K → Option ℕ} {bs : List (List (K × V))} {l : List (K × V)}

theorem filled_replicate (place : K → Option ℕ) (n : ℕ) :
    Filled place (List.replicate n ([] : List (K × V))) [] where
  perm := by simp
  placed j b hb p hp := by
    rw [List.eq_of_mem_replicate (List.mem_of_getElem? hb)] at hp
    exact absurd hp List.not_mem_nil

/-- One more pair, at the end of the bucket it goes to. -/
theorem Filled.push (h : Filled place bs l) {p : K × V} {j : ℕ} {b : List (K × V)}
    (hj : place p.1 = some j) (hb : bs[j]? = some b) :
    Filled place (bs.set j (b ++ [p])) (p :: l) where
  perm := by
    refine (flatten_set_perm (List.getElem?_eq_some_iff.1 hb).1 _).trans ?_
    rw [List.append_assoc, List.singleton_append]
    exact List.perm_middle.trans ((((flatten_perm hb).symm).trans h.perm).cons _)
  placed := by
    refine placed_set h.placed (fun q hq => ?_)
    rcases List.mem_append.1 hq with hq | hq
    · exact h.placed j b hb q hq
    · rw [List.mem_singleton.1 hq]
      exact hj

/-- Pairs of keys that all differ put one by one, each at the end of its bucket. -/
theorem Filled.fold {same : K → K → Bool} {σ : Type*} {f : σ → K × V → Option σ}
    {R : σ → List (List (K × V)) → Prop}
    (hf : ∀ s bs p j b, R s bs → (∀ q ∈ bs.flatten, ¬ same q.1 p.1) → place p.1 = some j →
      bs[j]? = some b → ∃ s', f s p = some s' ∧ R s' (bs.set j (b ++ [p])))
    {done : List (K × V)} {s : σ} (hs : R s bs) (h : Filled place bs done)
    (hl : l.Pairwise (fun p q => ¬ same p.1 q.1)) (hdone : ∀ q ∈ done, ∀ p ∈ l, ¬ same q.1 p.1)
    (hplace : ∀ p ∈ l, ∃ j < bs.length, place p.1 = some j) :
    ∃ s' bs', l.foldlM f s = some s' ∧ R s' bs' ∧ bs'.length = bs.length ∧
      Filled place bs' (l.reverse ++ done) := by
  induction l generalizing s bs done with
  | nil => exact ⟨s, bs, rfl, hs, rfl, h⟩
  | cons p l ih =>
      obtain ⟨j, hlt, hj⟩ := hplace p List.mem_cons_self
      have hb : bs[j]? = some bs[j] := List.getElem?_eq_getElem hlt
      have hnew : ∀ q ∈ bs.flatten, ¬ same q.1 p.1 := fun q hq =>
        hdone q (h.perm.mem_iff.1 hq) p List.mem_cons_self
      obtain ⟨s₁, hstep, hs₁⟩ := hf s bs p j bs[j] hs hnew hj hb
      rw [List.pairwise_cons] at hl
      have hdone₁ : ∀ q ∈ p :: done, ∀ x ∈ l, ¬ same q.1 x.1 := by
        intro q hq x hx
        rcases List.mem_cons.1 hq with rfl | hq
        · exact hl.1 x hx
        · exact hdone q hq x (List.mem_cons_of_mem _ hx)
      obtain ⟨s₂, bs₂, hfold, hs₂, hlen, hfilled⟩ := ih hs₁ (h.push hj hb) hl.2 hdone₁
        (fun x hx => by
          rw [List.length_set]
          exact hplace x (List.mem_cons_of_mem _ hx))
      refine ⟨s₂, bs₂, ?_, hs₂, by rw [hlen, List.length_set], ?_⟩
      · rw [List.foldlM_cons, hstep, Option.bind_eq_bind, Option.bind_some, hfold]
      · rw [List.reverse_cons, List.append_assoc]
        exact hfilled

theorem Filled.kept {same : K → K → Bool} (hsame : Same same) {m : Map K V} {l' : List (K × V)}
    (h : Filled place bs l) (hl : Holds same l' m) (hp : l.Perm l') : Kept same place bs m :=
  ⟨hl.perm hsame (h.perm.trans hp).symm, h.placed⟩

end Filled

end FiniteMap
