import ChrysaLisp.Lisp.Text
import ChrysaLisp.Storage.Share

set_option autoImplicit false

/-! # The members that are to keep a block, and what is remembered of them

`(store-holders store name among copies)` with what it keeps of its answers: the order of the
members for a block, for as long as it is asked of the same members, which are known by their ids
with spaces between. So the ids have none, and are not empty: they are the system ids of machines,
in hex.

Where no two members come to the same hash the order is of the set of them (`rank_eq_of_perm`), and
one member more is one place more in it (`rank_cons`), whose coming in moves the last of the holders
out and no other (`ByOne`). -/

namespace ChrysaLisp

/-! ## What is remembered -/

/-- Of which members, and of each block the order of them. -/
structure Kept where
  key : Str
  orders : AList (fun _ : Str => List Str)

/-- What is asked: of a store as it is then, of a block, of the members or of those given, and of
    how many copies, 0 where that is not said. -/
structure Asked where
  store : Keeper
  name : Str
  among : Option (List Str)
  copies : ℕ

namespace Asked

variable (sha256 : Str → Str) (asked : Asked)

/-- Those it is asked of. -/
def members : List Str := asked.among.getD asked.store.memberList

/-- What is remembered of those members, nothing where it was of others. -/
def keptOf (kept : Option Kept) : Kept :=
  let key := join asked.members (asc " ")
  match kept with
  | some k => if k.key = key then k else ⟨key, ∅⟩
  | none => ⟨key, ∅⟩

/-- `(store-holders store name among copies)`, and what is remembered after. -/
def holders (kept : Option Kept) : List Str × Kept :=
  let copies := if 0 < asked.copies then asked.copies else asked.store.copies
  let kept := asked.keptOf kept
  match kept.orders.lookup asked.name with
  | some order => (order.take (min copies order.length), kept)
  | none =>
      let order := storeRank sha256 asked.name asked.members asked.members.length
      (order.take (min copies order.length), { kept with orders := kept.orders.insert asked.name order })

/-- The answers to what is asked, one after another. -/
def answers : Option Kept → List Asked → List (List Str)
  | _, [] => []
  | kept, asked :: later =>
      (asked.holders sha256 kept).1 :: answers (some (asked.holders sha256 kept).2) later

end Asked

section Remembered

variable {sha256 : Str → Str}

/-- Ids that can be known apart in a text of them. -/
def Ids (among : List Str) : Prop := ∀ who ∈ among, Part 32 who

/-- What is remembered is what is worked out. -/
structure Kept.Sound (sha256 : Str → Str) (kept : Kept) : Prop where
  exists_among : ∃ among, Ids among ∧ kept.key = join among (asc " ") ∧
    ∀ name order, kept.orders.lookup name = some order → order = storeRank sha256 name among among.length

/-- Two lists of ids are told apart by their texts. -/
theorem join_inj {among among' : List Str} (h : Ids among) (h' : Ids among')
    (heq : join among (asc " ") = join among' (asc " ")) : among = among' := by
  have hsplit := congrArg (fun s => split s 32) heq
  have hone : split (join among [32]) 32 = among := split_join h
  have hother : split (join among' [32]) 32 = among' := split_join h'
  exact hone.symm.trans (hsplit.trans hother)

/-- What is remembered of the members that are asked of is of them. -/
theorem Asked.keptOf_sound {asked : Asked} {kept : Option Kept} (hids : Ids asked.members)
    (h : ∀ k ∈ kept, k.Sound sha256) :
    (asked.keptOf kept).key = join asked.members (asc " ") ∧ ∀ name order,
      (asked.keptOf kept).orders.lookup name = some order →
        order = storeRank sha256 name asked.members asked.members.length := by
  unfold Asked.keptOf
  cases kept with
  | none =>
      refine ⟨rfl, ?_⟩
      intro name order hlookup
      exact absurd hlookup (by simp)
  | some k =>
      by_cases hkey : k.key = join asked.members (asc " ")
      · obtain ⟨among, hamong, hkeyed, horders⟩ := (h k rfl).exists_among
        obtain rfl := join_inj hamong hids (hkeyed.symm.trans hkey)
        simp only [if_pos hkey]
        exact ⟨hkey, horders⟩
      · simp only [if_neg hkey]
        refine ⟨trivial, ?_⟩
        intro name order hlookup
        exact absurd hlookup (by simp)

/-- One answer is what is worked out, and so is what is remembered after it. -/
theorem Asked.holders_sound {asked : Asked} {kept : Option Kept} (hids : Ids asked.members)
    (h : ∀ k ∈ kept, k.Sound sha256) :
    (asked.holders sha256 kept).1 = asked.store.holders sha256 asked.name asked.members asked.copies ∧
      (asked.holders sha256 kept).2.Sound sha256 := by
  obtain ⟨hkey, horders⟩ := asked.keptOf_sound hids h
  unfold Asked.holders Keeper.holders
  cases hlookup : (asked.keptOf kept).orders.lookup asked.name with
  | some order =>
      simp only [hlookup]
      rw [horders _ _ hlookup]
      exact ⟨rfl, asked.members, hids, hkey, horders⟩
  | none =>
      simp only [hlookup]
      refine ⟨trivial, asked.members, hids, hkey, ?_⟩
      intro name order hin
      simp only at hin
      by_cases hname : name = asked.name
      · rw [hname, AList.lookup_insert] at hin
        rw [hname, ← Option.some.inj hin]
      · rw [AList.lookup_insert_ne hname] at hin
        exact horders _ _ hin

theorem Asked.answers_eq (run : List Asked) (hids : ∀ asked ∈ run, Ids asked.members) {kept : Option Kept}
    (h : ∀ k ∈ kept, k.Sound sha256) : Asked.answers sha256 kept run =
      run.map fun asked => asked.store.holders sha256 asked.name asked.members asked.copies := by
  induction run generalizing kept with
  | nil => rfl
  | cons asked run ih =>
      obtain ⟨hanswer, hafter⟩ := asked.holders_sound (hids asked List.mem_cons_self) h
      rw [Asked.answers, List.map_cons, hanswer, ih (fun a ha => hids a (List.mem_cons_of_mem _ ha))]
      intro k hk
      rw [← Option.some.inj hk]
      exact hafter

end Remembered

/-! ## The order of a block -/

section Order

variable {sha256 : Str → Str} {name who : Str} {among among' : List Str}

/-- No two of them come to the same hash with the name. -/
def Apart (sha256 : Str → Str) (name : Str) (among : List Str) : Prop :=
  ∀ a ∈ among, ∀ b ∈ among, sha256 (name ++ a) = sha256 (name ++ b) → a = b

/-- The whole order of a block. -/
def rank (sha256 : Str → Str) (name : Str) (among : List Str) : List Str :=
  storeRank sha256 name among among.length

theorem rank_eq_map : rank sha256 name among =
    ((among.map fun who => (sha256 (name ++ who), who)).insertionSort fun a b => b.1 ≤ a.1).map Prod.snd := by
  unfold rank storeRank
  simp only [List.length_insertionSort, List.length_map, min_self]
  rw [List.take_of_length_le (by simp)]

theorem rank_perm : (rank sha256 name among).Perm among := by
  rw [rank_eq_map]
  have hperm := (List.perm_insertionSort (fun a b : Str × Str => b.1 ≤ a.1)
    (among.map fun who => (sha256 (name ++ who), who))).map Prod.snd
  rwa [List.map_map, Function.comp_def, List.map_id'] at hperm

theorem pairwise_rank :
    (rank sha256 name among).Pairwise fun a b => sha256 (name ++ b) ≤ sha256 (name ++ a) := by
  set rel : Str × Str → Str × Str → Prop := fun a b => b.1 ≤ a.1 with hrel
  have : Std.Total rel := ⟨fun a b => le_total b.1 a.1⟩
  have : IsTrans (Str × Str) rel := ⟨fun _ _ _ h h' => le_trans h' h⟩
  have hsorted := List.pairwise_insertionSort rel (among.map fun who => (sha256 (name ++ who), who))
  rw [rank_eq_map, List.pairwise_map]
  refine hsorted.imp_of_mem ?_
  intro p q hp hq hle
  obtain ⟨a, -, rfl⟩ := List.mem_map.mp ((List.mem_insertionSort rel).mp hp)
  obtain ⟨b, -, rfl⟩ := List.mem_map.mp ((List.mem_insertionSort rel).mp hq)
  exact hle

/-- The order is the only one there is by the hashes. -/
theorem rank_unique (hapart : Apart sha256 name among) {order : List Str} (hperm : order.Perm among)
    (hsorted : order.Pairwise fun a b => sha256 (name ++ b) ≤ sha256 (name ++ a)) :
    order = rank sha256 name among := by
  refine List.Perm.eq_of_pairwise ?_ hsorted pairwise_rank (hperm.trans rank_perm.symm)
  intro a b ha hb hle hge
  exact hapart a (hperm.mem_iff.mp ha) b (rank_perm.mem_iff.mp hb) (le_antisymm hge hle)

theorem rank_eq_of_perm (hapart : Apart sha256 name among) (hperm : among'.Perm among) :
    rank sha256 name among' = rank sha256 name among :=
  rank_unique hapart (rank_perm.trans hperm) pairwise_rank

/-- One more is one place more. -/
theorem rank_cons (hapart : Apart sha256 name (who :: among)) :
    ∃ before after, rank sha256 name (who :: among) = before ++ who :: after ∧
      rank sha256 name among = before ++ after := by
  have hmem : who ∈ rank sha256 name (who :: among) := rank_perm.mem_iff.mpr List.mem_cons_self
  obtain ⟨before, after, horder⟩ := List.append_of_mem hmem
  refine ⟨before, after, horder, ?_⟩
  have hperm : (before ++ who :: after).Perm (who :: among) := horder ▸ rank_perm
  have hsorted : (before ++ who :: after).Pairwise fun a b => sha256 (name ++ b) ≤ sha256 (name ++ a) :=
    horder ▸ pairwise_rank
  refine (rank_unique ?_ ?_ (hsorted.sublist ?_)).symm
  · exact fun a ha b hb => hapart a (List.mem_cons_of_mem who ha) b (List.mem_cons_of_mem who hb)
  · exact (List.perm_middle.symm.trans hperm).cons_inv
  · exact List.Sublist.append_left (List.sublist_cons_self who after) before

end Order

/-! ## The holders -/

section Placed

variable {sha256 : Str → Str} {name who : Str} {among among' : List Str} {n : ℕ}

/-- The holders without a member, and with it: nothing is other if it is not one of them, and if it
    is it alone came in and no more than one went out. -/
structure ByOne (who : Str) (without withIt : List Str) : Prop where
  same : who ∉ withIt → withIt = without
  came : ∀ x ∈ withIt, x = who ∨ x ∈ without
  went : (without.filter fun x => decide (x ∉ withIt)).length ≤ 1

/-- One place more moves the last of the first so many out. -/
theorem byOne_take (before after : List Str) (n : ℕ) :
    ByOne who ((before ++ after).take n) ((before ++ who :: after).take n) := by
  rcases Nat.lt_or_ge before.length n with hlt | hge
  · obtain ⟨m, rfl⟩ : ∃ m, n = before.length + (m + 1) := ⟨n - before.length - 1, by omega⟩
    rw [List.take_length_add_append, List.take_length_add_append, List.take_succ_cons]
    refine ⟨fun hnot => absurd (by simp) hnot, ?_, ?_⟩
    · intro x hx
      rcases List.mem_append.mp hx with hx | hx
      · exact Or.inr (List.mem_append_left _ hx)
      · rcases List.mem_cons.mp hx with rfl | hx
        · exact Or.inl rfl
        · exact Or.inr (List.mem_append_right _ (List.take_subset_take_left after (Nat.le_succ m) hx))
    · -- all but what is at the last place are still among them
      rw [List.take_add_one, ← List.append_assoc, List.filter_append]
      have hkept : (before ++ after.take m).filter
        (fun x => decide (x ∉ before ++ who :: after.take m)) = [] := by
        rw [List.filter_eq_nil_iff]
        intro x hx
        rw [decide_eq_true_eq, not_not]
        rcases List.mem_append.mp hx with hx | hx
        · exact List.mem_append_left _ hx
        · exact List.mem_append_right _ (List.mem_cons_of_mem who hx)
      rw [hkept, List.nil_append]
      refine (List.length_filter_le _ _).trans ?_
      cases after[m]? with
      | none => exact Nat.zero_le 1
      | some x => exact le_rfl
  · rw [List.take_append_of_le_length hge, List.take_append_of_le_length hge]
    refine ⟨fun _ => rfl, fun x hx => Or.inr hx, ?_⟩
    rw [List.filter_eq_nil_iff.mpr]
    · exact Nat.zero_le 1
    · intro x hx
      rw [decide_eq_true_eq, not_not]
      exact hx

theorem Keeper.holders_eq_rank (store : Keeper) : store.holders sha256 name among n =
    (rank sha256 name among).take (if 0 < n then n else store.copies) := by
  unfold Keeper.holders rank
  simp only
  rw [List.take_eq_take_iff]
  omega

/-- What is asked of a run of members with proper ids is answered as it is worked out, whatever was
    remembered. Where no two come to the same hash, who keeps a block is of the set of the members,
    more copies add to those that keep it, and one member more, or one less, moves no other than
    that member and one for it. -/
theorem holders_placed (sha256 : Str → Str) (run : List Asked) (hids : ∀ asked ∈ run, Ids asked.members)
    (store : Keeper) (name : Str) (among : List Str) (hapart : Apart sha256 name among) :
    Asked.answers sha256 none run =
        run.map (fun asked => asked.store.holders sha256 asked.name asked.members asked.copies) ∧
      (∀ among', among'.Perm among →
        ∀ n, store.holders sha256 name among' n = store.holders sha256 name among n) ∧
      (∀ n, 0 < n → store.holders sha256 name among n <+: store.holders sha256 name among (n + 1)) ∧
      ∀ who, Apart sha256 name (who :: among) → ∀ n,
        ByOne who (store.holders sha256 name among n) (store.holders sha256 name (who :: among) n) := by
  refine ⟨Asked.answers_eq run hids fun k hk => absurd hk (by simp), ?_, ?_, ?_⟩
  · intro among' hperm n
    rw [store.holders_eq_rank, store.holders_eq_rank, rank_eq_of_perm hapart hperm]
  · intro n hn
    rw [store.holders_eq_rank, store.holders_eq_rank, if_pos hn, if_pos (Nat.succ_pos n)]
    exact List.take_prefix_take_left (Nat.le_succ n)
  · intro who hwho n
    obtain ⟨before, after, hwith, hwithout⟩ := rank_cons hwho
    rw [store.holders_eq_rank, store.holders_eq_rank, hwith, hwithout]
    exact byOne_take before after _

/-- A store that is of two copies. -/
def twoCopies : Keeper where
  member := asc "a"
  members := []
  retired := []
  pinned := ∅
  blockSize := 4096
  map := ∅
  digest := none
  copies := 2
  pins := []
  held := []
  plan := none

/-- It is asked of two of its members and then of its own, of which there are none. -/
def twoAsked : List Asked := [⟨twoCopies, asc "b", some [asc "a", asc "c"], 1⟩, ⟨twoCopies, asc "b", none, 0⟩]

/-- A block of two members and one more, and what was asked before. -/
theorem holders_placed_of_three :
    Asked.answers (fun s => s) none twoAsked = twoAsked.map
          (fun asked => asked.store.holders (fun s => s) asked.name asked.members asked.copies) ∧
      (∀ among', among'.Perm [asc "a", asc "c"] → ∀ n, twoCopies.holders (fun s => s) (asc "b") among' n =
        twoCopies.holders (fun s => s) (asc "b") [asc "a", asc "c"] n) ∧
      (∀ n, 0 < n → twoCopies.holders (fun s => s) (asc "b") [asc "a", asc "c"] n <+:
        twoCopies.holders (fun s => s) (asc "b") [asc "a", asc "c"] (n + 1)) ∧
      ∀ who, Apart (fun s => s) (asc "b") (who :: [asc "a", asc "c"]) → ∀ n,
        ByOne who (twoCopies.holders (fun s => s) (asc "b") [asc "a", asc "c"] n)
          (twoCopies.holders (fun s => s) (asc "b") (who :: [asc "a", asc "c"]) n) :=
  holders_placed (fun s => s) twoAsked
    (by
      have hall : ∀ asked ∈ twoAsked, ∀ who ∈ asked.members, Part 32 who := by decide
      exact hall)
    twoCopies (asc "b") [asc "a", asc "c"] fun _ _ _ _ heq => List.append_cancel_left heq

/-- Asked for no copies it answers for as many as the store is of, which is no part of what it
    answers for one; and of members whose ids have spaces in them it remembers what it was asked of
    others. -/
theorem holders_not_placed :
    (¬ ∃ sha256 : Str → Str, ∀ store name among n, among.Nodup →
        Keeper.holders sha256 store name among n <+: Keeper.holders sha256 store name among (n + 1)) ∧
      ¬ ∃ sha256 : Str → Str, ∀ run : List Asked, (∀ asked ∈ run, asked.members.Nodup) →
        Asked.answers sha256 none run =
          run.map fun asked => asked.store.holders sha256 asked.name asked.members asked.copies := by
  constructor
  · rintro ⟨sha256, h⟩
    have hprefix := (h twoCopies (asc "x") [asc "a", asc "b"] 0 (by decide)).length_le
    have hlen : (rank sha256 (asc "x") [asc "a", asc "b"]).length = 2 := rank_perm.length_eq
    rw [Keeper.holders_eq_rank, Keeper.holders_eq_rank, List.length_take, List.length_take, hlen] at hprefix
    exact absurd hprefix (by decide)
  · rintro ⟨sha256, h⟩
    have hrun := h [⟨twoCopies, asc "x", some [asc "a", asc "b"], 2⟩,
      ⟨twoCopies, asc "x", some [asc "a b"], 1⟩]
      (by
        intro asked hasked
        rcases List.mem_cons.mp hasked with rfl | hasked
        · exact (by decide : [asc "a", asc "b"].Nodup)
        · rw [List.mem_singleton.mp hasked]
          exact (by decide : [asc "a b"].Nodup))
    -- what is remembered of the two is what is answered of the one whose id is the text of theirs
    have hperm : (rank sha256 (asc "x") [asc "a", asc "b"]).Perm [asc "a", asc "b"] := rank_perm
    have hone : (rank sha256 (asc "x") [asc "a b"]).Perm [asc "a b"] := rank_perm
    set order := rank sha256 (asc "x") [asc "a", asc "b"] with horder
    have hkept : (Asked.holders sha256 ⟨twoCopies, asc "x", some [asc "a", asc "b"], 2⟩ none).2 =
        ⟨asc "a b", (∅ : AList fun _ : Str => List Str).insert (asc "x") order⟩ := rfl
    have hanswer : (Asked.holders sha256 ⟨twoCopies, asc "x", some [asc "a b"], 1⟩
        (some ⟨asc "a b", (∅ : AList fun _ : Str => List Str).insert (asc "x") order⟩)).1 =
          order.take (min 1 order.length) := by
      have hsame : Asked.keptOf ⟨twoCopies, asc "x", some [asc "a b"], 1⟩
          (some ⟨asc "a b", (∅ : AList fun _ : Str => List Str).insert (asc "x") order⟩) =
            ⟨asc "a b", (∅ : AList fun _ : Str => List Str).insert (asc "x") order⟩ := by
        unfold Asked.keptOf
        exact if_pos rfl
      unfold Asked.holders
      simp only [hsame, AList.lookup_insert, if_pos Nat.one_pos]
    have hmem : asc "a b" ∈ order.take (min 1 order.length) := by
      rw [← hanswer, ← hkept]
      have hsecond := (List.cons.inj (List.cons.inj hrun).2).1
      rw [hsecond]
      simp only
      rw [Keeper.holders_eq_rank, if_pos Nat.one_pos]
      change asc "a b" ∈ (rank sha256 (asc "x") [asc "a b"]).take 1
      have hlen : (rank sha256 (asc "x") [asc "a b"]).length ≤ 1 := hone.length_eq.le
      rw [List.take_of_length_le hlen]
      exact hone.mem_iff.mpr (by decide)
    exact absurd (hperm.mem_iff.mp (List.mem_of_mem_take hmem)) (by decide)

end Placed

end ChrysaLisp
