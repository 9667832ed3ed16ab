import ChrysaLisp.Storage.Store

set_option autoImplicit false

/-! # Who keeps a block, and what is a member's share

A block is kept by so many of the members, the first in an order that is the block's own: that of
the SHA-256 of its name and the member, the greatest first (`storeRank`). A member works out what
it is to keep, of the objects of its path map and among the members that are there (`Keeper.plan`),
and holds that as blocks come and go. Its share is what it is to keep and has not got, and what it
has that is others' to keep, each with who they are (`Keeper.share`).

What is others' is never left to nobody, and not to this member: those that are to keep it are the
first of the block's order, and this member is not of them (`Keeper.PlanSound`). So where the member
is itself among those that are there, all of them come before it (`outranked_of_mem`). -/

namespace ChrysaLisp

/-! ## Sets of names -/

/-- `(. set :insert name)` of an `Fset`. -/
def fsetInsert (set : List Str) (name : Str) : List Str :=
  if name ∈ set then set else set ++ [name]

/-- `(. set :erase name)` of an `Fset`. -/
def fsetErase (set : List Str) (name : Str) : List Str := set.filter (fun n => decide (n ≠ name))

@[simp] theorem mem_fsetInsert {set : List Str} {name n : Str} :
    n ∈ fsetInsert set name ↔ n ∈ set ∨ n = name := by
  unfold fsetInsert
  split
  next h => exact ⟨Or.inl, fun hn => hn.elim id (fun he => he ▸ h)⟩
  · simp

@[simp] theorem mem_fsetErase {set : List Str} {name n : Str} :
    n ∈ fsetErase set name ↔ n ∈ set ∧ n ≠ name := by
  simp [fsetErase]

/-! ## The order of a block -/

/-- `(store-rank name among copies)`: of those members, the ones that are to keep a block. -/
def storeRank (sha256 : Str → Str) (name : Str) (among : List Str) (copies : ℕ) : List Str :=
  let scored := (among.map (fun who => (sha256 (name ++ who), who))).insertionSort
    (fun a b => b.1 ≤ a.1)
  (scored.take (min copies scored.length)).map Prod.snd

section Rank

variable {sha256 : Str → Str} {name : Str} {among : List Str}

/-- To ask for fewer copies takes the last of those that keep a block away. -/
theorem take_storeRank (n : ℕ) :
    (storeRank sha256 name among among.length).take
        (min n (storeRank sha256 name among among.length).length)
      = storeRank sha256 name among n := by
  unfold storeRank
  simp [List.take_take, List.length_insertionSort]

/-- A member that is among those a block is ranked over, and is not of the first, comes after all
    of the first; and strictly, if it has not the same rank as another. -/
theorem outranked_of_mem {me : Str} (hme : me ∈ among)
    (htie : ∀ who ∈ among, sha256 (name ++ who) = sha256 (name ++ me) → who = me) {n : ℕ}
    (hnot : me ∉ storeRank sha256 name among n) {who : Str}
    (hwho : who ∈ storeRank sha256 name among n) : sha256 (name ++ me) < sha256 (name ++ who) := by
  set rel : Str × Str → Str × Str → Prop := fun a b => b.1 ≤ a.1 with hrel
  have : Std.Total rel := ⟨fun a b => le_total b.1 a.1⟩
  have : IsTrans (Str × Str) rel := ⟨fun _ _ _ h h' => le_trans h' h⟩
  set scored := (among.map (fun who => (sha256 (name ++ who), who))).insertionSort rel with hs
  have hmem : ∀ p, p ∈ scored ↔ p.2 ∈ among ∧ p.1 = sha256 (name ++ p.2) := by
    intro p
    rw [hs, List.mem_insertionSort, List.mem_map]
    constructor
    · rintro ⟨w, hw, rfl⟩
      exact ⟨hw, rfl⟩
    · rintro ⟨hp, he⟩
      exact ⟨p.2, hp, Prod.ext he.symm rfl⟩
  obtain ⟨p, hp, rfl⟩ := List.mem_map.1 hwho
  have hpm := (hmem p).1 (List.mem_of_mem_take hp)
  have hmine : (sha256 (name ++ me), me) ∈ scored := (hmem _).2 ⟨hme, rfl⟩
  have hdrop : (sha256 (name ++ me), me) ∈ scored.drop (min n scored.length) := by
    rw [← List.take_append_drop (min n scored.length) scored, List.mem_append] at hmine
    exact hmine.resolve_left (fun h => hnot (List.mem_map.2 ⟨_, h, rfl⟩))
  have hsorted : scored.Pairwise rel := List.pairwise_insertionSort rel _
  rw [← List.take_append_drop (min n scored.length) scored, List.pairwise_append] at hsorted
  have hle : sha256 (name ++ me) ≤ p.1 := hsorted.2.2 p hp _ hdrop
  rw [← hpm.2]
  refine lt_of_le_of_ne hle (fun he => hnot ?_)
  have hpme : p.2 = me := htie p.2 hpm.1 (hpm.2.symm.trans he.symm)
  rw [← hpme]
  exact hwho

end Rank

/-! ## A member's share -/

/-- What a member is to keep, among those members. The source has the members too as one text with
    spaces between, which no id has in it, to know a plan by. -/
structure Plan where
  wanted : List Str
  others : AList (fun _ : Str => List Str)
  unknown : AList (fun _ : Str => List Str)
  missing : List Str
  extras : List Str
  among : List Str

/-- A store as far as its blocks go: how many copies of a block there are to be where its object
    does not say, what is pinned here, the names of the blocks that are kept here, and the plan
    once it is worked out. -/
structure Keeper extends Store where
  copies : ℕ
  pins : List Str
  held : List Str
  plan : Option Plan

namespace Keeper

variable (sha256 : Str → Str) (object : Str → Option (ℕ × List Str)) (store : Keeper)

/-- `(store-block-has? store name)`. -/
def blockHas (name : Str) : Bool := decide (name ∈ store.held)

/-- `(store-manifest store hash)`: what the object of that name is made of, if its manifest is kept
    here. What a block of a name says is the one thing for ever, `object`. -/
def manifest (hash : Str) : Option (ℕ × List Str) :=
  if store.blockHas hash then object hash else none

/-- `(store-holders store name among copies)`. -/
def holders (name : Str) (among : List Str) (copies : ℕ) : List Str :=
  let copies := if 0 < copies then copies else store.copies
  let order := storeRank sha256 name among among.length
  order.take (min copies order.length)

/-- `(store-pinned? store path)`. -/
def pinnedHere (name : Str) : Bool := store.pins.any (fun pin => decide (pin <+: name))

/-- A block of the object of a path, into what is wanted or what is others'. -/
def planBlock (path : Str) (entry : Entry) (plan : Plan) (name : Str) : Plan :=
  let holders := store.holders sha256 name plan.among entry.copies
  if store.pinnedHere path ∨ store.member ∈ holders then
    { plan with wanted := fsetInsert plan.wanted name }
  else if ((plan.others.lookup name).getD []).length < holders.length then
    { plan with others := plan.others.insert name holders }
  else plan

/-- `(store-plan-object store plan path entry)`. -/
def planObject (plan : Plan) (path : Str) (entry : Entry) : Plan :=
  let plan := { plan with wanted := fsetInsert plan.wanted entry.hash }
  match store.manifest object entry.hash with
  | some made => made.2.foldl (store.planBlock sha256 path entry) plan
  | none =>
      let paths := (plan.unknown.lookup entry.hash).getD []
      { plan with unknown := plan.unknown.insert entry.hash (paths ++ [path]) }

/-- What a member is to keep, worked out of the whole of its path map. -/
def planNew (among : List Str) : Plan :=
  let plan : Plan := ⟨[], ∅, ∅, [], [], among⟩
  let plan := store.map.entries.foldl (fun plan row =>
    if row.2.deleted then plan else store.planObject sha256 object plan row.1 row.2) plan
  { plan with
    missing := plan.wanted.filter (fun name => !store.blockHas name)
    extras := plan.others.keys.filter (fun name =>
      decide (name ∉ plan.wanted) && store.blockHas name) }

/-- `(store-plan store among)`: the plan there is, if it is of those members. -/
def planFor (among : List Str) : Plan :=
  match store.plan with
  | some plan => if plan.among = among then plan else store.planNew sha256 object among
  | none => store.planNew sha256 object among

/-- `(store-share store among)`: what is wanted, and what is others' to keep, with who they are;
    the plan is held from then on. -/
def share (among : List Str) : (List Str × List (Str × List Str)) × Keeper :=
  let plan := store.planFor sha256 object among
  ((plan.missing, plan.extras.map (fun name => (name, (plan.others.lookup name).getD []))),
    { store with plan := some plan })

/-- One block of an object whose manifest has come, wanted or others'. -/
def planCome (plan : Plan) (block : Str) : Plan :=
  if block ∈ plan.wanted then
    { plan with
      extras := fsetErase plan.extras block
      missing := if store.blockHas block then plan.missing else fsetInsert plan.missing block }
  else if (plan.others.lookup block).isSome ∧ store.blockHas block then
    { plan with extras := fsetInsert plan.extras block }
  else plan

/-- What the objects of paths are made of, now that it is known. -/
def planPaths (plan : Plan) (paths : List Str) : Plan :=
  paths.foldl (fun plan path =>
    match store.find path with
    | some entry => store.planObject sha256 object plan path entry
    | none => plan) plan

/-- `(store-plan-held store name)`: a block that is kept now. -/
def planHeld (plan : Plan) (name : Str) : Plan :=
  let plan := { plan with missing := fsetErase plan.missing name }
  let plan := if name ∉ plan.wanted ∧ (plan.others.lookup name).isSome then
      { plan with extras := fsetInsert plan.extras name }
    else plan
  match plan.unknown.lookup name with
  | some paths =>
      let plan := { plan with unknown := plan.unknown.erase name }
      let plan := store.planPaths sha256 object plan paths
      ((store.manifest object name).elim [] Prod.snd).foldl store.planCome plan
  | none => plan

/-- `(store-plan-dropped store name)`: a block that is no longer kept. -/
def planDropped (plan : Plan) (name : Str) : Plan :=
  { plan with
    extras := fsetErase plan.extras name
    missing := if name ∈ plan.wanted then fsetInsert plan.missing name else plan.missing }

/-- `(store-block-put store data)`, where the volume has room for it or not. -/
def blockPut (room : Bool) (data : Str) : Keeper :=
  let name := sha256 data
  if store.blockHas name then store
  else if room then
    let store := { store with held := fsetInsert store.held name }
    { store with plan := store.plan.map (fun plan => store.planHeld sha256 object plan name) }
  else store

/-- `(store-block-drop store name)`. -/
def blockDrop (name : Str) : Keeper :=
  { store with
    held := fsetErase store.held name
    plan := store.plan.map (fun plan => planDropped plan name) }

/-! ## A plan leaves no block to nobody -/

/-- Those a plan leaves a block to are the first of the block's order, and not this member; and
    what it says is others' is left to someone. -/
structure PlanSound (sha256 : Str → Str) (me : Str) (plan : Plan) : Prop where
  others : ∀ name holders, plan.others.lookup name = some holders →
    holders ≠ [] ∧ me ∉ holders ∧ ∃ n, holders = storeRank sha256 name plan.among n
  extras : ∀ name ∈ plan.extras, (plan.others.lookup name).isSome

/-- The plan of a store, if it has one, is sound. -/
def Sound : Prop := ∀ plan, store.plan = some plan → PlanSound sha256 store.member plan

variable {sha256 object store}

theorem holders_eq (name : Str) (among : List Str) (copies : ℕ) :
    ∃ n, store.holders sha256 name among copies = storeRank sha256 name among n :=
  ⟨_, take_storeRank _⟩

theorem planSound_planBlock {path : Str} {entry : Entry} {plan : Plan}
    (h : PlanSound sha256 store.member plan) (name : Str) :
    PlanSound sha256 store.member (store.planBlock sha256 path entry plan name) := by
  unfold planBlock
  simp only
  split
  · exact ⟨h.others, h.extras⟩
  next hmine =>
    push Not at hmine
    split
    next hlen =>
      refine ⟨fun n holders hn => ?_, fun n hn => ?_⟩
      · by_cases hname : n = name
        · subst hname
          rw [AList.lookup_insert] at hn
          obtain rfl := Option.some.inj hn
          exact ⟨List.ne_nil_of_length_pos (by omega), hmine.2, holders_eq n _ _⟩
        · rw [AList.lookup_insert_ne hname] at hn
          exact h.others n holders hn
      · by_cases hname : n = name
        · subst hname
          rw [AList.lookup_insert]
          rfl
        · rw [AList.lookup_insert_ne hname]
          exact h.extras n hn
    · exact h

/-- What every step of a fold keeps, the fold keeps. -/
theorem planSound_foldl {α : Type} {f : Plan → α → Plan} {me : Str}
    (hf : ∀ plan a, PlanSound sha256 me plan → PlanSound sha256 me (f plan a)) (l : List α)
    {plan : Plan} (h : PlanSound sha256 me plan) : PlanSound sha256 me (l.foldl f plan) := by
  induction l generalizing plan with
  | nil => exact h
  | cons a l ih => exact ih (hf plan a h)

theorem planSound_planObject {plan : Plan} (h : PlanSound sha256 store.member plan) (path : Str)
    (entry : Entry) :
    PlanSound sha256 store.member (store.planObject sha256 object plan path entry) := by
  unfold planObject
  simp only
  split
  · exact planSound_foldl (fun _ name hp => planSound_planBlock hp name) _ ⟨h.others, h.extras⟩
  · exact ⟨h.others, h.extras⟩

theorem planSound_planNew (among : List Str) :
    PlanSound sha256 store.member (store.planNew sha256 object among) := by
  have hstart : PlanSound sha256 store.member ⟨[], ∅, ∅, [], [], among⟩ :=
    ⟨fun name holders h => by simp at h, fun name h => absurd h List.not_mem_nil⟩
  have hall := planSound_foldl (f := fun plan (row : Sigma fun _ : Str => Entry) =>
    if row.2.deleted then plan else store.planObject sha256 object plan row.1 row.2)
    (fun plan row hp => by
      split
      · exact hp
      · exact planSound_planObject hp row.1 row.2) store.map.entries hstart
  refine ⟨hall.others, fun name hname => ?_⟩
  simp only [planNew, List.mem_filter] at hname
  exact AList.lookup_isSome.2 (AList.mem_keys.1 hname.1)

theorem planSound_planFor (h : store.Sound sha256) (among : List Str) :
    PlanSound sha256 store.member (store.planFor sha256 object among) := by
  unfold planFor
  split
  next plan hplan =>
    split
    · exact h plan hplan
    · exact planSound_planNew among
  · exact planSound_planNew among

theorem planFor_among (among : List Str) : (store.planFor sha256 object among).among = among := by
  have hblock : ∀ path entry plan name,
      (store.planBlock sha256 path entry plan name).among = plan.among := by
    intro path entry plan name
    unfold planBlock
    simp only
    split
    · rfl
    · split <;> rfl
  have hblocks : ∀ path entry (names : List Str) (plan : Plan),
      (names.foldl (store.planBlock sha256 path entry) plan).among = plan.among := by
    intro path entry names
    induction names with
    | nil => exact fun _ => rfl
    | cons name names ih => exact fun plan => (ih _).trans (hblock path entry plan name)
  have hobject : ∀ plan path entry,
      (store.planObject sha256 object plan path entry).among = plan.among := by
    intro plan path entry
    unfold planObject
    simp only
    split
    · exact hblocks _ _ _ _
    · rfl
  have hrows : ∀ (rows : List (Sigma fun _ : Str => Entry)) (plan : Plan),
      (rows.foldl (fun plan row => if row.2.deleted then plan
        else store.planObject sha256 object plan row.1 row.2) plan).among = plan.among := by
    intro rows
    induction rows with
    | nil => exact fun _ => rfl
    | cons row rows ih =>
        intro plan
        refine (ih _).trans ?_
        simp only
        split
        · rfl
        · exact hobject _ _ _
  have hnew : (store.planNew sha256 object among).among = among := hrows _ _
  unfold planFor
  split
  · split
    · assumption
    · exact hnew
  · exact hnew

/-- **What is others' is left to someone else**: those that are to keep it are the first of the
    block's order among the members that are there, one at least, and not this member. -/
theorem share_extras (h : store.Sound sha256) {among : List Str} {name : Str}
    {holders : List Str} (hx : (name, holders) ∈ (store.share sha256 object among).1.2) :
    holders ≠ [] ∧ store.member ∉ holders ∧ ∃ n, holders = storeRank sha256 name among n := by
  have hplan : PlanSound sha256 store.member (store.planFor sha256 object among) :=
    planSound_planFor h among
  simp only [share, List.mem_map, Prod.mk.injEq] at hx
  obtain ⟨n, hn, rfl, rfl⟩ := hx
  obtain ⟨found, hfound⟩ := Option.isSome_iff_exists.1 (hplan.extras n hn)
  have := hplan.others n found hfound
  rw [planFor_among] at this
  rwa [hfound]

theorem sound_share (h : store.Sound sha256) (among : List Str) :
    (store.share sha256 object among).2.Sound sha256 := by
  intro plan hplan
  rw [← Option.some.inj hplan]
  exact planSound_planFor h among

theorem planSound_planCome {plan : Plan} {me : Str} (h : PlanSound sha256 me plan) (block : Str) :
    PlanSound sha256 me (store.planCome plan block) := by
  unfold planCome
  split
  · exact ⟨h.others, fun n hn => h.extras n (mem_fsetErase.1 hn).1⟩
  · split
    next hothers =>
      refine ⟨h.others, fun n hn => ?_⟩
      rcases mem_fsetInsert.1 hn with hn | rfl
      · exact h.extras n hn
      · exact hothers.1
    · exact h

theorem planSound_planHeld (store : Keeper) {plan : Plan} (h : PlanSound sha256 store.member plan)
    (name : Str) :
    PlanSound sha256 store.member (store.planHeld sha256 object plan name) := by
  have hextras : PlanSound sha256 store.member
      (if name ∉ plan.wanted ∧ (plan.others.lookup name).isSome then
        { plan with
          missing := fsetErase plan.missing name, extras := fsetInsert plan.extras name }
      else { plan with missing := fsetErase plan.missing name }) := by
    split
    next hothers =>
      refine ⟨h.others, fun n hn => ?_⟩
      rcases mem_fsetInsert.1 hn with hn | rfl
      · exact h.extras n hn
      · exact hothers.2
    · exact ⟨h.others, h.extras⟩
  unfold planHeld
  simp only
  split
  · refine planSound_foldl (fun _ block hp => planSound_planCome hp block) _ ?_
    refine planSound_foldl (fun plan path hp => ?_) _ ⟨hextras.others, hextras.extras⟩
    split
    · exact planSound_planObject hp _ _
    · exact hp
  · exact hextras

theorem sound_blockPut (h : store.Sound sha256) (room : Bool) (data : Str) :
    (store.blockPut sha256 object room data).Sound sha256 := by
  unfold blockPut
  simp only
  split
  · exact h
  · split
    · intro plan hplan
      obtain ⟨was, hwas, rfl⟩ := Option.map_eq_some_iff.1 hplan
      exact planSound_planHeld { store with held := fsetInsert store.held (sha256 data) }
        (h was hwas) _
    · exact h

theorem sound_blockDrop (h : store.Sound sha256) (name : Str) :
    (store.blockDrop name).Sound sha256 := by
  intro plan hplan
  obtain ⟨was, hwas, rfl⟩ := Option.map_eq_some_iff.1 hplan
  have hs := h was hwas
  exact ⟨hs.others, fun n hn => hs.extras n (mem_fsetErase.1 hn).1⟩

end Keeper

end ChrysaLisp
