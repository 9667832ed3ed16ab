import ChrysaLisp.Library.Run
import ChrysaLisp.Lisp.Text
import ChrysaLisp.Storage.Store

set_option autoImplicit false

/-! # What is told since a point

A store counts the changes to its path map from when it was opened, and has for each path the count
at its last change, so that a member is told only what is new since it last asked. The opening has a
name, `epoch`, and `store-at` is that name and the count; one who gives back what another opening
gave is told everything. How many objects there are is kept as it goes, and the digest from when it
is asked till something changes.

Every change of the map is an entry inserted and its path touched (`takeIn`), so a path that is not
as it was has been touched since (`told_since`), and what is kept is what would be worked out afresh
(`Fresh`). -/

namespace ChrysaLisp

/-- A store as it tells what is new. -/
structure Teller extends Store where
  objects : ℤ
  rev : ℕ
  revs : AList (fun _ : Str => ℕ)
  epoch : Str

namespace Teller

variable (sha256 : Str → Str) (store : Teller)

/-- `(store-map-insert store name entry)`: how many objects there are is kept as it goes. -/
def mapInsert (entry : Entry) : Teller :=
  let was := store.map.lookup entry.path
  { store with
    objects := store.objects + (if entry.deleted then 0 else 1) +
      (if (was.map (fun e => !e.deleted)).getD false then -1 else 0)
    map := store.map.put entry }

/-- `(store-touch store name)`. -/
def touch (name : Str) : Teller :=
  { store with rev := store.rev + 1, revs := store.revs.insert name (store.rev + 1) }

/-- An entry in the map, and its path touched. -/
def takeIn (entry : Entry) : Teller := (store.mapInsert entry).touch entry.path

/-- What `store-journal-add`, `store-save` and `store-later` each do: the digest is not held. -/
def letGo : Teller := { store with digest := none }

/-- A write: `store-put`, `store-delete` or `store-copies`. What it makes is one entry, or none. -/
def write (w : Write) : Teller :=
  match (store.toStore.write sha256 w).1 with
  | .ok entry => (store.takeIn entry).letGo
  | _ => store

/-- `(store-meet store entries)`: each entry that is not as it was goes in, in turn. -/
def meet (theirs : List Entry) : Teller :=
  let changed := (store.toStore.meet theirs).2
  if changed = [] then store else (changed.foldl takeIn store).letGo

/-- `(unless (find who list) (push list who))`, of each. -/
def addEach (list who : List Str) : List Str :=
  who.foldl (fun list who => if who ∈ list then list else list ++ [who]) list

/-- `(store-join store members retired)`. -/
def join (members retired : List Str) : Teller :=
  let all := addEach store.members members
  let gone := addEach store.retired retired
  if all = store.members ∧ gone = store.retired then store
  else { store with members := sortStr all, retired := sortStr gone }.letGo

/-- A row of what a member says is pinned, taken if it is of a greater count. -/
def takeRow (acc : AList (fun _ : Str => ℕ × List Str) × Bool) (row : Str × ℕ × List Str) :
    AList (fun _ : Str => ℕ × List Str) × Bool :=
  if ((acc.1.lookup row.1).map (fun was => decide (row.2.1 ≤ was.1))).getD false then acc
  else (acc.1.insert row.1 (row.2.1, sortStr row.2.2), true)

/-- `(store-pinned-take store lines)`, of lines read as rows. -/
def pinnedTake (rows : List (Str × ℕ × List Str)) : Teller :=
  let taken := rows.foldl takeRow (store.pinned, false)
  if taken.2 then { store with pinned := taken.1 }.letGo else store

/-- `(store-digest store)`: asked, and held from then on. -/
def askDigest : Teller := { store with toStore := (store.toStore.digestOf sha256).2 }

/-- `(store-at store)`. -/
def place : Str := store.epoch ++ asc " " ++ strNum store.rev

/-- Those of some pairs of the map, in the order of their paths. -/
def inOrderOf (pairs : List (Sigma (fun _ : Str => Entry))) : List Entry :=
  (pairs.map (·.2)).insertionSort (fun a b => a.path ≤ b.path)

/-- `(store-since store at)`. -/
def since (place : Option Str) : List Entry :=
  match split (place.getD []) 32 with
  | [epoch, rev] =>
      if epoch = store.epoch then
        inOrderOf (store.map.entries.filter
          (fun x => decide (strAsNum rev < (store.revs.lookup x.1).getD 0)))
      else store.entries
  | _ => store.entries

/-- A store as it is opened: its members and pins as they were on the volume, the entries that were
there put in the map one by one, and its counts begun (`store-count`). `seed` is what the name of
the opening is made of. -/
def opened (base : Store) (seed : Str) (entries : List Entry) : Teller :=
  let store : Teller :=
    { base with map := ∅, digest := none, objects := 0, rev := 0, revs := ∅, epoch := [] }
  { entries.foldl mapInsert store with
    rev := 0, revs := ∅, epoch := hexEncode ((sha256 seed).take 8) }

end Teller

/-- What comes to a store that is open. -/
inductive TellEvent where
  | write (w : Write)
  | meet (theirs : List Entry)
  | join (members retired : List Str)
  | pinned (rows : List (Str × ℕ × List Str))
  | digest

/-- What it does. -/
def Teller.step (sha256 : Str → Str) (store : Teller) : TellEvent → Teller
  | .write w => store.write sha256 w
  | .meet theirs => store.meet theirs
  | .join members retired => store.join members retired
  | .pinned rows => store.pinnedTake rows
  | .digest => store.askDigest sha256

/-- The objects of a path map, those not deleted. -/
def PathMap.live (map : PathMap) : List Entry :=
  (map.entries.map (·.2)).filter (fun e => !e.deleted)

namespace Teller

variable {sha256 : Str → Str} {store : Teller}

/-! ## How the map is changed -/

/-- The entries `store-meet` gives are those it put in the map, in turn. -/
theorem meetOne_foldl (members : List Str) (me : Str) (map : PathMap) (theirs : Entry) :
    (meetOne members me map theirs).1 = (meetOne members me map theirs).2.foldl PathMap.put map := by
  cases hm : map.lookup theirs.path with
  | none => rw [meetOne_of_none members me map theirs hm]; rfl
  | some mine =>
      rw [meetOne_of_some members me map theirs hm]
      have haside : (putAside map (meetAside members me theirs mine)).1
          = (putAside map (meetAside members me theirs mine)).2.foldl PathMap.put map := by
        cases meetAside members me theirs mine with
        | none => rfl
        | some kept =>
            simp only [putAside]
            split <;> rfl
      split
      · rw [List.foldl_append, ← haside]
        rfl
      · exact haside

theorem meetAll_foldl (members : List Str) (me : Str) (theirs : List Entry) :
    ∀ map : PathMap, (meetAll members me map theirs).1
      = (meetAll members me map theirs).2.foldl PathMap.put map := by
  induction theirs with
  | nil => exact fun _ => rfl
  | cons t theirs ih =>
      intro map
      rw [meetAll_cons_pair, List.foldl_append, ← meetOne_foldl]
      exact ih _

/-- Entries taken in one after another are the same in the map. -/
theorem map_foldl_takeIn (es : List Entry) :
    ∀ store : Teller, (es.foldl takeIn store).map = es.foldl PathMap.put store.map := by
  induction es with
  | nil => exact fun _ => rfl
  | cons e es ih => exact fun store => ih (store.takeIn e)

/-- The map after a meeting is the one `store-meet` comes to. -/
theorem map_meet (store : Teller) (theirs : List Entry) :
    (store.meet theirs).map = (store.toStore.meet theirs).1.map := by
  have hmap : (store.toStore.meet theirs).1.map
      = (store.toStore.meet theirs).2.foldl PathMap.put store.map :=
    meetAll_foldl store.toStore.memberList store.member theirs store.map
  rw [hmap]
  unfold meet
  by_cases hnil : (store.toStore.meet theirs).2 = []
  · rw [if_pos hnil, hnil]
    rfl
  · rw [if_neg hnil]
    exact map_foldl_takeIn _ store

/-- The map after a write is the one the write comes to. -/
theorem map_write (w : Write) :
    (store.write sha256 w).map = (store.toStore.write sha256 w).2.map := by
  unfold write
  rcases store.toStore.write_cases sha256 w with ⟨h2, h1⟩ | ⟨hash, size, deleted, copies, h1, h2⟩
  · rw [h2]
    split
    next entry hok => exact absurd hok (h1 entry)
    · rfl
  · rw [h1, h2]
    rfl

/-! ## A path that is not as it was has been touched -/

/-- A later state of a store, of the same opening: every path there was is there, and one that is
    not as it was has been touched since. -/
structure Later (s t : Teller) : Prop where
  epoch : t.epoch = s.epoch
  rev : s.rev ≤ t.rev
  there : ∀ p, (s.map.lookup p).isSome → (t.map.lookup p).isSome
  touched : ∀ p, (t.map.lookup p = s.map.lookup p ∧ t.revs.lookup p = s.revs.lookup p) ∨
    s.rev < (t.revs.lookup p).getD 0

theorem Later.refl (s : Teller) : Later s s := ⟨rfl, le_rfl, fun _ h => h, fun _ => Or.inl ⟨rfl, rfl⟩⟩

theorem Later.trans {s t u : Teller} (h : Later s t) (h' : Later t u) : Later s u where
  epoch := h'.epoch.trans h.epoch
  rev := h.rev.trans h'.rev
  there p hp := h'.there p (h.there p hp)
  touched p := by
    -- the last step that touched the path is the one that counts
    rcases h'.touched p with ⟨hmap, hrevs⟩ | hlast
    · rw [hmap, hrevs]
      exact h.touched p
    · exact Or.inr (h.rev.trans_lt hlast)

/-- Where neither the map nor the counts are other than they were. -/
theorem Later.of_same {s t : Teller} (hmap : t.map = s.map) (hrev : t.rev = s.rev)
    (hrevs : t.revs = s.revs) (hepoch : t.epoch = s.epoch) : Later s t :=
  ⟨hepoch, hrev.ge, fun p h => by rwa [hmap], fun p => Or.inl ⟨by rw [hmap], by rw [hrevs]⟩⟩

theorem later_takeIn (store : Teller) (entry : Entry) : Later store (store.takeIn entry) where
  epoch := rfl
  rev := Nat.le_succ _
  there p hp := by
    by_cases h : p = entry.path
    · subst h
      exact Option.isSome_iff_exists.2 ⟨entry, lookup_put_self store.map entry⟩
    · exact (@lookup_put_ne store.map _ _ h).symm ▸ hp
  touched p := by
    by_cases h : p = entry.path
    · subst h
      refine Or.inr ?_
      have hrevs : (store.takeIn entry).revs.lookup entry.path = some (store.rev + 1) :=
        AList.lookup_insert _
      rw [hrevs]
      exact Nat.lt_succ_self _
    · exact Or.inl ⟨lookup_put_ne h, AList.lookup_insert_ne h⟩

theorem later_letGo (store : Teller) : Later store store.letGo := Later.of_same rfl rfl rfl rfl

theorem later_foldl (es : List Entry) : ∀ store : Teller, Later store (es.foldl takeIn store) := by
  induction es with
  | nil => exact Later.refl
  | cons e es ih => exact fun store => (later_takeIn store e).trans (ih _)

theorem later_write (w : Write) : Later store (store.write sha256 w) := by
  unfold write
  split
  · exact (later_takeIn store _).trans (later_letGo _)
  · exact Later.refl store

theorem later_meet (theirs : List Entry) : Later store (store.meet theirs) := by
  unfold meet
  by_cases h : (store.toStore.meet theirs).2 = []
  · simp only [if_pos h]
    exact Later.refl store
  · simp only [if_neg h]
    exact (later_foldl _ store).trans (later_letGo _)

theorem later_join (members retired : List Str) : Later store (store.join members retired) := by
  unfold join
  simp only
  split
  · exact Later.refl store
  · exact Later.of_same rfl rfl rfl rfl

theorem later_pinnedTake (rows : List (Str × ℕ × List Str)) :
    Later store (store.pinnedTake rows) := by
  unfold pinnedTake
  simp only
  split
  · exact Later.of_same rfl rfl rfl rfl
  · exact Later.refl store

/-- To ask for the digest changes what is held and nothing it is made of. -/
theorem askDigest_eq (store : Teller) :
    store.askDigest sha256 = store ∨ (store.digest = none ∧ store.askDigest sha256
      = { store with digest := some (sha256 store.toStore.digestText) }) := by
  unfold askDigest Store.digestOf
  cases h : store.digest with
  | none => exact Or.inr ⟨rfl, rfl⟩
  | some d => exact Or.inl rfl

theorem later_askDigest : Later store (store.askDigest sha256) := by
  rcases askDigest_eq store with h | ⟨-, h⟩
  · rw [h]
    exact Later.refl store
  · rw [h]
    exact Later.of_same rfl rfl rfl rfl

theorem later_step (store : Teller) (e : TellEvent) : Later store (store.step sha256 e) := by
  cases e with
  | write w => exact later_write w
  | meet theirs => exact later_meet theirs
  | join members retired => exact later_join members retired
  | pinned rows => exact later_pinnedTake rows
  | digest => exact later_askDigest

theorem later_run (store : Teller) (es : List TellEvent) :
    Later store (Run.run (Teller.step sha256) store es) :=
  Run.inv_of_step (fun s e h => h.trans (later_step s e)) (Later.refl store) es

/-! ## What is given back to the store is read as it was -/

theorem split_place (h : Part 32 store.epoch) :
    split store.place 32 = [store.epoch, strNum store.rev] := by
  have hrev : Part 32 (strNum store.rev) :=
    ⟨strNum_ne_nil _, not_mem_strNum (by decide) _⟩
  rw [show store.place = store.epoch ++ 32 :: strNum store.rev from
    List.append_assoc _ _ _, split_append h, split_part hrev]

/-- What has an entry of the map is in what is told of all of them. -/
theorem mem_inOrderOf {pairs : List (Sigma (fun _ : Str => Entry))} {p : Str} {e : Entry}
    (h : ⟨p, e⟩ ∈ pairs) : e ∈ inOrderOf pairs :=
  (List.perm_insertionSort _ _).mem_iff.2 (List.mem_map.2 ⟨⟨p, e⟩, h, rfl⟩)

/-- A path touched since then is told, and so is every path where the place given is no place. -/
theorem mem_since {now later : Teller} (hepoch : later.epoch = now.epoch)
    (hspace : 32 ∉ now.epoch) {p : Str} {e : Entry} (hfind : later.map.lookup p = some e)
    (htouched : now.rev < (later.revs.lookup p).getD 0) : e ∈ later.since (some now.place) := by
  have hmem : ⟨p, e⟩ ∈ later.map.entries := AList.mem_lookup_iff.1 hfind
  have hall : e ∈ later.entries := mem_inOrderOf hmem
  by_cases hnil : now.epoch = []
  · -- an opening of no name: what is given back is the count alone, and everything is told
    have hsplit : split now.place 32 = [strNum now.rev] := by
      have hplace : now.place = [] ++ 32 :: strNum now.rev := by
        rw [place, hnil]
        rfl
      rw [hplace]
      unfold split
      rw [List.nil_append, List.splitOn_cons_eq_if_modifyHead, if_pos (by simp),
        List.filter_cons_of_neg (by simp)]
      exact split_part ⟨strNum_ne_nil _, not_mem_strNum (by decide) _⟩
    unfold since
    rw [Option.getD_some, hsplit]
    exact hall
  · unfold since
    rw [Option.getD_some, split_place ⟨hnil, hspace⟩]
    simp only [hepoch, if_true, strAsNum_strNum]
    exact mem_inOrderOf (List.mem_filter.2 ⟨hmem, decide_eq_true htouched⟩)

/-! ## What is kept is what would be worked out afresh -/

theorem countP_kerase (good : Sigma (fun _ : Str => Entry) → Bool) (p : Str)
    (pairs : List (Sigma (fun _ : Str => Entry))) :
    (pairs.kerase p).countP good
      + (if ((pairs.dlookup p).map (fun e => good ⟨p, e⟩)).getD false then 1 else 0)
      = pairs.countP good := by
  induction pairs with
  | nil => rfl
  | cons x pairs ih =>
      by_cases h : p = x.1
      · obtain ⟨q, e⟩ := x
        obtain rfl : p = q := h
        rw [List.dlookup_cons_eq, List.countP_cons]
        simp
      · rw [List.kerase_cons_ne h, List.dlookup_cons_ne _ _ h, List.countP_cons, List.countP_cons]
        omega

theorem length_live (map : PathMap) :
    map.live.length = map.entries.countP (fun x => !x.2.deleted) := by
  rw [PathMap.live, ← List.countP_eq_length_filter, List.countP_map]
  rfl

/-- How many objects there are when an entry goes in the map. -/
theorem length_live_put (map : PathMap) (entry : Entry) :
    ((map.put entry).live.length : ℤ) = map.live.length + (if entry.deleted then 0 else 1) +
      (if ((map.lookup entry.path).map (fun e => !e.deleted)).getD false then -1 else 0) := by
  have hkerase : (map.entries.kerase entry.path).countP (fun x => !x.2.deleted)
      + (if ((map.lookup entry.path).map (fun e => !e.deleted)).getD false then 1 else 0)
      = map.entries.countP (fun x => !x.2.deleted) := countP_kerase _ entry.path map.entries
  have hput : (map.put entry).entries = ⟨entry.path, entry⟩ :: map.entries.kerase entry.path := rfl
  rw [length_live, length_live, hput, List.countP_cons, ← hkerase]
  generalize ((map.lookup entry.path).map (fun e => !e.deleted)).getD false = was
  cases was <;> cases entry.deleted <;> simp

/-- What is kept of a store is what would be worked out afresh. -/
structure Fresh (sha256 : Str → Str) (store : Teller) : Prop where
  digest : ∀ d, store.digest = some d → d = sha256 store.toStore.digestText
  objects : store.objects = store.map.live.length

theorem objects_mapInsert (h : store.objects = store.map.live.length) (entry : Entry) :
    (store.mapInsert entry).objects = (store.mapInsert entry).map.live.length := by
  have hput := length_live_put store.map entry
  rw [← h] at hput
  exact hput.symm

theorem objects_foldl (es : List Entry) : ∀ store : Teller,
    store.objects = store.map.live.length →
      (es.foldl takeIn store).objects = (es.foldl takeIn store).map.live.length := by
  induction es with
  | nil => exact fun _ h => h
  | cons e es ih => exact fun store h => ih (store.takeIn e) (objects_mapInsert h e)

theorem fresh_letGo (h : store.objects = store.map.live.length) : Fresh sha256 store.letGo :=
  ⟨fun d hd => absurd hd (by simp [letGo]), h⟩

theorem Fresh.write (h : Fresh sha256 store) (w : Write) : Fresh sha256 (store.write sha256 w) := by
  unfold Teller.write
  split
  · exact fresh_letGo (objects_mapInsert h.objects _)
  · exact h

theorem Fresh.meet (h : Fresh sha256 store) (theirs : List Entry) :
    Fresh sha256 (store.meet theirs) := by
  unfold Teller.meet
  by_cases hnil : (store.toStore.meet theirs).2 = []
  · simp only [if_pos hnil]
    exact h
  · simp only [if_neg hnil]
    exact fresh_letGo (objects_foldl _ store h.objects)

theorem Fresh.join (h : Fresh sha256 store) (members retired : List Str) :
    Fresh sha256 (store.join members retired) := by
  unfold Teller.join
  simp only
  split
  · exact h
  · exact fresh_letGo h.objects

theorem Fresh.pinnedTake (h : Fresh sha256 store) (rows : List (Str × ℕ × List Str)) :
    Fresh sha256 (store.pinnedTake rows) := by
  unfold Teller.pinnedTake
  simp only
  split
  · exact fresh_letGo h.objects
  · exact h

theorem Fresh.askDigest (h : Fresh sha256 store) : Fresh sha256 (store.askDigest sha256) := by
  rcases askDigest_eq store with hs | ⟨-, hs⟩
  · rwa [hs]
  · rw [hs]
    exact ⟨fun d hd => (Option.some.inj hd).symm, h.objects⟩

theorem Fresh.step (h : Fresh sha256 store) (e : TellEvent) :
    Fresh sha256 (store.step sha256 e) := by
  cases e with
  | write w => exact h.write w
  | meet theirs => exact h.meet theirs
  | join members retired => exact h.join members retired
  | pinned rows => exact h.pinnedTake rows
  | digest => exact h.askDigest

/-- What a fresh store says its digest is. -/
theorem Fresh.digestOf (h : Fresh sha256 store) :
    (store.toStore.digestOf sha256).1 = sha256 store.toStore.digestText := by
  unfold Store.digestOf
  cases hd : store.digest with
  | none => rfl
  | some d => exact h.digest d hd

theorem opened_foldl (es : List Entry) : ∀ store : Teller, store.digest = none →
    store.objects = store.map.live.length →
      (es.foldl mapInsert store).digest = none ∧
        (es.foldl mapInsert store).objects = (es.foldl mapInsert store).map.live.length := by
  induction es with
  | nil => exact fun _ hd ho => ⟨hd, ho⟩
  | cons e es ih => exact fun store hd ho => ih (store.mapInsert e) hd (objects_mapInsert ho e)

theorem fresh_opened (base : Store) (seed : Str) (entries : List Entry) :
    Fresh sha256 (opened sha256 base seed entries) := by
  obtain ⟨hd, ho⟩ := opened_foldl entries
    { base with map := ∅, digest := none, objects := 0, rev := 0, revs := ∅, epoch := [] } rfl rfl
  exact ⟨fun d h => absurd (hd.symm.trans h) (by simp), ho⟩

theorem space_not_mem_hex (s : Str) : (32 : Byte) ∉ hexEncode s := fun h =>
  absurd (le_of_mem_hexEncode h).1 (by decide)

end Teller

section ToldSince

variable (sha256 : Str → Str) (base : Store) (seed : Str) (entries : List Entry)

/-- **What is told since a point is all that is not as it was, and what is kept is fresh.** Of any
two moments of one opening of a store, whatever came to it before and between: every path that is
not as it was is told to one who gives back what the first moment's `store-at` gave; and at every
moment the digest, held or not, and the count of objects are those of the path map as it is. -/
theorem told_since (before between : List TellEvent) :
    let then' := Run.run (Teller.step sha256) (Teller.opened sha256 base seed entries) before
    let now := Run.run (Teller.step sha256) then' between
    (∀ p, now.find p ≠ then'.find p →
      ∃ e, now.find p = some e ∧ e ∈ now.since (some then'.place)) ∧
    (∀ d, then'.digest = some d → d = sha256 then'.toStore.digestText) ∧
    (then'.toStore.digestOf sha256).1 = sha256 then'.toStore.digestText ∧
    then'.objects = then'.map.live.length := by
  intro then' now
  have hopened : Teller.Later (Teller.opened sha256 base seed entries) then' :=
    Teller.later_run _ before
  have hlater : Teller.Later then' now := Teller.later_run _ between
  have hfresh : Teller.Fresh sha256 then' :=
    Run.inv_of_step (fun s e h => h.step e) (Teller.fresh_opened base seed entries) before
  have hspace : (32 : Byte) ∉ then'.epoch := by
    rw [hopened.epoch]
    exact Teller.space_not_mem_hex _
  refine ⟨fun p hp => ?_, hfresh.digest, hfresh.digestOf, hfresh.objects⟩
  rcases hlater.touched p with ⟨hsame, -⟩ | htouched
  · exact absurd hsame hp
  · -- no path is ever taken out of the map, so one that was there is there
    cases hnow : now.map.lookup p with
    | some e => exact ⟨e, hnow, Teller.mem_since hlater.epoch hspace hnow htouched⟩
    | none =>
        have hnone : then'.map.lookup p = none := by
          by_contra hthere
          have := hlater.there p (Option.isSome_iff_ne_none.2 hthere)
          rw [hnow] at this
          exact absurd this (by simp)
        exact absurd (hnow.trans hnone.symm) hp

end ToldSince

/-- A store as it is opened the first time, with nothing in it. -/
def emptyStore : Store where
  member := asc "AA"
  members := [asc "AA"]
  retired := []
  pinned := ∅
  blockSize := 4096
  map := ∅
  digest := none

theorem told_since_write :
    ∃ e, (Run.run (Teller.step id) (Run.run (Teller.step id)
        (Teller.opened id emptyStore (asc "boot") []) [.digest])
        [.write (.put (fun _ => true) (asc "a") (asc "hello") none)]).find (asc "a") = some e ∧
      e ∈ (Run.run (Teller.step id) (Run.run (Teller.step id)
        (Teller.opened id emptyStore (asc "boot") []) [.digest])
        [.write (.put (fun _ => true) (asc "a") (asc "hello") none)]).since
          (some (Run.run (Teller.step id)
            (Teller.opened id emptyStore (asc "boot") []) [.digest]).place) :=
  (told_since id emptyStore (asc "boot") [] [.digest]
    [.write (.put (fun _ => true) (asc "a") (asc "hello") none)]).1 (asc "a") (by decide +kernel)

end ChrysaLisp
