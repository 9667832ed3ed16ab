import ChrysaLisp.Storage.Entry

set_option autoImplicit false

/-! # Two members comparing notes

`storeMeet` sets what another member has in its path map against what this one has. `meetOne` is
what it does with one entry of theirs. What comes of the path itself is `meetNow`, and the loser
of a conflict that is set aside under another name is `meetAside`; both are of the two entries and
the members alone, so what a whole meeting does to a path can be said path by path
(`lookup_storeMeet`). -/

namespace ChrysaLisp

/-! ## The store's own functions -/

/-- `(store-members store)`: those joined and not retired, in order. -/
def storeMembers (members retired : List Str) : List Str :=
  sortStr (members.filter (fun who => decide (who ∉ retired)))

/-- `(store-most? store entry)`, of the members. -/
def storeMost (members : List Str) (entry : Entry) : Bool :=
  decide (members.length < 2 * (entry.seen.filter (fun who => decide (who ∈ members))).length)

/-- `(store-other-name entry)`: the path, and the start of the name of its object. -/
def storeOtherName (entry : Entry) : Str :=
  entry.path ++ asc "~" ++ (hexEncode entry.hash).take 8

/-- `(store-keeps store a b)`: of two entries written apart, the one that keeps the path. -/
def storeKeeps (members : List Str) (a b : Entry) : Entry :=
  let mostA := storeMost members a
  let mostB := storeMost members b
  let totalA := storeVvTotal a.vv
  let totalB := storeVvTotal b.vv
  if mostA && !mostB then a
  else if mostB && !mostA then b
  else if totalB < totalA then a
  else if totalA < totalB then b
  else if b.hash ≤ a.hash then a
  else b

/-- `(store-seen a b)`: the members that are in either list, once each, in order. -/
def storeSeen (a b : List Str) : List Str :=
  sortStr (b.foldl (fun out who => if who ∈ out then out else out ++ [who]) a)

/-- The same object and the same copies: with the same counts, the one entry. -/
def sameEntry (theirs mine : Entry) : Prop :=
  theirs.hash = mine.hash ∧ theirs.copies = mine.copies

instance (theirs mine : Entry) : Decidable (sameEntry theirs mine) :=
  inferInstanceAs (Decidable (_ ∧ _))

/-- Written apart, or come to the same counts by two ways: the path is one's, and the other is
    set aside. -/
def conflict (theirs mine : Entry) : Prop :=
  storeVvCmp theirs.vv mine.vv = .apart ∨
    (storeVvCmp theirs.vv mine.vv = .same ∧ ¬ sameEntry theirs mine)

instance (theirs mine : Entry) : Decidable (conflict theirs mine) :=
  inferInstanceAs (Decidable (_ ∨ _))

/-- The entry of a path two wrote apart, made of the one that keeps it. -/
def resolved (members : List Str) (me : Str) (theirs mine : Entry) : Entry :=
  let keeps := storeKeeps members theirs mine
  { path := theirs.path, hash := keeps.hash, bytes := keeps.bytes,
    vv := storeVvMerge theirs.vv mine.vv, writer := keeps.writer, seen := [me],
    deleted := keeps.deleted, copies := max theirs.copies mine.copies }

/-- The one that does not keep the path. -/
def loser (members : List Str) (theirs mine : Entry) : Entry :=
  if storeKeeps members theirs mine = theirs then mine else theirs

/-- An entry as it is taken from another: this member has it too. -/
def taken (me : Str) (theirs : Entry) : Entry :=
  { theirs with seen := storeSeen theirs.seen [me] }

/-- What the path is now, `none` if it is as it was. -/
def meetNow (members : List Str) (me : Str) (theirs mine : Entry) : Option Entry :=
  match storeVvCmp theirs.vv mine.vv with
  | .after => some (taken me theirs)
  | .before => none
  | how =>
      if how = .same ∧ sameEntry theirs mine then
        let both := storeSeen theirs.seen mine.seen
        if both.length = mine.seen.length then none else some { mine with seen := both }
      else some (resolved members me theirs mine)

/-- An entry under its other name, as this member keeps it. -/
def setAside (me : Str) (other : Entry) : Entry :=
  { other with path := storeOtherName other, seen := [me] }

/-- What is kept under another name: the loser of a conflict, if it is an object and not a
    delete, and not the object that keeps the path. -/
def meetAside (members : List Str) (me : Str) (theirs mine : Entry) : Option Entry :=
  if conflict theirs mine then
    let other := loser members theirs mine
    if other.deleted ∨ other.hash = (storeKeeps members theirs mine).hash then none
    else some (setAside me other)
  else none

/-- The path map with an entry of it that is now so. -/
def PathMap.put (map : PathMap) (entry : Entry) : PathMap := map.insert entry.path entry

/-- An entry kept under another name, if there is none of that name. -/
def putAside (map : PathMap) : Option Entry → PathMap × List Entry
  | some kept => if (map.lookup kept.path).isSome then (map, []) else (map.put kept, [kept])
  | none => (map, [])

/-- One entry of theirs met: the path map, and the entries that are not as they were. -/
def meetOne (members : List Str) (me : Str) (map : PathMap) (theirs : Entry) :
    PathMap × List Entry :=
  match map.lookup theirs.path with
  | none => (map.put (taken me theirs), [taken me theirs])
  | some mine =>
      let (map, changed) := putAside map (meetAside members me theirs mine)
      match meetNow members me theirs mine with
      | some now => (map.put now, changed ++ [now])
      | none => (map, changed)

/-- `(store-meet store entries)` on the path map: the map, and what is changed. -/
def meetAll (members : List Str) (me : Str) (map : PathMap) (entries : List Entry) :
    PathMap × List Entry :=
  entries.foldl (fun acc theirs =>
    let (map, changed) := meetOne members me acc.1 theirs
    (map, acc.2 ++ changed)) (map, [])

/-! ## Choosing which keeps the path -/

theorem storeKeeps_eq_or (members : List Str) (a b : Entry) :
    storeKeeps members a b = a ∨ storeKeeps members a b = b := by
  unfold storeKeeps
  simp only
  repeat' split
  all_goals simp

/-- **Every member chooses the same**, whichever of two entries it has as its own, where the two
    are different objects. -/
theorem storeKeeps_comm (members : List Str) {a b : Entry} (h : a.hash ≠ b.hash) :
    storeKeeps members a b = storeKeeps members b a := by
  unfold storeKeeps
  simp only
  cases hA : storeMost members a <;> cases hB : storeMost members b <;>
    simp only [Bool.and_true, Bool.and_false, Bool.not_true, Bool.not_false, if_true, if_false,
      Bool.false_eq_true]
  all_goals
    by_cases h1 : storeVvTotal b.vv < storeVvTotal a.vv
    · simp [h1, not_lt.2 h1.le]
    · by_cases h2 : storeVvTotal a.vv < storeVvTotal b.vv
      · simp [h1, h2]
      · simp only [h1, h2, if_false]
        rcases lt_or_gt_of_ne h with hlt | hgt
        · rw [if_neg (not_le.2 hlt), if_pos hlt.le]
        · rw [if_pos hgt.le, if_neg (not_le.2 hgt)]

theorem loser_eq_or (members : List Str) (theirs mine : Entry) :
    loser members theirs mine = theirs ∨ loser members theirs mine = mine := by
  unfold loser
  split
  · exact Or.inr rfl
  · exact Or.inl rfl

/-! ## Who is known to have it -/

theorem mem_foldl_seen (b : List Str) : ∀ (a : List Str) (who : Str),
    who ∈ b.foldl (fun out w => if w ∈ out then out else out ++ [w]) a ↔ who ∈ a ∨ who ∈ b := by
  induction b with
  | nil => intro a who; simp
  | cons w b ih =>
      intro a who
      rw [List.foldl_cons, ih]
      by_cases hw : w ∈ a
      · rw [if_pos hw, List.mem_cons]
        constructor
        · exact fun h => h.imp id Or.inr
        · rintro (h | rfl | h)
          · exact Or.inl h
          · exact Or.inl hw
          · exact Or.inr h
      · rw [if_neg hw, List.mem_append, List.mem_singleton, List.mem_cons, or_assoc]

theorem nodup_foldl_seen (b : List Str) : ∀ a : List Str, a.Nodup →
    (b.foldl (fun out w => if w ∈ out then out else out ++ [w]) a).Nodup := by
  induction b with
  | nil => exact fun a ha => ha
  | cons w b ih =>
      intro a ha
      rw [List.foldl_cons]
      apply ih
      split
      · exact ha
      next hw => exact ha.append (List.nodup_singleton w) (List.disjoint_singleton.2 hw)

@[simp] theorem mem_storeSeen {a b : List Str} {who : Str} :
    who ∈ storeSeen a b ↔ who ∈ a ∨ who ∈ b := by
  unfold storeSeen
  rw [mem_sortStr, mem_foldl_seen]

/-- In order, each once. -/
def SeenSound (seen : List Str) : Prop := seen.Pairwise (· < ·)

theorem SeenSound.nodup {seen : List Str} (h : SeenSound seen) : seen.Nodup :=
  h.imp (fun h => ne_of_lt h)

theorem seenSound_singleton (who : Str) : SeenSound [who] := List.pairwise_singleton _ _

theorem seenSound_storeSeen {a : List Str} (ha : SeenSound a) (b : List Str) :
    SeenSound (storeSeen a b) := by
  have hnodup : (storeSeen a b).Nodup := nodup_sortStr.2 (nodup_foldl_seen b a ha.nodup)
  exact ((pairwise_sortStr _).and hnodup).imp (fun h => lt_of_le_of_ne h.1 h.2)

theorem SeenSound.ext {a b : List Str} (ha : SeenSound a) (hb : SeenSound b)
    (h : ∀ who, who ∈ a ↔ who ∈ b) : a = b := by
  have hperm : a.Perm b := (List.perm_ext_iff_of_nodup ha.nodup hb.nodup).2 h
  exact hperm.eq_of_pairwise (fun _ _ _ _ hab hba => absurd (hab.trans hba) (lt_irrefl _)) ha hb

/-- When what both have is no more than mine, theirs is nothing new. -/
theorem subset_of_length_storeSeen {theirs mine : List Str} (hm : SeenSound mine)
    (h : (storeSeen theirs mine).length = mine.length) :
    ∀ who ∈ theirs, who ∈ mine := by
  have hsub : mine ⊆ storeSeen theirs mine := fun who hw => mem_storeSeen.2 (Or.inr hw)
  have hperm : mine.Perm (storeSeen theirs mine) :=
    (List.subperm_of_subset hm.nodup hsub).perm_of_length_le h.le
  intro who hw
  exact hperm.mem_iff.2 (mem_storeSeen.2 (Or.inl hw))

/-! ## What one entry met does to the map -/

/-- Each entry is kept under its own path. -/
def PathMap.Keyed (map : PathMap) : Prop := ∀ p e, map.lookup p = some e → e.path = p

@[simp] theorem lookup_put_self (map : PathMap) (e : Entry) :
    (map.put e).lookup e.path = some e := AList.lookup_insert map

theorem lookup_put_ne {map : PathMap} {e : Entry} {p : Str} (h : p ≠ e.path) :
    (map.put e).lookup p = map.lookup p := AList.lookup_insert_ne h

theorem PathMap.Keyed.put {map : PathMap} (h : map.Keyed) (e : Entry) : (map.put e).Keyed := by
  intro p e' he'
  by_cases hp : p = e.path
  · subst hp
    rw [lookup_put_self] at he'
    exact congrArg Entry.path (Option.some.inj he').symm
  · rw [lookup_put_ne hp] at he'
    exact h p e' he'

theorem keyed_empty : PathMap.Keyed ∅ := fun p e h => by simp at h

theorem storeOtherName_ne_path (e : Entry) : storeOtherName e ≠ e.path := by
  intro h
  have := congrArg List.length h
  simp [storeOtherName, asc] at this

/-- A conflict is what `meetNow` resolves. -/
theorem meetNow_of_conflict {members : List Str} {me : Str} {theirs mine : Entry}
    (h : conflict theirs mine) : meetNow members me theirs mine
      = some (resolved members me theirs mine) := by
  unfold meetNow
  rcases h with h | ⟨h, hne⟩
  · simp [h]
  · simp [h, hne]

/-- And what is no conflict is one side after the other, or the one entry. -/
theorem not_conflict_iff {theirs mine : Entry} : ¬ conflict theirs mine ↔
    storeVvCmp theirs.vv mine.vv = .after ∨ storeVvCmp theirs.vv mine.vv = .before ∨
      (storeVvCmp theirs.vv mine.vv = .same ∧ sameEntry theirs mine) := by
  unfold conflict
  cases storeVvCmp theirs.vv mine.vv <;> simp

theorem meetAside_of_not_conflict {members : List Str} {me : Str} {theirs mine : Entry}
    (h : ¬ conflict theirs mine) : meetAside members me theirs mine = none := by
  unfold meetAside
  rw [if_neg h]

/-- What is kept aside is the loser, live, under its other name. -/
theorem meetAside_eq_some {members : List Str} {me : Str} {theirs mine kept : Entry}
    (h : meetAside members me theirs mine = some kept) :
    conflict theirs mine ∧ kept = setAside me (loser members theirs mine) ∧
      kept.deleted = false ∧ kept.hash ≠ (storeKeeps members theirs mine).hash := by
  unfold meetAside at h
  split at h
  next hc =>
    simp only at h
    split at h
    · exact absurd h (by simp)
    next hd =>
      push Not at hd
      have he := (Option.some.inj h).symm
      refine ⟨hc, he, ?_, ?_⟩
      · rw [he]
        simpa [setAside] using hd.1
      · rw [he]
        exact hd.2
  · exact absurd h (by simp)

theorem meetAside_path_ne {members : List Str} {me : Str} {theirs mine kept : Entry}
    (hpath : mine.path = theirs.path) (h : meetAside members me theirs mine = some kept) :
    kept.path ≠ theirs.path := by
  obtain ⟨-, rfl, -, -⟩ := meetAside_eq_some h
  have hloser : (loser members theirs mine).path = theirs.path := by
    rcases loser_eq_or members theirs mine with he | he <;> simp [he, hpath]
  have hne := storeOtherName_ne_path (loser members theirs mine)
  rwa [hloser] at hne

/-- The map after a loser is set aside, path by path. -/
theorem lookup_putAside (map : PathMap) (aside : Option Entry) (p : Str) :
    (putAside map aside).1.lookup p
      = match map.lookup p with
        | some e => some e
        | none => aside.filter (fun kept => decide (kept.path = p)) := by
  unfold putAside
  cases aside with
  | none => cases map.lookup p <;> rfl
  | some kept =>
      simp only
      by_cases hp : p = kept.path
      · subst hp
        cases h : map.lookup kept.path <;> simp [h, Option.filter]
      · have hpk : ¬ kept.path = p := fun he => hp he.symm
        split
        · cases map.lookup p <;> simp [Option.filter, hpk]
        · rw [lookup_put_ne hp]
          cases map.lookup p <;> simp [Option.filter, hpk]

section MeetOne

variable (members : List Str) (me : Str) (map : PathMap) (theirs : Entry)

theorem meetOne_of_none (h : map.lookup theirs.path = none) :
    meetOne members me map theirs = (map.put (taken me theirs), [taken me theirs]) := by
  unfold meetOne
  rw [h]

theorem meetOne_of_some {mine : Entry} (h : map.lookup theirs.path = some mine) :
    meetOne members me map theirs =
      match meetNow members me theirs mine with
      | some now => ((putAside map (meetAside members me theirs mine)).1.put now,
          (putAside map (meetAside members me theirs mine)).2 ++ [now])
      | none => putAside map (meetAside members me theirs mine) := by
  unfold meetOne
  rw [h]

theorem meetNow_path {mine now : Entry} (hpath : mine.path = theirs.path)
    (h : meetNow members me theirs mine = some now) : now.path = theirs.path := by
  unfold meetNow at h
  split at h
  · rw [← Option.some.inj h]; rfl
  · exact absurd h (by simp)
  · split at h
    · simp only at h
      split at h
      · exact absurd h (by simp)
      · rw [← Option.some.inj h]; exact hpath
    · rw [← Option.some.inj h]; rfl

variable {map theirs}

/-- What the path met is now. -/
theorem lookup_meetOne_self {mine : Entry} (hpath : mine.path = theirs.path)
    (h : map.lookup theirs.path = some mine) :
    (meetOne members me map theirs).1.lookup theirs.path
      = some ((meetNow members me theirs mine).getD mine) := by
  rw [meetOne_of_some members me map theirs h]
  have haside : (putAside map (meetAside members me theirs mine)).1.lookup theirs.path
      = some mine := by rw [lookup_putAside, h]
  cases hnow : meetNow members me theirs mine with
  | none => simpa [hnow] using haside
  | some now =>
      have := meetNow_path members me theirs hpath hnow
      simp only [Option.getD_some]
      rw [← this]
      exact lookup_put_self _ now

theorem lookup_meetOne_none (h : map.lookup theirs.path = none) :
    (meetOne members me map theirs).1.lookup theirs.path = some (taken me theirs) := by
  rw [meetOne_of_none members me map theirs h]
  exact lookup_put_self map (taken me theirs)

/-- Every other path the map had is as it was. -/
theorem lookup_meetOne_ne (hkeyed : map.Keyed) {p : Str} {e : Entry} (hp : p ≠ theirs.path)
    (h : map.lookup p = some e) : (meetOne members me map theirs).1.lookup p = some e := by
  cases hm : map.lookup theirs.path with
  | none =>
      rw [meetOne_of_none members me map theirs hm]
      rw [lookup_put_ne (by exact hp)]
      exact h
  | some mine =>
      rw [meetOne_of_some members me map theirs hm]
      have haside : (putAside map (meetAside members me theirs mine)).1.lookup p = some e := by
        rw [lookup_putAside, h]
      cases hnow : meetNow members me theirs mine with
      | none => exact haside
      | some now =>
          have hpath := meetNow_path members me theirs (hkeyed _ _ hm) hnow
          simp only
          rw [lookup_put_ne (by rw [hpath]; exact hp)]
          exact haside

/-- A path the map had not is one that is taken or one that is set aside. -/
theorem lookup_meetOne_new {p : Str} {e : Entry} (hkeyed : map.Keyed) (h : map.lookup p = none)
    (he : (meetOne members me map theirs).1.lookup p = some e) :
    (p = theirs.path ∧ e = taken me theirs) ∨
      (p ≠ theirs.path ∧ ∃ mine, map.lookup theirs.path = some mine ∧
        meetAside members me theirs mine = some e) := by
  cases hm : map.lookup theirs.path with
  | none =>
      by_cases hp : p = theirs.path
      · subst hp
        rw [lookup_meetOne_none members me hm] at he
        exact Or.inl ⟨rfl, (Option.some.inj he).symm⟩
      · rw [meetOne_of_none members me map theirs hm, lookup_put_ne (by exact hp), h] at he
        exact absurd he (by simp)
  | some mine =>
      have hp : p ≠ theirs.path := by
        rintro rfl
        rw [h] at hm
        exact absurd hm (by simp)
      refine Or.inr ⟨hp, mine, rfl, ?_⟩
      rw [meetOne_of_some members me map theirs hm] at he
      have haside : (putAside map (meetAside members me theirs mine)).1.lookup p = some e := by
        cases hnow : meetNow members me theirs mine with
        | none => simpa [hnow] using he
        | some now =>
            have hpath := meetNow_path members me theirs (hkeyed _ _ hm) hnow
            simp only [hnow] at he
            rwa [lookup_put_ne (by rw [hpath]; exact hp)] at he
      rw [lookup_putAside, h] at haside
      exact (Option.filter_eq_some_iff.1 haside).1

theorem keyed_putAside {map : PathMap} (hkeyed : map.Keyed) (aside : Option Entry) :
    (putAside map aside).1.Keyed := by
  unfold putAside
  split
  · split
    · exact hkeyed
    · exact hkeyed.put _
  · exact hkeyed

theorem keyed_meetOne (hkeyed : map.Keyed) : (meetOne members me map theirs).1.Keyed := by
  cases hm : map.lookup theirs.path with
  | none =>
      rw [meetOne_of_none members me map theirs hm]
      exact hkeyed.put _
  | some mine =>
      rw [meetOne_of_some members me map theirs hm]
      have haside := keyed_putAside hkeyed (meetAside members me theirs mine)
      split
      · exact haside.put _
      · exact haside

/-- What holds of the entries of the map, and of what comes of an entry met with one of them, holds
    of the entries the map then has, and of those that are not as they were. -/
theorem meetOne_all {P : Entry → Prop} (hmap : ∀ p e, map.lookup p = some e → P e)
    (htaken : P (taken me theirs))
    (hnow : ∀ mine now, P mine → meetNow members me theirs mine = some now → P now)
    (haside : ∀ mine kept, P mine → meetAside members me theirs mine = some kept → P kept) :
    (∀ p e, (meetOne members me map theirs).1.lookup p = some e → P e) ∧
      ∀ e ∈ (meetOne members me map theirs).2, P e := by
  have hput : ∀ (map : PathMap) (e : Entry), (∀ p e, map.lookup p = some e → P e) → P e →
      ∀ p e', (map.put e).lookup p = some e' → P e' := by
    intro map e hmap he p e' he'
    by_cases hp : p = e.path
    · rw [hp, lookup_put_self] at he'
      exact Option.some.inj he' ▸ he
    · rw [lookup_put_ne hp] at he'
      exact hmap p e' he'
  cases hm : map.lookup theirs.path with
  | none =>
      rw [meetOne_of_none members me map theirs hm]
      refine ⟨hput _ _ hmap htaken, fun e he => ?_⟩
      rw [List.mem_singleton.1 he]
      exact htaken
  | some mine =>
      have hmine := hmap _ _ hm
      have hkept : (∀ p e, (putAside map (meetAside members me theirs mine)).1.lookup p = some e →
          P e) ∧ ∀ e ∈ (putAside map (meetAside members me theirs mine)).2, P e := by
        unfold putAside
        split
        next kept hk =>
          have hP := haside mine kept hmine hk
          split
          · exact ⟨hmap, fun _ he => absurd he List.not_mem_nil⟩
          · refine ⟨hput _ _ hmap hP, fun e he => ?_⟩
            rw [List.mem_singleton.1 he]
            exact hP
        · exact ⟨hmap, fun _ he => absurd he List.not_mem_nil⟩
      rw [meetOne_of_some members me map theirs hm]
      split
      next now hn =>
        have hP := hnow mine now hmine hn
        refine ⟨hput _ _ hkept.1 hP, fun e he => ?_⟩
        rcases List.mem_append.1 he with he | he
        · exact hkept.2 e he
        · rw [List.mem_singleton.1 he]
          exact hP
      · exact hkept

end MeetOne

/-! ## What a whole meeting does, path by path -/

section MeetAll

variable (members : List Str) (me : Str)

theorem foldl_meetOne (es : List Entry) : ∀ acc : PathMap × List Entry,
    es.foldl (fun acc theirs =>
      let (map, changed) := meetOne members me acc.1 theirs
      (map, acc.2 ++ changed)) acc
      = ((meetAll members me acc.1 es).1, acc.2 ++ (meetAll members me acc.1 es).2) := by
  induction es with
  | nil => simp [meetAll]
  | cons t es ih =>
      intro acc
      unfold meetAll
      rw [List.foldl_cons, ih, List.foldl_cons, ih]
      simp

@[simp] theorem meetAll_nil (map : PathMap) : meetAll members me map [] = (map, []) := rfl

theorem meetAll_cons_pair (map : PathMap) (t : Entry) (es : List Entry) :
    meetAll members me map (t :: es)
      = ((meetAll members me (meetOne members me map t).1 es).1,
        (meetOne members me map t).2 ++ (meetAll members me (meetOne members me map t).1 es).2) := by
  conv_lhs => unfold meetAll
  rw [List.foldl_cons, foldl_meetOne]
  simp

theorem meetAll_cons (map : PathMap) (t : Entry) (es : List Entry) :
    (meetAll members me map (t :: es)).1
      = (meetAll members me (meetOne members me map t).1 es).1 := by
  rw [meetAll_cons_pair]

theorem meetAll_append (map : PathMap) (es fs : List Entry) :
    (meetAll members me map (es ++ fs)).1
      = (meetAll members me (meetAll members me map es).1 fs).1 := by
  induction es generalizing map with
  | nil => rfl
  | cons t es ih => rw [List.cons_append, meetAll_cons, ih, meetAll_cons]

variable {members me}

theorem putAside_unchanged {map : PathMap} {aside : Option Entry}
    (h : (putAside map aside).2 = []) : (putAside map aside).1 = map := by
  cases aside with
  | none => rfl
  | some kept =>
      simp only [putAside] at h ⊢
      split at h
      next hthere => rw [if_pos hthere]
      · exact absurd h (by simp)

/-- Where nothing is changed the map is as it was. -/
theorem meetOne_unchanged {map : PathMap} {t : Entry} (h : (meetOne members me map t).2 = []) :
    (meetOne members me map t).1 = map := by
  cases hm : map.lookup t.path with
  | none =>
      rw [meetOne_of_none members me map t hm] at h
      exact absurd h (by simp)
  | some mine =>
      rw [meetOne_of_some members me map t hm] at h ⊢
      split at h
      · exact absurd h (by simp)
      · exact putAside_unchanged h

theorem meetAll_unchanged {map : PathMap} {es : List Entry}
    (h : (meetAll members me map es).2 = []) : (meetAll members me map es).1 = map := by
  induction es generalizing map with
  | nil => rfl
  | cons t es ih =>
      rw [meetAll_cons_pair] at h ⊢
      obtain ⟨h1, h2⟩ := List.append_eq_nil_iff.1 h
      rw [ih h2, meetOne_unchanged h1]

theorem keyed_meetAll (members : List Str) (me : Str) {map : PathMap} (hkeyed : map.Keyed)
    (es : List Entry) : (meetAll members me map es).1.Keyed := by
  induction es generalizing map with
  | nil => exact hkeyed
  | cons t es ih =>
      rw [meetAll_cons]
      exact ih (keyed_meetOne members me hkeyed)

/-- A path none of them is of stays as it was. -/
theorem lookup_meetAll_ne {map : PathMap} (hkeyed : map.Keyed) {p : Str} {e : Entry}
    {es : List Entry} (hes : ∀ t ∈ es, p ≠ t.path) (h : map.lookup p = some e) :
    (meetAll members me map es).1.lookup p = some e := by
  induction es generalizing map with
  | nil => exact h
  | cons t es ih =>
      rw [meetAll_cons]
      have ht : p ≠ t.path := hes t List.mem_cons_self
      exact ih (keyed_meetOne members me hkeyed) (fun u hu => hes u (List.mem_cons_of_mem _ hu))
        (lookup_meetOne_ne members me hkeyed ht h)

/-- A path there is does not go. -/
theorem lookup_meetAll_isSome (members : List Str) (me : Str) {map : PathMap} (hkeyed : map.Keyed)
    {p : Str} {es : List Entry}
    (h : (map.lookup p).isSome ∨ ∃ t ∈ es, t.path = p) :
    ((meetAll members me map es).1.lookup p).isSome := by
  induction es generalizing map with
  | nil => simpa using h
  | cons t es ih =>
      rw [meetAll_cons]
      refine ih (keyed_meetOne members me hkeyed) ?_
      by_cases hp : p = t.path
      · subst hp
        left
        cases hm : map.lookup t.path with
        | none => rw [lookup_meetOne_none members me hm]; rfl
        | some mine => rw [lookup_meetOne_self members me (hkeyed _ _ hm) hm]; rfl
      · rcases h with h | ⟨u, hu, hup⟩
        · obtain ⟨e, he⟩ := Option.isSome_iff_exists.1 h
          exact Or.inl (by rw [lookup_meetOne_ne members me hkeyed hp he]; rfl)
        · rcases List.mem_cons.1 hu with rfl | hu
          · exact absurd hup.symm hp
          · exact Or.inr ⟨u, hu, hup⟩

/-- A path of one of them is what comes of the two entries, whatever else is met. -/
theorem lookup_meetAll_mem {map : PathMap} (hkeyed : map.Keyed) {es : List Entry}
    (hes : (es.map Entry.path).Nodup) {theirs mine : Entry} (ht : theirs ∈ es)
    (h : map.lookup theirs.path = some mine) :
    (meetAll members me map es).1.lookup theirs.path
      = some ((meetNow members me theirs mine).getD mine) := by
  induction es generalizing map with
  | nil => exact absurd ht List.not_mem_nil
  | cons t es ih =>
      rw [List.map_cons, List.nodup_cons] at hes
      rw [meetAll_cons]
      have hkeyed' : (meetOne members me map t).1.Keyed := keyed_meetOne members me hkeyed
      rcases List.mem_cons.1 ht with rfl | ht
      · refine lookup_meetAll_ne hkeyed' (fun u hu hp => ?_)
          (lookup_meetOne_self members me (hkeyed _ _ h) h)
        exact hes.1 (hp ▸ List.mem_map_of_mem hu)
      · have hne : theirs.path ≠ t.path := fun hp => hes.1 (hp ▸ List.mem_map_of_mem ht)
        exact ih hkeyed' hes.2 ht (lookup_meetOne_ne members me hkeyed hne h)

theorem meetAll_all {P : Entry → Prop} {map : PathMap} {es : List Entry}
    (hmap : ∀ p e, map.lookup p = some e → P e) (htaken : ∀ t ∈ es, P (taken me t))
    (hnow : ∀ t ∈ es, ∀ mine now, P mine → meetNow members me t mine = some now → P now)
    (haside : ∀ t ∈ es, ∀ mine kept, P mine → meetAside members me t mine = some kept → P kept) :
    (∀ p e, (meetAll members me map es).1.lookup p = some e → P e) ∧
      ∀ e ∈ (meetAll members me map es).2, P e := by
  induction es generalizing map with
  | nil => exact ⟨hmap, fun _ he => absurd he List.not_mem_nil⟩
  | cons t es ih =>
      rw [meetAll_cons_pair]
      have hone := meetOne_all members me hmap (htaken t List.mem_cons_self)
        (hnow t List.mem_cons_self) (haside t List.mem_cons_self)
      have hrest := ih hone.1 (fun u hu => htaken u (List.mem_cons_of_mem _ hu))
        (fun u hu => hnow u (List.mem_cons_of_mem _ hu))
        (fun u hu => haside u (List.mem_cons_of_mem _ hu))
      exact ⟨hrest.1, fun e he => (List.mem_append.1 he).elim (hone.2 e) (hrest.2 e)⟩

end MeetAll

end ChrysaLisp
