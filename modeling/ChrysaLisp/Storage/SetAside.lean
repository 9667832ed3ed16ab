import ChrysaLisp.Storage.Mesh

set_option autoImplicit false

/-! # Is what loses a path kept

Of two live entries of a path with different objects one keeps the path, and the other is kept
under another name, `storeOtherName`. It is put there only if there is no entry of that name, and
theirs may bear the name too, further on in the same list. So the object of the loser is live after
the meeting where the name is free: where what bears it, here or in what is met after, is no entry
but a live one of that object (`loser_live`). A name that was set aside before and is deleted is
not free, and then the loser is gone (`setAside_fails`). -/

namespace ChrysaLisp

/-- There is a live path of the map that is this object. -/
def HasLive (map : PathMap) (hash : Str) : Prop :=
  ∃ p e, map.lookup p = some e ∧ e.deleted = false ∧ e.hash = hash

/-- In a meeting of `pre ++ theirs :: post` into a map, `theirs` and the entry there is for its
    path when it is met are live and of different objects, and one of them is to keep the path. -/
structure Clash (members : List Str) (me : Str) (map : PathMap) (pre : List Entry)
    (theirs mine : Entry) : Prop where
  lookup : (meetAll members me map pre).1.lookup theirs.path = some mine
  conflict : conflict theirs mine
  theirsLive : theirs.deleted = false
  mineLive : mine.deleted = false
  apart : theirs.hash ≠ mine.hash

/-- An entry of theirs leaves the object of the live entry it is set against live: it is that
    object itself, or it does not come after it, and no delete keeps the path from it. -/
def Leaves (members : List Str) (theirs mine : Entry) : Prop :=
  (theirs.deleted = false ∧ theirs.hash = mine.hash) ∨
    (storeVvCmp theirs.vv mine.vv ≠ .after ∧
      (conflict theirs mine → storeKeeps members theirs mine = theirs → theirs.deleted = false))

/-- **The other name is free**, in a meeting of `pre ++ theirs :: post`: what bears the name of the
    loser when `theirs` is met, if anything, is a live entry of its object, and what is met under
    the name after leaves that object live. -/
def NameFree (members : List Str) (me : Str) (map : PathMap) (pre : List Entry)
    (theirs mine : Entry) (post : List Entry) : Prop :=
  let other := loser members theirs mine
  let there := (meetAll members me map pre).1.lookup (storeOtherName other)
  (∀ e, there = some e → e.deleted = false ∧ e.hash = other.hash) ∧
    ∀ t ∈ post, t.path = storeOtherName other →
      Leaves members t (there.getD (setAside me other))

section Meeting

variable {members : List Str} {me : Str} {map : PathMap}

theorem loser_of_keeps {theirs mine : Entry} (h : storeKeeps members theirs mine = theirs) :
    loser members theirs mine = mine := by
  unfold loser
  rw [if_pos h]

/-- Two live entries of different objects: what loses is live, and is not the object that keeps
    the path. -/
theorem loser_of_live (members : List Str) {theirs mine : Entry} (ht : theirs.deleted = false)
    (hm : mine.deleted = false) (hne : theirs.hash ≠ mine.hash) :
    (loser members theirs mine).deleted = false ∧
      (loser members theirs mine).hash ≠ (storeKeeps members theirs mine).hash := by
  unfold loser
  rcases storeKeeps_eq_or members theirs mine with h | h
  · rw [if_pos h, h]
    exact ⟨hm, hne.symm⟩
  · rw [h]
    split
    next heq => exact absurd (congrArg Entry.hash heq.symm) hne
    · exact ⟨ht, hne⟩

/-- So it is set aside. -/
theorem Clash.meetAside {pre : List Entry} {theirs mine : Entry}
    (h : Clash members me map pre theirs mine) :
    meetAside members me theirs mine = some (setAside me (loser members theirs mine)) := by
  obtain ⟨hlive, hne⟩ := loser_of_live members h.theirsLive h.mineLive h.apart
  unfold ChrysaLisp.meetAside
  rw [if_pos h.conflict]
  simp only
  rw [if_neg (by simp [hlive, hne])]

/-- What bears the other name once the entry is met. -/
theorem Clash.lookup_other (hkeyed : map.Keyed) {pre : List Entry} {theirs mine : Entry}
    (h : Clash members me map pre theirs mine) :
    (meetAll members me map (pre ++ [theirs])).1.lookup
        (storeOtherName (loser members theirs mine))
      = some (((meetAll members me map pre).1.lookup
          (storeOtherName (loser members theirs mine))).getD
            (setAside me (loser members theirs mine))) := by
  have hk := keyed_meetAll members me hkeyed pre
  have hpath : mine.path = theirs.path := hk _ _ h.lookup
  have hne : storeOtherName (loser members theirs mine) ≠ theirs.path :=
    meetAside_path_ne hpath h.meetAside
  rw [meetAll_append, meetAll_cons, meetAll_nil]
  cases hthere : (meetAll members me map pre).1.lookup
      (storeOtherName (loser members theirs mine)) with
  | some e => exact lookup_meetOne_ne members me hk hne hthere
  | none =>
      rw [meetOne_of_some members me _ theirs h.lookup, meetNow_of_conflict h.conflict, h.meetAside]
      simp only [Option.getD_none]
      rw [lookup_put_ne (by exact hne), lookup_putAside, hthere]
      simp [setAside]

/-- What is left where an entry leaves a live one: a live entry of its object, but for a conflict
    that theirs wins with another object. -/
theorem live_meetNow (me : Str) {t a : Entry} (ha : a.deleted = false) (h : Leaves members t a) :
    (((meetNow members me t a).getD a).deleted = false ∧
        ((meetNow members me t a).getD a).hash = a.hash) ∨
      (conflict t a ∧ t.deleted = false ∧ t.hash ≠ a.hash ∧ storeKeeps members t a = t) := by
  by_cases hc : conflict t a
  · rw [meetNow_of_conflict hc]
    simp only [Option.getD_some, resolved]
    rcases storeKeeps_eq_or members t a with hk | hk
    · rw [hk]
      by_cases hhash : t.hash = a.hash
      · refine Or.inl ⟨?_, hhash⟩
        rcases h with h | h
        · exact h.1
        · exact h.2 hc hk
      · refine Or.inr ⟨hc, ?_, hhash, rfl⟩
        rcases h with h | h
        · exact h.1
        · exact h.2 hc hk
    · rw [hk]
      exact Or.inl ⟨ha, rfl⟩
  · left
    rcases not_conflict_iff.1 hc with hcmp | hcmp | ⟨hcmp, hsame⟩
    · rcases h with h | h
      · simpa [meetNow, hcmp, taken] using h
      · exact absurd hcmp h.1
    · simp [meetNow, hcmp, ha]
    · simp only [meetNow, hcmp, hsame, and_self, if_true]
      split <;> simp [ha]

/-- **A live entry stays so** through the rest of a meeting in which every other name is free, if
    what is met under its own path leaves it: if it loses that path in turn, it is kept under a
    further name. By induction on what is still to be met. -/
theorem hasLive_of_free (hkeyed : map.Keyed) {es : List Entry} (hes : (es.map Entry.path).Nodup)
    (hfree : ∀ pre theirs post mine, es = pre ++ theirs :: post →
      Clash members me map pre theirs mine → NameFree members me map pre theirs mine post)
    {pre post : List Entry} (hsplit : es = pre ++ post) {p : Str} {a : Entry}
    (hp : (meetAll members me map pre).1.lookup p = some a) (ha : a.deleted = false)
    (hleaves : ∀ t ∈ post, t.path = p → Leaves members t a) :
    HasLive (meetAll members me map es).1 a.hash := by
  induction post generalizing pre p a with
  | nil =>
      rw [List.append_nil] at hsplit
      subst hsplit
      exact ⟨p, a, hp, ha, rfl⟩
  | cons t post ih =>
      have hk := keyed_meetAll members me hkeyed pre
      have hsplit' : es = (pre ++ [t]) ++ post := by rw [hsplit]; simp
      have hnext : (meetAll members me map (pre ++ [t])).1
          = (meetOne members me (meetAll members me map pre).1 t).1 := by
        rw [meetAll_append, meetAll_cons, meetAll_nil]
      by_cases hpt : p = t.path
      · subst hpt
        -- nothing else in the list is of this path
        have hrest : ∀ u ∈ post, u.path ≠ t.path := by
          intro u hu heq
          rw [hsplit', List.map_append, List.map_append] at hes
          exact (List.nodup_append.1 hes).2.2 t.path (by simp) u.path (List.mem_map_of_mem hu)
            heq.symm
        have hself := lookup_meetOne_self members me (hk _ _ hp) hp
        rw [← hnext] at hself
        rcases live_meetNow me ha (hleaves t List.mem_cons_self rfl) with
          ⟨hlive, hhash⟩ | ⟨hc, htlive, hne, hkeeps⟩
        · rw [← hhash]
          exact ih hsplit' hself hlive (fun u hu hup => absurd hup (hrest u hu))
        · -- it loses the path, and is set aside
          have hclash : Clash members me map pre t a := ⟨hp, hc, htlive, ha, hne⟩
          have hother := hclash.lookup_other hkeyed
          obtain ⟨hthere, hafter⟩ := hfree pre t post a hsplit hclash
          rw [loser_of_keeps hkeeps] at hother hthere hafter
          cases hl : (meetAll members me map pre).1.lookup (storeOtherName a) with
          | none =>
              rw [hl] at hother hafter
              exact ih (a := setAside me a) hsplit' hother ha hafter
          | some b =>
              rw [hl] at hother hafter
              have hb := hthere b hl
              rw [← hb.2]
              exact ih hsplit' hother hb.1 hafter
      · have hother := lookup_meetOne_ne members me hk hpt hp
        rw [← hnext] at hother
        exact ih hsplit' hother ha (fun u hu => hleaves u (List.mem_cons_of_mem _ hu))

/-- The object of every loser is live after a meeting in which every other name is free. -/
theorem loser_live_of_free (hkeyed : map.Keyed) {es : List Entry}
    (hes : (es.map Entry.path).Nodup)
    (hfree : ∀ pre theirs post mine, es = pre ++ theirs :: post →
      Clash members me map pre theirs mine → NameFree members me map pre theirs mine post)
    {pre post : List Entry} {theirs mine : Entry} (hsplit : es = pre ++ theirs :: post)
    (hclash : Clash members me map pre theirs mine) :
    HasLive (meetAll members me map es).1 (loser members theirs mine).hash := by
  have hsplit' : es = (pre ++ [theirs]) ++ post := by rw [hsplit]; simp
  have hother := hclash.lookup_other hkeyed
  obtain ⟨hthere, hafter⟩ := hfree pre theirs post mine hsplit hclash
  cases hl : (meetAll members me map pre).1.lookup
      (storeOtherName (loser members theirs mine)) with
  | none =>
      rw [hl] at hother hafter
      have hlive := (loser_of_live members hclash.theirsLive hclash.mineLive
        hclash.apart).1
      exact hasLive_of_free (a := setAside me (loser members theirs mine)) hkeyed hes hfree
        hsplit' hother hlive hafter
  | some b =>
      rw [hl] at hother hafter
      have hb := hthere b hl
      rw [← hb.2]
      exact hasLive_of_free hkeyed hes hfree hsplit' hother hb.1 hafter

end Meeting

/-! ## Over the runs of a mesh -/

namespace Mesh

variable {ι : Type} [DecidableEq ι] {sha256 : Str → Str}

/-- Every other name is free in the meeting of a list into a store. -/
def NamesFree (mesh : Mesh ι) (i : ι) (k : ℕ) : Prop :=
  ∀ pre theirs post mine, mesh.list k = pre ++ theirs :: post →
    Clash (mesh.stores i).memberList (mesh.stores i).member (mesh.stores i).map pre theirs mine →
    NameFree (mesh.stores i).memberList (mesh.stores i).member (mesh.stores i).map pre theirs mine
      post

/-- Of every two live entries of different objects that are set against each other in the meeting
    of a list into a store, the object of the one that loses the path is live after it. -/
def NothingLost (mesh : Mesh ι) (i : ι) (k : ℕ) : Prop :=
  ∀ pre theirs post mine, mesh.list k = pre ++ theirs :: post →
    Clash (mesh.stores i).memberList (mesh.stores i).member (mesh.stores i).map pre theirs mine →
    HasLive ((mesh.stores i).meet (mesh.list k)).1.map
      (loser (mesh.stores i).memberList theirs mine).hash

/-- **Nothing is lost where the other names are free**, in any meeting a run can come to. -/
theorem loser_live {mesh : Mesh ι} (hopen : mesh.Opened) (es : List (MeshEvent ι)) (i : ι) (k : ℕ)
    (hfree : (Run.run (step sha256) mesh es).NamesFree i k) :
    (Run.run (step sha256) mesh es).NothingLost i k := by
  have hsound : (Run.run (step sha256) mesh es).Sound sha256 := sound_run hopen es
  intro pre theirs post mine hsplit hclash
  exact loser_live_of_free (hsound.map i).keyed (hsound.list_sound k).1 hfree hsplit hclash

/-! ## A name that was set aside before

Two members write the path `song` apart. The one that hears of the other sets `b song` aside, and
then deletes what it set aside. The other writes `b song` again. -/

/-- The name of the object that is a song. -/
def songHash (data : Str) : Str := songSha256 (storeManifestText 6 [songSha256 data])

/-- The two write the path apart, and one hears of the other. -/
def songsApart : List (MeshEvent (Fin 2)) :=
  [.write 0 (putSong (asc "b song")), .write 1 (putSong (asc "a song")), .take 0]

/-- It deletes what it set aside, and the other writes the same again. -/
def songsApartAgain : List (MeshEvent (Fin 2)) :=
  songsApart ++ [.meet 1 0, .write 1 (.delete (asc "song~1874E113") none),
    .write 0 (putSong (asc "b song")), .take 0]

/-- An entry of the path `song`. -/
def songEntry (data : Str) (vv : Vv) (who : Str) : Entry where
  path := asc "song"
  hash := songHash data
  bytes := 6
  vv := vv
  writer := who
  seen := [who]
  deleted := false
  copies := 0

/-- **What is written again is lost**: the name it would be kept under is deleted, and so there. -/
theorem setAside_fails : ¬ ∀ (mesh : Mesh (Fin 2)) (es : List (MeshEvent (Fin 2))) (i : Fin 2)
    (k : ℕ), mesh.Opened → (Run.run (step songSha256) mesh es).NothingLost i k := by
  intro h
  have hlive := h meshOfTwo songsApartAgain 1 1 opened_meshOfTwo []
    (songEntry (asc "b song") [(asc "aaaa", 2)] (asc "aaaa")) []
    (songEntry (asc "a song") [(asc "aaaa", 1), (asc "bbbb", 1)] (asc "bbbb"))
    (by decide +kernel)
    ⟨by decide +kernel, by decide +kernel, rfl, rfl, by decide +kernel⟩
  obtain ⟨p, e, hp, hlive⟩ := hlive
  have hnone : ∀ x ∈ ((((Run.run (step songSha256) meshOfTwo songsApartAgain).stores 1).meet
      ((Run.run (step songSha256) meshOfTwo songsApartAgain).list 1)).1.map).entries,
      ¬ (x.2.deleted = false ∧ x.2.hash = songHash (asc "b song")) := by
    decide +kernel
  exact hnone ⟨p, e⟩ (AList.mem_lookup_iff.1 hp) ⟨hlive.1, hlive.2.trans (by decide +kernel)⟩

theorem nothingLost_songsApart :
    (Run.run (step songSha256) meshOfTwo songsApart).NothingLost 1 0 := by
  refine loser_live opened_meshOfTwo songsApart 1 0 (fun pre theirs post mine hsplit hclash => ?_)
  have hlist : (Run.run (step songSha256) meshOfTwo songsApart).list 0
      = [songEntry (asc "b song") [(asc "aaaa", 1)] (asc "aaaa")] := by decide +kernel
  rw [hlist] at hsplit
  obtain ⟨rfl, rfl, rfl⟩ : pre = [] ∧ theirs = songEntry (asc "b song") [(asc "aaaa", 1)] (asc "aaaa")
      ∧ post = [] := by
    cases pre with
    | nil => simpa [eq_comm] using hsplit
    | cons e pre => simp at hsplit
  have hmine : ((Run.run (step songSha256) meshOfTwo songsApart).stores 1).map.lookup (asc "song")
      = some (songEntry (asc "a song") [(asc "bbbb", 1)] (asc "bbbb")) := by decide +kernel
  obtain rfl := Option.some.inj (hmine.symm.trans hclash.lookup)
  have hfree : ((Run.run (step songSha256) meshOfTwo songsApart).stores 1).map.lookup
      (storeOtherName (songEntry (asc "b song") [(asc "aaaa", 1)] (asc "aaaa"))) = none := by
    decide +kernel
  have hloser : loser ((Run.run (step songSha256) meshOfTwo songsApart).stores 1).memberList
      (songEntry (asc "b song") [(asc "aaaa", 1)] (asc "aaaa"))
      (songEntry (asc "a song") [(asc "bbbb", 1)] (asc "bbbb"))
      = songEntry (asc "b song") [(asc "aaaa", 1)] (asc "aaaa") := by decide +kernel
  refine ⟨fun e he => ?_, fun t ht => absurd ht List.not_mem_nil⟩
  rw [meetAll_nil, hloser, hfree] at he
  exact absurd he (by simp)

end Mesh

end ChrysaLisp
