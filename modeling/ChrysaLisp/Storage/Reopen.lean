import ChrysaLisp.Storage.Journal
import ChrysaLisp.Storage.Mesh

set_option autoImplicit false

/-! # Is a store that is opened again as it was

What is on the volume is a map that was written and entries in the journal, and what a store that is
opened has is the map with those of the entries that are later taken in, in order (`replay`). That
is what the store had in memory, of every path what it is, as long as nothing is still to be written
(`Journaled`). Every step keeps this, where what is set can be written as a line, the volume has
room for the map, nothing met at the same counts changes what a path is, and no line left in the
journal from before passes for one of it (`OpenStore.reopened`). -/

namespace ChrysaLisp

open FlatArray

/-- What a path is: its object and how long that is, is it deleted, who has written it how many
    times, and how many copies there are to be. -/
def Entry.what (e : Entry) : Str × ℕ × Bool × Vv × ℕ := (e.hash, e.bytes, e.deleted, e.vv, e.copies)

instance decidableEq_written : DecidableEq (Vv × ℕ) := inferInstance

/-- Every path of the one map is what it is of the other. -/
def SameWhat (a b : PathMap) : Prop :=
  ∀ p, (a.lookup p).map Entry.what = (b.lookup p).map Entry.what

/-- The entries taken in, in order, each if it is later. -/
def replay (map : PathMap) (es : List Entry) : PathMap :=
  es.foldl (fun map e => if isLater map e then map.put e else map) map

/-! ## Entries taken in -/

section Replay

variable {a b : PathMap} {e : Entry}

@[simp] theorem replay_nil (map : PathMap) : replay map [] = map := rfl

@[simp] theorem replay_cons (map : PathMap) (e : Entry) (es : List Entry) :
    replay map (e :: es) = replay (if isLater map e then map.put e else map) es := rfl

theorem replay_append (map : PathMap) (es fs : List Entry) :
    replay map (es ++ fs) = replay (replay map es) fs := List.foldl_append

/-- The map after entries, whatever the number that were taken. -/
theorem foldl_journalTake (es : List Entry) (read : PathMap × ℕ) :
    (es.foldl journalTake read).1 = replay read.1 es := by
  induction es generalizing read with
  | nil => rfl
  | cons e es ih =>
      rw [List.foldl_cons, ih, replay_cons, journalTake]
      split <;> rfl

theorem SameWhat.refl (a : PathMap) : SameWhat a a := fun _ => rfl

theorem SameWhat.symm (h : SameWhat a b) : SameWhat b a := fun p => (h p).symm

theorem SameWhat.trans {c : PathMap} (h : SameWhat a b) (h' : SameWhat b c) : SameWhat a c :=
  fun p => (h p).trans (h' p)

/-- An entry is as late to the one map as to the other. -/
theorem SameWhat.isLater (h : SameWhat a b) (e : Entry) : isLater a e = isLater b e := by
  have hp := h e.path
  unfold ChrysaLisp.isLater
  cases ha : a.lookup e.path with
  | none =>
      cases hb : b.lookup e.path with
      | none => rfl
      | some y => rw [ha, hb] at hp; exact absurd hp (by simp)
  | some x =>
      cases hb : b.lookup e.path with
      | none => rw [ha, hb] at hp; exact absurd hp (by simp)
      | some y =>
          rw [ha, hb] at hp
          have hvv : x.vv = y.vv :=
            congrArg (fun w => w.2.2.2.1) (Option.some.inj hp : x.what = y.what)
          simp only [hvv]

theorem SameWhat.put (h : SameWhat a b) (e : Entry) : SameWhat (a.put e) (b.put e) := by
  intro p
  by_cases hp : p = e.path
  · rw [hp, lookup_put_self, lookup_put_self]
  · rw [lookup_put_ne hp, lookup_put_ne hp]
    exact h p

/-- An entry that says of its path what is so already. -/
theorem SameWhat.put_same (h : SameWhat a b) {mine : Entry} (hm : b.lookup e.path = some mine)
    (he : e.what = mine.what) : SameWhat a (b.put e) := by
  intro p
  by_cases hp : p = e.path
  · rw [h p, hp, lookup_put_self, hm, Option.map_some, Option.map_some, he]
  · rw [h p, lookup_put_ne hp]

theorem SameWhat.replay (h : SameWhat a b) (es : List Entry) :
    SameWhat (replay a es) (replay b es) := by
  induction es generalizing a b with
  | nil => exact h
  | cons e es ih =>
      rw [replay_cons, replay_cons, h.isLater e]
      split
      · exact ih (h.put e)
      · exact ih h

/-- Maps that have the same entries take in the same. -/
theorem lookup_replay (h : ∀ p, a.lookup p = b.lookup p) (es : List Entry) (p : Str) :
    (ChrysaLisp.replay a es).lookup p = (ChrysaLisp.replay b es).lookup p := by
  induction es generalizing a b with
  | nil => exact h p
  | cons e es ih =>
      have hlater : ChrysaLisp.isLater a e = ChrysaLisp.isLater b e := by
        unfold ChrysaLisp.isLater
        rw [h e.path]
      rw [replay_cons, replay_cons, hlater]
      split
      · refine ih (fun p => ?_)
        by_cases hp : p = e.path
        · rw [hp, lookup_put_self, lookup_put_self]
        · rw [lookup_put_ne hp, lookup_put_ne hp]
          exact h p
      · exact ih h

/-- Entries that are sound, and that can be written. -/
def Fit (e : Entry) : Prop := Store.EntrySound e ∧ e.Written

/-- A map of such entries. -/
structure MapFit (map : PathMap) : Prop where
  keyed : map.Keyed
  entry : ∀ p e, map.lookup p = some e → Fit e

theorem mapFit_empty : MapFit ∅ := ⟨keyed_empty, fun p e h => by simp at h⟩

theorem MapFit.sound {map : PathMap} (h : MapFit map) : Store.MapSound map :=
  ⟨h.keyed, fun p e he => (h.entry p e he).1⟩

theorem MapFit.put {map : PathMap} (h : MapFit map) (he : Fit e) : MapFit (map.put e) := by
  refine ⟨h.keyed.put e, fun p e' he' => ?_⟩
  by_cases hp : p = e.path
  · rw [hp, lookup_put_self] at he'
    exact Option.some.inj he' ▸ he
  · rw [lookup_put_ne hp] at he'
    exact h.entry p e' he'

theorem MapFit.replay {map : PathMap} (h : MapFit map) {es : List Entry} (hes : ∀ e ∈ es, Fit e) :
    MapFit (replay map es) := by
  induction es generalizing map with
  | nil => exact h
  | cons e es ih =>
      have hrest := fun e' he' => hes e' (List.mem_cons_of_mem _ he')
      rw [replay_cons]
      split
      · exact ih (h.put (hes e List.mem_cons_self)) hrest
      · exact ih h hrest

end Replay

/-! ## What a write and a meeting set is later -/

section Later

variable {a map : PathMap} {members : List Str} {me : Str} {theirs : Entry}

/-- An entry met at the same counts leaves what the path is as it was. -/
def Settles (members : List Str) (me : Str) (theirs mine : Entry) : Prop :=
  storeVvCmp theirs.vv mine.vv = .same →
    sameEntry theirs mine ∨ (resolved members me theirs mine).what = mine.what

instance (members : List Str) (me : Str) (theirs mine : Entry) :
    Decidable (Settles members me theirs mine) := inferInstanceAs (Decidable (_ → _))

/-- What comes of a path that is met is later, or is what the path was. -/
theorem later_or_same_of_meetNow {mine now : Entry} (ht : VvSound theirs.vv) (hm : VvSound mine.vv)
    (hs : Settles members me theirs mine) (h : meetNow members me theirs mine = some now) :
    storeVvCmp now.vv mine.vv = .after ∨ now.what = mine.what := by
  by_cases hc : conflict theirs mine
  · rw [meetNow_of_conflict hc] at h
    obtain rfl := Option.some.inj h
    rcases hc with hapart | ⟨hsame, hne⟩
    · refine Or.inl ?_
      show storeVvCmp (storeVvMerge theirs.vv mine.vv) mine.vv = .after
      rw [storeVvCmp_after_iff (vvSound_merge ht hm) hm]
      refine ⟨vvLe_merge_right ht hm, fun hle => ?_⟩
      have hnot := (storeVvCmp_apart_iff ht hm).1 hapart
      exact hnot.1 ((vvLe_merge_left ht hm).trans hle)
    · exact Or.inr ((hs hsame).resolve_left hne)
  · unfold meetNow at h
    rcases not_conflict_iff.1 hc with hafter | hbefore | ⟨hsame, heq⟩
    · rw [hafter] at h
      obtain rfl := Option.some.inj h
      exact Or.inl hafter
    · rw [hbefore] at h
      exact absurd h (by simp)
    · simp only [hsame, heq, and_self, if_true] at h
      split at h
      · exact absurd h (by simp)
      · obtain rfl := Option.some.inj h
        exact Or.inr rfl

theorem isLater_of_none {e : Entry} (h : map.lookup e.path = none) : isLater map e = true := by
  unfold isLater
  rw [h]

theorem isLater_of_some {e mine : Entry} (h : map.lookup e.path = some mine) :
    isLater map e = decide (storeVvCmp e.vv mine.vv = .after) := by
  unfold isLater
  rw [h]

/-- What is kept aside is of a path there was not. -/
theorem sameWhat_putAside (h : SameWhat a map) (aside : Option Entry) :
    SameWhat (replay a (putAside map aside).2) (putAside map aside).1 := by
  unfold putAside
  split
  next kept =>
    split
    · exact h
    next hnone =>
      have hl : map.lookup kept.path = none := by simpa using hnone
      rw [replay_cons, replay_nil, h.isLater, isLater_of_none hl]
      exact h.put kept
  · exact h

/-- **One entry met**: taking in what is not as it was leaves the paths what they now are. -/
theorem sameWhat_meetOne (h : SameWhat a map) (hmap : Store.MapSound map)
    (ht : Store.EntrySound theirs)
    (hs : ∀ mine, map.lookup theirs.path = some mine → Settles members me theirs mine) :
    SameWhat (replay a (meetOne members me map theirs).2) (meetOne members me map theirs).1 := by
  cases hm : map.lookup theirs.path with
  | none =>
      have hl : map.lookup (taken me theirs).path = none := hm
      rw [meetOne_of_none members me map theirs hm, replay_cons, replay_nil, h.isLater,
        isLater_of_none hl]
      exact h.put _
  | some mine =>
      have hpath := hmap.keyed _ _ hm
      have haside := sameWhat_putAside h (meetAside members me theirs mine)
      rw [meetOne_of_some members me map theirs hm]
      split
      next now hnow =>
        have hl : (putAside map (meetAside members me theirs mine)).1.lookup now.path
            = some mine := by
          rw [meetNow_path members me theirs hpath hnow, lookup_putAside, hm]
        rw [replay_append, replay_cons, replay_nil, haside.isLater, isLater_of_some hl]
        rcases later_or_same_of_meetNow ht.vv (hmap.entry _ _ hm).vv (hs mine hm) hnow with hw | hw
        · rw [decide_eq_true hw]
          exact haside.put now
        · split
          · exact haside.put now
          · exact haside.put_same hl hw
      · exact haside

/-- No entry of the list, when it is come to, changes what a path is at the same counts. -/
def AllSettle (members : List Str) (me : Str) : PathMap → List Entry → Prop
  | _, [] => True
  | map, t :: ts => (∀ mine ∈ map.lookup t.path, Settles members me t mine) ∧
      AllSettle members me (meetOne members me map t).1 ts

/-- **A whole meeting.** -/
theorem sameWhat_meetAll {es : List Entry} (h : SameWhat a map) (hmap : Store.MapSound map)
    (hes : ∀ t ∈ es, Store.EntrySound t) (hs : AllSettle members me map es) :
    SameWhat (replay a (meetAll members me map es).2) (meetAll members me map es).1 := by
  induction es generalizing a map with
  | nil => exact h
  | cons t es ih =>
      have ht := hes t List.mem_cons_self
      rw [meetAll_cons_pair]
      simp only
      rw [replay_append]
      have hone : Store.MapSound (meetAll members me map [t]).1 :=
        Store.mapSound_meetAll hmap (fun e he => List.mem_singleton.1 he ▸ ht)
      exact ih (sameWhat_meetOne h hmap ht hs.1) hone
        (fun u hu => hes u (List.mem_cons_of_mem _ hu)) hs.2

end Later

/-! ## Reading the journal -/

section Read

variable {sha256 : Str → Str} {count : ℕ}

/-- The mark of a line, what it marks, and the line feed. -/
theorem storeJournalMark_eq (hsha : ∀ data, (sha256 data).length = 32) (count : ℕ) (line : Str) :
    ∃ mark : Str, mark.length = 9 ∧ 10 ∉ mark ∧
      storeJournalMark sha256 count line = mark ++ line ++ storeLf := by
  refine ⟨(hexEncode (sha256 (strNum count ++ asc " " ++ line))).take 8 ++ asc " ", ?_, ?_, rfl⟩
  · rw [List.length_append, List.length_take, length_hexEncode, hsha]
    rfl
  · rw [List.mem_append, not_or]
    refine ⟨fun hin => ?_, by decide⟩
    have := le_of_mem_hexEncode (List.mem_of_mem_take hin)
    exact absurd this.1 (by decide)

/-- A line that was added is read as the entry it was. -/
theorem journalLine_mark (hsha : ∀ data, (sha256 data).length = 32) (count : ℕ) {e : Entry}
    (he : e.Written) (before after : Str) :
    journalLine sha256 (before ++ storeJournalMark sha256 count (storeEntryLine e) ++ after) count
        before.length
      = some (e, before.length + (storeJournalMark sha256 count (storeEntryLine e)).length) := by
  obtain ⟨mark, hlen, hlf, heq⟩ := storeJournalMark_eq hsha count (storeEntryLine e)
  have hpart := part_storeEntryLine he
  have hpos : 0 < (storeEntryLine e).length := List.length_pos_iff.2 hpart.1
  set line := storeEntryLine e with hline
  set text := before ++ storeJournalMark sha256 count line ++ after with htext
  have htext' : text = before ++ ((mark ++ line) ++ 10 :: after) := by
    rw [htext, heq, storeLf]
    simp
  have hfind : findByte 10 text before.length = some (before.length + (9 + line.length)) := by
    have hno : (10 : Byte) ∉ mark ++ line := by
      rw [List.mem_append, not_or]
      exact ⟨hlf, hpart.2⟩
    rw [htext', findByte_append_at hno, List.length_append, hlen]
  have hread : slice text (before.length + 9) (before.length + (9 + line.length)) = line := by
    rw [htext']
    unfold slice
    have hdrop : (before ++ ((mark ++ line) ++ 10 :: after)).drop (before.length + 9)
        = line ++ 10 :: after := by
      rw [← List.drop_drop, List.drop_left, ← hlen, List.append_assoc, List.drop_left]
    rw [hdrop, Nat.add_sub_add_left, Nat.add_sub_cancel_left, List.take_left]
  have hwhole : slice text before.length (before.length + (9 + line.length) + 1)
      = storeJournalMark sha256 count line := by
    have hmark : before.length + (9 + line.length) + 1
        = before.length + (storeJournalMark sha256 count line).length := by
      rw [heq, List.length_append, List.length_append, hlen]
      rfl
    rw [hmark, htext, List.append_assoc]
    unfold slice
    rw [List.drop_left, Nat.add_sub_cancel_left, List.take_left]
  have hnext : before.length + (9 + line.length) + 1
      = before.length + (storeJournalMark sha256 count line).length := by
    rw [heq, List.length_append, List.length_append, hlen]
    rfl
  unfold journalLine
  rw [hfind]
  simp only
  rw [hread, hwhole, if_pos ⟨by omega, rfl⟩, hline, storeEntryRead_line he, Option.map_some, hnext]

/-- The lines of entries are read as those entries, and what is after them if it is no line. -/
theorem journalRead_lines (hsha : ∀ data, (sha256 data).length = 32) {es : List Entry}
    (hes : ∀ e ∈ es, e.Written) (before after : Str) (n : ℕ) (hn : es.length ≤ n)
    (hstray : journalLine sha256
      (before ++ OpenStore.journalLines sha256 count es ++ after) count
      (before.length + (OpenStore.journalLines sha256 count es).length) = none)
    (read : PathMap × ℕ) :
    journalRead sha256 (before ++ OpenStore.journalLines sha256 count es ++ after) count n
        before.length read
      = (es.foldl journalTake read,
        before.length + (OpenStore.journalLines sha256 count es).length) := by
  induction es generalizing before n read with
  | nil =>
      cases n with
      | zero => rfl
      | succ n =>
          rw [journalRead]
          split
          · rfl
          · rw [show before.length = before.length
              + (OpenStore.journalLines sha256 count []).length from rfl, hstray]
            rfl
  | cons e es ih =>
      cases n with
      | zero => exact absurd hn (by simp)
      | succ n =>
          have he := hes e List.mem_cons_self
          have hcons : OpenStore.journalLines sha256 count (e :: es)
              = storeJournalMark sha256 count (storeEntryLine e)
                ++ OpenStore.journalLines sha256 count es := rfl
          have htext : before ++ OpenStore.journalLines sha256 count (e :: es) ++ after
              = (before ++ storeJournalMark sha256 count (storeEntryLine e))
                ++ OpenStore.journalLines sha256 count es ++ after := by
            rw [hcons]
            simp only [List.append_assoc]
          have hlen : before.length + (OpenStore.journalLines sha256 count (e :: es)).length
              = (before ++ storeJournalMark sha256 count (storeEntryLine e)).length
                + (OpenStore.journalLines sha256 count es).length := by
            rw [hcons, List.length_append, List.length_append, Nat.add_assoc]
          have hline := journalLine_mark hsha count he before
            (OpenStore.journalLines sha256 count es ++ after)
          rw [← List.append_assoc, ← htext] at hline
          have hlt : ¬ (before ++ OpenStore.journalLines sha256 count (e :: es) ++ after).length
              ≤ before.length := by
            obtain ⟨mark, hm, -, heq⟩ := storeJournalMark_eq hsha count (storeEntryLine e)
            rw [hcons, heq]
            simp only [List.length_append]
            omega
          rw [htext, hlen] at hstray
          rw [journalRead, if_neg hlt, hline]
          simp only
          rw [← List.length_append, htext, hlen,
            ih (fun e' he' => hes e' (List.mem_cons_of_mem _ he')) _ n
              (by rw [List.length_cons] at hn; omega) hstray]
          rfl

end Read

/-! ## What is on the volume, and what the store has

`saved` is the map that is on the volume, and `es` the entries in the journal. -/

namespace OpenStore

variable {sha256 : Str → Str} {s : OpenStore} {saved : PathMap} {es : List Entry}

/-- The journal has these entries in it, and is added to after them. -/
def Journal (sha256 : Str → Str) (s : OpenStore) (es : List Entry) : Prop :=
  match s.journal with
  | none => s.vol.journal = none ∧ es = []
  | some j => ∃ rest, s.vol.journal
        = some (journalHead j.count ++ journalLines sha256 j.count es ++ rest) ∧
      j.pos = (journalHead j.count).length + (journalLines sha256 j.count es).length

/-- What is on the volume comes to what the store has, if nothing is still to be written. -/
structure Journaled (sha256 : Str → Str) (s : OpenStore) (saved : PathMap) (es : List Entry) :
    Prop where
  map : MapFit s.store.map
  member : IsId s.store.member
  savedFit : MapFit saved
  entries : ∀ e ∈ es, Fit e
  paths : s.vol.paths = storeMapText saved
  journal : s.Journal sha256 es
  fresh : s.dirty = false → SameWhat (replay saved es) s.store.map

/-- What is after the end of the journal is no line of it. -/
def NoStray (sha256 : Str → Str) (s : OpenStore) : Prop :=
  ∀ j ∈ s.journal, ∀ text ∈ s.vol.journal, journalLine sha256 text j.count j.pos = none

/-- The journal has room for its own first line, of the next count. -/
def CountFits (s : OpenStore) : Prop :=
  ∀ j ∈ s.journal, ∀ text ∈ s.vol.journal, (journalHead (j.count + 1)).length ≤ text.length

instance (sha256 : Str → Str) (s : OpenStore) : Decidable (s.NoStray sha256) :=
  inferInstanceAs (Decidable (∀ j ∈ s.journal, ∀ text ∈ s.vol.journal,
    journalLine sha256 text j.count j.pos = none))

instance (s : OpenStore) : Decidable s.CountFits :=
  inferInstanceAs (Decidable (∀ j ∈ s.journal, ∀ text ∈ s.vol.journal,
    (journalHead (j.count + 1)).length ≤ text.length))

/-! ### Opened -/

theorem length_le_journalLines (sha256 : Str → Str) (count : ℕ) (es : List Entry) :
    es.length ≤ (journalLines sha256 count es).length := by
  induction es with
  | nil => exact Nat.zero_le _
  | cons e es ih =>
      have hcons : journalLines sha256 count (e :: es)
          = storeJournalMark sha256 count (storeEntryLine e) ++ journalLines sha256 count es := rfl
      have hmark : 0 < (storeJournalMark sha256 count (storeEntryLine e)).length := by
        simp [storeJournalMark, storeLf]
      rw [hcons, List.length_cons, List.length_append]
      omega

theorem journalHead_count (count : ℕ) (rest : Str) :
    (findByte 10 (journalHead count ++ rest) 0) = some (strNum count).length ∧
      strAsNum (asc "0" ++ (journalHead count ++ rest).take (strNum count).length) = count := by
  have htext : journalHead count ++ rest = strNum count ++ 10 :: rest := by simp [journalHead, storeLf]
  rw [htext]
  refine ⟨findByte_append (not_mem_strNum (by decide) _) rest, ?_⟩
  rw [List.take_left]
  exact (strAsNum_zero_cons _).trans (strAsNum_strNum count)

/-- The entries of a journal that is there are taken in, and it is added to after them. -/
theorem journalOpen_some (hsha : ∀ data, (sha256 data).length = 32) {count : ℕ}
    (hes : ∀ e ∈ es, e.Written) {vol : StoreVolume} {rest : Str}
    (hvol : vol.journal = some (journalHead count ++ journalLines sha256 count es ++ rest))
    (hstray : journalLine sha256 (journalHead count ++ journalLines sha256 count es ++ rest) count
      ((journalHead count).length + (journalLines sha256 count es).length) = none)
    (map : PathMap) :
    (journalOpen sha256 vol map).1.1 = replay map es ∧
      (journalOpen sha256 vol map).2
        = some ⟨count, (journalHead count).length + (journalLines sha256 count es).length⟩ := by
  obtain ⟨hfind, hcount⟩ := journalHead_count count (journalLines sha256 count es ++ rest)
  rw [← List.append_assoc] at hfind hcount
  have hhead : (strNum count).length + 1 = (journalHead count).length := by
    simp [journalHead, storeLf]
  have hlines := length_le_journalLines sha256 count es
  have hread := journalRead_lines hsha hes (journalHead count) rest
    (journalHead count ++ journalLines sha256 count es ++ rest).length
    (by simp only [List.length_append]; omega) hstray (map, 0)
  unfold journalOpen
  rw [hvol]
  simp only [hfind, Option.getD_some, hcount, hhead]
  rw [Nat.min_eq_right (by simp only [List.length_append]; omega), hread]
  exact ⟨foldl_journalTake es (map, 0), rfl⟩

/-- A journal that has just been made has nothing in it. -/
theorem journalLine_zeros (sha256 : Str → Str) (n : ℕ) :
    journalLine sha256 (journalHead 0 ++ List.replicate n 0) 0 (journalHead 0).length = none := by
  have hnone : findByte 10 (journalHead 0 ++ List.replicate n 0) (journalHead 0).length = none := by
    unfold findByte
    rw [List.drop_left, findIdx?_eq_none, Option.map_none]
    intro hin
    exact absurd (List.eq_of_mem_replicate hin) (by decide)
  unfold journalLine
  rw [hnone]

theorem journalMake_cases (vol : StoreVolume) (room : Bool) :
    journalMake vol room = vol ∨ (vol.journal = none ∧ ∃ n, journalMake vol room
      = { vol with journal := some (journalHead 0 ++ List.replicate n 0) }) := by
  unfold journalMake
  split
  next h => exact Or.inr ⟨h.1, _, rfl⟩
  · exact Or.inl rfl

/-- **What is opened**: the map that is on the volume, with what the journal has that is later. -/
theorem storeOpen_spec (hsha : ∀ data, (sha256 data).length = 32) (h : s.Journaled sha256 saved es)
    (hstray : s.NoStray sha256) (of : Store) (room : Bool) :
    (∀ p, (storeOpen sha256 of s.vol room).store.map.lookup p = (replay saved es).lookup p) ∧
      (storeOpen sha256 of s.vol room).Journal sha256 es ∧
      (storeOpen sha256 of s.vol room).vol.paths = storeMapText saved := by
  have hread : ∀ p, (storeMapRead s.vol.paths).lookup p = saved.lookup p := by
    intro p
    rw [h.paths]
    exact lookup_storeMapRead h.savedFit.keyed (fun p e he => (h.savedFit.entry p e he).2) p
  have hwritten : ∀ e ∈ es, e.Written := fun e he => (h.entries e he).2
  have hj := h.journal
  unfold Journal at hj
  unfold storeOpen
  cases hjournal : s.journal with
  | none =>
      rw [hjournal] at hj
      obtain ⟨hnone, rfl⟩ := hj
      rcases journalMake_cases s.vol room with hmake | ⟨-, n, hmake⟩
      · have hopen : ∀ map, journalOpen sha256 s.vol map = ((map, 0), none) := by
          intro map
          unfold journalOpen
          rw [hnone]
        rw [hmake]
        simp only [hopen]
        exact ⟨hread, ⟨hnone, rfl⟩, h.paths⟩
      · have hvol : ({ s.vol with journal := some (journalHead 0 ++ List.replicate n 0) } :
            StoreVolume).journal
              = some (journalHead 0 ++ journalLines sha256 0 [] ++ List.replicate n 0) := by
          simp [journalLines]
        obtain ⟨hmap, hat⟩ := journalOpen_some hsha (fun e he => absurd he List.not_mem_nil) hvol
          (by simpa [journalLines] using journalLine_zeros sha256 n) (storeMapRead s.vol.paths)
        rw [hmake]
        simp only
        rw [hmap, hat]
        exact ⟨hread, ⟨_, hvol, rfl⟩, h.paths⟩
  | some j =>
      rw [hjournal] at hj
      obtain ⟨rest, hvol, hpos⟩ := hj
      have hmake : journalMake s.vol room = s.vol := by
        rcases journalMake_cases s.vol room with hmake | ⟨hnone, -⟩
        · exact hmake
        · rw [hvol] at hnone
          exact absurd hnone (by simp)
      have hno := hstray j hjournal _ hvol
      rw [hpos] at hno
      obtain ⟨hmap, hat⟩ := journalOpen_some hsha hwritten hvol hno (storeMapRead s.vol.paths)
      rw [hmake]
      simp only
      rw [hmap, hat]
      exact ⟨fun p => lookup_replay hread es p, ⟨rest, hvol, rfl⟩, h.paths⟩

/-! ### Written -/

/-- Writing inside of the journal. -/
theorem take_overwrite {text data : Str} {pos : ℕ} (h : pos + data.length ≤ text.length) :
    (overwrite text pos data).take text.length = overwrite text pos data := by
  rw [List.take_of_length_le]
  rw [length_overwrite h]

/-- Entries that go to the journal are at the end of it. -/
theorem Journaled.add (h : s.Journaled sha256 saved es) {store : Store} {new : List Entry}
    (hmap : MapFit store.map) (hmember : IsId store.member) (hnew : ∀ e ∈ new, Fit e)
    (hfresh : s.dirty = false → SameWhat (replay saved (es ++ new)) store.map) {t : OpenStore}
    (ht : ({ s with store := store } : OpenStore).journalAdd sha256 new = some t) :
    t.Journaled sha256 saved (es ++ new) := by
  have hj := h.journal
  unfold Journal at hj
  unfold journalAdd at ht
  simp only at ht
  cases hjournal : s.journal with
  | none =>
      rw [hjournal] at ht
      exact absurd ht (by simp)
  | some j =>
      rw [hjournal] at ht hj
      obtain ⟨rest, hvol, hpos⟩ := hj
      simp only at ht
      split at ht
      next hroom =>
        obtain rfl := Option.some.inj ht
        rw [hvol, Option.getD_some] at hroom
        refine ⟨hmap, hmember, h.savedFit, fun e he => ?_, h.paths, ?_, hfresh⟩
        · exact (List.mem_append.1 he).elim (h.entries e) (hnew e)
        · have hlines : journalLines sha256 j.count (es ++ new)
              = journalLines sha256 j.count es ++ journalLines sha256 j.count new := by
            simp [journalLines]
          refine ⟨rest.drop (journalLines sha256 j.count new).length, ?_, ?_⟩
          · show s.vol.journal.map _ = _
            rw [hvol, Option.map_some, take_overwrite hroom, hpos, ← List.length_append,
              overwrite_append, hlines]
            simp only [List.append_assoc]
          · simp only [hpos, hlines, List.length_append]
            omega
      · exact absurd ht (by simp)

/-- The map written whole, where there is room for it. -/
theorem Journaled.save (h : s.Journaled sha256 saved es) {store : Store}
    (hmap : MapFit store.map) (hmember : IsId store.member) (hfits : s.CountFits) :
    (({ s with store := store } : OpenStore).save true).Journaled sha256 store.map [] := by
  have hj := h.journal
  unfold Journal at hj
  have hfresh : SameWhat (replay store.map []) store.map := SameWhat.refl _
  have hnil : ∀ e ∈ ([] : List Entry), Fit e := fun e he => absurd he List.not_mem_nil
  unfold OpenStore.save journalReset
  simp only [if_true]
  cases hjournal : s.journal with
  | none =>
      rw [hjournal] at hj
      simp only
      refine ⟨hmap, hmember, hmap, hnil, rfl, ?_, fun _ => hfresh⟩
      show Journal sha256 _ []
      unfold Journal
      simp only
      exact ⟨hj.1, trivial⟩
  | some j =>
      rw [hjournal] at hj
      obtain ⟨rest, hvol, hpos⟩ := hj
      have hroom := hfits j hjournal _ hvol
      simp only
      refine ⟨hmap, hmember, hmap, hnil, rfl, ?_, fun _ => hfresh⟩
      refine ⟨(journalHead j.count ++ journalLines sha256 j.count es ++ rest).drop
        (journalHead (j.count + 1)).length, ?_, rfl⟩
      show s.vol.journal.map _ = _
      rw [hvol, Option.map_some, take_overwrite (by omega)]
      have hover := overwrite_append [] (journalHead j.count ++ journalLines sha256 j.count es ++ rest)
        (journalHead (j.count + 1))
      rw [List.nil_append, List.nil_append, List.length_nil] at hover
      rw [hover]
      simp [journalLines]

/-- What is set goes to the journal, or the map is written. -/
theorem Journaled.keep (h : s.Journaled sha256 saved es) {store : Store} {new : List Entry}
    (hmap : MapFit store.map) (hmember : IsId store.member) (hnew : ∀ e ∈ new, Fit e)
    (hfresh : s.dirty = false → SameWhat (replay saved (es ++ new)) store.map)
    (hfits : s.CountFits) :
    ∃ saved' es', (({ s with store := store } : OpenStore).keep sha256 new true).Journaled sha256
      saved' es' := by
  unfold OpenStore.keep
  cases hadd : ({ s with store := store } : OpenStore).journalAdd sha256 new with
  | none => exact ⟨_, _, h.save hmap hmember hfits⟩
  | some t => exact ⟨_, _, h.add hmap hmember hnew hfresh hadd⟩

/-! ### Every step -/

/-- What keeps what is on the volume and what the store has together: there is room when the map is
    written, what is set can be written as a line, nothing met at the same counts changes what a
    path is, and a store is opened where no line left in its journal passes for one of it. -/
structure Holds (sha256 : Str → Str) (s : OpenStore) (e : StoreEvent) : Prop where
  room : e.room = true
  count : s.CountFits
  path : ∀ w, e.ask = .write w → IsPath w.path
  entries : ∀ theirs later, e.ask = .meet theirs later →
    (∀ t ∈ theirs, Fit t) ∧ AllSettle s.store.memberList s.store.member s.store.map theirs
  stray : e.ask = .reopen → s.NoStray sha256

theorem Journaled.write (h : s.Journaled sha256 saved es) (hfits : s.CountFits) {w : Write}
    (hw : IsPath w.path) : ∃ saved' es', (s.write sha256 w true).Journaled sha256 saved' es' := by
  unfold OpenStore.write
  rcases s.store.write_cases sha256 w with ⟨h2, hne⟩ | ⟨hash, size, deleted, copies, h1, h2⟩
  · refine ⟨saved, es, ?_⟩
    split
    next entry _ heq => exact absurd (congrArg Prod.fst heq) (hne entry)
    next heq =>
      rw [heq] at h2
      simp only at h2
      rw [h2]
      exact h
  · have hfit : Fit (s.store.setEntry w.path hash size deleted copies) :=
      ⟨Store.entrySound_setEntry h.map.sound,
        written_setEntry (fun p e he => (h.map.entry p e he).2) h.member hw hash size deleted copies⟩
    have hpair : s.store.write sha256 w
        = (.ok (s.store.setEntry w.path hash size deleted copies),
          s.store.wrote (s.store.setEntry w.path hash size deleted copies)) := Prod.ext h1 h2
    rw [hpair]
    refine h.keep (h.map.put hfit) h.member (fun e he => List.mem_singleton.1 he ▸ hfit)
      (fun hclean => ?_) hfits
    rw [replay_append, replay_cons, replay_nil, (h.fresh hclean).isLater]
    have hlater : isLater s.store.map (s.store.setEntry w.path hash size deleted copies) = true := by
      cases hf : s.store.map.lookup w.path with
      | none => exact isLater_of_none hf
      | some was =>
          rw [isLater_of_some hf, decide_eq_true_eq]
          have hvv : (s.store.setEntry w.path hash size deleted copies).vv
              = storeVvBump was.vv s.store.member := by
            simp [Store.setEntry, Store.find, hf]
          rw [hvv]
          exact storeVvCmp_bump (h.map.entry _ _ hf).1.vv _
    rw [hlater]
    exact (h.fresh hclean).put _

theorem Journaled.meet (h : s.Journaled sha256 saved es) (hfits : s.CountFits) {theirs : List Entry}
    (ht : ∀ t ∈ theirs, Fit t)
    (hs : AllSettle s.store.memberList s.store.member s.store.map theirs) (later : Bool) :
    ∃ saved' es', (s.meet sha256 theirs later true).Journaled sha256 saved' es' := by
  have hsound : Store.MapSound (s.store.meet theirs).1.map :=
    Store.mapSound_meetAll h.map.sound (fun t hin => (ht t hin).1)
  have hall : (∀ p e, (s.store.meet theirs).1.map.lookup p = some e → Fit e) ∧
      ∀ e ∈ (s.store.meet theirs).2, Fit e := meetAll_all
    h.map.entry (fun t hin => ⟨(ht t hin).1.taken, (ht t hin).2.taken h.member⟩)
    (fun t hin mine now hm hnow => ⟨Store.entrySound_meetNow (ht t hin).1 hm.1 hnow,
      written_meetNow (ht t hin).2 hm.2 h.member hnow⟩)
    (fun t hin mine kept hm hk => ⟨Store.entrySound_meetAside (ht t hin).1 hm.1 hk,
      written_meetAside (ht t hin).2 hm.2 h.member hk⟩)
  have hmap : MapFit (s.store.meet theirs).1.map := ⟨hsound.keyed, hall.1⟩
  have hfresh : s.dirty = false →
      SameWhat (replay saved (es ++ (s.store.meet theirs).2)) (s.store.meet theirs).1.map := by
    intro hclean
    rw [replay_append]
    exact sameWhat_meetAll (h.fresh hclean) h.map.sound (fun t hin => (ht t hin).1) hs
  have hmember : (s.store.meet theirs).1.member = s.store.member := rfl
  unfold OpenStore.meet
  simp only
  split
  next hnone =>
    refine ⟨saved, es, hmap, h.member, h.savedFit, h.entries, h.paths, h.journal, fun hclean => ?_⟩
    have := hfresh hclean
    rwa [hnone, List.append_nil] at this
  · cases hadd : ({ s with store := (s.store.meet theirs).1 } : OpenStore).journalAdd sha256
        (s.store.meet theirs).2 with
    | some t => exact ⟨_, _, h.add hmap (hmember ▸ h.member) hall.2 hfresh hadd⟩
    | none =>
        cases later with
        | true =>
            exact ⟨saved, es, hmap, h.member, h.savedFit, h.entries, h.paths, h.journal,
              fun hclean => absurd hclean (by simp [OpenStore.later])⟩
        | false => exact ⟨_, _, h.save hmap (hmember ▸ h.member) hfits⟩

/-- A store that is opened again has what was on the volume. -/
theorem Journaled.reopen (hsha : ∀ data, (sha256 data).length = 32)
    (h : s.Journaled sha256 saved es) (hstray : s.NoStray sha256) (room : Bool) :
    (storeOpen sha256 s.store s.vol room).Journaled sha256 saved es := by
  obtain ⟨hmap, hj, hpaths⟩ := storeOpen_spec hsha h hstray s.store room
  have hreplay := h.savedFit.replay h.entries
  refine ⟨⟨fun p e he => ?_, fun p e he => ?_⟩, h.member, h.savedFit, h.entries, hpaths, hj,
    fun _ p => by rw [hmap]⟩
  · rw [hmap] at he
    exact hreplay.keyed p e he
  · rw [hmap] at he
    exact hreplay.entry p e he

theorem Journaled.step (hsha : ∀ data, (sha256 data).length = 32)
    (h : s.Journaled sha256 saved es) {e : StoreEvent} (hc : s.Holds sha256 e) :
    ∃ saved' es', (s.step sha256 e).Journaled sha256 saved' es' := by
  unfold OpenStore.step
  rw [hc.room]
  cases hask : e.ask with
  | write w => exact h.write hc.count (hc.path w hask)
  | meet theirs later =>
      obtain ⟨ht, hs⟩ := hc.entries theirs later hask
      exact h.meet hc.count ht hs later
  | save => exact ⟨_, _, h.save h.map h.member hc.count⟩
  | close =>
      simp only [OpenStore.close]
      split
      · exact ⟨_, _, h.save h.map h.member hc.count⟩
      · exact ⟨_, _, h⟩
  | reopen => exact ⟨_, _, h.reopen hsha (hc.stray hask) true⟩

/-! ### Whole runs -/

/-- A store opened on the volume has of every path what this one has. -/
def AsReopened (sha256 : Str → Str) (s : OpenStore) : Prop :=
  ∀ of room, SameWhat (storeOpen sha256 of s.vol room).store.map s.store.map

/-- The journal a volume is given has room for a count that is still of one digit. -/
theorem countFits_new (hsha : ∀ data, (sha256 data).length = 32) (of : Store) (want : ℕ) :
    (storeOpen sha256 of ⟨[], none, want⟩ true).CountFits := by
  intro j hj text htext
  by_cases hwant : 2 < want
  · let vol : StoreVolume := ⟨[], some (journalHead 0 ++ List.replicate (want - 2) 0), want⟩
    have hmake : journalMake ⟨[], none, want⟩ true = vol := by
      unfold journalMake
      rw [if_pos ⟨rfl, hwant, rfl⟩]
    have hvol : vol.journal
        = some (journalHead 0 ++ journalLines sha256 0 [] ++ List.replicate (want - 2) 0) := by
      simp [vol, journalLines]
    obtain ⟨-, hat⟩ := journalOpen_some hsha (fun e he => absurd he List.not_mem_nil) hvol
      (by simpa [journalLines] using journalLine_zeros sha256 (want - 2)) (storeMapRead vol.paths)
    unfold storeOpen at hj htext
    rw [hmake] at hj htext
    simp only at hj htext
    rw [hat] at hj
    obtain rfl := Option.some.inj hj
    obtain rfl := Option.some.inj htext
    have hone : (journalHead (0 + 1)).length = 2 := by decide
    have hzero : (journalHead 0).length = 2 := by decide
    rw [List.length_append, hone, hzero]
    omega
  · have hmake : journalMake ⟨[], none, want⟩ true = ⟨[], none, want⟩ := by
      unfold journalMake
      rw [if_neg (fun h => hwant h.2.1)]
    unfold storeOpen at hj
    rw [hmake] at hj
    simp [journalOpen] at hj

/-- A new store has nothing, and nor has its volume. -/
theorem journaled_make (hsha : ∀ data, (sha256 data).length = 32) {of : Store} (hof : IsId of.member)
    (want : ℕ) : ∃ saved es, (make sha256 of want true).Journaled sha256 saved es := by
  let new : OpenStore := ⟨{ of with map := ∅ }, ⟨[], none, want⟩, none, false⟩
  have hnew : new.Journaled sha256 ∅ [] :=
    ⟨mapFit_empty, hof, mapFit_empty, fun e he => absurd he List.not_mem_nil, rfl, ⟨rfl, rfl⟩,
      fun _ => SameWhat.refl _⟩
  have hopen := hnew.reopen hsha (fun j hj => absurd hj (by simp [new])) true
  exact ⟨_, _, hopen.save hopen.map hopen.member (countFits_new hsha _ want)⟩

theorem dirty_close (s : OpenStore) (room : Bool) : (s.close room).dirty = false := by
  unfold close
  split
  · unfold OpenStore.save journalReset
    simp only
    split <;> rfl
  next h => simpa using h

/-- **A store that is opened again is as it was.** -/
theorem reopened (hsha : ∀ data, (sha256 data).length = 32) {of : Store} (hof : IsId of.member)
    (want : ℕ) {events : List StoreEvent}
    (hrun : Run.Each (OpenStore.step sha256) (Holds sha256) (make sha256 of want true) events)
    (hclean : (Run.run (OpenStore.step sha256) (make sha256 of want true) events).dirty = false)
    (hstray : (Run.run (OpenStore.step sha256) (make sha256 of want true) events).NoStray sha256) :
    (Run.run (OpenStore.step sha256) (make sha256 of want true) events).AsReopened sha256 := by
  obtain ⟨saved, es, hend⟩ := Run.inv_of_each
    (I := fun s => ∃ saved es, s.Journaled sha256 saved es) (C := Holds sha256)
    (fun s e ⟨_, _, hs⟩ hc => hs.step hsha hc) (journaled_make hsha hof want) hrun
  intro of' room p
  rw [(storeOpen_spec hsha hend hstray of' room).1 p]
  exact hend.fresh hclean p

/-! ### Two songs

A volume with one song on it, in the journal of its store. -/

/-- Bytes, by their numbers. -/
def bytes (l : List ℕ) : Str := l.map (Fin.ofNat 256)

/-- The SHA-256 of the one block of `a song`, or of `b song`. -/
def songBlock (first : Bool) : Str :=
  if first then bytes [2, 18, 240, 166, 231, 2, 75, 121, 112, 243, 228, 133, 47, 108, 203, 170,
    127, 127, 156, 63, 74, 9, 215, 69, 62, 179, 12, 227, 190, 221, 188, 63]
  else bytes [171, 105, 139, 35, 0, 151, 39, 206, 149, 87, 143, 108, 89, 46, 29, 35,
    42, 63, 74, 100, 230, 170, 210, 205, 138, 69, 107, 80, 181, 188, 245, 61]

/-- The SHA-256 of the object that is that block. -/
def songObject (first : Bool) : Str :=
  if first then bytes [220, 6, 134, 142, 220, 33, 13, 237, 142, 105, 99, 142, 25, 188, 53, 140,
    150, 251, 50, 156, 236, 155, 248, 121, 28, 191, 163, 13, 57, 144, 161, 192]
  else bytes [24, 116, 225, 19, 40, 185, 156, 30, 206, 79, 10, 96, 25, 102, 210, 101,
    204, 39, 124, 7, 202, 202, 190, 217, 187, 195, 218, 110, 238, 24, 103, 18]

/-- What the mark of a song's line is of, in a journal that has been begun once. -/
def songLine (path hash writer : Str) : Str :=
  asc "1 " ++ storeEntryLine
    { path := path, hash := hash, bytes := 6, vv := [(asc "aaaa", 1)], writer := writer,
      seen := [asc "aaaa"], deleted := false, copies := 0 }

/-- What the runs below ask the SHA-256 of, and what it is. -/
def songTable : List (Str × Str) :=
  [ (asc "a song", songBlock true), (asc "b song", songBlock false),
    (storeManifestText 6 [songBlock true], songObject true),
    (storeManifestText 6 [songBlock false], songObject false),
    (songLine (asc "song") (songObject true) (asc "aaaa"),
      bytes [32, 122, 214, 72, 123, 68, 161, 159, 169, 21, 171, 212, 235, 13, 207, 140,
        98, 210, 220, 37, 134, 15, 191, 218, 73, 124, 98, 206, 104, 132, 11, 77]),
    (asc "1 - 0 aaaa:2 aaaa aaaa 1 song",
      bytes [24, 186, 76, 126, 178, 176, 28, 222, 17, 89, 12, 47, 38, 123, 186, 161,
        143, 156, 239, 157, 220, 23, 169, 123, 221, 22, 88, 59, 89, 28, 12, 241]),
    (songLine (asc "song") (songObject false) (asc "aaaa"),
      bytes [174, 202, 88, 215, 4, 45, 76, 95, 81, 189, 54, 71, 41, 144, 73, 184,
        157, 137, 64, 171, 164, 94, 163, 122, 184, 98, 121, 228, 36, 244, 167, 139]),
    (songLine (asc "song") (songObject true) (asc "bbbb"),
      bytes [172, 25, 85, 121, 15, 90, 185, 34, 6, 218, 88, 13, 153, 240, 113, 82,
        40, 23, 175, 140, 78, 144, 143, 64, 199, 62, 99, 159, 206, 210, 184, 27]),
    (songLine (asc "song~1874E113") (songObject false) (asc "aaaa"),
      bytes [112, 157, 52, 13, 85, 100, 155, 123, 29, 208, 88, 109, 105, 58, 18, 155,
        250, 41, 84, 141, 13, 181, 44, 22, 85, 180, 119, 113, 175, 155, 111, 116]),
    (songLine (asc "a  song") (songObject true) (asc "aaaa"),
      bytes [246, 112, 142, 29, 221, 130, 4, 163, 145, 1, 194, 135, 115, 12, 25, 28,
        233, 218, 53, 85, 165, 155, 111, 239, 28, 164, 254, 224, 219, 54, 59, 171]) ]

/-- The SHA-256 of those. -/
def lineSha256 (data : Str) : Str :=
  ((songTable.find? (fun row => decide (row.1 = data))).map Prod.snd).getD (List.replicate 32 0)

theorem length_lineSha256 (data : Str) : (lineSha256 data).length = 32 := by
  have hrows : ∀ row ∈ songTable, row.2.length = 32 := by decide +kernel
  unfold lineSha256
  cases hrow : songTable.find? (fun row => decide (row.1 = data)) with
  | none => exact List.length_replicate
  | some row => exact hrows row (List.mem_of_find?_eq_some hrow)

/-- A store of one of two members, on a volume of its own. -/
def newStore (want : ℕ) : OpenStore := make lineSha256 (Mesh.storeOfTwo (asc "aaaa")) want true

/-- A song put to a path. -/
def putSongTo (path data : Str) : StoreEvent := ⟨.write (.put (fun _ => true) path data none), true⟩

/-- The song put, the store opened again, the song deleted, and the store closed. -/
def songDeleted : List StoreEvent :=
  [putSongTo (asc "song") (asc "a song"), ⟨.reopen, true⟩, ⟨.write (.delete (asc "song") none), true⟩,
    ⟨.close, true⟩]

theorem reopened_songDeleted :
    (Run.run (OpenStore.step lineSha256) (newStore 1024) songDeleted).AsReopened lineSha256 := by
  have hwrite : ∀ s : OpenStore, s.CountFits → ∀ w, IsPath w.path →
      s.Holds lineSha256 ⟨.write w, true⟩ := by
    refine fun s hcount w hw => ⟨rfl, hcount, fun w' hw' => ?_, fun _ _ h => ?_, fun h => ?_⟩
    · exact StoreAsk.write.inj hw' ▸ hw
    · exact absurd h (by simp)
    · exact absurd h (by simp)
  refine reopened length_lineSha256 (by decide) 1024 ?_ (by decide +kernel) (by decide +kernel)
  refine ⟨hwrite _ ?_ _ ?_, ⟨rfl, ?_, fun _ h => absurd h (by simp), fun _ _ h => absurd h (by simp),
      fun _ => ?_⟩, hwrite _ ?_ _ ?_, ⟨rfl, ?_, fun _ h => absurd h (by simp),
      fun _ _ h => absurd h (by simp), fun h => absurd h (by simp)⟩, trivial⟩
  all_goals decide +kernel

/-- The song another has written with as many writes of this member. -/
def songOfOther : Entry where
  path := asc "song"
  hash := songObject true
  bytes := 6
  vv := [(asc "aaaa", 1)]
  writer := asc "bbbb"
  seen := [asc "bbbb"]
  deleted := false
  copies := 0

/-- A path that is too long for the journal there is. -/
def longOfOther : Entry where
  path := List.replicate 1100 97
  hash := []
  bytes := 0
  vv := [(asc "bbbb", 2)]
  writer := asc "bbbb"
  seen := [asc "bbbb"]
  deleted := true
  copies := 0

/-- **What is not there when it is opened again**: what was met and is to be written later, whatever
    has gone to the journal since; an object met at the same counts as this member has; a path of two
    spaces; and what there was no room to write. -/
theorem reopened_fails :
    (¬ (Run.run (OpenStore.step lineSha256) (newStore 1024)
      [⟨.meet [longOfOther] true, true⟩, putSongTo (asc "song") (asc "a song")]).AsReopened
        lineSha256) ∧
    (¬ (Run.run (OpenStore.step lineSha256) (newStore 1024)
      [putSongTo (asc "song") (asc "b song"), ⟨.meet [songOfOther] false, true⟩]).AsReopened
        lineSha256) ∧
    (¬ (Run.run (OpenStore.step lineSha256) (newStore 1024)
      [putSongTo (asc "a  song") (asc "a song"), ⟨.close, true⟩]).AsReopened lineSha256) ∧
    (¬ (Run.run (OpenStore.step lineSha256) (newStore 64)
      [{ putSongTo (asc "song") (asc "a song") with room := false },
        ⟨.close, true⟩]).AsReopened lineSha256) := by
  have hpath : ∀ (s : OpenStore) (p : Str),
      decide (((storeOpen lineSha256 s.store s.vol true).store.map.lookup p).map Entry.what
        = (s.store.map.lookup p).map Entry.what) = false → ¬ s.AsReopened lineSha256 :=
    fun s p hne h => of_decide_eq_false hne (h s.store true p)
  refine ⟨hpath _ longOfOther.path ?_, hpath _ (asc "song") ?_, hpath _ (asc "a  song") ?_,
    hpath _ (asc "song") ?_⟩
  all_goals decide +kernel

end OpenStore

end ChrysaLisp
