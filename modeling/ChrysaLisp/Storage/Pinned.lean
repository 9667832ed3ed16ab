import ChrysaLisp.Storage.Told

set_option autoImplicit false

/-! # What each member has pinned

The pinned map of `lib/storage/store.inc`: of each member a count and the prefixes it holds all of.
It goes to another member, and to the volume, as lines that are cut at their spaces. Of two rows of
a member the one of the greater count is taken.

What is told is what is held where a prefix is not empty, has no space at an end of it and no two
together, and, on the volume, no line feed (`Plain`). -/

namespace ChrysaLisp

/-! ## The model -/

/-- Of a member, a count and the prefixes it has pinned. -/
abbrev PinnedMap := AList (fun _ : Str => ℕ × List Str)

/-- What a line says: of which member, of what count, and the prefix if there is one. -/
def pinLine (line : Str) : Option (Str × ℕ × List Str) :=
  match split line 32 with
  | who :: count :: parts => some (who, strAsNum count, if parts = [] then [] else [join parts (asc " ")])
  | _ => none

/-- What a line says goes to what the lines before it say of the member, if its count is not less. -/
def pinRow (rows : PinnedMap) (said : Str × ℕ × List Str) : PinnedMap :=
  let row := (rows.lookup said.1).getD (said.2.1, [])
  let row := if row.1 < said.2.1 then (said.2.1, []) else row
  rows.insert said.1 (if said.2.1 = row.1 then (row.1, row.2 ++ said.2.2) else row)

/-- The rows that lines are. -/
def pinRows (lines : List Str) : PinnedMap := (lines.filterMap pinLine).foldl pinRow ∅

/-- A store with what is pinned at it. -/
structure Pinner extends Store where
  pins : List Str

namespace Pinner

variable (store : Pinner)

/-- A row is taken if none is had of the member, or one of a lesser count. If it is of this member
    its pins are that. -/
def takeRow (acc : Pinner × Bool) (row : Sigma fun _ : Str => ℕ × List Str) : Pinner × Bool :=
  if ((acc.1.pinned.lookup row.1).map fun was => decide (was.1 < row.2.1)).getD true then
    ({ acc.1 with
        pinned := acc.1.pinned.insert row.1 (row.2.1, sortStr row.2.2)
        pins := if row.1 = acc.1.member then sortStr row.2.2 else acc.1.pins }, true)
  else acc

/-- `(store-pinned-read store lines)` -/
def pinnedRead (lines : List Str) : Pinner × Bool := (pinRows lines).entries.foldl takeRow (store, false)

/-- `(store-pinned-take store lines)` -/
def pinnedTake (lines : List Str) : Pinner :=
  let (store, new) := store.pinnedRead lines
  if new then { store with digest := none } else store

/-- `(store-pin store prefix off)` -/
def pin (start : Str) (off : Bool) : Pinner :=
  let pins := if off then store.pins.filter fun p => decide (p ≠ start)
    else sortStr (if start ∈ store.pins then store.pins else store.pins ++ [start])
  let was := ((store.pinned.lookup store.member).map fun row => row.1).getD 0
  { store with pins := pins, pinned := store.pinned.insert store.member (was + 1, pins), digest := none }

/-- What is saved of the pins is read again, and a store of before there was such a thing has its
    pins told. -/
def reopen : Pinner :=
  let opened := { store with pins := storeLines (storeText store.pins), pinned := ∅ }
  let opened := (opened.pinnedRead (storeLines (storeText store.pinnedLines))).1
  if opened.pins ≠ [] ∧ opened.pinned.lookup opened.member = none then
    { opened with pinned := opened.pinned.insert opened.member (1, opened.pins) }
  else opened

end Pinner

/-! ## What is cut -/

section Cut

variable {sep c : Byte} {s t : Str}

/-- What is cut at a separator is what each side of it is cut into. -/
theorem split_append_cons (s t : Str) : split (s ++ sep :: t) sep = split s sep ++ split t sep := by
  by_cases hin : sep ∈ s
  · obtain ⟨u, v, hs, hnot⟩ := List.eq_append_cons_of_mem hin
    have hlt : v.length < s.length := by
      rw [hs, List.length_append, List.length_cons]
      omega
    have hv := split_append_cons v t
    rw [hs, List.append_assoc, List.cons_append]
    unfold split at hv ⊢
    rw [List.splitOn_append_cons_self_of_not_mem hnot,
      List.splitOn_append_cons_self_of_not_mem hnot, List.filter_cons, List.filter_cons, hv]
    split_ifs
    · rfl
    · rfl
  · unfold split
    rw [List.splitOn_append_cons_self_of_not_mem hin, List.splitOn_eq_singleton hin, ← List.filter_append]
    rfl
termination_by s.length

/-- What is in a part was in the whole. -/
theorem mem_of_mem_split {s : Str} (ht : t ∈ split s sep) (hc : c ∈ t) : c ∈ s := by
  by_cases hin : sep ∈ s
  · obtain ⟨u, v, hs, hnot⟩ := List.eq_append_cons_of_mem hin
    have hlt : v.length < s.length := by
      rw [hs, List.length_append, List.length_cons]
      omega
    rw [hs, split_append_cons, List.mem_append] at ht
    rw [hs, List.mem_append, List.mem_cons]
    rcases ht with ht | ht
    · unfold split at ht
      rw [List.splitOn_eq_singleton hnot] at ht
      have htu := List.mem_singleton.mp (List.mem_of_mem_filter ht)
      exact Or.inl (htu ▸ hc)
    · exact Or.inr (Or.inr (mem_of_mem_split ht hc))
  · unfold split at ht
    rw [List.splitOn_eq_singleton hin] at ht
    rw [← List.mem_singleton.mp (List.mem_of_mem_filter ht)]
    exact hc
termination_by s.length

/-- What is before the first separator is a part, if it is anything. -/
theorem mem_split_of_head (hs : Part sep s) (t : Str) : s ∈ split (s ++ sep :: t) sep := by
  rw [split_append hs]
  exact List.mem_cons_self

end Cut

/-! ## One line -/

section Lines

variable {who start line : Str} {count : ℕ}

/-- The line of a member, with a prefix or with none. -/
def lineOf (said : Str × ℕ × List Str) : Str :=
  said.1 ++ 32 :: strNum said.2.1 ++ (said.2.2.map fun start => 32 :: start).flatten

theorem part_strNum (count : ℕ) : Part 32 (strNum count) :=
    ⟨strNum_ne_nil count, not_mem_strNum (by decide) count⟩

/-- What a line says that begins with a member and a count. -/
theorem pinLine_append (hwho : Part 32 who) (rest : Str) :
    pinLine (who ++ 32 :: (strNum count ++ 32 :: rest)) =
      some (who, count, if split rest 32 = [] then [] else [join (split rest 32) (asc " ")]) := by
  unfold pinLine
  rw [split_append hwho, split_append (part_strNum count)]
  simp only [strAsNum_strNum]

theorem pinLine_head (hwho : Part 32 who) : pinLine (who ++ 32 :: strNum count) = some (who, count, []) := by
  unfold pinLine
  rw [split_append hwho, split_part (part_strNum count)]
  simp only [strAsNum_strNum, if_true]

/-- A prefix that is told as it is. -/
def PlainStart (start : Str) : Prop := start ≠ [] ∧ NoSpareSpace start ∧ 10 ∉ start

instance (start : Str) : Decidable (PlainStart start) := inferInstanceAs (Decidable (_ ∧ _))

/-- The prefix of a line, if it has one, is told as it is. -/
theorem pinLine_lineOf {said : Str × ℕ × List Str} (hwho : Part 32 said.1)
    (hone : said.2.2 = [] ∨ ∃ start, said.2.2 = [start] ∧ PlainStart start) :
    pinLine (lineOf said) = some said := by
  obtain ⟨who, count, starts⟩ := said
  rcases hone with hnone | ⟨start, hstart, hne, hspare, -⟩
  · simp only at hnone hwho
    subst hnone
    simpa [lineOf] using pinLine_head hwho
  · simp only at hstart hwho
    subst hstart
    have hjoin := join_split_iff.mpr hspare
    have hsome : split start 32 ≠ [] := by
      intro hnil
      rw [hnil] at hjoin
      exact hne hjoin.symm
    have hline := @pinLine_append who count hwho start
    rw [if_neg hsome, hjoin] at hline
    simpa [lineOf] using hline

/-- What a line of one line says is of a prefix that is told as it is. -/
theorem plain_of_pinLine {said : Str × ℕ × List Str} (hlf : 10 ∉ line) (h : pinLine line = some said) :
    Part 32 said.1 ∧ 10 ∉ said.1 ∧ ∀ start ∈ said.2.2, PlainStart start := by
  have hpart : ∀ t ∈ split line 32, Part 32 t ∧ 10 ∉ t :=
    fun t ht => ⟨part_of_mem_split ht, fun hmem => hlf (mem_of_mem_split ht hmem)⟩
  unfold pinLine at h
  match hsplit : split line 32 with
  | [] =>
      rw [hsplit] at h
      exact absurd h (by simp)
  | [_] =>
      rw [hsplit] at h
      exact absurd h (by simp)
  | who :: count :: parts =>
      rw [hsplit] at h hpart
      have hrest : ∀ t ∈ parts, Part 32 t ∧ 10 ∉ t :=
        fun t ht => hpart t (List.mem_cons_of_mem _ (List.mem_cons_of_mem _ ht))
      rw [← Option.some.inj h]
      refine ⟨(hpart who List.mem_cons_self).1, (hpart who List.mem_cons_self).2, ?_⟩
      intro start hstart
      by_cases hnil : parts = []
      · simp only [if_pos hnil] at hstart
        exact absurd hstart List.not_mem_nil
      · simp only [if_neg hnil] at hstart
        rw [List.mem_singleton.mp hstart]
        refine ⟨?_, noSpare_join fun t ht => (hrest t ht).1, ?_⟩
        · intro hempty
          have hsame : split (join parts [32]) 32 = parts := split_join fun t ht => (hrest t ht).1
          have hnone : join parts [32] = [] := hempty
          rw [hnone] at hsame
          exact hnil hsame.symm
        · intro hmem
          rcases mem_join hmem with hmem | ⟨t, ht, hmem⟩
          · exact absurd hmem (by decide)
          · exact (hrest t ht).2 hmem

end Lines

/-! ## The rows of many lines -/

section Rows

variable {who : Str} {count : ℕ} {rows : PinnedMap} {all : List (Str × ℕ × List Str)}

/-- What lines of one count say of a member is all of their prefixes. -/
theorem lookup_foldl_pinRow (hcount : ∀ said ∈ all, said.1 = who → said.2.1 = count)
    (hrow : rows.lookup who = none ∨ ∃ starts, rows.lookup who = some (count, starts)) :
    (all.foldl pinRow rows).lookup who = if ∀ said ∈ all, said.1 ≠ who then rows.lookup who
      else some (count, ((rows.lookup who).map fun row => row.2).getD [] ++
        (all.filter fun said => decide (said.1 = who)).flatMap fun said => said.2.2) := by
  induction all generalizing rows with
  | nil => simp
  | cons said all ih =>
      have hrest : ∀ s ∈ all, s.1 = who → s.2.1 = count := fun s hs => hcount s (List.mem_cons_of_mem said hs)
      rw [List.foldl_cons]
      by_cases hwho : said.1 = who
      · have hthis := hcount said List.mem_cons_self hwho
        have hnext : (pinRow rows said).lookup who =
            some (count, ((rows.lookup who).map fun row => row.2).getD [] ++ said.2.2) := by
          unfold pinRow
          rcases hrow with hnone | ⟨starts, hsome⟩
          · rw [hwho, hthis, hnone, AList.lookup_insert]
            simp
          · rw [hwho, hthis, hsome, AList.lookup_insert]
            simp
        have hone : ¬ ∀ s ∈ said :: all, s.1 ≠ who := fun h => h said List.mem_cons_self hwho
        rw [ih hrest (Or.inr ⟨_, hnext⟩), hnext, if_neg hone, List.filter_cons_of_pos (by simpa using hwho),
          List.flatMap_cons]
        by_cases hnone : ∀ s ∈ all, s.1 ≠ who
        · rw [if_pos hnone, List.filter_eq_nil_iff.mpr (by simpa using hnone), List.flatMap_nil,
            List.append_nil]
        · rw [if_neg hnone]
          simp only [Option.map_some, Option.getD_some, List.append_assoc]
      · have hnext : (pinRow rows said).lookup who = rows.lookup who := by
          unfold pinRow
          rw [AList.lookup_insert_ne fun h => hwho h.symm]
        rw [ih hrest (by rwa [hnext]), hnext, List.filter_cons_of_neg (by simpa using hwho)]
        simp only [List.mem_cons, forall_eq_or_imp, ne_eq, hwho, not_false_eq_true, true_and]

/-- Of each row there is, the rows of lines say only what the lines do. -/
theorem forall_foldl_pinRow {P : Str → Prop} (hall : ∀ said ∈ all, ∀ start ∈ said.2.2, P start)
    (hrows : ∀ who row, rows.lookup who = some row → ∀ start ∈ row.2, P start) {row : ℕ × List Str}
    (h : (all.foldl pinRow rows).lookup who = some row) : ∀ start ∈ row.2, P start := by
  induction all generalizing rows with
  | nil => exact hrows who row h
  | cons said all ih =>
      refine ih (fun s hs => hall s (List.mem_cons_of_mem said hs)) ?_ h
      intro who' row' hlookup
      unfold pinRow at hlookup
      by_cases hwho : who' = said.1
      · rw [hwho, AList.lookup_insert, Option.some_inj] at hlookup
        have hhad : ∀ start ∈ ((rows.lookup said.1).getD (said.2.1, [])).2, P start := by
          cases hget : rows.lookup said.1 with
          | none => exact fun start hstart => absurd hstart List.not_mem_nil
          | some had => exact hrows said.1 had hget
        intro start hstart
        rw [← hlookup] at hstart
        split_ifs at hstart
        · exact (List.mem_append.mp hstart).elim (fun h => absurd h List.not_mem_nil)
            (hall said List.mem_cons_self start)
        · exact absurd hstart List.not_mem_nil
        · exact (List.mem_append.mp hstart).elim (hhad start) (hall said List.mem_cons_self start)
        · exact hhad start hstart
      · rw [AList.lookup_insert_ne hwho] at hlookup
        exact hrows who' row' hlookup

/-- There is a row of each that a line is of. -/
theorem mem_foldl_pinRow (h : who ∈ rows ∨ ∃ said ∈ all, said.1 = who) : who ∈ all.foldl pinRow rows := by
  induction all generalizing rows with
  | nil => exact h.elim id fun ⟨said, hsaid, _⟩ => absurd hsaid List.not_mem_nil
  | cons said all ih =>
      refine ih ?_
      rcases h with h | ⟨s, hs, hwho⟩
      · exact Or.inl ((AList.mem_insert _).mpr (Or.inr h))
      · rcases List.mem_cons.mp hs with rfl | hs
        · exact Or.inl ((AList.mem_insert _).mpr (Or.inl hwho.symm))
        · exact Or.inr ⟨s, hs, hwho⟩

end Rows

/-! ## Rows are taken -/

/-- Of two rows of a member, what is had when the second is taken. -/
def laterRow : Option (ℕ × List Str) → Option (ℕ × List Str) → Option (ℕ × List Str)
  | was, none => was
  | none, some row => some row
  | some was, some row => if was.1 < row.1 then some row else some was

namespace Pinner

variable {store : Pinner} {who : Str} {lines : List Str}

/-- The row is of a member none is had of, or of a greater count. -/
def Later (acc : Pinner × Bool) (row : Sigma fun _ : Str => ℕ × List Str) : Prop :=
  ∀ was, acc.1.pinned.lookup row.1 = some was → was.1 < row.2.1

theorem later_iff {acc : Pinner × Bool} {row : Sigma fun _ : Str => ℕ × List Str} :
    ((acc.1.pinned.lookup row.1).map fun was => decide (was.1 < row.2.1)).getD true = true ↔
      Later acc row := by
  unfold Later
  cases acc.1.pinned.lookup row.1 with
  | none => simp
  | some was => simp

theorem takeRow_of_later {acc : Pinner × Bool} {row : Sigma fun _ : Str => ℕ × List Str} (h : Later acc row) :
    (takeRow acc row).1.pinned = acc.1.pinned.insert row.1 (row.2.1, sortStr row.2.2) := by
  unfold takeRow
  rw [if_pos (later_iff.mpr h)]

theorem takeRow_of_not_later {acc : Pinner × Bool} {row : Sigma fun _ : Str => ℕ × List Str}
    (h : ¬ Later acc row) :
    takeRow acc row = acc := by
  unfold takeRow
  rw [if_neg fun hl => h (later_iff.mp hl)]

theorem takeRow_lookup (acc : Pinner × Bool) (row : Sigma fun _ : Str => ℕ × List Str) :
    (takeRow acc row).1.pinned.lookup who = if who = row.1
      then laterRow (acc.1.pinned.lookup who) (some (row.2.1, sortStr row.2.2))
        else acc.1.pinned.lookup who := by
  by_cases hlater : Later acc row
  · rw [takeRow_of_later hlater]
    by_cases hwho : who = row.1
    · rw [if_pos hwho, hwho, AList.lookup_insert]
      cases hwas : acc.1.pinned.lookup row.1 with
      | none => rfl
      | some was => exact (if_pos (hlater was hwas)).symm
    · rw [if_neg hwho, AList.lookup_insert_ne hwho]
  · rw [takeRow_of_not_later hlater]
    by_cases hwho : who = row.1
    · unfold Later at hlater
      push Not at hlater
      obtain ⟨was, hwas, hle⟩ := hlater
      rw [if_pos hwho, hwho, hwas]
      exact (if_neg (Nat.not_lt.mpr hle)).symm
    · rw [if_neg hwho]

theorem foldl_takeRow_lookup (l : List (Sigma fun _ : Str => ℕ × List Str)) (hl : l.NodupKeys)
    (acc : Pinner × Bool) :
    (l.foldl takeRow acc).1.pinned.lookup who = laterRow (acc.1.pinned.lookup who)
      ((l.dlookup who).map fun row => (row.1, sortStr row.2)) := by
  induction l generalizing acc with
  | nil =>
      rw [List.dlookup_nil, Option.map_none, List.foldl_nil]
      cases acc.1.pinned.lookup who <;> rfl
  | cons row l ih =>
      obtain ⟨hnot, hrest⟩ := List.nodupKeys_cons.mp hl
      rw [List.foldl_cons, ih hrest, takeRow_lookup]
      by_cases hwho : who = row.1
      · subst hwho
        rw [if_pos rfl, List.dlookup_eq_none.mpr hnot, List.dlookup_cons_eq, Option.map_none, Option.map_some]
        cases laterRow (acc.1.pinned.lookup row.1) (some (row.2.1, sortStr row.2.2)) <;> rfl
      · rw [if_neg hwho, List.dlookup_cons_ne _ _ hwho]

/-- What is had of each member when lines have been taken. -/
theorem pinnedRead_lookup (store : Pinner) (lines : List Str) (who : Str) :
    (store.pinnedRead lines).1.pinned.lookup who = laterRow (store.pinned.lookup who)
      (((pinRows lines).lookup who).map fun row => (row.1, sortStr row.2)) :=
  foldl_takeRow_lookup _ (pinRows lines).nodupKeys _

theorem pinnedTake_pinned : (store.pinnedTake lines).pinned = (store.pinnedRead lines).1.pinned := by
  unfold pinnedTake
  simp only
  split_ifs <;> rfl

theorem takeRow_member (acc : Pinner × Bool) (row : Sigma fun _ : Str => ℕ × List Str) :
    (takeRow acc row).1.member = acc.1.member := by
  unfold takeRow
  split_ifs <;> rfl

end Pinner

/-! ## What is told of a map -/

section Told

variable {store : Pinner} {who : Str} {row : ℕ × List Str}

/-- The rows of a map: of ids of one word, and in order. -/
def Worded (pinned : PinnedMap) : Prop :=
  ∀ who row, pinned.lookup who = some row → Part 32 who ∧ 10 ∉ who ∧ row.2.Pairwise (· ≤ ·)

/-- All of its prefixes are told as they are. -/
def Plain (pinned : PinnedMap) : Prop :=
  ∀ who row, pinned.lookup who = some row → ∀ start ∈ row.2, PlainStart start

/-- What there is to say of a row. -/
def saidOf (row : Sigma fun _ : Str => ℕ × List Str) : List (Str × ℕ × List Str) :=
  if row.2.2 = [] then [(row.1, row.2.1, [])] else row.2.2.map fun start => (row.1, row.2.1, [start])

theorem pinnedLines_eq (store : Store) :
    store.pinnedLines = sortStr ((store.pinned.entries.flatMap saidOf).map lineOf) := by
  unfold Store.pinnedLines
  rw [List.map_flatMap]
  refine congrArg (fun f => sortStr (store.pinned.entries.flatMap f)) ?_
  funext row
  unfold saidOf
  split_ifs
  · simp [lineOf, asc]
  · simp [lineOf, asc, Function.comp_def]

theorem mem_saidOf {said : Str × ℕ × List Str} {row : Sigma fun _ : Str => ℕ × List Str}
    (h : said ∈ saidOf row) :
    said.1 = row.1 ∧ said.2.1 = row.2.1 ∧
      (said.2.2 = [] ∨ ∃ start, said.2.2 = [start] ∧ start ∈ row.2.2) := by
  unfold saidOf at h
  split_ifs at h with hnil
  · rw [List.mem_singleton.mp h]
    exact ⟨rfl, rfl, Or.inl rfl⟩
  · obtain ⟨start, hstart, rfl⟩ := List.mem_map.mp h
    exact ⟨rfl, rfl, Or.inr ⟨start, rfl, hstart⟩⟩

theorem saidOf_ne_nil (row : Sigma fun _ : Str => ℕ × List Str) : saidOf row ≠ [] := by
  unfold saidOf
  split_ifs with hnil
  · exact List.cons_ne_nil _ _
  · simpa using hnil

/-- All that is said of a row is its prefixes. -/
theorem flatMap_saidOf (row : Sigma fun _ : Str => ℕ × List Str) :
    ((saidOf row).filter fun said => decide (said.1 = row.1)).flatMap (fun said => said.2.2) = row.2.2 := by
  rw [List.filter_eq_self.mpr fun said hsaid => by simpa using (mem_saidOf hsaid).1]
  unfold saidOf
  split_ifs with hnil
  · rw [hnil]
    rfl
  · rw [List.flatMap_map]
    simp

/-- What is said of the others is not of this one. -/
theorem filter_saidOf {l : List (Sigma fun _ : Str => ℕ × List Str)} (h : who ∉ l.keys) :
    (l.flatMap saidOf).filter (fun said => decide (said.1 = who)) = [] := by
  rw [List.filter_eq_nil_iff]
  intro said hsaid
  obtain ⟨row, hrow, hmem⟩ := List.mem_flatMap.mp hsaid
  rw [decide_eq_true_eq, (mem_saidOf hmem).1]
  exact fun heq => h (heq ▸ List.mem_keys_of_mem hrow)

/-- All that is said of a member is its prefixes. -/
theorem flatMap_entries (pinned : PinnedMap) (h : pinned.lookup who = some row) :
    ((pinned.entries.flatMap saidOf).filter fun said => decide (said.1 = who)).flatMap
      (fun said => said.2.2) = row.2 := by
  obtain ⟨before, after, hentries⟩ := List.append_of_mem (AList.mem_lookup_iff.mp h)
  have hnodup := pinned.nodupKeys
  rw [hentries, List.NodupKeys, List.keys, List.map_append, List.map_cons, List.nodup_middle, List.nodup_cons,
    List.mem_append, not_or] at hnodup
  obtain ⟨⟨hbefore, hafter⟩, -⟩ := hnodup
  rw [hentries, List.flatMap_append, List.flatMap_cons, List.filter_append, List.filter_append,
    filter_saidOf hbefore, filter_saidOf hafter, List.nil_append, List.append_nil]
  exact flatMap_saidOf ⟨who, row⟩

theorem pinLine_of_mem (hworded : Worded store.pinned) (hplain : Plain store.pinned)
    {said : Str × ℕ × List Str}
    (h : said ∈ store.pinned.entries.flatMap saidOf) : pinLine (lineOf said) = some said := by
  obtain ⟨row, hrow, hmem⟩ := List.mem_flatMap.mp h
  have hlookup := AList.mem_lookup_iff.mpr hrow
  obtain ⟨hwho, -, hone⟩ := mem_saidOf hmem
  refine pinLine_lineOf (hwho ▸ (hworded _ _ hlookup).1) (hone.imp id ?_)
  rintro ⟨start, hsaid, hstart⟩
  exact ⟨start, hsaid, hplain _ _ hlookup start hstart⟩

/-- What is told of a map is what there is to say of it, in another order. -/
theorem filterMap_pinnedLines (hworded : Worded store.pinned) (hplain : Plain store.pinned) :
    (store.pinnedLines.filterMap pinLine).Perm (store.pinned.entries.flatMap saidOf) := by
  rw [pinnedLines_eq]
  refine ((sortStr_perm _).filterMap pinLine).trans (List.Perm.of_eq ?_)
  rw [List.filterMap_map]
  refine (List.filterMap_congr fun said hsaid => ?_).trans List.filterMap_some
  exact pinLine_of_mem hworded hplain hsaid

/-- **What is told of a map is read as it was.** -/
theorem pinRows_pinnedLines (hworded : Worded store.pinned) (hplain : Plain store.pinned) (who : Str) :
    ((pinRows store.pinnedLines).lookup who).map
      (fun row => (row.1, sortStr row.2)) = store.pinned.lookup who := by
  have hperm := filterMap_pinnedLines hworded hplain
  have hof : ∀ said ∈ store.pinnedLines.filterMap pinLine, ∃ row, store.pinned.lookup said.1 = some row ∧
      said.2.1 = row.1 := by
    intro said hsaid
    obtain ⟨row, hrow, hmem⟩ := List.mem_flatMap.mp (hperm.mem_iff.mp hsaid)
    obtain ⟨hwho, hcount, -⟩ := mem_saidOf hmem
    exact ⟨row.2, hwho ▸ AList.mem_lookup_iff.mpr hrow, hcount⟩
  unfold pinRows
  cases hlookup : store.pinned.lookup who with
  | none =>
      have hnone : ∀ said ∈ store.pinnedLines.filterMap pinLine, said.1 ≠ who := by
        intro said hsaid hwho
        obtain ⟨row, hrow, -⟩ := hof said hsaid
        rw [hwho, hlookup] at hrow
        exact absurd hrow (by simp)
      rw [@lookup_foldl_pinRow who 0 ∅ _ (fun said hsaid hwho => absurd hwho (hnone said hsaid)) (Or.inl rfl),
        if_pos hnone]
      rfl
  | some row =>
      have hcount : ∀ said ∈ store.pinnedLines.filterMap pinLine, said.1 = who → said.2.1 = row.1 := by
        intro said hsaid hwho
        obtain ⟨row', hrow', hsame⟩ := hof said hsaid
        rw [hwho, hlookup] at hrow'
        rw [hsame, ← Option.some.inj hrow']
      have hsome : ¬ ∀ said ∈ store.pinnedLines.filterMap pinLine, said.1 ≠ who := by
        intro hnone
        obtain ⟨said, hsaid⟩ := List.exists_mem_of_ne_nil _ (saidOf_ne_nil ⟨who, row⟩)
        refine hnone said (hperm.mem_iff.mpr
          (List.mem_flatMap.mpr ⟨_, AList.mem_lookup_iff.mp hlookup, hsaid⟩)) ?_
        exact (mem_saidOf hsaid).1
      rw [lookup_foldl_pinRow hcount (Or.inl rfl), if_neg hsome, Option.map_some]
      have hstarts := ((hperm.filter fun said => decide (said.1 = who)).flatMap_right fun said => said.2.2)
      rw [flatMap_entries store.pinned hlookup] at hstarts
      refine congrArg some (Prod.ext rfl ?_)
      exact (sortStr_eq_of_perm hstarts).trans (List.Pairwise.insertionSort_eq (hworded _ _ hlookup).2.2)

end Told

/-! ## A store that has pins -/

namespace Pinner

variable {store : Pinner} {lines : List Str}

/-- What holds of a store from when it is made: the ids are of one word, the prefixes in order, and
    its own pins have been told. -/
structure Proper (store : Pinner) : Prop where
  member : Part 32 store.member ∧ 10 ∉ store.member
  worded : Worded store.pinned
  sorted : store.pins.Pairwise (· ≤ ·)
  own : store.pins ≠ [] → store.member ∈ store.pinned

theorem Proper.pin (h : store.Proper) (start : Str) (off : Bool) : (store.pin start off).Proper := by
  have hsorted : (if off then store.pins.filter fun p => decide (p ≠ start)
      else sortStr (if start ∈ store.pins then store.pins else store.pins ++ [start])).Pairwise (· ≤ ·) := by
    split_ifs
    · exact h.sorted.filter _
    · exact pairwise_sortStr _
    · exact pairwise_sortStr _
  refine ⟨h.member, ?_, hsorted, fun _ => (AList.mem_insert _).mpr (Or.inl rfl)⟩
  intro who row hlookup
  unfold Pinner.pin at hlookup
  simp only at hlookup
  by_cases hwho : who = store.member
  · rw [hwho, AList.lookup_insert, Option.some_inj] at hlookup
    rw [hwho, ← hlookup]
    exact ⟨h.member.1, h.member.2, hsorted⟩
  · rw [AList.lookup_insert_ne hwho] at hlookup
    exact h.worded who row hlookup

theorem Proper.takeRow {acc : Pinner × Bool} (h : acc.1.Proper) {row : Sigma fun _ : Str => ℕ × List Str}
    (hwho : Part 32 row.1 ∧ 10 ∉ row.1) : (takeRow acc row).1.Proper := by
  by_cases hlater : Later acc row
  · unfold Pinner.takeRow
    rw [if_pos (later_iff.mpr hlater)]
    refine ⟨h.member, ?_, ?_, ?_⟩
    · intro who got hlookup
      simp only at hlookup
      by_cases heq : who = row.1
      · rw [heq, AList.lookup_insert, Option.some_inj] at hlookup
        rw [heq, ← hlookup]
        exact ⟨hwho.1, hwho.2, pairwise_sortStr _⟩
      · rw [AList.lookup_insert_ne heq] at hlookup
        exact h.worded who got hlookup
    · simp only
      split_ifs
      · exact pairwise_sortStr _
      · exact h.sorted
    · intro hpins
      rw [AList.mem_insert]
      by_cases heq : row.1 = acc.1.member
      · exact Or.inl heq.symm
      · simp only [if_neg heq] at hpins
        exact Or.inr (h.own hpins)
  · rw [takeRow_of_not_later hlater]
    exact h

/-- A member of the rows is one of those the lines are of. -/
theorem of_mem_pinRows {who : Str} (hlf : ∀ line ∈ lines, 10 ∉ line) (h : who ∈ pinRows lines) :
    Part 32 who ∧ 10 ∉ who := by
  have hall : ∀ said ∈ lines.filterMap pinLine, Part 32 said.1 ∧ 10 ∉ said.1 := by
    intro said hsaid
    obtain ⟨line, hline, hsays⟩ := List.mem_filterMap.mp hsaid
    obtain ⟨hpart, hnot, -⟩ := plain_of_pinLine (hlf line hline) hsays
    exact ⟨hpart, hnot⟩
  have hrows : ∀ all : List (Str × ℕ × List Str), (∀ said ∈ all, Part 32 said.1 ∧ 10 ∉ said.1) →
    ∀ rows : PinnedMap,
      (∀ w ∈ rows, Part 32 w ∧ 10 ∉ w) → ∀ w ∈ all.foldl pinRow rows, Part 32 w ∧ 10 ∉ w := by
    intro all
    induction all with
    | nil => exact fun _ rows hrows => hrows
    | cons said all ih =>
        intro hall rows hrows
        refine ih (fun s hs => hall s (List.mem_cons_of_mem said hs)) _ ?_
        intro w hw
        unfold pinRow at hw
        rcases (AList.mem_insert _).mp hw with rfl | hw
        · exact hall said List.mem_cons_self
        · exact hrows w hw
  exact hrows _ hall ∅ (fun w hw => absurd hw (AList.notMem_empty w)) who h

theorem Proper.pinnedRead (h : store.Proper) (hlf : ∀ line ∈ lines, 10 ∉ line) :
    (store.pinnedRead lines).1.Proper := by
  have hall : ∀ row ∈ (pinRows lines).entries, Part 32 row.1 ∧ 10 ∉ row.1 :=
    fun row hrow => of_mem_pinRows hlf (AList.mem_keys.mpr (List.mem_keys_of_mem hrow))
  have hfold : ∀ l : List (Sigma fun _ : Str => ℕ × List Str), (∀ row ∈ l, Part 32 row.1 ∧ 10 ∉ row.1) →
      ∀ acc : Pinner × Bool, acc.1.Proper → (l.foldl Pinner.takeRow acc).1.Proper := by
    intro l
    induction l with
    | nil => exact fun _ acc hacc => hacc
    | cons row l ih =>
        intro hl acc hacc
        exact ih (fun r hr => hl r (List.mem_cons_of_mem row hr)) _ (hacc.takeRow (hl row List.mem_cons_self))
  exact hfold _ hall _ h

theorem Proper.pinnedTake (h : store.Proper) (hlf : ∀ line ∈ lines, 10 ∉ line) :
    (store.pinnedTake lines).Proper := by
  have hread := h.pinnedRead hlf
  unfold Pinner.pinnedTake
  simp only
  split_ifs
  · exact ⟨hread.member, hread.worded, hread.sorted, hread.own⟩
  · exact hread

/-- The same lines again are nothing new. -/
theorem pinnedTake_twice (store : Pinner) (lines : List Str) :
    (store.pinnedTake lines).pinnedTake lines = store.pinnedTake lines := by
  have hnone : ∀ row ∈ (pinRows lines).entries, ¬ Later (store.pinnedTake lines, false) row := by
    intro row hrow hlater
    have hlookup := pinnedRead_lookup store lines row.1
    rw [← pinnedTake_pinned, AList.mem_lookup_iff.mpr hrow, Option.map_some] at hlookup
    cases hwas : store.pinned.lookup row.1 with
    | none =>
        rw [hwas] at hlookup
        exact absurd (hlater _ hlookup) (Nat.lt_irrefl _)
    | some was =>
        rw [hwas, laterRow] at hlookup
        split_ifs at hlookup with hlt
        · exact absurd (hlater _ hlookup) (Nat.lt_irrefl _)
        · exact hlt (hlater _ hlookup)
  have hfold : ∀ l : List (Sigma fun _ : Str => ℕ × List Str), ∀ acc : Pinner × Bool,
    (∀ row ∈ l, ¬ Later acc row) →
      l.foldl Pinner.takeRow acc = acc := by
    intro l acc
    induction l with
    | nil => exact fun _ => rfl
    | cons row l ih =>
        intro hl
        rw [List.foldl_cons, takeRow_of_not_later (hl row List.mem_cons_self)]
        exact ih fun r hr => hl r (List.mem_cons_of_mem row hr)
  have hread : (store.pinnedTake lines).pinnedRead lines = (store.pinnedTake lines, false) := hfold _ _ hnone
  rw [Pinner.pinnedTake, hread]
  rfl

end Pinner

end ChrysaLisp
