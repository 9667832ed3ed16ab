import ChrysaLisp.Storage.Pinned

set_option autoImplicit false

/-! # Pinned settings that come to be the same

Two stores that take what the other says is pinned, as often as they like and in any order, come to
one map where what they hold is told as it is and a count of a member is of the same prefixes at
both (`settles_iff`). A prefix that is empty or has a space too many is told as another, and is so
on the volume too. -/

namespace ChrysaLisp

/-! ## The later of two rows -/

section Later

variable {x y : Option (ℕ × List Str)}

/-- Rows of one count are one row. -/
def AgreeRow (x y : Option (ℕ × List Str)) : Prop :=
  ∀ row row', x = some row → y = some row' → row.1 = row'.1 → row = row'

@[simp] theorem laterRow_none_left (y : Option (ℕ × List Str)) : laterRow none y = y := by
  cases y <;> rfl

@[simp] theorem laterRow_none_right (x : Option (ℕ × List Str)) : laterRow x none = x := by
  cases x <;> rfl

theorem laterRow_eq (x y : Option (ℕ × List Str)) : laterRow x y = x ∨ laterRow x y = y := by
  cases x with
  | none => exact Or.inr (laterRow_none_left y)
  | some was =>
      cases y with
      | none => exact Or.inl rfl
      | some row =>
          rw [laterRow]
          split_ifs
          · exact Or.inr rfl
          · exact Or.inl rfl

theorem laterRow_right (x y : Option (ℕ × List Str)) : laterRow (laterRow x y) y = laterRow x y := by
  cases x with
  | none =>
      cases y with
      | none => rfl
      | some row => exact if_neg (Nat.lt_irrefl _)
  | some was =>
      cases y with
      | none => rfl
      | some row =>
          by_cases hlt : was.1 < row.1
          · simp only [laterRow, if_pos hlt, if_neg (Nat.lt_irrefl row.1)]
          · simp only [laterRow, if_neg hlt]

theorem laterRow_comm (h : AgreeRow x y) : laterRow y x = laterRow x y := by
  cases x with
  | none => simp
  | some was =>
      cases y with
      | none => rfl
      | some row =>
          simp only [laterRow]
          split_ifs with h1 h2 h2
          · omega
          · rfl
          · rfl
          · rw [h was row rfl rfl (by omega)]

theorem AgreeRow.later (h : AgreeRow x y) : AgreeRow (laterRow x y) y := by
  rcases laterRow_eq x y with heq | heq
  · rw [heq]
    exact h
  · rw [heq]
    intro row row' hrow hrow' _
    exact Option.some.inj (hrow.symm.trans hrow')

theorem AgreeRow.symm (h : AgreeRow x y) : AgreeRow y x :=
  fun row row' hrow hrow' hcount => (h row' row hrow' hrow hcount.symm).symm

end Later

/-! ## Two stores that meet -/

/-- Maps that are of the same rows. -/
def SamePinned (p q : PinnedMap) : Prop := ∀ who, p.lookup who = q.lookup who

/-- The counts of a member are of the same prefixes in both. -/
def Agree (p q : PinnedMap) : Prop := ∀ who, AgreeRow (p.lookup who) (q.lookup who)

/-- Which of two takes what the other says. -/
inductive Side where
  | left
  | right
  deriving DecidableEq

namespace Pinner

/-- One of two stores takes the lines of the other. -/
def exchangeOne (two : Pinner × Pinner) : Side → Pinner × Pinner
  | .left => (two.1.pinnedTake two.2.pinnedLines, two.2)
  | .right => (two.1, two.2.pinnedTake two.1.pinnedLines)

/-- One after another. -/
def exchange (run : List Side) (two : Pinner × Pinner) : Pinner × Pinner := run.foldl exchangeOne two

theorem exchange_both (a b : Pinner) : exchange [.left, .right] (a, b) =
    (a.pinnedTake b.pinnedLines, b.pinnedTake (a.pinnedTake b.pinnedLines).pinnedLines) := rfl

/-- Pinned settings come to be the same however they are exchanged, the same lines again change
    nothing, and what is read on reopening is what was held. -/
structure Settles (a b : Pinner) : Prop where
  converge : ∀ run, .left ∈ run → .right ∈ run →
    SamePinned (exchange run (a, b)).1.pinned (exchange run (a, b)).2.pinned
  again : ∀ lines, (a.pinnedTake lines).pinnedTake lines = a.pinnedTake lines ∧
    (b.pinnedTake lines).pinnedTake lines = b.pinnedTake lines
  reopened : SamePinned a.reopen.pinned a.pinned ∧ SamePinned b.reopen.pinned b.pinned

variable {a b store : Pinner}

/-- What is taken of a map that is told as it is. -/
theorem pinnedTake_lookup (hworded : Worded b.pinned) (hplain : Plain b.pinned) (who : Str) :
    (a.pinnedTake b.pinnedLines).pinned.lookup who = laterRow (a.pinned.lookup who)
    (b.pinned.lookup who) := by
  rw [pinnedTake_pinned, pinnedRead_lookup, pinRows_pinnedLines hworded hplain]

/-- What has been taken is of one of the two. -/
theorem worded_take (ha : Worded a.pinned) (hb : Worded b.pinned) (hplain : Plain b.pinned) :
    Worded (a.pinnedTake b.pinnedLines).pinned := by
  intro who row hlookup
  rw [pinnedTake_lookup hb hplain] at hlookup
  rcases laterRow_eq (a.pinned.lookup who) (b.pinned.lookup who) with heq | heq
  · exact ha who row (heq ▸ hlookup)
  · exact hb who row (heq ▸ hlookup)

theorem plain_take (ha : Plain a.pinned) (hworded : Worded b.pinned) (hb : Plain b.pinned) :
    Plain (a.pinnedTake b.pinnedLines).pinned := by
  intro who row hlookup
  rw [pinnedTake_lookup hworded hb] at hlookup
  rcases laterRow_eq (a.pinned.lookup who) (b.pinned.lookup who) with heq | heq
  · exact ha who row (heq ▸ hlookup)
  · exact hb who row (heq ▸ hlookup)

/-- Whichever has taken has the later of each row, and the other is as it was. -/
theorem exchange_lookup (run : List Side) (ha : Worded a.pinned ∧ Plain a.pinned)
    (hb : Worded b.pinned ∧ Plain b.pinned)
    (hagree : Agree a.pinned b.pinned) (who : Str) :
    ((exchange run (a, b)).1.pinned.lookup who =
        if .left ∈ run then laterRow (a.pinned.lookup who) (b.pinned.lookup who) else a.pinned.lookup who) ∧
      ((exchange run (a, b)).2.pinned.lookup who =
        if .right ∈ run then laterRow (a.pinned.lookup who) (b.pinned.lookup who)
          else b.pinned.lookup who) := by
  induction run generalizing a b with
  | nil => exact ⟨rfl, rfl⟩
  | cons side run ih =>
      cases side with
      | left =>
          have htake := fun who => pinnedTake_lookup (a := a) hb.1 hb.2 who
          have hrest := ih (a := a.pinnedTake b.pinnedLines)
            ⟨worded_take ha.1 hb.1 hb.2, plain_take ha.2 hb.1 hb.2⟩ hb
            fun who => by rw [htake]; exact (hagree who).later
          rw [htake, laterRow_right] at hrest
          refine ⟨?_, ?_⟩
          · rw [if_pos List.mem_cons_self]
            exact hrest.1.trans (ite_self _)
          · simp only [List.mem_cons, reduceCtorEq, false_or]
            exact hrest.2
      | right =>
          have htake := fun who => pinnedTake_lookup (a := b) ha.1 ha.2 who
          have hrest := ih (b := b.pinnedTake a.pinnedLines) ha
            ⟨worded_take hb.1 ha.1 ha.2, plain_take hb.2 ha.1 ha.2⟩
            fun who => by rw [htake]; exact (hagree who).symm.later.symm
          have hlater : laterRow (a.pinned.lookup who)
            (laterRow (b.pinned.lookup who) (a.pinned.lookup who)) =
              laterRow (a.pinned.lookup who) (b.pinned.lookup who) := by
            rw [← laterRow_comm (hagree who).symm.later.symm, laterRow_right, laterRow_comm (hagree who)]
          rw [htake, hlater] at hrest
          refine ⟨?_, ?_⟩
          · simp only [List.mem_cons, reduceCtorEq, false_or]
            exact hrest.1
          · rw [if_pos List.mem_cons_self]
            refine hrest.2.trans ?_
            split_ifs
            · rfl
            · exact laterRow_comm (hagree who)

/-! ## What is on the volume -/

/-- The lines that are read again are cut at line feeds, and none is in them. -/
theorem not_mem_storeLines {text line : Str} (h : line ∈ storeLines text) : 10 ∉ line :=
    (part_of_mem_split h).2

/-- What a line is cut into at line feeds is read again. -/
theorem mem_storeLines {lines : List Str} {line t : Str} (hline : line ∈ lines) (ht : t ∈ split line 10) :
    t ∈ storeLines (storeText lines) := by
  unfold storeLines storeText
  induction lines with
  | nil => exact absurd hline List.not_mem_nil
  | cons l lines ih =>
      rw [List.map_cons, List.flatten_cons, storeLf, List.append_assoc, List.singleton_append,
        split_append_cons, List.mem_append]
      rcases List.mem_cons.mp hline with rfl | hline
      · exact Or.inl ht
      · exact Or.inr (ih hline)

/-- Of a member that is told of there is a line that says so, wherever its prefix is cut. -/
theorem exists_pinLine {who : Str} {row : ℕ × List Str} (hworded : Worded store.pinned)
    (h : store.pinned.lookup who = some row) :
    ∃ t ∈ storeLines (storeText store.pinnedLines), ∃ starts, pinLine t = some (who, row.1, starts) := by
  obtain ⟨hwho, hlf, -⟩ := hworded who row h
  obtain ⟨said, hsaid⟩ := List.exists_mem_of_ne_nil _ (saidOf_ne_nil ⟨who, row⟩)
  have hline : lineOf said ∈ store.pinnedLines := by
    rw [pinnedLines_eq, mem_sortStr]
    exact List.mem_map.mpr ⟨said, List.mem_flatMap.mpr ⟨_, AList.mem_lookup_iff.mp h, hsaid⟩, rfl⟩
  have hcount : 10 ∉ strNum row.1 := not_mem_strNum (by decide) row.1
  obtain ⟨hsame, hnum, hstarts⟩ := mem_saidOf hsaid
  obtain ⟨who', count, starts⟩ := said
  simp only at hsame hnum hstarts
  subst hsame hnum
  rcases hstarts with rfl | ⟨start, rfl, -⟩
  · have heq : lineOf (who', row.1, []) = who' ++ 32 :: strNum row.1 := by simp [lineOf]
    rw [heq] at hline
    have hpart : Part 10 (who' ++ 32 :: strNum row.1) := by
      refine ⟨by simp, ?_⟩
      rw [List.mem_append, List.mem_cons, not_or, not_or]
      exact ⟨hlf, by decide, hcount⟩
    refine ⟨_, mem_storeLines hline (by rw [split_part hpart]; exact List.mem_cons_self), [],
      pinLine_head hwho⟩
  · have heq : lineOf (who', row.1, [start]) = who' ++ 32 :: (strNum row.1 ++ 32 :: start) := by simp [lineOf]
    rw [heq] at hline
    have hpart : ∀ u, 10 ∉ u → Part 10 (who' ++ 32 :: (strNum row.1 ++ 32 :: u)) := by
      intro u hu
      refine ⟨by simp, ?_⟩
      rw [List.mem_append, List.mem_cons, List.mem_append, List.mem_cons, not_or, not_or, not_or, not_or]
      exact ⟨hlf, by decide, hcount, by decide, hu⟩
    by_cases hin : 10 ∈ start
    · obtain ⟨u, v, rfl, hnot⟩ := List.eq_append_cons_of_mem hin
      refine ⟨who' ++ 32 :: (strNum row.1 ++ 32 :: u), mem_storeLines hline ?_, _, pinLine_append hwho u⟩
      have hcut : who' ++ 32 :: (strNum row.1 ++ 32 :: (u ++ 10 :: v)) =
          (who' ++ 32 :: (strNum row.1 ++ 32 :: u)) ++ 10 :: v := by simp
      rw [hcut]
      exact mem_split_of_head (hpart u hnot) v
    · refine ⟨_, mem_storeLines hline ?_, _, pinLine_append hwho start⟩
      rw [split_part (hpart start hin)]
      exact List.mem_cons_self

/-- What is read of the volume, before it is looked at whether the pins have been told. -/
def opened (store : Pinner) : Pinner :=
  (({ store with pins := storeLines (storeText store.pins), pinned := ∅ } : Pinner).pinnedRead
    (storeLines (storeText store.pinnedLines))).1

theorem opened_lookup (store : Pinner) (who : Str) : store.opened.pinned.lookup who =
    ((pinRows (storeLines (storeText store.pinnedLines))).lookup who).map fun row =>
      (row.1, sortStr row.2) := by
  unfold opened
  rw [pinnedRead_lookup]
  exact laterRow_none_left _

theorem opened_eq (store : Pinner) :
    store.opened =
      (({ store with pins := storeLines (storeText store.pins), pinned := ∅ } : Pinner).pinnedRead
        (storeLines (storeText store.pinnedLines))).1 := rfl

theorem opened_member (store : Pinner) : store.opened.member = store.member := by
  have hfold : ∀ l : List (Sigma fun _ : Str => ℕ × List Str), ∀ acc : Pinner × Bool,
      (l.foldl takeRow acc).1.member = acc.1.member := by
    intro l
    induction l with
    | nil => exact fun _ => rfl
    | cons row l ih => exact fun acc => (ih _).trans (takeRow_member acc row)
  exact hfold _ _

/-- The pins have been told, so what is read is all there is. -/
theorem reopen_eq (h : store.Proper) : store.reopen = store.opened := by
  refine if_neg ?_
  rintro ⟨hpins, hnone⟩
  change store.opened.pins ≠ [] at hpins
  change store.opened.pinned.lookup store.opened.member = none at hnone
  have htold : store.member ∈ store.pinned → False := by
    intro hmem
    obtain ⟨row, hrow⟩ := Option.isSome_iff_exists.mp (AList.lookup_isSome.mpr hmem)
    obtain ⟨t, ht, starts, hsays⟩ := exists_pinLine h.worded hrow
    have hin : store.member ∈ pinRows (storeLines (storeText store.pinnedLines)) :=
      mem_foldl_pinRow (Or.inr ⟨_, List.mem_filterMap.mpr ⟨t, ht, hsays⟩, rfl⟩)
    obtain ⟨got, hgot⟩ := Option.isSome_iff_exists.mp (AList.lookup_isSome.mpr hin)
    rw [opened_member, opened_lookup, hgot] at hnone
    exact absurd hnone (by simp)
  by_cases hown : store.pins = []
  · -- it had no pins, so those it has now are of a row that was read
    have hstart :
        ({ store with pins := storeLines (storeText store.pins), pinned := ∅ } : Pinner).Proper := by
      refine ⟨h.member, ?_, ?_, ?_⟩
      · intro who row hlookup
        exact absurd hlookup (by simp)
      · rw [hown]
        exact List.Pairwise.nil
      · rw [hown]
        exact fun hne => absurd rfl hne
    have hlf : ∀ line ∈ storeLines (storeText store.pinnedLines), 10 ∉ line :=
      fun line hline => not_mem_storeLines hline
    have hread := hstart.pinnedRead hlf
    rw [← opened_eq] at hread
    exact AList.lookup_eq_none.mp hnone (hread.own hpins)
  · exact htold (h.own hown)

theorem reopen_same (h : store.Proper) (hplain : Plain store.pinned) :
    SamePinned store.reopen.pinned store.pinned := by
  have hlines : ∀ line ∈ store.pinnedLines, Part 10 line := by
    intro line hline
    rw [pinnedLines_eq, mem_sortStr] at hline
    obtain ⟨said, hsaid, rfl⟩ := List.mem_map.mp hline
    obtain ⟨row, hrow, hmem⟩ := List.mem_flatMap.mp hsaid
    obtain ⟨hwho, hcount, hstarts⟩ := mem_saidOf hmem
    have hlookup := AList.mem_lookup_iff.mpr hrow
    refine ⟨by simp [lineOf], ?_⟩
    unfold lineOf
    rw [List.mem_append, List.mem_append, List.mem_cons, not_or, not_or, not_or]
    refine ⟨⟨hwho ▸ (h.worded _ _ hlookup).2.1, by decide, not_mem_strNum (by decide) _⟩, ?_⟩
    rcases hstarts with hnil | ⟨start, hone, hstart⟩
    · rw [hnil]
      exact List.not_mem_nil
    · rw [hone, List.map_singleton, List.flatten_singleton, List.mem_cons, not_or]
      exact ⟨by decide, (hplain _ _ hlookup start hstart).2.2⟩
  intro who
  rw [reopen_eq h, opened_lookup, storeLines_storeText hlines]
  exact pinRows_pinnedLines h.worded hplain who

/-- What is read again is told as it is. -/
theorem plain_of_reopen (h : store.Proper) (hsame : SamePinned store.reopen.pinned store.pinned) :
    Plain store.pinned := by
  intro who row hlookup start hstart
  rw [← hsame who, reopen_eq h, opened_lookup, Option.map_eq_some_iff] at hlookup
  obtain ⟨got, hgot, rfl⟩ := hlookup
  refine forall_foldl_pinRow (P := PlainStart) ?_ ?_ hgot start (mem_sortStr.mp hstart)
  · intro said hsaid
    obtain ⟨line, hline, hsays⟩ := List.mem_filterMap.mp hsaid
    exact (plain_of_pinLine (not_mem_storeLines hline) hsays).2.2
  · intro who row hnone
    exact absurd hnone (by simp)

/-! ## When they come to be the same -/

/-- Two stores come to the same pinned map, and keep it, just where the prefixes that are pinned at
    either are told as they are and a count of a member is of the same prefixes at both. -/
theorem settles_iff (a b : Pinner) (ha : a.Proper) (hb : b.Proper) :
    Settles a b ↔ Plain a.pinned ∧ Plain b.pinned ∧ Agree a.pinned b.pinned := by
  constructor
  · intro h
    have hplain_a := plain_of_reopen ha h.reopened.1
    have hplain_b := plain_of_reopen hb h.reopened.2
    refine ⟨hplain_a, hplain_b, ?_⟩
    intro who row row' hrow hrow' hcount
    have hboth := h.converge [.left, .right] (by decide) (by decide) who
    simp only [exchange_both] at hboth
    have hleft := pinnedTake_lookup (a := a) hb.worded hplain_b who
    have hright := pinnedTake_lookup (a := b) (b := a.pinnedTake b.pinnedLines)
      (worded_take ha.worded hb.worded hplain_b) (plain_take hplain_a hb.worded hplain_b) who
    rw [hleft, hrow, hrow'] at hright
    rw [hrow, hrow'] at hleft
    simp only [laterRow, hcount, if_neg (Nat.lt_irrefl row'.1)] at hleft hright
    rw [hleft, hright] at hboth
    exact Option.some.inj hboth
  · rintro ⟨hplain_a, hplain_b, hagree⟩
    refine ⟨?_, fun lines => ⟨pinnedTake_twice a lines, pinnedTake_twice b lines⟩,
      reopen_same ha hplain_a, reopen_same hb hplain_b⟩
    intro run hleft hright who
    obtain ⟨hl, hr⟩ := exchange_lookup run ⟨ha.worded, hplain_a⟩ ⟨hb.worded, hplain_b⟩ hagree who
    rw [hl, hr, if_pos hleft, if_pos hright]

/-- A store of a member as it is made. -/
def made (member : Str) : Pinner where
  member := member
  members := [member]
  retired := []
  pinned := ∅
  blockSize := 4096
  map := ∅
  digest := none
  pins := []

theorem proper_made {member : Str} (h : Part 32 member ∧ 10 ∉ member) : (made member).Proper :=
  ⟨h, fun _ _ hlookup => absurd hlookup (by simp [made]), List.Pairwise.nil, fun hne => absurd rfl hne⟩

/-- A store that has pinned a path with a space in it, and one that has pinned nothing. -/
theorem settles_iff_of_one :
    Settles ((made (asc "aaaa")).pin (asc "with a space/") false) (made (asc "bbbb")) ↔
    Plain ((made (asc "aaaa")).pin (asc "with a space/") false).pinned ∧ Plain (made (asc "bbbb")).pinned ∧
      Agree ((made (asc "aaaa")).pin (asc "with a space/") false).pinned (made (asc "bbbb")).pinned :=
  settles_iff _ _ ((proper_made (by decide)).pin _ false) (proper_made (by decide))

/-- A store that holds all there is, of the empty prefix, is not known to. -/
theorem not_settles_empty : ¬ Settles ((made (asc "aaaa")).pin [] false) (made (asc "bbbb")) := by
  intro h
  have hleft : ((exchange [.right, .left]
    ((made (asc "aaaa")).pin [] false, made (asc "bbbb"))).1.pinned.lookup
      (asc "aaaa")) = some (1, [[]]) := by decide +kernel
  have hright : ((exchange [.right, .left]
    ((made (asc "aaaa")).pin [] false, made (asc "bbbb"))).2.pinned.lookup
      (asc "aaaa")) = some (1, []) := by decide +kernel
  have hboth := h.converge [.right, .left] (by decide) (by decide) (asc "aaaa")
  rw [hleft, hright] at hboth
  exact absurd hboth (by decide)

end Pinner

end ChrysaLisp
