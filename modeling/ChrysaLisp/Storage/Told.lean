import ChrysaLisp.Storage.Reopen

set_option autoImplicit false

/-! # Which entries are read as what they were

A line is cut at its spaces and no part of it is empty, so of a path with a space at an end of it, or
with one next to another, a space is lost, and it is read as another path. The entries that are
read as what they were are those of paths with no such space (`read_iff_noSpare`): on the volume, in
the journal, and by another member that is told of them. -/

namespace ChrysaLisp

/-- No space at an end, and none next to another. -/
def NoSpareSpace (name : Str) : Prop :=
  name.head? ≠ some 32 ∧ name.getLast? ≠ some 32 ∧ name.IsChain (fun a b => ¬ (a = 32 ∧ b = 32))

instance (name : Str) : Decidable (NoSpareSpace name) := inferInstanceAs (Decidable (_ ∧ _ ∧ _))

/-- An entry of a path map: a path, and members. -/
structure Entry.Proper (e : Entry) : Prop where
  path : e.path ≠ []
  lf : 10 ∉ e.path
  vv : ∀ p ∈ e.vv, IsId p.1
  writer : IsId e.writer
  seen : ∀ who ∈ e.seen, IsId who

/-! ## Parts with one space between -/

theorem isChain_part {t : Str} (h : 32 ∉ t) : t.IsChain (fun a b => ¬ (a = 32 ∧ b = 32)) :=
  List.isChain_iff_getElem.2 (fun _ _ hab => h (hab.1 ▸ List.getElem_mem _))

theorem noSpare_join {ts : List Str} (h : ∀ t ∈ ts, Part 32 t) : NoSpareSpace (join ts (asc " ")) := by
  induction ts with
  | nil => exact ⟨by simp [join], by simp [join], List.IsChain.nil⟩
  | cons t ts ih =>
      have ht := h t List.mem_cons_self
      have hhead : t.head? ≠ some 32 := fun hh => ht.2 (List.mem_of_head? hh)
      have hlast : t.getLast? ≠ some 32 := fun hl => ht.2 (List.mem_of_getLast? hl)
      cases ts with
      | nil => exact ⟨hhead, hlast, isChain_part ht.2⟩
      | cons u us =>
          obtain ⟨hhead', hlast', hchain'⟩ := ih (fun t ht => h t (List.mem_cons_of_mem _ ht))
          have hu := h u (List.mem_cons_of_mem _ List.mem_cons_self)
          have hne : join (u :: us) (asc " ") ≠ [] := by
            cases us with
            | nil => exact hu.1
            | cons v us => simp [join, hu.1]
          have hjoin : join (t :: u :: us) (asc " ") = t ++ 32 :: join (u :: us) (asc " ") := by
            rw [join_cons (List.cons_ne_nil _ _), List.append_assoc]
            rfl
          rw [hjoin]
          refine ⟨?_, ?_, ?_⟩
          · rw [List.head?_append_of_ne_nil _ ht.1]
            exact hhead
          · rw [List.getLast?_append_of_ne_nil _ (List.cons_ne_nil _ _), List.getLast?_cons,
              List.getLast?_eq_some_getLast hne]
            rw [List.getLast?_eq_some_getLast hne] at hlast'
            exact hlast'
          · rw [List.isChain_append, List.isChain_cons]
            refine ⟨isChain_part ht.2, ⟨fun y hy hab => hhead' ?_, hchain'⟩, fun x hx y hy hab => ?_⟩
            · rw [← hab.2]
              exact hy
            · exact hlast (hab.1 ▸ hx)

theorem exists_join {name : Str} (h : NoSpareSpace name) :
    ∃ ts, (∀ t ∈ ts, Part 32 t) ∧ join ts (asc " ") = name := by
  obtain ⟨hhead, hlast, hchain⟩ := h
  by_cases hin : 32 ∈ name
  · -- what is before the first space, and what is after it
    obtain ⟨t, rest, hname, hnot⟩ := List.eq_append_cons_of_mem hin
    have hlt : rest.length < name.length := by
      rw [hname, List.length_append, List.length_cons]
      omega
    rw [hname] at hhead hlast hchain ⊢
    have hne : t ≠ [] := by
      rintro rfl
      exact hhead rfl
    have hrest : rest ≠ [] := by
      rintro rfl
      exact hlast (by simp)
    rw [List.isChain_append, List.isChain_cons] at hchain
    have hspare : NoSpareSpace rest := by
      refine ⟨fun hh => hchain.2.1.1 32 hh ⟨rfl, rfl⟩, fun hl => hlast ?_, hchain.2.1.2⟩
      rw [List.getLast?_append_of_ne_nil _ (List.cons_ne_nil _ _), List.getLast?_cons, hl]
      rfl
    obtain ⟨ts, hts, hjoin⟩ := exists_join hspare
    refine ⟨t :: ts, fun u hu => ?_, ?_⟩
    · rcases List.mem_cons.1 hu with rfl | hu
      · exact ⟨hne, hnot⟩
      · exact hts u hu
    · have hsome : ts ≠ [] := by
        rintro rfl
        exact hrest hjoin.symm
      rw [join_cons hsome, hjoin, List.append_assoc]
      rfl
  · by_cases hnil : name = []
    · exact ⟨[], by simp, hnil.symm⟩
    · exact ⟨[name], fun u hu => List.mem_singleton.1 hu ▸ ⟨hnil, hin⟩, rfl⟩
termination_by name.length

/-- What a path with no spare space is cut into is joined again to what it was. -/
theorem join_split_iff {name : Str} : join (split name 32) (asc " ") = name ↔ NoSpareSpace name := by
  constructor
  · intro h
    rw [← h]
    exact noSpare_join (fun t ht => part_of_mem_split ht)
  · intro h
    obtain ⟨ts, hts, rfl⟩ := exists_join h
    exact congrArg (fun ts => join ts (asc " ")) (split_join hts)

/-! ## What is read -/

section Read

variable {e : Entry}

/-- What is read of any line is of a path with no spare space. -/
theorem noSpare_of_read {line : Str} (h : storeEntryRead line = some e) : NoSpareSpace e.path := by
  unfold storeEntryRead at h
  split at h
  next hash size vv writer seen deleted first rest hsplit =>
    obtain rfl := Option.some.inj h
    refine noSpare_join (fun t ht => part_of_mem_split (s := line) ?_)
    rw [hsplit]
    simp only [List.mem_cons] at ht ⊢
    tauto
  · exact absurd h (by simp)

theorem Entry.Proper.written (h : e.Proper) (hs : NoSpareSpace e.path) : e.Written :=
  ⟨⟨h.path, h.lf, join_split_iff.2 hs⟩, h.vv, h.writer, h.seen⟩

/-- **Which entries are read as what they were.** -/
theorem read_line_iff (h : e.Proper) :
    storeEntryRead (storeEntryLine e) = some e ↔ NoSpareSpace e.path :=
  ⟨noSpare_of_read, fun hs => storeEntryRead_line (h.written hs)⟩

/-- The lines one member tells another of its entries. -/
def toldText (es : List Entry) : Str := join (es.map storeEntryLine) storeLf

/-- The entries it takes from them. -/
def toldRead (text : Str) : List Entry := (split text 10).filterMap storeEntryRead

theorem toldRead_iff {es : List Entry} (h : ∀ e ∈ es, e.Proper) :
    toldRead (toldText es) = es ↔ ∀ e ∈ es, NoSpareSpace e.path := by
  constructor
  · intro hread e he
    rw [← hread] at he
    obtain ⟨line, -, hline⟩ := List.mem_filterMap.1 he
    exact noSpare_of_read hline
  · intro hs
    have hwritten : ∀ e ∈ es, e.Written := fun e he => (h e he).written (hs e he)
    have hpart : ∀ line ∈ es.map storeEntryLine, Part 10 line := by
      intro line hline
      obtain ⟨e, he, rfl⟩ := List.mem_map.1 hline
      exact part_storeEntryLine (hwritten e he)
    have hread : ∀ e ∈ es, (storeEntryRead ∘ storeEntryLine) e = some (id e) :=
      fun e he => storeEntryRead_line (hwritten e he)
    unfold toldRead toldText storeLf
    rw [split_join hpart, List.filterMap_map, List.filterMap_eq_map_iff_forall_eq_some.2 hread,
      List.map_id]

/-- What a map has is one of the entries that were put in it. -/
theorem mem_of_lookup_foldl {es : List Entry} {map : PathMap} {p : Str}
    (h : (es.foldl PathMap.put map).lookup p = some e) : e ∈ es ∨ map.lookup p = some e := by
  induction es generalizing map with
  | nil => exact Or.inr h
  | cons e' es ih =>
      rcases ih h with hin | hl
      · exact Or.inl (List.mem_cons_of_mem _ hin)
      · by_cases hp : p = e'.path
        · rw [hp, lookup_put_self] at hl
          exact Or.inl (Option.some.inj hl ▸ List.mem_cons_self)
        · rw [lookup_put_ne hp] at hl
          exact Or.inr hl

theorem mapRead_iff {map : PathMap} (hkeyed : map.Keyed)
    (h : ∀ p e, map.lookup p = some e → e.Proper) :
    (∀ p, (storeMapRead (storeMapText map)).lookup p = map.lookup p) ↔
      ∀ p e, map.lookup p = some e → NoSpareSpace e.path := by
  constructor
  · intro hread p e he
    rw [← hread p] at he
    rcases mem_of_lookup_foldl he with hin | hl
    · obtain ⟨line, -, hline⟩ := List.mem_filterMap.1 hin
      exact noSpare_of_read hline
    · exact absurd hl (by simp)
  · intro hs p
    exact lookup_storeMapRead hkeyed (fun p e he => (h p e he).written (hs p e he)) p

theorem journalLine_iff {sha256 : Str → Str} (hsha : ∀ data, (sha256 data).length = 32)
    (h : e.Proper) (count : ℕ) (before after : Str) :
    journalLine sha256 (before ++ storeJournalMark sha256 count (storeEntryLine e) ++ after) count
        before.length
      = some (e, before.length + (storeJournalMark sha256 count (storeEntryLine e)).length) ↔
      NoSpareSpace e.path := by
  constructor
  · intro hread
    unfold journalLine at hread
    split at hread
    · exact absurd hread (by simp)
    · simp only at hread
      split at hread
      · obtain ⟨read, hentry, hsome⟩ := Option.map_eq_some_iff.1 hread
        obtain rfl := (Prod.mk.inj hsome).1
        exact noSpare_of_read hentry
      · exact absurd hread (by simp)
  · intro hs
    exact journalLine_mark hsha count (h.written hs) before after

/-- **What is read back as it was**: an entry, the map that is written, what a member is told, and
    a line of the journal, each if no path of it has a spare space. -/
theorem read_back_iff {sha256 : Str → Str} (hsha : ∀ data, (sha256 data).length = 32) {map : PathMap}
    (hkeyed : map.Keyed) (h : ∀ p e, map.lookup p = some e → e.Proper) :
    (∀ p e, map.lookup p = some e →
      (storeEntryRead (storeEntryLine e) = some e ↔ NoSpareSpace p)) ∧
    ((∀ p, (storeMapRead (storeMapText map)).lookup p = map.lookup p) ↔
      ∀ p e, map.lookup p = some e → NoSpareSpace p) ∧
    (∀ es, (∀ e ∈ es, map.lookup e.path = some e) →
      (toldRead (toldText es) = es ↔ ∀ e ∈ es, NoSpareSpace e.path)) ∧
    (∀ p e, map.lookup p = some e → ∀ count before after,
      (journalLine sha256 (before ++ storeJournalMark sha256 count (storeEntryLine e) ++ after) count
          before.length
        = some (e, before.length + (storeJournalMark sha256 count (storeEntryLine e)).length) ↔
        NoSpareSpace p)) := by
  have hpath : ∀ p e, map.lookup p = some e → e.path = p := fun p e he => hkeyed p e he
  refine ⟨fun p e he => ?_, ?_, fun es hes => ?_, fun p e he count before after => ?_⟩
  · rw [← hpath p e he]
    exact read_line_iff (h p e he)
  · rw [mapRead_iff hkeyed h]
    exact forall₃_congr (fun p e he => by rw [hpath p e he])
  · exact toldRead_iff (fun e he => h _ e (hes e he))
  · rw [← hpath p e he]
    exact journalLine_iff hsha (h p e he) count before after

end Read

/-! ## A path with two spaces -/

/-- A song under a path with a word on either side of so many spaces. -/
def spacedSong (spaces : ℕ) : Entry where
  path := asc "a" ++ List.replicate spaces 32 ++ asc "song"
  hash := OpenStore.songObject true
  bytes := 6
  vv := [(asc "aaaa", 1)]
  writer := asc "aaaa"
  seen := [asc "aaaa"]
  deleted := false
  copies := 0

theorem proper_spacedSong (spaces : ℕ) : (spacedSong spaces).Proper := by
  have hid : IsId (asc "aaaa") := by decide
  refine ⟨by simp [spacedSong, asc], ?_, fun p hp => ?_, hid, fun who hwho => ?_⟩
  · simp only [spacedSong, List.mem_append, List.mem_replicate, not_or]
    exact ⟨⟨by decide, fun h => absurd h.2 (by decide)⟩, by decide⟩
  · obtain rfl := List.mem_singleton.1 hp
    exact hid
  · obtain rfl := List.mem_singleton.1 hwho
    exact hid

/-- **It is read as another path**, the one with a single space. -/
theorem read_line_fails : ¬ ∀ e : Entry, e.Proper → storeEntryRead (storeEntryLine e) = some e := by
  intro h
  have hread : storeEntryRead (storeEntryLine (spacedSong 2)) = some (spacedSong 1) := by
    decide +kernel
  rw [h _ (proper_spacedSong 2)] at hread
  exact absurd hread (by decide)

theorem read_back_spacedSong :
    storeEntryRead (storeEntryLine (spacedSong 1)) = some (spacedSong 1) := by
  have hone : ∀ p e, (PathMap.put ∅ (spacedSong 1)).lookup p = some e → e = spacedSong 1 := by
    intro p e he
    by_cases hp : p = (spacedSong 1).path
    · rw [hp, lookup_put_self] at he
      exact (Option.some.inj he).symm
    · rw [lookup_put_ne hp] at he
      exact absurd he (by simp)
  have hback := read_back_iff OpenStore.length_lineSha256 (keyed_empty.put (spacedSong 1))
    (fun p e he => hone p e he ▸ proper_spacedSong 1)
  exact (hback.1 _ _ (lookup_put_self _ _)).2 (by decide)

end ChrysaLisp
