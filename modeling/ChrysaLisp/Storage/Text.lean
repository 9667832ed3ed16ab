import ChrysaLisp.Lisp.Text
import ChrysaLisp.Storage.Store

set_option autoImplicit false

/-! # The text of a path map, read back

An entry is a line, a line of the journal is read by the same function as a line of the map, and
what is read of it is the entry it was (`storeEntryRead_line`). A line is cut at its spaces, so this
is of paths a cut does not change, and of members whose ids have none of the separators in them. -/

namespace ChrysaLisp

/-- `(store-lines text)`. -/
def storeLines (text : Str) : List Str := split text 10

/-- `(store-vv-read text)`. -/
def storeVvRead (text : Str) : Vv :=
  if text = asc "-" then []
  else (split text 44).map (fun part =>
    let i := (findByte 58 part 0).getD 0
    (part.take i, strAsNum (part.drop (i + 1))))

/-- `(store-entry-read line)`, `none` if it is too short to be one. -/
def storeEntryRead (line : Str) : Option Entry :=
  match split line 32 with
  | hash :: size :: vv :: writer :: seen :: deleted :: first :: rest =>
      some
        { path := join (first :: rest) (asc " ")
          hash := if hash = asc "-" then [] else hexDecode hash
          bytes := strAsNum size
          vv := storeVvRead vv
          writer := writer
          seen := if seen = asc "-" then [] else split seen 44
          deleted := (asc "1").isPrefixOf deleted
          copies :=
            match findByte 47 deleted 0 with
            | some i => strAsNum (deleted.drop (i + 1))
            | none => 0 }
  | _ => none

/-! ## What can be written -/

/-- The id of a member, a system id in hex: none of what the text of an entry is cut at. -/
def IsId (who : Str) : Prop :=
  who ≠ [] ∧ who ≠ asc "-" ∧ 32 ∉ who ∧ 10 ∉ who ∧ 44 ∉ who ∧ 58 ∉ who

instance (who : Str) : Decidable (IsId who) := inferInstanceAs (Decidable (_ ∧ _))

/-- A path a line can have: not empty, no line feed in it, and no space at an end of it or next to
    another. -/
def IsPath (name : Str) : Prop :=
  name ≠ [] ∧ 10 ∉ name ∧ join (split name 32) (asc " ") = name

instance (name : Str) : Decidable (IsPath name) := inferInstanceAs (Decidable (_ ∧ _))

/-- An entry that is a line. -/
structure Entry.Written (e : Entry) : Prop where
  path : IsPath e.path
  vv : ∀ p ∈ e.vv, IsId p.1
  writer : IsId e.writer
  seen : ∀ who ∈ e.seen, IsId who

theorem IsId.part {who : Str} (h : IsId who) {sep : Byte} (hs : sep = 32 ∨ sep = 44) :
    Part sep who := by
  rcases hs with rfl | rfl
  · exact ⟨h.1, h.2.2.1⟩
  · exact ⟨h.1, h.2.2.2.2.1⟩

theorem IsPath.split_ne_nil {name : Str} (h : IsPath name) : split name 32 ≠ [] := by
  intro hnil
  rw [IsPath, hnil] at h
  exact h.1 h.2.2.symm

/-- A path with something put to the end of it, not a space or a line feed. -/
theorem IsPath.append {name s : Str} (h : IsPath name) (hs : 32 ∉ s) (hlf : 10 ∉ s) :
    IsPath (name ++ s) := by
  obtain ⟨hne, hname, hjoin⟩ := h
  refine ⟨by simp [hne], by simp [hname, hlf], ?_⟩
  have hsplit : split name 32 ≠ [] := IsPath.split_ne_nil ⟨hne, hname, hjoin⟩
  obtain ⟨ts, t, hts⟩ : ∃ ts t, split name 32 = ts ++ [t] :=
    ⟨_, _, (List.dropLast_append_getLast hsplit).symm⟩
  have hpart : ∀ u ∈ ts ++ [t], Part 32 u := fun u hu => part_of_mem_split (hts ▸ hu)
  have hlast : Part 32 (t ++ s) := by
    obtain ⟨hne, hmem⟩ := hpart t (by simp)
    exact ⟨by simp [hne], by simp [hmem, hs]⟩
  have hnew : name ++ s = join (ts ++ [t ++ s]) (asc " ") := by
    rw [hts] at hjoin
    cases ts with
    | nil => rw [← hjoin]; rfl
    | cons u ts =>
        rw [join_append (by simp) (by simp), ← hjoin, join_append (by simp) (by simp)]
        simp [join]
  have hparts : ∀ u ∈ ts ++ [t ++ s], Part 32 u := by
    intro u hu
    rcases List.mem_append.1 hu with hu | hu
    · exact hpart u (List.mem_append_left _ hu)
    · rw [List.mem_singleton.1 hu]
      exact hlast
  rw [hnew]
  exact congrArg (fun ts => join ts (asc " ")) (split_join hparts)

/-! ## The parts of a line -/

section Line

variable {e : Entry}

/-- The object of an entry, in a line. -/
def hashText (e : Entry) : Str := if e.hash = [] then asc "-" else hexEncode e.hash

/-- Who has it. -/
def seenText (e : Entry) : Str := if e.seen = [] then asc "-" else join e.seen (asc ",")

/-- Is it deleted, and how many copies, if it is said. -/
def deletedText (e : Entry) : Str :=
  (if e.deleted then asc "1" else asc "0") ++
    (if 0 < e.copies then asc "/" ++ strNum e.copies else [])

/-- What a line has before the path. -/
def headTexts (e : Entry) : List Str :=
  [hashText e, strNum e.bytes, storeVvText e.vv, e.writer, seenText e, deletedText e]

theorem storeEntryLine_eq (e : Entry) :
    storeEntryLine e = join (headTexts e ++ [e.path]) (asc " ") := rfl

theorem findIdx?_eq_none {c : Byte} {s : Str} (h : c ∉ s) :
    s.findIdx? (fun b => decide (b = c)) = none := by
  rw [List.findIdx?_eq_none_iff]
  intro b hb
  exact decide_eq_false (fun he : b = c => h (he ▸ hb))

/-- The first `c` from where `s`, that has none in it, is. -/
theorem findByte_append_at {c : Byte} {s : Str} (h : c ∉ s) (before rest : Str) :
    findByte c (before ++ (s ++ c :: rest)) before.length = some (before.length + s.length) := by
  unfold findByte
  rw [List.drop_left, List.findIdx?_append, findIdx?_eq_none h, List.findIdx?_cons,
    decide_eq_true rfl]
  simp [Nat.add_comm]

theorem findByte_append {c : Byte} {s : Str} (h : c ∉ s) (rest : Str) :
    findByte c (s ++ c :: rest) 0 = some s.length := by
  simpa using findByte_append_at h [] rest

theorem findByte_none {c : Byte} {s : Str} (h : c ∉ s) : findByte c s 0 = none := by
  unfold findByte
  rw [List.drop_zero, findIdx?_eq_none h, Option.map_none]

theorem hashText_spec (e : Entry) : Part 32 (hashText e) ∧ 10 ∉ hashText e ∧
    (if hashText e = asc "-" then [] else hexDecode (hashText e)) = e.hash := by
  unfold hashText
  split
  next h => exact ⟨by decide, by decide, by rw [if_pos rfl, h]⟩
  next h =>
    have hmem : ∀ c : Byte, c.val < 48 → c ∉ hexEncode e.hash := fun c hc hin => by
      have := le_of_mem_hexEncode hin
      omega
    have hne : hexEncode e.hash ≠ [] := by
      intro hnil
      have := length_hexEncode e.hash
      rw [hnil, List.length_nil] at this
      exact h (List.length_eq_zero_iff.1 (by omega))
    refine ⟨⟨hne, hmem 32 (by decide)⟩, hmem 10 (by decide), ?_⟩
    rw [if_neg, hexDecode_hexEncode]
    intro heq
    exact hmem 45 (by decide) (heq ▸ List.mem_singleton_self _)

theorem seenText_spec (h : ∀ who ∈ e.seen, IsId who) : Part 32 (seenText e) ∧ 10 ∉ seenText e ∧
    (if seenText e = asc "-" then [] else split (seenText e) 44) = e.seen := by
  unfold seenText
  split
  next hnil => exact ⟨by decide, by decide, by rw [if_pos rfl, hnil]⟩
  next hne =>
    have hsplit : split (join e.seen (asc ",")) 44 = e.seen :=
      split_join (fun who hwho => (h who hwho).part (Or.inr rfl))
    have hmem : ∀ c : Byte, c ≠ 44 → (∀ who ∈ e.seen, c ∉ who) → c ∉ join e.seen (asc ",") := by
      intro c hc hall hin
      rcases mem_join hin with hin | ⟨who, hwho, hin⟩
      · exact hc (List.mem_singleton.1 hin)
      · exact hall who hwho hin
    refine ⟨⟨?_, hmem 32 (by decide) (fun who hwho => (h who hwho).2.2.1)⟩,
      hmem 10 (by decide) (fun who hwho => (h who hwho).2.2.2.1), ?_⟩
    · intro hnil
      rw [hnil] at hsplit
      exact hne hsplit.symm
    · rw [if_neg, hsplit]
      intro hdash
      rw [hdash] at hsplit
      exact (h (asc "-") (hsplit ▸ by decide)).2.1 rfl

theorem deletedText_spec (e : Entry) : Part 32 (deletedText e) ∧ 10 ∉ deletedText e ∧
    (asc "1").isPrefixOf (deletedText e) = e.deleted ∧
    (match findByte 47 (deletedText e) 0 with
      | some i => strAsNum ((deletedText e).drop (i + 1))
      | none => 0) = e.copies := by
  have hnum : ∀ c : Byte, isDigit c = false → c ∉ strNum e.copies := fun c hc => not_mem_strNum hc _
  unfold deletedText
  by_cases hcopies : 0 < e.copies
  · rw [if_pos hcopies]
    have hslash : ∀ d : Byte, findByte 47 ([d] ++ (asc "/" ++ strNum e.copies)) 0 = some 1 ∨ d = 47 := by
      intro d
      by_cases hd : d = 47
      · exact Or.inr hd
      · exact Or.inl (findByte_append (s := [d]) (by simpa using fun he => hd he.symm) _)
    cases e.deleted
    · refine ⟨⟨by simp [asc], by simpa [asc] using hnum 32 (by decide)⟩,
        by simpa [asc] using hnum 10 (by decide), by simp [asc, List.isPrefixOf], ?_⟩
      have := (hslash 48).resolve_right (by decide)
      simp only [Bool.false_eq_true, if_false]
      rw [show asc "0" = [48] from rfl, this]
      exact strAsNum_strNum e.copies
    · refine ⟨⟨by simp [asc], by simpa [asc] using hnum 32 (by decide)⟩,
        by simpa [asc] using hnum 10 (by decide), by simp [asc, List.isPrefixOf], ?_⟩
      have := (hslash 49).resolve_right (by decide)
      simp only [if_true]
      rw [show asc "1" = [49] from rfl, this]
      exact strAsNum_strNum e.copies
  · rw [if_neg hcopies]
    obtain hzero : e.copies = 0 := by omega
    rw [hzero]
    cases e.deleted <;> decide

/-- The counts of who has written it. -/
theorem storeVvText_spec {vv : Vv} (h : ∀ p ∈ vv, IsId p.1) : Part 32 (storeVvText vv) ∧
    10 ∉ storeVvText vv ∧ storeVvRead (storeVvText vv) = vv := by
  have hpart : ∀ p ∈ vv, ∀ c : Byte, c ∉ p.1 → isDigit c = false → c ≠ 58 →
      c ∉ p.1 ++ asc ":" ++ strNum p.2 := by
    intro p _ c hc hd hcolon
    simp only [List.mem_append, not_or]
    exact ⟨⟨hc, fun hin => hcolon (List.mem_singleton.1 hin)⟩, not_mem_strNum hd _⟩
  unfold storeVvText
  by_cases hnil : vv = []
  · rw [if_pos hnil, hnil]
    exact ⟨by decide, by decide, rfl⟩
  rw [if_neg hnil]
  set parts := vv.map (fun p => p.1 ++ asc ":" ++ strNum p.2) with hparts
  have hmem : ∀ c : Byte, c ≠ 44 → c ≠ 58 → isDigit c = false → (∀ p ∈ vv, c ∉ p.1) →
      c ∉ join parts (asc ",") := by
    intro c hcomma hcolon hd hall hin
    rcases mem_join hin with hin | ⟨t, ht, hin⟩
    · exact hcomma (List.mem_singleton.1 hin)
    · obtain ⟨p, hp, rfl⟩ := List.mem_map.1 ht
      exact hpart p hp c (hall p hp) hd hcolon hin
  have hsplit : split (join parts (asc ",")) 44 = parts := by
    refine split_join (fun t ht => ?_)
    obtain ⟨p, hp, rfl⟩ := List.mem_map.1 ht
    exact ⟨by simp [asc], hpart p hp 44 (h p hp).2.2.2.2.1 (by decide) (by decide)⟩
  have hne : join parts (asc ",") ≠ [] := by
    intro hj
    rw [hj] at hsplit
    exact hnil (List.map_eq_nil_iff.1 hsplit.symm)
  refine ⟨⟨hne, hmem 32 (by decide) (by decide) (by decide) (fun p hp => (h p hp).2.2.1)⟩,
    hmem 10 (by decide) (by decide) (by decide) (fun p hp => (h p hp).2.2.2.1), ?_⟩
  have hdash : join parts (asc ",") ≠ asc "-" := by
    intro hj
    rw [hj] at hsplit
    -- a count has a colon in it
    obtain ⟨p, hp, he⟩ := List.mem_map.1 (hsplit ▸ by decide : asc "-" ∈ parts)
    have : (58 : Byte) ∈ asc "-" := by
      rw [← he]
      simp [asc]
    exact absurd this (by decide)
  unfold storeVvRead
  rw [if_neg hdash, hsplit, hparts, List.map_map]
  refine (List.map_congr_left (fun p hp => ?_)).trans (List.map_id vv)
  have hfind : findByte 58 (p.1 ++ asc ":" ++ strNum p.2) 0 = some p.1.length := by
    rw [List.append_assoc]
    exact findByte_append (h p hp).2.2.2.2.2 _
  simp only [Function.comp, hfind, Option.getD_some, id]
  refine Prod.ext ?_ ?_
  · simp
  · simp only [List.append_assoc]
    rw [← List.drop_drop, List.drop_left]
    exact strAsNum_strNum p.2

theorem part_headTexts (h : e.Written) : ∀ t ∈ headTexts e, Part 32 t := by
  intro t ht
  simp only [headTexts, List.mem_cons, List.not_mem_nil, or_false] at ht
  rcases ht with rfl | rfl | rfl | rfl | rfl | rfl
  · exact (hashText_spec e).1
  · exact ⟨strNum_ne_nil _, not_mem_strNum (by decide) _⟩
  · exact (storeVvText_spec h.vv).1
  · exact h.writer.part (Or.inl rfl)
  · exact (seenText_spec h.seen).1
  · exact (deletedText_spec e).1

/-- What a line is cut into. -/
theorem split_storeEntryLine (h : e.Written) :
    split (storeEntryLine e) 32 = headTexts e ++ split e.path 32 := by
  have hne : headTexts e ≠ [] := List.cons_ne_nil _ _
  have hline : storeEntryLine e = join (headTexts e ++ split e.path 32) (asc " ") := by
    rw [storeEntryLine_eq, join_append hne (List.cons_ne_nil _ _),
      join_append hne h.path.split_ne_nil, h.path.2.2]
    rfl
  rw [hline]
  refine split_join (fun t ht => ?_)
  rcases List.mem_append.1 ht with ht | ht
  · exact part_headTexts h t ht
  · exact part_of_mem_split ht

/-- **An entry that is written is read as what it was.** -/
theorem storeEntryRead_line (h : e.Written) : storeEntryRead (storeEntryLine e) = some e := by
  unfold storeEntryRead
  rw [split_storeEntryLine h]
  cases hname : split e.path 32 with
  | nil => exact absurd hname h.path.split_ne_nil
  | cons first rest =>
      obtain ⟨-, -, hdeleted, hcopies⟩ := deletedText_spec e
      simp only [headTexts, List.cons_append, List.nil_append]
      rw [← hname, h.path.2.2, (hashText_spec e).2.2, strAsNum_strNum,
        (storeVvText_spec h.vv).2.2, (seenText_spec h.seen).2.2, hdeleted, hcopies]

/-- A line is something, and has no line feed in it. -/
theorem part_storeEntryLine (h : e.Written) : Part 10 (storeEntryLine e) := by
  refine ⟨fun hnil => ?_, fun hin => ?_⟩
  · have := split_storeEntryLine h
    rw [hnil] at this
    exact absurd this (by simp [split, headTexts])
  · rw [storeEntryLine_eq] at hin
    rcases mem_join hin with hin | ⟨t, ht, hin⟩
    · exact absurd hin (by decide)
    · simp only [headTexts, List.cons_append, List.nil_append, List.mem_cons, List.not_mem_nil,
        or_false] at ht
      rcases ht with rfl | rfl | rfl | rfl | rfl | rfl | rfl
      · exact (hashText_spec e).2.1 hin
      · exact not_mem_strNum (by decide) _ hin
      · exact (storeVvText_spec h.vv).2.1 hin
      · exact h.writer.2.2.2.1 hin
      · exact (seenText_spec h.seen).2.1 hin
      · exact (deletedText_spec e).2.1 hin
      · exact h.path.2.1 hin

end Line

/-! ## What a store makes can be written -/

section Made

variable {store : Store} {members : List Str} {me : Str} {theirs mine : Entry}

theorem isId_bump {vv : Vv} {m : Str} (h : ∀ p ∈ vv, IsId p.1) (hm : IsId m) :
    ∀ p ∈ storeVvBump vv m, IsId p.1 := by
  intro p hp
  rw [storeVvBump_eq] at hp
  have hkey : p.1 ∈ (CountList.bumped vv m).map Prod.fst :=
    List.mem_map_of_mem ((CountList.sortKeys_perm _).mem_iff.1 hp)
  rw [CountList.map_fst_bumped, List.mem_append] at hkey
  rcases hkey with hkey | hkey
  · obtain ⟨q, hq, he⟩ := List.mem_map.1 hkey
    exact he ▸ h q hq
  · split at hkey
    · exact absurd hkey List.not_mem_nil
    · rw [List.mem_singleton.1 hkey]
      exact hm

theorem isId_merge {a b : Vv} (ha : ∀ p ∈ a, IsId p.1) (hb : ∀ p ∈ b, IsId p.1) :
    ∀ p ∈ storeVvMerge a b, IsId p.1 := by
  intro p hp
  have hkey : p.1 ∈ (CountList.merged a b).map Prod.fst :=
    List.mem_map_of_mem ((CountList.sortKeys_perm _).mem_iff.1 hp)
  rw [CountList.map_fst_merged, List.mem_append] at hkey
  rcases hkey with hkey | hkey
  · obtain ⟨q, hq, he⟩ := List.mem_map.1 hkey
    exact he ▸ ha q hq
  · obtain ⟨q, hq, he⟩ := List.mem_map.1 hkey
    exact he ▸ hb q (List.mem_of_mem_filter hq)

/-- The entry of a write, of a path that can be written. -/
theorem written_setEntry (h : ∀ p e, store.map.lookup p = some e → e.Written)
    (hm : IsId store.member) {name : Str} (hname : IsPath name) (hash : Str) (size : ℕ)
    (deleted : Bool) (copies : Option ℕ) :
    (store.setEntry name hash size deleted copies).Written := by
  refine ⟨hname, isId_bump (fun p hp => ?_) hm, hm, fun who hwho => ?_⟩
  · cases hf : store.find name with
    | none =>
        rw [hf] at hp
        exact absurd hp List.not_mem_nil
    | some was =>
        rw [hf] at hp
        exact (h name was hf).vv p hp
  · rw [List.mem_singleton.1 hwho]
    exact hm

theorem Entry.Written.taken (h : theirs.Written) (hme : IsId me) : (taken me theirs).Written := by
  refine ⟨h.path, h.vv, h.writer, fun who hwho => ?_⟩
  rcases mem_storeSeen.1 hwho with hwho | hwho
  · exact h.seen who hwho
  · rw [List.mem_singleton.1 hwho]
    exact hme

theorem written_meetNow (ht : theirs.Written) (hm : mine.Written) (hme : IsId me) {now : Entry}
    (h : meetNow members me theirs mine = some now) : now.Written := by
  unfold meetNow at h
  split at h
  · rw [← Option.some.inj h]
    exact ht.taken hme
  · exact absurd h (by simp)
  · split at h
    · simp only at h
      split at h
      · exact absurd h (by simp)
      · rw [← Option.some.inj h]
        refine ⟨hm.path, hm.vv, hm.writer, fun who hwho => ?_⟩
        exact (mem_storeSeen.1 hwho).elim (ht.seen who) (hm.seen who)
    · rw [← Option.some.inj h]
      have hkeeps : (storeKeeps members theirs mine).Written := by
        rcases storeKeeps_eq_or members theirs mine with he | he <;> rw [he]
        · exact ht
        · exact hm
      refine ⟨ht.path, isId_merge ht.vv hm.vv, hkeeps.writer, fun who hwho => ?_⟩
      rw [List.mem_singleton.1 hwho]
      exact hme

theorem written_meetAside (ht : theirs.Written) (hm : mine.Written) (hme : IsId me) {kept : Entry}
    (h : meetAside members me theirs mine = some kept) : kept.Written := by
  obtain ⟨-, rfl, -, -⟩ := meetAside_eq_some h
  have hl : (loser members theirs mine).Written := by
    rcases loser_eq_or members theirs mine with he | he <;> rw [he]
    · exact ht
    · exact hm
  have hhex : ∀ c : Byte, c.val < 48 →
      c ∉ (hexEncode (loser members theirs mine).hash).take 8 := by
    intro c hc hin
    have := le_of_mem_hexEncode (List.mem_of_mem_take hin)
    omega
  refine ⟨?_, hl.vv, hl.writer, fun who hwho => ?_⟩
  · refine (hl.path.append (s := asc "~") (by decide) (by decide)).append ?_ ?_
    · exact hhex 32 (by decide)
    · exact hhex 10 (by decide)
  · rw [List.mem_singleton.1 hwho]
    exact hme

end Made

/-! ## A path map as text -/

/-- `(store-open)`, the reading of the path map: a line that is no entry is passed over. -/
def storeMapRead (text : Str) : PathMap :=
  ((storeLines text).filterMap storeEntryRead).foldl PathMap.put ∅

/-- What `store-save` writes of a path map. -/
def storeMapText (map : PathMap) : Str :=
  storeText (sortStr (map.entries.map (fun e => storeEntryLine e.2)))

theorem storeLines_storeText {lines : List Str} (h : ∀ line ∈ lines, Part 10 line) :
    storeLines (storeText lines) = lines := by
  induction lines with
  | nil => rfl
  | cons line lines ih =>
      have hrest := ih (fun l hl => h l (List.mem_cons_of_mem _ hl))
      unfold storeLines storeText at hrest ⊢
      rw [List.map_cons, List.flatten_cons, storeLf, List.append_assoc, List.singleton_append,
        split_append (h line List.mem_cons_self)]
      exact congrArg (line :: ·) hrest

/-- Entries put in a map, each of its own path. -/
theorem lookup_foldl_put {es : List Entry} (hes : (es.map Entry.path).Nodup) (map : PathMap)
    (p : Str) : (es.foldl PathMap.put map).lookup p
      = (es.find? (fun e => decide (e.path = p))).or (map.lookup p) := by
  induction es generalizing map with
  | nil => rfl
  | cons e es ih =>
      rw [List.map_cons, List.nodup_cons] at hes
      rw [List.foldl_cons, ih hes.2]
      by_cases hp : e.path = p
      · have hnone : es.find? (fun e => decide (e.path = p)) = none := by
          rw [List.find?_eq_none]
          intro e' he'
          refine fun he => hes.1 ?_
          rw [hp, ← of_decide_eq_true he]
          exact List.mem_map_of_mem he'
        rw [hnone, List.find?_cons_of_pos (by simpa using hp), ← hp, lookup_put_self]
        rfl
      · rw [List.find?_cons_of_neg (by simpa using hp), lookup_put_ne (fun h => hp h.symm)]

/-- **The path map that is written is the path map that is read.** -/
theorem lookup_storeMapRead {map : PathMap} (hkeyed : map.Keyed)
    (h : ∀ p e, map.lookup p = some e → e.Written) (p : Str) :
    (storeMapRead (storeMapText map)).lookup p = map.lookup p := by
  have hread : ∀ x ∈ map.entries,
      (storeEntryRead ∘ fun e : (_ : Str) × Entry => storeEntryLine e.2) x = some x.2 :=
    fun x hx => storeEntryRead_line (h x.1 x.2 (AList.mem_lookup_iff.2 hx))
  have hpart : ∀ line ∈ sortStr (map.entries.map (fun e => storeEntryLine e.2)), Part 10 line := by
    intro line hline
    obtain ⟨x, hx, rfl⟩ := List.mem_map.1 (mem_sortStr.1 hline)
    exact part_storeEntryLine (h x.1 x.2 (AList.mem_lookup_iff.2 hx))
  unfold storeMapRead storeMapText
  rw [storeLines_storeText hpart]
  set es := (sortStr (map.entries.map (fun e => storeEntryLine e.2))).filterMap storeEntryRead
    with hes
  -- the entries that are read are those of the map, in the order of their lines
  have hperm : es.Perm map.inOrder := by
    refine ((sortStr_perm _).filterMap _).trans ?_
    rw [List.filterMap_map, List.filterMap_eq_map_iff_forall_eq_some.2 hread]
    exact (PathMap.inOrder_perm map).symm
  have hmem : ∀ e, e ∈ es ↔ map.lookup e.path = some e := fun e =>
    hperm.mem_iff.trans (PathMap.mem_inOrder hkeyed)
  rw [lookup_foldl_put ((hperm.map _).nodup_iff.2 (PathMap.nodup_inOrder hkeyed)),
    AList.lookup_empty, Option.or_none]
  cases hfind : es.find? (fun e => decide (e.path = p)) with
  | some e =>
      have hp := List.find?_some hfind
      rw [← of_decide_eq_true hp]
      exact ((hmem e).1 (List.mem_of_find?_eq_some hfind)).symm
  | none =>
      cases hl : map.lookup p with
      | none => rfl
      | some e =>
          have hp : e.path = p := hkeyed p e hl
          have hin : e ∈ es := (hmem e).2 (hp ▸ hl)
          exact absurd (decide_eq_true hp) (List.find?_eq_none.1 hfind e hin)

end ChrysaLisp
