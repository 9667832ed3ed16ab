import ChrysaLisp.Streams.DiffPath
import Mathlib.Data.List.Sort

set_option autoImplicit false

/-! # A patch undoes a difference

A script is a run of changes (`Edits`): between them are lines both texts have, and each writes the
lines of the first text that go and those of the second that come. The way that `stream-diff` found is
such a script of the two texts (`edits_path`), and what `stream-patch` does with one, from any change
on, is to write the rest of the second text of the rest of the first (`patchCommands_edits`). So the
patch of the first text by the script is the second (`streamPatch_streamDiff`), whatever is in their
lines: a line of a change is counted, and not looked at.

What a command's regular expression gives is for the engine to say, and all that is used of it is that
of a command it gives its parts (`ReadsCommands`). -/

namespace ChrysaLisp

/-! ## Lines, written and read -/

section Lines

theorem readLine_writeLine {line : Str} (h : 10 ∉ line) (rest : Str) :
    readLine (writeLine line ++ rest) = some (line, rest) := by
  have hkept : ∀ c ∈ line, decide (c ≠ 10) = true :=
    fun c hc => decide_eq_true (fun he => h (he ▸ hc))
  unfold readLine writeLine
  rw [if_neg (by simp), List.append_assoc, List.takeWhile_append_of_pos hkept,
    List.dropWhile_append_of_pos hkept, List.singleton_append, List.takeWhile_cons_of_neg (by simp),
    List.dropWhile_cons_of_neg (by simp), List.append_nil, List.drop_one, List.tail_cons]

@[simp] theorem readLine_nil : readLine [] = none := rfl

@[simp] theorem textOf_nil : textOf [] = [] := rfl

theorem textOf_cons (line : Str) (ls : List Str) : textOf (line :: ls) = writeLine line ++ textOf ls :=
  List.flatMap_cons

theorem textOf_append (ls ms : List Str) : textOf (ls ++ ms) = textOf ls ++ textOf ms :=
  List.flatMap_append

variable {ls : List Str}

/-- Lines that are written are read as they were. -/
theorem linesIn_textOf (h : ∀ l ∈ ls, 10 ∉ l) : ∀ turns, (textOf ls).length ≤ turns →
    linesIn turns (textOf ls) = ls := by
  induction ls with
  | nil =>
      intro turns _
      cases turns <;> rfl
  | cons line ls ih =>
      obtain ⟨hline, hrest⟩ := List.forall_mem_cons.mp h
      intro turns hturns
      have hlen : (writeLine line).length = line.length + 1 := by simp [writeLine]
      rw [textOf_cons, List.length_append, hlen] at hturns
      obtain ⟨turns, rfl⟩ : ∃ t, turns = t + 1 := ⟨turns - 1, by omega⟩
      rw [textOf_cons, linesIn, readLine_writeLine hline]
      exact congrArg (line :: ·) (ih hrest turns (by omega))

theorem linesOf_textOf (h : ∀ l ∈ ls, 10 ∉ l) : linesOf (textOf ls) = ls :=
  linesIn_textOf h _ le_rfl

theorem skipLines_textOf (h : ∀ l ∈ ls, 10 ∉ l) (rest : Str) :
    skipLines ls.length (textOf ls ++ rest) = rest := by
  induction ls with
  | nil => rfl
  | cons line ls ih =>
      obtain ⟨hline, hrest⟩ := List.forall_mem_cons.mp h
      rw [List.length_cons, skipLines, textOf_cons, List.append_assoc, readLine_writeLine hline]
      exact ih hrest

theorem copyLines_textOf (from' : ℕ) (h : ∀ l ∈ ls, 10 ∉ l) (rest : Str) :
    copyLines from' ls.length (textOf ls ++ rest) = some (textOf (ls.map (List.drop from')), rest) := by
  induction ls with
  | nil => rfl
  | cons line ls ih =>
      obtain ⟨hline, hrest⟩ := List.forall_mem_cons.mp h
      rw [List.length_cons, copyLines, textOf_cons, List.append_assoc, readLine_writeLine hline]
      simp only [Option.bind_eq_bind, Option.bind_some]
      rw [ih hrest]
      rfl

/-- The lines of a change, each with what is put before it. -/
theorem flatMap_mark (mark : Str) (ls : List Str) :
    ls.flatMap (fun l => writeLine (mark ++ l)) = textOf (ls.map (mark ++ ·)) := by
  unfold textOf
  rw [List.flatMap_map]

theorem mark_lines {mark : Str} (hmark : 10 ∉ mark) (h : ∀ l ∈ ls, 10 ∉ l) :
    ∀ l ∈ ls.map (mark ++ ·), 10 ∉ l := by
  intro l hl
  obtain ⟨line, hline, rfl⟩ := List.mem_map.mp hl
  rw [List.mem_append, not_or]
  exact ⟨hmark, h line hline⟩

end Lines

/-! ## Commands -/

/-- The second number of a part of a command, if it has one. -/
def rangeTail : Option ℕ → Str
  | none => []
  | some m => asc "," ++ strNum m

/-- A command: the lines of the first text, what is done, and the lines of the second. -/
structure Command where
  s1 : ℕ
  e1 : Option ℕ
  op : Byte
  s2 : ℕ
  e2 : Option ℕ

def Command.text (c : Command) : Str :=
  strNum c.s1 ++ rangeTail c.e1 ++ [c.op] ++ strNum c.s2 ++ rangeTail c.e2

/-- Where a part that need not be there is: one that is not has an end that is not after its start. -/
def PartAt (r : ℕ × ℕ) (i : ℕ) (part : Str) : Prop :=
  if part = [] then r.2 ≤ r.1 else r = (i, i + part.length)

/-- What the expression of a command is relied on for: of a command it gives its parts, `(\d+)`,
    `(,\d+)?`, `([acd])`, `(\d+)` and `(,\d+)?`, where they are. -/
def ReadsCommands (matches' : Str → List (List (ℕ × ℕ))) : Prop :=
  ∀ c : Command, c.op ∈ asc "acd" → ∃ whole r1 r2 rest more,
    let i := (strNum c.s1).length
    let j := i + (rangeTail c.e1).length
    let k := j + 1 + (strNum c.s2).length
    matches' c.text = (whole :: (0, i) :: r1 :: (j, j + 1) :: (j + 1, k) :: r2 :: rest) :: more ∧
      PartAt r1 i (rangeTail c.e1) ∧ PartAt r2 k (rangeTail c.e2)

section Commands

theorem sliceStr_eq {s : Str} (u v w : Str) (hs : s = u ++ (v ++ w)) {i j : ℕ} (hi : i = u.length)
    (hj : j = u.length + v.length) : sliceStr s i j = v := by
  unfold sliceStr
  rw [hs, hi, hj, ← List.append_assoc, ← List.length_append, List.take_left, List.drop_left]

/-- What is read of a part that need not be there. -/
theorem rangeEnd_tail {s : Str} (u w : Str) (e : Option ℕ) (hs : s = u ++ (rangeTail e ++ w))
    {r : ℕ × ℕ} {i : ℕ} (hi : i = u.length) (hr : PartAt r i (rangeTail e)) (first : ℕ) :
    rangeEnd s r.1 r.2 first = e.getD first := by
  unfold rangeEnd PartAt at *
  cases e with
  | none =>
      have hnone : r.2 ≤ r.1 := by simpa [rangeTail] using hr
      exact if_pos hnone
  | some m =>
      have hlen : (rangeTail (some m)).length = 1 + (strNum m).length := by
        rw [rangeTail, List.length_append]
        rfl
      rw [if_neg (by simp [rangeTail, asc])] at hr
      rw [hr, if_neg (by simp only; omega), hlen]
      rw [rangeTail, List.append_assoc, ← List.append_assoc u] at hs
      have hcomma : (asc ",").length = 1 := rfl
      rw [sliceStr_eq (u ++ asc ",") (strNum m) w hs (by rw [List.length_append, hcomma, hi])
        (by rw [List.length_append, hcomma, hi, Nat.add_assoc]), strAsNum_strNum]
      rfl

theorem not_mem_command {c : Command} (hop : c.op ∈ asc "acd") : 10 ∉ c.text := by
  have hnum := @not_mem_strNum 10 (by decide)
  have htail : ∀ e, 10 ∉ rangeTail e := by
    intro e
    cases e with
    | none => exact List.not_mem_nil
    | some m =>
        rw [rangeTail, List.mem_append, not_or]
        exact ⟨by decide, hnum m⟩
  unfold Command.text
  simp only [List.mem_append, not_or, List.mem_singleton]
  exact ⟨⟨⟨⟨hnum _, htail _⟩, fun he => absurd (he ▸ hop) (by decide)⟩, hnum _⟩, htail _⟩

theorem diffRange_eq (lo hi : ℕ) :
    diffRange lo hi = strNum lo ++ rangeTail (if lo = hi then none else some hi) := by
  unfold diffRange
  split_ifs
  · exact (List.append_nil _).symm
  · exact List.append_assoc _ _ _

/-- The last of the lines a part of a command is of. -/
theorem getD_last (lo hi : ℕ) : (if lo = hi then none else some hi).getD lo = hi := by
  split_ifs with h
  · exact h
  · rfl

end Commands

/-! ## A change, done -/

section Change

variable {dels adds kept A : List Str} {ha hb k : ℕ} {rest c : Str}

/-- The command of a change. -/
def changeCommand (ha hb na nb : ℕ) : Command :=
  let lastOf := fun lo hi => if lo = hi then none else some hi
  if nb = 0 then ⟨ha + 1, lastOf (ha + 1) (ha + na), 100, hb, none⟩
  else if na = 0 then ⟨ha, none, 97, hb + 1, lastOf (hb + 1) (hb + nb)⟩
  else ⟨ha + 1, lastOf (ha + 1) (ha + na), 99, hb + 1, lastOf (hb + 1) (hb + nb)⟩

/-- A change of no lines is not written. -/
theorem diffHunk_nil (ha hb : ℕ) : diffHunk ha hb [] [] = [] := rfl

/-- What is written of a change: its command, and the lines. -/
theorem diffHunk_eq (h : ¬ (dels.length = 0 ∧ adds.length = 0)) :
    diffHunk ha hb dels adds = writeLine (changeCommand ha hb dels.length adds.length).text
      ++ (textOf (dels.map (asc "< " ++ ·))
        ++ ((if 0 < dels.length ∧ 0 < adds.length then writeLine (asc "---") else [])
          ++ textOf (adds.map (asc "> " ++ ·)))) := by
  have hcommand : diffCommand ha hb dels.length adds.length
      = writeLine (changeCommand ha hb dels.length adds.length).text := by
    unfold diffCommand changeCommand Command.text
    rw [if_neg h]
    simp only [diffRange_eq]
    split_ifs <;> simp [rangeTail, asc]
  unfold diffHunk
  rw [hcommand, flatMap_mark, flatMap_mark]
  simp only [List.append_assoc]

theorem changeCommand_op (ha hb na nb : ℕ) : (changeCommand ha hb na nb).op ∈ asc "acd" := by
  unfold changeCommand
  dsimp only
  split_ifs <;> simp [asc]

/-- The lines before a change are written as they are, and a marked line without its mark. -/
theorem copyLines_kept (h : ∀ l ∈ kept, 10 ∉ l) (a : Str) :
    copyLines 0 kept.length (textOf kept ++ a) = some (textOf kept, a) := by
  have hdrop : kept.map (List.drop 0) = kept := List.map_id kept
  rw [copyLines_textOf 0 h, hdrop]

theorem copyLines_marked (h : ∀ l ∈ adds, 10 ∉ l) (b : Str) :
    copyLines 2 adds.length (textOf (adds.map (asc "> " ++ ·)) ++ b) = some (textOf adds, b) := by
  have hcopy := copyLines_textOf 2 (@mark_lines adds (asc "> ") (by decide) h) b
  have hdrop : (adds.map (asc "> " ++ ·)).map (List.drop 2) = adds := by
    rw [List.map_map]
    exact List.map_id adds
  rwa [List.length_map, hdrop] at hcopy

theorem skipLines_marked (h : ∀ l ∈ dels, 10 ∉ l) (b : Str) :
    skipLines dels.length (textOf (dels.map (asc "< " ++ ·)) ++ b) = b := by
  have hskip := skipLines_textOf (@mark_lines dels (asc "< ") (by decide) h) b
  rwa [List.length_map] at hskip

/-- The lines that go, and the line between them and those that come. -/
theorem skipLines_changed (h : ∀ l ∈ dels, 10 ∉ l) (b : Str) :
    skipLines (dels.length + 1)
      (textOf (dels.map (asc "< " ++ ·)) ++ (writeLine (asc "---") ++ b)) = b := by
  have hmarked := @mark_lines dels (asc "< ") (by decide) h
  have hall : ∀ l ∈ dels.map (asc "< " ++ ·) ++ [asc "---"], 10 ∉ l := by
    intro l hl
    rcases List.mem_append.mp hl with hl | hl
    · exact hmarked l hl
    · rw [List.mem_singleton.mp hl]
      decide
  have hskip := skipLines_textOf hall b
  rw [List.length_append, List.length_map, textOf_append, List.append_assoc] at hskip
  rwa [textOf_cons, textOf_nil, List.append_nil] at hskip

theorem timesOf_lines (at' n : ℕ) : timesOf (at' + 1) (at' + n) = some n := by
  unfold timesOf
  rw [if_neg (by omega)]
  congr 1
  omega

/-- What a change does: the lines before it, and then the lines that come, are written, and the lines
    that go are behind. -/
theorem patchCommand_change (hkept : ∀ l ∈ kept, 10 ∉ l)
    (hdels : ∀ l ∈ dels, 10 ∉ l) (hadds : ∀ l ∈ adds, 10 ∉ l) (hk : ha = k + kept.length) (a : Str) :
    let d := changeCommand ha hb dels.length adds.length
    patchCommand [d.op] d.s1 (d.e1.getD d.s1) d.s2 (d.e2.getD d.s2)
      ⟨k + 1, textOf kept ++ (textOf dels ++ a), textOf (dels.map (asc "< " ++ ·))
        ++ ((if 0 < dels.length ∧ 0 < adds.length then writeLine (asc "---") else [])
          ++ (textOf (adds.map (asc "> " ++ ·)) ++ rest)), c⟩
      = some ⟨ha + dels.length + 1, a, rest, c ++ textOf kept ++ textOf adds⟩ := by
  have hbefore : ha + 1 - (k + 1) = kept.length := by omega
  have hln : max (k + 1) (ha + 1) = ha + 1 := by omega
  unfold changeCommand patchCommand
  by_cases hnb : adds.length = 0
  · have hadds : adds = [] := List.eq_nil_of_length_eq_zero hnb
    simp only [if_pos hnb, getD_last]
    rw [if_neg (by decide), hbefore, copyLines_kept hkept]
    simp only [Option.bind_eq_bind, Option.bind_some]
    rw [if_neg (by decide), if_pos (by decide), timesOf_lines, Option.bind_some, hln,
      skipLines_textOf hdels, skipLines_marked hdels, if_neg (by omega), hadds]
    simp [Nat.add_right_comm]
  · by_cases hna : dels.length = 0
    · have hdels : dels = [] := List.eq_nil_of_length_eq_zero hna
      simp only [if_neg hnb, if_pos hna, getD_last, Option.getD_none]
      rw [if_pos (by decide), hbefore, copyLines_kept hkept]
      simp only [Option.bind_eq_bind, Option.bind_some]
      rw [if_pos (by decide), timesOf_lines, Option.bind_some, hln, if_neg (by omega), hdels,
        List.map_nil, textOf_nil, List.nil_append, List.nil_append, List.nil_append,
        copyLines_marked hadds]
      rfl
    · simp only [if_neg hnb, if_neg hna, getD_last]
      rw [if_neg (by decide), hbefore, copyLines_kept hkept]
      simp only [Option.bind_eq_bind, Option.bind_some]
      rw [if_neg (by decide), if_neg (by decide), if_pos (by decide), timesOf_lines,
        Option.bind_some, timesOf_lines, Option.bind_some, hln, skipLines_textOf hdels,
        if_pos (by omega), skipLines_changed hdels, copyLines_marked hadds]
      simp [Nat.add_right_comm]

end Change

/-! ## A script, done -/

section Script

variable {matches' : Str → List (List (ℕ × ℕ))}

/-- A script of what is left of two texts, from a place in both: a line they both have, which it has
    nothing of, or a change. -/
inductive Edits : ℕ → ℕ → List Str → List Str → Str → Prop
  | done (ha hb : ℕ) : Edits ha hb [] [] []
  | same {ha hb : ℕ} {A B : List Str} {script : Str} (line : Str)
      (h : Edits (ha + 1) (hb + 1) A B script) : Edits ha hb (line :: A) (line :: B) script
  | change {ha hb : ℕ} {A B : List Str} {script : Str} (dels adds : List Str)
      (h : Edits (ha + dels.length) (hb + adds.length) A B script) :
      Edits ha hb (dels ++ A) (adds ++ B) (diffHunk ha hb dels adds ++ script)

/-- A command is read as what it says. -/
theorem patchCommands_command (hmatch : ReadsCommands matches') {d : Command} (hop : d.op ∈ asc "acd")
    (turns : ℕ) (s : Patching) (b : Str) (hb : s.b = writeLine d.text ++ b) :
    patchCommands matches' (turns + 1) s
      = (patchCommand [d.op] d.s1 (d.e1.getD d.s1) d.s2 (d.e2.getD d.s2) { s with b := b }).bind
          (patchCommands matches' turns) := by
  obtain ⟨whole, r1, r2, rest, more, hgroups, hr1, hr2⟩ := hmatch d hop
  have htext : d.text = strNum d.s1 ++ (rangeTail d.e1 ++ ([d.op] ++ (strNum d.s2 ++ rangeTail d.e2))) := by
    unfold Command.text
    simp only [List.append_assoc]
  have hs1 : sliceStr d.text 0 (strNum d.s1).length = strNum d.s1 :=
    sliceStr_eq [] (strNum d.s1) _ htext rfl (Nat.zero_add _).symm
  have he1 := rangeEnd_tail (strNum d.s1) _ d.e1 htext rfl hr1
  rw [← List.append_assoc] at htext
  have hcommand := sliceStr_eq (strNum d.s1 ++ rangeTail d.e1) [d.op] _ htext
    (List.length_append).symm (by rw [List.length_append, List.length_singleton])
  rw [← List.append_assoc] at htext
  have hs2 := sliceStr_eq (strNum d.s1 ++ rangeTail d.e1 ++ [d.op]) (strNum d.s2) (rangeTail d.e2) htext
    (by rw [List.length_append, List.length_append, List.length_singleton])
    (by rw [List.length_append, List.length_append, List.length_singleton])
  rw [← List.append_assoc, ← List.append_nil (rangeTail d.e2)] at htext
  have he2 := rangeEnd_tail _ [] d.e2 htext
    (by simp only [List.length_append, List.length_singleton]) hr2
  rw [patchCommands, hb, readLine_writeLine (not_mem_command hop)]
  simp only [hgroups]
  rw [hs1, he1, hcommand, hs2, he2, strAsNum_strNum, strAsNum_strNum]
  rfl

/-- **A script, done from any place on**: what is left of the first text, and the lines before it that
    are not written yet, come to what is left of the second, after those lines. -/
theorem patchCommands_edits (hmatch : ReadsCommands matches') {ha hb : ℕ} {A B : List Str}
    {script : Str} (h : Edits ha hb A B script) : ∀ (kept : List Str) (k turns : ℕ) (c : Str),
    (∀ l ∈ kept ++ A, 10 ∉ l) → (∀ l ∈ B, 10 ∉ l) → ha = k + kept.length → script.length < turns →
    ∃ s, patchCommands matches' turns ⟨k + 1, textOf (kept ++ A), script, c⟩ = some s ∧
      s.c ++ textOf (linesOf s.a) = c ++ textOf (kept ++ B) := by
  induction h with
  | done ha hb =>
      intro kept k turns c hA _ _ hturns
      obtain ⟨turns, rfl⟩ : ∃ t, turns = t + 1 := ⟨turns - 1, by omega⟩
      exact ⟨_, rfl, by rw [linesOf_textOf hA]⟩
  | @same ha hb A B script line _ ih =>
      intro kept k turns c hA hB hk hturns
      have hmove : ∀ A : List Str, kept ++ [line] ++ A = kept ++ line :: A := fun A => by simp
      rw [← hmove A] at hA
      rw [← hmove A, ← hmove B]
      refine ih (kept ++ [line]) k turns c hA (fun l hl => hB l (List.mem_cons_of_mem _ hl)) ?_ hturns
      rw [List.length_append, List.length_singleton, hk, Nat.add_assoc]
  | @change ha hb A B script dels adds _ ih =>
      intro kept k turns c hA hB hk hturns
      by_cases hnone : dels.length = 0 ∧ adds.length = 0
      -- a change of no lines is not there
      · obtain rfl := List.eq_nil_of_length_eq_zero hnone.1
        obtain rfl := List.eq_nil_of_length_eq_zero hnone.2
        exact ih kept k turns c hA hB hk hturns
      · simp only [List.mem_append] at hA hB
        rw [diffHunk_eq hnone] at hturns ⊢
        have hturn : 0 < turns := by omega
        obtain ⟨turns, rfl⟩ : ∃ t, turns = t + 1 := ⟨turns - 1, by omega⟩
        have hlen : script.length < turns := by
          simp only [List.length_append, writeLine, List.length_singleton] at hturns
          omega
        have hchange := @patchCommand_change dels adds kept ha hb k script c
          (fun l hl => hA l (Or.inl hl)) (fun l hl => hA l (Or.inr (Or.inl hl)))
          (fun l hl => hB l (Or.inl hl)) hk (textOf A)
        obtain ⟨s, hrun, hout⟩ := ih [] (ha + dels.length) turns (c ++ textOf kept ++ textOf adds)
          (fun l hl => hA l (Or.inr (Or.inr hl))) (fun l hl => hB l (Or.inr hl)) rfl hlen
        refine ⟨s, ?_, ?_⟩
        · rw [patchCommands_command hmatch (changeCommand_op ha hb dels.length adds.length) turns _ _
            (List.append_assoc _ _ _)]
          simp only [textOf_append, List.append_assoc] at hchange ⊢
          rw [hchange]
          simpa only [Option.bind_some, List.append_assoc, List.nil_append] using hrun
        · rw [hout]
          simp only [textOf_append, List.append_assoc, List.nil_append]

end Script

/-! ## The script of a way -/

section Way

variable {al bl : List Str} {s : Hunking} {a b : ℕ}

/-- What the writing of a way has at a place of it: what has gone and come since the last line they both
    have. -/
structure Hunking.At (s : Hunking) (a b : ℕ) : Prop where
  a_eq : s.a = a
  b_eq : s.b = b
  dels : s.ha + s.dels.length = a
  adds : s.hb + s.adds.length = b

theorem drop_eq_cons {l : List Str} {i : ℕ} {x : Str} (h : l[i]? = some x) :
    l.drop i = x :: l.drop (i + 1) := by
  obtain ⟨hi, rfl⟩ := List.getElem?_eq_some_iff.mp h
  exact List.drop_eq_getElem_cons hi

/-- **The script of a way is a script of the texts it is a way through.** -/
theorem edits_path {p r : DiffPlace} {rest : Path} (hgoes : Goes al bl p rest r)
    (hr : r = (al.length, bl.length)) : ∀ s : Hunking, s.At p.1 p.2 → ∃ script,
      Edits s.ha s.hb (s.dels ++ al.drop p.1) (s.adds ++ bl.drop p.2) script ∧
        let t := rest.foldl (Hunking.place al bl) s
        t.out ++ diffHunk t.ha t.hb t.dels t.adds = s.out ++ script := by
  induction hgoes with
  | here p =>
      intro s h
      refine ⟨diffHunk s.ha s.hb s.dels s.adds, ?_, rfl⟩
      have hend := Edits.change s.dels s.adds (.done (s.ha + s.dels.length) (s.hb + s.adds.length))
      rw [hr, List.drop_length, List.drop_length]
      rwa [List.append_nil (diffHunk _ _ _ _)] at hend
  | @on p q r rest hstep _ ih =>
      intro s h
      rw [List.foldl_cons]
      obtain ⟨ha, hb, hdels, hadds⟩ := h
      have ha' : s.a.toNat = p.1 := by rw [ha, Int.toNat_natCast]
      have hb' : s.b.toNat = p.2 := by rw [hb, Int.toNat_natCast]
      cases hstep with
      | @gone a b hlt =>
          have hline := List.getElem?_eq_getElem hlt
          have hplace : s.place al bl (a + 1, b)
              = { s with dels := s.dels ++ [al[a]], a := (a + 1 : ℕ), b := b } := by
            unfold Hunking.place
            rw [if_neg (by rw [hb]; simp), if_neg (by rw [ha]; simp), ha', hline]
            rfl
          have hat : (s.place al bl (a + 1, b)).At (a + 1) b := by
            rw [hplace]
            refine ⟨rfl, rfl, ?_, hadds⟩
            rw [List.length_append, List.length_singleton, ← Nat.add_assoc, hdels]
          obtain ⟨script, hedits, hout⟩ := ih hr _ hat
          refine ⟨script, ?_, hout.trans (by rw [hplace])⟩
          rw [hplace] at hedits
          simp only [List.append_assoc, List.singleton_append] at hedits
          simpa only [drop_eq_cons hline] using hedits
      | @come a b hlt =>
          have hline := List.getElem?_eq_getElem hlt
          have hplace : s.place al bl (a, b + 1)
              = { s with adds := s.adds ++ [bl[b]], a := a, b := (b + 1 : ℕ) } := by
            unfold Hunking.place
            rw [if_neg (by rw [ha]; simp), if_pos ha.symm, hb', hline]
            rfl
          have hat : (s.place al bl (a, b + 1)).At a (b + 1) := by
            rw [hplace]
            refine ⟨rfl, rfl, hdels, ?_⟩
            rw [List.length_append, List.length_singleton, ← Nat.add_assoc, hadds]
          obtain ⟨script, hedits, hout⟩ := ih hr _ hat
          refine ⟨script, ?_, hout.trans (by rw [hplace])⟩
          rw [hplace] at hedits
          simp only [List.append_assoc, List.singleton_append] at hedits
          simpa only [drop_eq_cons hline] using hedits
      | @same a b l hla hlb =>
          have hplace : s.place al bl (a + 1, b + 1)
              = { s with out := s.out ++ diffHunk s.ha s.hb s.dels s.adds, dels := [], adds := [],
                         ha := a + 1, hb := b + 1, a := (a + 1 : ℕ), b := (b + 1 : ℕ) } := by
            unfold Hunking.place
            rw [if_pos (by rw [ha, hb]; simp)]
          have hat : (s.place al bl (a + 1, b + 1)).At (a + 1) (b + 1) := by
            rw [hplace]
            exact ⟨rfl, rfl, rfl, rfl⟩
          obtain ⟨script, hedits, hout⟩ := ih hr _ hat
          rw [hplace] at hedits
          refine ⟨diffHunk s.ha s.hb s.dels s.adds ++ script, ?_, hout.trans ?_⟩
          swap
          · rw [hplace]
            exact List.append_assoc _ _ _
          simp only [drop_eq_cons hla, drop_eq_cons hlb]
          refine .change s.dels s.adds (.same l ?_)
          simpa only [hdels, hadds, List.nil_append] using hedits

/-- A script is written of any two texts, and is one of them. -/
theorem streamDiff_edits {sortBy : (Path → ℤ) → List Path → List Path} (hsort : Sorts sortBy)
    (hal : ∀ l ∈ al, 10 ∉ l) (hbl : ∀ l ∈ bl, 10 ∉ l) :
    ∃ script, streamDiff sortBy (textOf al) (textOf bl) = some script ∧ Edits 0 0 al bl script := by
  have hall := Edits.change al bl (.done (0 + al.length) (0 + bl.length))
  simp only [List.append_nil] at hall
  unfold streamDiff
  rw [linesOf_textOf hal, linesOf_textOf hbl]
  dsimp only
  by_cases hla : al.length = 0
  · have hnil := List.eq_nil_of_length_eq_zero hla
    by_cases hlb : bl.length = 0
    · rw [if_pos ⟨hla, hlb⟩, hnil, List.eq_nil_of_length_eq_zero hlb]
      exact ⟨_, rfl, .done 0 0⟩
    · rw [if_neg (fun h => hlb h.2), if_pos hla]
      rw [hnil] at hall ⊢
      exact ⟨_, rfl, hall⟩
  · rw [if_neg (fun h => hla h.1), if_neg hla]
    by_cases hlb : bl.length = 0
    · rw [if_pos hlb]
      rw [List.eq_nil_of_length_eq_zero hlb] at hall ⊢
      exact ⟨_, rfl, hall⟩
    · rw [if_neg hlb]
      obtain ⟨ps, hsearch, hpath⟩ := searchPaths_goal hsort al bl
      obtain ⟨rest, hiron, hgoes⟩ := isWay_iron hpath
      have hstart : Hunking.place al bl ⟨-1, -1, 0, 0, [], [], []⟩ (0, 0) = ⟨0, 0, 0, 0, [], [], []⟩ := rfl
      obtain ⟨script, hedits, hout⟩ := edits_path hgoes rfl ⟨0, 0, 0, 0, [], [], []⟩ ⟨rfl, rfl, rfl, rfl⟩
      refine ⟨script, ?_, hedits⟩
      rw [hsearch, Option.map_some, hiron]
      unfold pathScript
      rw [List.foldl_cons, hstart]
      exact congrArg some hout

end Way

/-! ## What a command is matched by

No number of a command can be matched in more than one way, so as far as a command goes the expression
is matched from left to right with no way back: `scanCommand` is that. -/

/-- `(,\d+)?` at a place: where the part is, with an end of 0 if it is not there, and what is after it. -/
def scanRange (i : ℕ) (s : Str) : (ℕ × ℕ) × Str :=
  match s with
  | c :: rest =>
      if c = 44 ∧ rest.takeWhile isDigit ≠ [] then
        ((i, i + (1 + (rest.takeWhile isDigit).length)), rest.dropWhile isDigit)
      else ((i, 0), s)
  | [] => ((i, 0), [])

local instance lawfulBEq_byte : LawfulBEq Byte := inferInstance

/-- `^(\d+)(,\d+)?([acd])(\d+)(,\d+)?$`, of one line. -/
def scanCommand (p : Str) : List (List (ℕ × ℕ)) :=
  let x := p.takeWhile isDigit
  let part1 := scanRange x.length (p.dropWhile isDigit)
  match part1.2 with
  | op :: p2 =>
      let j := p.length - part1.2.length
      let z := p2.takeWhile isDigit
      let part2 := scanRange (j + 1 + z.length) (p2.dropWhile isDigit)
      if x ≠ [] ∧ op ∈ asc "acd" ∧ z ≠ [] ∧ part2.2 = [] then
        [[(0, p.length), (0, x.length), part1.1, (j, j + 1), (j + 1, j + 1 + z.length), part2.1]]
      else []
  | [] => []

section Scan

/-- No digit and no comma is next. -/
def NoPart (rest : Str) : Prop := ∀ c ∈ rest.head?, isDigit c = false ∧ c ≠ 44

theorem digits_append (n : ℕ) {rest : Str} (h : ∀ c ∈ rest.head?, isDigit c = false) :
    (strNum n ++ rest).takeWhile isDigit = strNum n ∧ (strNum n ++ rest).dropWhile isDigit = rest := by
  rw [List.takeWhile_append_of_pos (isDigit_strNum n), List.dropWhile_append_of_pos (isDigit_strNum n)]
  cases rest with
  | nil => exact ⟨List.append_nil _, rfl⟩
  | cons c rest =>
      have hc : ¬ isDigit c = true := by rw [h c rfl]; exact Bool.false_ne_true
      rw [List.takeWhile_cons_of_neg hc, List.dropWhile_cons_of_neg hc]
      exact ⟨List.append_nil _, rfl⟩

theorem scanRange_tail (i : ℕ) (e : Option ℕ) {rest : Str} (h : NoPart rest) :
    (scanRange i (rangeTail e ++ rest)).2 = rest ∧
      PartAt (scanRange i (rangeTail e ++ rest)).1 i (rangeTail e) := by
  unfold PartAt
  cases e with
  | none =>
      rw [rangeTail, List.nil_append, if_pos rfl]
      unfold scanRange
      cases rest with
      | nil => exact ⟨rfl, Nat.zero_le _⟩
      | cons c rest =>
          dsimp only
          rw [if_neg (fun hc => (h c rfl).2 hc.1)]
          exact ⟨rfl, Nat.zero_le _⟩
  | some m =>
      obtain ⟨htake, hdrop⟩ := @digits_append m rest (fun c hc => (h c hc).1)
      have hcomma : asc "," = [44] := rfl
      rw [rangeTail, hcomma, List.append_assoc, List.singleton_append, if_neg (by simp)]
      unfold scanRange
      dsimp only
      rw [htake, hdrop, if_pos ⟨rfl, strNum_ne_nil m⟩]
      exact ⟨rfl, by rw [List.length_append]; rfl⟩

theorem readsCommands_scan : ReadsCommands scanCommand := by
  intro d hop
  have hletter : isDigit d.op = false ∧ d.op ≠ 44 := by
    have hall : ∀ c ∈ asc "acd", isDigit c = false ∧ c ≠ 44 := by decide +kernel
    exact hall d.op hop
  have hrange : ∀ (e : Option ℕ) (rest : Str), NoPart rest →
      ∀ c ∈ (rangeTail e ++ rest).head?, isDigit c = false := by
    intro e rest hrest c hc
    cases e with
    | none => exact (hrest c hc).1
    | some m =>
        obtain rfl : (44 : Byte) = c := Option.some.inj hc
        decide
  have hnone : NoPart [] := fun c hc => absurd hc (by simp)
  have hafter : NoPart ([d.op] ++ (strNum d.s2 ++ rangeTail d.e2)) := by
    intro c hc
    obtain rfl : d.op = c := Option.some.inj hc
    exact hletter
  have htext : d.text = strNum d.s1 ++ (rangeTail d.e1 ++ ([d.op] ++ (strNum d.s2 ++ rangeTail d.e2))) := by
    unfold Command.text
    simp only [List.append_assoc]
  obtain ⟨htake1, hdrop1⟩ := digits_append d.s1 (hrange d.e1 _ hafter)
  obtain ⟨hrest1, hpart1⟩ := scanRange_tail (strNum d.s1).length d.e1 hafter
  have htail := hrange d.e2 [] hnone
  rw [List.append_nil] at htail
  obtain ⟨htake2, hdrop2⟩ := digits_append d.s2 htail
  have hj : d.text.length - ([d.op] ++ (strNum d.s2 ++ rangeTail d.e2)).length
      = (strNum d.s1).length + (rangeTail d.e1).length := by
    rw [htext, ← List.append_assoc, List.length_append, Nat.add_sub_cancel, List.length_append]
  obtain ⟨hrest2, hpart2⟩ := scanRange_tail
    ((strNum d.s1).length + (rangeTail d.e1).length + 1 + (strNum d.s2).length) d.e2 hnone
  rw [List.append_nil] at hrest2 hpart2
  refine ⟨(0, d.text.length), _, _, [], [], ?_, hpart1, hpart2⟩
  unfold scanCommand
  rw [← htext] at htake1 hdrop1
  dsimp only
  rw [htake1, hdrop1, hrest1, List.singleton_append]
  dsimp only
  rw [← List.singleton_append, hj, htake2, hdrop2,
    if_pos ⟨strNum_ne_nil _, hop, strNum_ne_nil _, hrest2⟩]

/-- Sorted by inserting one after another. -/
theorem sorts_insertionSort :
    Sorts (fun key ps => ps.insertionSort (fun p q => key p ≤ key q)) where
  perm _ ps := List.perm_insertionSort _ ps
  sorted key ps := by
    have htotal : Std.Total (fun p q : Path => key p ≤ key q) := ⟨fun p q => le_total (key p) (key q)⟩
    have htrans : IsTrans Path (fun p q => key p ≤ key q) := ⟨fun _ _ _ => le_trans⟩
    exact List.pairwise_insertionSort _ ps

end Scan

end ChrysaLisp
