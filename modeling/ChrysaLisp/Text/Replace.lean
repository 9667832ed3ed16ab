import ChrysaLisp.Lisp.FixedText
import ChrysaLisp.Text.RegexpSpans
import ChrysaLisp.Text.Search
import Mathlib.Tactic.SplitIfs

set_option autoImplicit false

/-! # Replacing what is found

`replace-compile`, `replace-matches` and `replace-edits` of `lib/text/searching.inc`. The one makes
the new text by a single splice of the text and the replacement, the other makes an edit for each
match, which the editor applies from the last to the first. -/

namespace ChrysaLisp.Replace

open Regexp

/-- A match is the span of the whole of it, and then those of its groups. -/
abbrev Match := List (ℕ × ℕ)

/-! ## The source -/

/-- An index, from the end where it is negative. -/
def seqIndex (length : ℕ) (idx : ℤ) : ℤ := if idx < 0 then idx + length + 1 else idx

/-- `(elem-get seq idx)`. -/
def elemGet {α : Type} (seq : List α) (idx : ℤ) : Run α :=
  if seqIndex seq.length idx < 0 then .error .thrown
  else match seq[(seqIndex seq.length idx).toNat]? with
    | none => .error .thrown
    | some elem => .ok elem

/-- A slice between two places, reversed where the second is before the first. -/
def sliced (seq : Str) (si ei : ℕ) : Str :=
  if si ≤ ei then (seq.take ei).drop si else ((seq.take si).drop ei).reverse

def slice (seq : Str) (si ei : ℤ) : Run Str :=
  let si := seqIndex seq.length si
  let ei := seqIndex seq.length ei
  if si < 0 ∨ ei < 0 ∨ seq.length < si ∨ seq.length < ei then .error .thrown
  else .ok (sliced seq si.toNat ei.toNat)

/-- `(splice seq1 seq2 idxs)`: slices of the one and of the other in turn. -/
def splice : Str → Str → List ℤ → Run Str
  | _, _, [] => .ok []
  | _, _, [_] => .error .thrown
  | seq1, seq2, si :: ei :: idxs => do
      let first ← slice seq1 si ei
      let rest ← splice seq2 seq1 idxs
      .ok (first ++ rest)

/-- `(matches text regexp)`. -/
def «matches» (text pattern : Str) (turns : ℕ) : Run (List Match) :=
  match compile pattern false with
  | none => .ok []
  | some prog => searchAll prog text turns

/-- `(p_nums z_nums c_map rep_str)`, less the zeros, which are as many as `p_nums`. -/
structure Compiled where
  pNums : List ℤ
  cMap : List (ℕ × ℤ)
  repStr : Str

/-- A match of a group reference: the literal part before it, and a hole. -/
def compileRef (repStr : Str) (st : List ℤ × List (ℕ × ℤ) × ℕ) : Match → Run (List ℤ × List (ℕ × ℤ) × ℕ)
  | [] => .error .thrown
  | (ms, me) :: _ => do
      let pNums := st.1 ++ [0, 0, (st.2.2 : ℤ), (ms : ℤ)]
      match FixedText.strToNum (← slice repStr (ms + 1) me) with
      | .num group => .ok (pNums ++ [0, 0, 0, 0], st.2.1 ++ [(pNums.length, group.toInt)], me)
      | .fixed _ => .error .thrown

def replaceCompile (repStr : Str) (turns : ℕ) : Run Compiled := do
  let found ← «matches» repStr (asc "\\$(\\d+)") turns
  let (pNums, cMap, last) ← found.foldlM (compileRef repStr) ([], [], 0)
  .ok ⟨pNums ++ [0, 0, (last : ℤ), -1], cMap, repStr⟩

/-- The span of a group in the place kept for it, where the match has that group. -/
def patch (m : Match) (tNums : List ℤ) (ref : ℕ × ℤ) : Run (List ℤ) :=
  if ref.2 < m.length then do
    let (gs, ge) ← elemGet m ref.2
    .ok ((tNums.set ref.1 gs).set (ref.1 + 1) (max gs ge : ℕ))
  else .ok tNums

/-- `(nums-add p_nums t_nums)`, of what is patched for a match. -/
def patched (c : Compiled) (m : Match) : Run (List ℤ) := do
  let tNums ← c.cMap.foldlM (patch m) (List.replicate c.pNums.length 0)
  .ok (List.zipWith (· + ·) c.pNums tNums)

/-- The parts of the matches, and the end of the last. -/
def partsLoop (c : Compiled) : ℕ → List Match → Run (List ℤ × ℕ)
  | last, [] => .ok ([], last)
  | _, [] :: _ => .error .thrown
  | last, ((ms, me) :: groups) :: matchLst => do
      let nums ← patched c ((ms, me) :: groups)
      let (parts, last') ← partsLoop c me matchLst
      .ok ((if last < ms then [(last : ℤ), (ms : ℤ), 0, 0] else []) ++ nums ++ parts, last')

def replaceMatches (text : Str) (matchLst : List Match) (c : Compiled) : Run Str :=
  if matchLst = [] then .ok text
  else do
    let (parts, last) ← partsLoop c 0 matchLst
    splice text c.repStr (parts ++ if last < text.length then [(last : ℤ), -1] else [])

/-- An edit: what it is for from and to, and what is put there. -/
abbrev Edit := ℕ × ℕ × Str

/-- The edit of a match. -/
def editOf (text : Str) (c : Compiled) : Match → Run Edit
  | [] => .error .thrown
  | (ms, me) :: groups => do
      let nums ← patched c ((ms, me) :: groups)
      let str ← splice text c.repStr nums
      .ok (ms, me, str)

def replaceEdits (text : Str) (matchLst : List Match) (c : Compiled) : Run (List Edit) :=
  matchLst.mapM (editOf text c)

/-- `:set_cursor` from the one to the other, which may be either way round, and `:insert`. -/
def applyEdit (edit : Edit) (text : Str) : Str :=
  text.take (min edit.1 edit.2.1) ++ edit.2.2 ++ text.drop (max edit.1 edit.2.1)

/-- The edits applied in reverse order. -/
def applyEdits (text : Str) (edits : List Edit) : Str := edits.foldr applyEdit text

/-! ## In order -/

/-- Spans one after another from a place on, within a text. -/
def InOrder (length : ℕ) : ℕ → List (ℕ × ℕ) → Prop
  | last, [] => last ≤ length
  | last, (ms, me) :: spans => last ≤ ms ∧ ms ≤ me ∧ InOrder length me spans

/-- The text from a place on, with what the edits put in place of their spans. -/
def interleave (text : Str) : ℕ → List Edit → Str
  | last, [] => text.drop last
  | last, (ms, me, str) :: edits => (text.take ms).drop last ++ str ++ interleave text me edits

/-- The span of an edit. -/
def spanOf (edit : Edit) : ℕ × ℕ := (edit.1, edit.2.1)

theorem InOrder.le_length {length : ℕ} {spans : List (ℕ × ℕ)} :
    ∀ {last : ℕ}, InOrder length last spans → last ≤ length := by
  induction spans with
  | nil => exact fun h => h
  | cons span spans ih =>
      intro last h
      obtain ⟨hlast, hspan, hrest⟩ := h
      exact Nat.le_trans (Nat.le_trans hlast hspan) (ih hrest)

/-- Edits in order, applied from the last to the first, change what is in their spans and nothing else. -/
theorem applyEdits_eq (text : Str) (edits : List Edit) :
    ∀ {last : ℕ}, InOrder text.length last (edits.map spanOf) →
    applyEdits text edits = text.take last ++ interleave text last edits := by
  induction edits with
  | nil => exact fun _ => (List.take_append_drop _ text).symm
  | cons edit edits ih =>
      intro last h
      obtain ⟨ms, me, str⟩ := edit
      obtain ⟨hlast, hspan, hrest⟩ := h
      have hme : me ≤ text.length := hrest.le_length
      have htake : (text.take me).length = me := List.length_take_of_le hme
      rw [applyEdits, List.foldr_cons, ← applyEdits, ih hrest, applyEdit, interleave]
      simp only [Nat.min_eq_left hspan, Nat.max_eq_right hspan]
      have hcut : text.take last ++ (text.take ms).drop last = text.take ms := by
        conv_rhs => rw [← List.take_append_drop last (text.take ms), List.take_take, Nat.min_eq_left hlast]
      rw [List.take_append_of_le_length (htake.symm ▸ hspan), List.drop_left' htake, List.take_take,
        Nat.min_eq_left hspan]
      simp only [List.append_assoc]
      rw [← List.append_assoc (text.take last), hcut]

/-! ## The splice -/

/-- What a fold with errors keeps. -/
theorem foldlM_keeps {α β : Type} {P : β → Prop} {f : β → α → Run β}
    (hf : ∀ b a b', P b → f b a = .ok b' → P b') (l : List α) :
    ∀ {b b'}, P b → l.foldlM f b = .ok b' → P b' := by
  induction l with
  | nil =>
      intro b b' hb h
      rwa [← Except.ok.inj h]
  | cons a l ih =>
      intro b b' hb h
      rw [List.foldlM_cons] at h
      obtain ⟨b'', hstep, hrest⟩ := bind_eq_ok.mp h
      exact ih (hf b a b'' hb hstep) hrest

/-- Places by fours are a slice of each, so what comes after them is spliced as from the start. -/
theorem splice_append {xs : List ℤ} (hxs : 4 ∣ xs.length) (seq1 seq2 : Str) (ys : List ℤ) :
    splice seq1 seq2 (xs ++ ys) =
      splice seq1 seq2 xs >>= fun first => splice seq1 seq2 ys >>= fun rest => .ok (first ++ rest) := by
  obtain ⟨n, hn⟩ := hxs
  induction n generalizing xs with
  | zero =>
      obtain rfl := List.eq_nil_of_length_eq_zero hn
      rw [List.nil_append, splice]
      cases splice seq1 seq2 ys <;> rfl
  | succ n ih =>
      match xs, hn with
      | a :: b :: c :: d :: xs, hn =>
          have hlen : xs.length = 4 * n := by
            simp only [List.length_cons] at hn
            omega
          simp only [List.cons_append, splice, ih hlen]
          cases slice seq1 a b with
          | error e => rfl
          | ok s =>
              cases slice seq2 c d with
              | error e => rfl
              | ok t =>
                  cases splice seq1 seq2 xs with
                  | error e => rfl
                  | ok u =>
                      cases splice seq1 seq2 ys with
                      | error e => rfl
                      | ok v => simp [bind, Except.bind]

theorem patch_length {m : Match} {tNums tNums' : List ℤ} {ref : ℕ × ℤ}
    (h : patch m tNums ref = .ok tNums') :
    tNums'.length = tNums.length := by
  unfold patch at h
  split_ifs at h
  · obtain ⟨span, -, hset⟩ := bind_eq_ok.mp h
    rw [← Except.ok.inj hset, List.length_set, List.length_set]
  · rw [← Except.ok.inj h]

theorem patched_length {c : Compiled} {m : Match} {nums : List ℤ} (h : patched c m = .ok nums) :
    nums.length = c.pNums.length := by
  obtain ⟨tNums, hfold, hadd⟩ := bind_eq_ok.mp h
  have hlen : tNums.length = c.pNums.length :=
    foldlM_keeps (P := fun l => l.length = c.pNums.length)
      (fun _ _ _ hb hstep => (patch_length hstep).trans hb) c.cMap
      List.length_replicate hfold
  rw [← Except.ok.inj hadd, List.length_zipWith, hlen, Nat.min_self]

theorem slice_between {seq : Str} {si ei : ℕ} (hle : si ≤ ei) (hei : ei ≤ seq.length) :
    slice seq si ei = .ok ((seq.take ei).drop si) := by
  unfold slice seqIndex
  rw [if_neg (by omega), if_neg (by omega), if_neg (by omega)]
  simp only [Int.toNat_natCast, sliced, if_pos hle]

theorem slice_last {seq : Str} {si : ℕ} (hsi : si ≤ seq.length) : slice seq si (-1) = .ok (seq.drop si) := by
  have hend : seqIndex seq.length (-1) = (seq.length : ℤ) := by
    unfold seqIndex
    rw [if_pos (by decide)]
    omega
  unfold slice
  rw [hend]
  have hwhole := slice_between hsi (Nat.le_refl seq.length)
  unfold slice at hwhole
  have hlen : seqIndex seq.length (seq.length : ℤ) = seq.length := by
    unfold seqIndex
    rw [if_neg (by omega)]
  rw [hlen, List.take_length] at hwhole
  exact hwhole

/-- What is between two matches. -/
theorem splice_between {text : Str} (repStr : Str) (last : ℕ) {ms : ℕ} (hms : ms ≤ text.length) :
    splice text repStr (if last < ms then [(last : ℤ), (ms : ℤ), 0, 0] else []) =
      .ok ((text.take ms).drop last) := by
  split_ifs with hlt
  · have hnone : slice repStr 0 0 = .ok [] := slice_between (Nat.le_refl 0) (Nat.zero_le _)
    rw [splice, slice_between hlt.le hms, splice, hnone, splice]
    simp [bind, Except.bind]
  · rw [splice, List.drop_eq_nil_of_le (Nat.le_trans (List.length_take_le _ _) (Nat.le_of_not_lt hlt))]

/-- What is after the last match. -/
theorem splice_tail {text : Str} (repStr : Str) {last : ℕ} (hle : last ≤ text.length) :
    splice text repStr (if last < text.length then [(last : ℤ), -1] else []) = .ok (text.drop last) := by
  split_ifs with hlt
  · rw [splice, slice_last hle, splice]
    simp [bind, Except.bind]
  · rw [splice, List.drop_eq_nil_of_le (Nat.le_of_not_lt hlt)]

/-! ## Both make the same text -/

/-- The spans of the whole matches, if every match has one. -/
def spansOf (matchLst : List Match) : Option (List (ℕ × ℕ)) := matchLst.mapM List.head?

theorem spansOf_cons {m : Match} {matchLst : List Match} {spans : List (ℕ × ℕ)}
    (h : spansOf (m :: matchLst) = some spans) :
    ∃ ms me groups spans', m = (ms, me) :: groups ∧ spans = (ms, me) :: spans' ∧
      spansOf matchLst = some spans' := by
  rw [spansOf, List.mapM_cons] at h
  obtain ⟨⟨ms, me⟩, hhead, hrest⟩ := Option.bind_eq_some_iff.mp h
  obtain ⟨spans', htail, hcons⟩ := Option.bind_eq_some_iff.mp hrest
  obtain ⟨groups, rfl⟩ := List.head?_eq_some_iff.mp hhead
  exact ⟨ms, me, groups, spans', rfl, (Option.some.inj hcons).symm, htail⟩

section Parts

variable {text : Str} {c : Compiled}

theorem partsLoop_cons {last ms me : ℕ} {groups : Match} {matchLst : List Match} {parts : List ℤ}
    {last' : ℕ} :
    partsLoop c last (((ms, me) :: groups) :: matchLst) = .ok (parts, last') ↔
      ∃ nums parts', patched c ((ms, me) :: groups) = .ok nums ∧
        partsLoop c me matchLst = .ok (parts', last') ∧
        (if last < ms then [(last : ℤ), (ms : ℤ), 0, 0] else []) ++ nums ++ parts' = parts := by
  rw [partsLoop]
  constructor
  · intro h
    obtain ⟨nums, hnums, hrest⟩ := bind_eq_ok.mp h
    obtain ⟨⟨parts', last''⟩, hparts, heq⟩ := bind_eq_ok.mp hrest
    obtain ⟨rfl, rfl⟩ := Prod.mk.inj (Except.ok.inj heq)
    exact ⟨nums, parts', hnums, hparts, rfl⟩
  · rintro ⟨nums, parts', hnums, hparts, rfl⟩
    rw [hnums, hparts]
    rfl

theorem replaceEdits_cons {ms me : ℕ} {groups : Match} {matchLst : List Match} {edits : List Edit} :
    replaceEdits text (((ms, me) :: groups) :: matchLst) c = .ok edits ↔
      ∃ nums str edits', patched c ((ms, me) :: groups) = .ok nums ∧ splice text c.repStr nums = .ok str ∧
        replaceEdits text matchLst c = .ok edits' ∧ (ms, me, str) :: edits' = edits := by
  rw [replaceEdits, List.mapM_cons, ← replaceEdits]
  constructor
  · intro h
    obtain ⟨edit, hedit, hrest⟩ := bind_eq_ok.mp h
    obtain ⟨nums, hnums, hstr⟩ := bind_eq_ok.mp hedit
    obtain ⟨str, hsplice, heq⟩ := bind_eq_ok.mp hstr
    obtain ⟨edits', hedits, hcons⟩ := bind_eq_ok.mp hrest
    refine ⟨nums, str, edits', hnums, hsplice, hedits, ?_⟩
    rw [← Except.ok.inj hcons, ← Except.ok.inj heq]
  · rintro ⟨nums, str, edits', hnums, hsplice, hedits, rfl⟩
    rw [editOf, hnums, hedits]
    change (splice text c.repStr nums >>= fun str => .ok (ms, me, str)) >>= _ = _
    rw [hsplice]
    rfl

/-- Spliced, the parts of a match are the text before it, what is put in its place, and what comes after. -/
theorem splice_parts (last : ℕ) {ms : ℕ} (hms : ms ≤ text.length) {nums : List ℤ} (hnums : 4 ∣ nums.length)
    (rest : List ℤ) (out : Str) :
    splice text c.repStr ((if last < ms then [(last : ℤ), (ms : ℤ), 0, 0] else []) ++ nums ++ rest)
      = .ok out ↔
      ∃ str tail, splice text c.repStr nums = .ok str ∧ splice text c.repStr rest = .ok tail ∧
        (text.take ms).drop last ++ str ++ tail = out := by
  have hbetween : 4 ∣ (if last < ms then [(last : ℤ), (ms : ℤ), 0, 0] else []).length := by
    split_ifs
    · exact Nat.dvd_refl 4
    · exact Nat.dvd_zero 4
  rw [List.append_assoc, splice_append hbetween, splice_between c.repStr last hms, splice_append hnums]
  constructor
  · intro h
    obtain ⟨first, hfirst, hrest⟩ := bind_eq_ok.mp h
    obtain rfl := Except.ok.inj hfirst
    obtain ⟨both, hboth, heq⟩ := bind_eq_ok.mp hrest
    obtain ⟨str, hstr, htail⟩ := bind_eq_ok.mp hboth
    obtain ⟨tail, hspliced, hjoin⟩ := bind_eq_ok.mp htail
    refine ⟨str, tail, hstr, hspliced, ?_⟩
    rw [← Except.ok.inj heq, ← Except.ok.inj hjoin, List.append_assoc]
  · rintro ⟨str, tail, hstr, htail, rfl⟩
    rw [hstr, htail, List.append_assoc]
    rfl

/-- The parts of the matches make the text with the edits of them put in place. -/
theorem parts_spec (hc : 4 ∣ c.pNums.length) (matchLst : List Match) :
    ∀ {last spans}, spansOf matchLst = some spans → Within text.length spans → last ≤ text.length → ∀ out,
      ((∃ parts last', partsLoop c last matchLst = .ok (parts, last') ∧ splice text c.repStr
          (parts ++ if last' < text.length then [(last' : ℤ), -1] else []) = .ok out) ↔
        ∃ edits, replaceEdits text matchLst c = .ok edits ∧ interleave text last edits = out) := by
  induction matchLst with
  | nil =>
      intro last spans _ _ hlast out
      have htail := splice_tail c.repStr hlast
      constructor
      · rintro ⟨parts, last', hparts, hout⟩
        obtain ⟨rfl, rfl⟩ := Prod.mk.inj (Except.ok.inj hparts)
        rw [List.nil_append, htail] at hout
        exact ⟨[], rfl, Except.ok.inj hout⟩
      · rintro ⟨edits, hedits, rfl⟩
        obtain rfl := Except.ok.inj hedits
        exact ⟨[], last, rfl, htail⟩
  | cons m matchLst ih =>
      intro last spans hspans hwithin hlast out
      obtain ⟨ms, me, groups, spans', rfl, rfl, hspans'⟩ := spansOf_cons hspans
      obtain ⟨⟨hms, hme⟩, hrest⟩ := List.forall_mem_cons.mp hwithin
      constructor
      · rintro ⟨parts, last', hparts, hout⟩
        obtain ⟨nums, parts', hnums, hparts', rfl⟩ := partsLoop_cons.mp hparts
        rw [List.append_assoc] at hout
        obtain ⟨str, tail, hstr, htail, rfl⟩ :=
          (splice_parts last hms (patched_length hnums ▸ hc) _ _).mp hout
        obtain ⟨edits, hedits, rfl⟩ := (ih hspans' hrest hme tail).mp ⟨parts', last', hparts', htail⟩
        exact ⟨_, replaceEdits_cons.mpr ⟨nums, str, edits, hnums, hstr, hedits, rfl⟩, rfl⟩
      · rintro ⟨edits, hedits, rfl⟩
        obtain ⟨nums, str, edits', hnums, hstr, hedits', rfl⟩ := replaceEdits_cons.mp hedits
        obtain ⟨parts', last', hparts', htail⟩ := (ih hspans' hrest hme _).mpr ⟨edits', hedits', rfl⟩
        refine ⟨_, last', partsLoop_cons.mpr ⟨nums, parts', hnums, hparts', rfl⟩, ?_⟩
        rw [List.append_assoc]
        exact (splice_parts last hms (patched_length hnums ▸ hc) _ _).mpr ⟨str, _, hstr, htail, rfl⟩

theorem replaceEdits_spans (matchLst : List Match) : ∀ {edits}, replaceEdits text matchLst c = .ok edits →
    spansOf matchLst = some (edits.map spanOf) := by
  induction matchLst with
  | nil =>
      intro edits h
      obtain rfl := Except.ok.inj h
      rfl
  | cons m matchLst ih =>
      intro edits h
      match m with
      | [] =>
          rw [replaceEdits, List.mapM_cons] at h
          obtain ⟨edit, hedit, -⟩ := bind_eq_ok.mp h
          exact absurd hedit (by simp [editOf])
      | (ms, me) :: groups =>
          obtain ⟨nums, str, edits', -, -, hedits, rfl⟩ := replaceEdits_cons.mp h
          rw [spansOf, List.mapM_cons, ← spansOf, ih hedits]
          rfl

theorem partsLoop_spans (matchLst : List Match) :
    ∀ {last parts last'}, partsLoop c last matchLst = .ok (parts, last') →
    ∃ spans, spansOf matchLst = some spans := by
  induction matchLst with
  | nil => exact fun _ => ⟨[], rfl⟩
  | cons m matchLst ih =>
      intro last parts last' h
      match m with
      | [] => exact absurd h (by simp [partsLoop])
      | (ms, me) :: groups =>
          obtain ⟨nums, parts', -, hparts, -⟩ := partsLoop_cons.mp h
          obtain ⟨spans, hspans⟩ := ih hparts
          rw [spansOf, List.mapM_cons, ← spansOf, hspans]
          exact ⟨_, rfl⟩

/-- What `replace-matches` gives is the text with the edits put in place of the spans. -/
theorem replaceMatches_iff (hc : 4 ∣ c.pNums.length) {matchLst : List Match}
    (hwithin : ∀ spans, spansOf matchLst = some spans → Within text.length spans) (out : Str) :
    replaceMatches text matchLst c = .ok out ↔
      ∃ edits, replaceEdits text matchLst c = .ok edits ∧ interleave text 0 edits = out := by
  unfold replaceMatches
  split_ifs with hnil
  · subst hnil
    constructor
    · intro h
      exact ⟨[], rfl, Except.ok.inj h⟩
    · rintro ⟨edits, hedits, rfl⟩
      obtain rfl := Except.ok.inj hedits
      rfl
  · constructor
    · intro h
      obtain ⟨⟨parts, last'⟩, hparts, hsplice⟩ := bind_eq_ok.mp h
      obtain ⟨spans, hspans⟩ := partsLoop_spans matchLst hparts
      exact (parts_spec hc matchLst hspans (hwithin spans hspans) (Nat.zero_le _) out).mp
        ⟨parts, last', hparts, hsplice⟩
    · rintro ⟨edits, hedits, hout⟩
      have hspans := replaceEdits_spans matchLst hedits
      obtain ⟨parts, last', hparts, hsplice⟩ :=
        (parts_spec hc matchLst hspans (hwithin _ hspans) (Nat.zero_le _) out).mpr ⟨edits, hedits, hout⟩
      rw [hparts]
      exact hsplice

end Parts

/-! ## A replacement without group references -/

/-- The program of `\\$(\\d+)`. -/
def refProg : List Elem :=
  [⟨none, [.lrb 0]⟩, ⟨some (.among [36]), [.num 1]⟩, ⟨none, [.lrb 2]⟩,
    ⟨some (.among (asc "0123456789")), [.num 1]⟩, ⟨none, [.num 1, .num (-1)]⟩, ⟨none, [.rrb 3]⟩,
      ⟨none, [.rrb 1]⟩]

theorem compile_ref : compile (asc "\\$(\\d+)") false = some refProg := by decide +kernel

/-- What a replacement without a `$` is compiled to. -/
def plain (repStr : Str) : Compiled := ⟨[0, 0, 0, -1], [], repStr⟩

theorem replaceCompile_plain {repStr : Str} (hne : repStr ≠ []) (hrep : (36 : Byte) ∉ repStr) (turns : ℕ) :
    replaceCompile repStr turns = .ok (plain repStr) := by
  have hskip : bskipn [36] repStr 0 = repStr.length := by
    have hall : ∀ x ∈ repStr, decide (x ∉ [(36 : Byte)]) = true := fun x hx =>
      decide_eq_true fun h => hrep (List.mem_singleton.mp h ▸ hx)
    rw [bskipn, Nat.zero_add, List.drop_zero, List.takeWhile_eq_self_iff.mpr hall]
  have hfound : «matches» repStr (asc "\\$(\\d+)") turns = .ok [] := by
    rw [«matches», compile_ref]
    simp only
    rw [searchAll, if_neg hne]
    change scan refProg repStr turns (bskipn [36] repStr) (repStr.length + 1) 0 [] = .ok []
    rw [scan]
    simp only [hskip, Nat.lt_irrefl, if_false]
  rw [replaceCompile, hfound]
  rfl

theorem patched_plain (repStr : Str) (m : Match) : patched (plain repStr) m = .ok [0, 0, 0, -1] := rfl

theorem replaceEdits_plain (text repStr : Str) (matchLst : List Match) :
    ∀ {spans}, spansOf matchLst = some spans →
    replaceEdits text matchLst (plain repStr) = .ok (spans.map fun span => (span.1, span.2, repStr)) := by
  have hsplice : splice text repStr [0, 0, 0, -1] = .ok repStr := by
    have hnone : slice text 0 0 = .ok [] := slice_between (Nat.le_refl 0) (Nat.zero_le _)
    have hall : slice repStr 0 (-1) = .ok repStr := slice_last (Nat.zero_le _)
    rw [splice, hnone, splice, hall, splice]
    simp [bind, Except.bind]
  induction matchLst with
  | nil =>
      intro spans h
      obtain rfl := Option.some.inj h
      rfl
  | cons m matchLst ih =>
      intro spans h
      obtain ⟨ms, me, groups, spans', rfl, rfl, hspans'⟩ := spansOf_cons h
      exact replaceEdits_cons.mpr ⟨_, repStr, _, patched_plain repStr _, hsplice, ih hspans', rfl⟩

/-! ## Just where the spans are in order -/

/-- With a replacement of the text's length at the least, the edits take away no more than the parts
    do, and as much only where the spans are in order. -/
theorem length_applyEdits {text repStr : Str} (hrep : text.length ≤ repStr.length) (spans : List (ℕ × ℕ)) :
    ∀ {last : ℕ}, Within text.length spans → last ≤ text.length →
      text.length ≤ (applyEdits text (spans.map fun span => (span.1, span.2, repStr))).length ∧
      (applyEdits text (spans.map fun span => (span.1, span.2, repStr))).length ≤
        (interleave text last (spans.map fun span => (span.1, span.2, repStr))).length + last ∧
      ((applyEdits text (spans.map fun span => (span.1, span.2, repStr))).length =
        (interleave text last (spans.map fun span => (span.1, span.2, repStr))).length + last →
          InOrder text.length last spans) := by
  induction spans with
  | nil =>
      intro last _ hlast
      have hlen : (text.drop last).length + last = text.length := by
        rw [List.length_drop]
        exact Nat.sub_add_cancel hlast
      exact ⟨Nat.le_refl _, hlen.ge, fun _ => hlast⟩
  | cons span spans ih =>
      intro last hwithin hlast
      obtain ⟨⟨hms, hme⟩, hrest⟩ := List.forall_mem_cons.mp hwithin
      obtain ⟨hge, hle, horder⟩ := ih hrest hme
      have hedits : (applyEdits text ((span :: spans).map fun span => (span.1, span.2, repStr))).length =
          min span.1 span.2 + repStr.length +
            ((applyEdits text (spans.map fun span => (span.1, span.2, repStr))).length -
            max span.1 span.2) := by
        rw [List.map_cons, applyEdits, List.foldr_cons, ← applyEdits, applyEdit, List.length_append,
          List.length_append, List.length_drop, List.length_take_of_le (by omega)]
      have hparts : (interleave text last ((span :: spans).map fun span => (span.1, span.2, repStr))).length =
          (span.1 - last) + repStr.length +
            (interleave text span.2 (spans.map fun span => (span.1, span.2, repStr))).length := by
        rw [List.map_cons, interleave, List.length_append, List.length_append, List.length_drop,
          List.length_take_of_le hms]
      rw [hedits, hparts]
      refine ⟨by omega, by omega, fun heq => ⟨by omega, by omega, horder (by omega)⟩⟩

/-- The replacement is compiled to places by fours. -/
theorem replaceCompile_fours {repStr : Str} {turns : ℕ} {c : Compiled}
    (h : replaceCompile repStr turns = .ok c) :
    4 ∣ c.pNums.length := by
  obtain ⟨found, -, hrest⟩ := bind_eq_ok.mp h
  obtain ⟨⟨pNums, cMap, last⟩, hfold, heq⟩ := bind_eq_ok.mp hrest
  have hkeeps : 4 ∣ pNums.length := by
    refine foldlM_keeps (P := fun st => 4 ∣ st.1.length) ?_ found (Nat.dvd_zero 4) hfold
    intro st m st' hst hstep
    match m with
    | [] => exact absurd hstep (by simp [compileRef])
    | (ms, me) :: _ =>
        obtain ⟨digits, -, hgroup⟩ := bind_eq_ok.mp hstep
        split at hgroup
        · rw [← Except.ok.inj hgroup, List.length_append, List.length_append]
          exact Nat.dvd_add (Nat.dvd_add hst (Nat.dvd_refl 4)) (Nat.dvd_refl 4)
        · exact absurd hgroup (by simp)
  rw [← Except.ok.inj heq, List.length_append]
  exact Nat.dvd_add hkeeps (Nat.dvd_refl 4)

/-! ## What the searchers report -/

/-- The matches of a pattern in a text, of either searcher. -/
inductive Reported (text : Str) (matchLst : List Match) : Prop
  | substr (pattern : Str)
      (h : matchLst = (Search.substrSearch text (Search.substrMake pattern)).map fun span => [span])
  | regexp (pattern : Str) (wholeWords : Bool) (prog : List Elem) (turns : ℕ)
      (hprog : compile pattern wholeWords = some prog)
      (h : searchAll prog text turns = .ok matchLst)

theorem spansOf_mem {matchLst : List Match} :
    ∀ {spans}, spansOf matchLst = some spans → ∀ span ∈ spans, ∃ m ∈ matchLst, span ∈ m := by
  induction matchLst with
  | nil =>
      intro spans h span hspan
      obtain rfl := Option.some.inj h
      exact absurd hspan List.not_mem_nil
  | cons m matchLst ih =>
      intro spans h span hspan
      obtain ⟨ms, me, groups, spans', rfl, rfl, hspans'⟩ := spansOf_cons h
      rcases List.mem_cons.mp hspan with rfl | hin
      · exact ⟨_, List.mem_cons_self, List.mem_cons_self⟩
      · obtain ⟨m, hm, hspan⟩ := ih hspans' span hin
        exact ⟨m, List.mem_cons_of_mem _ hm, hspan⟩

theorem spansOf_map (spans : List (ℕ × ℕ)) : spansOf (spans.map fun span => [span]) = some spans := by
  induction spans with
  | nil => rfl
  | cons span spans ih =>
      rw [List.map_cons, spansOf, List.mapM_cons, ← spansOf, ih]
      rfl

theorem leftmost_inOrder {pattern text : Str} (hp : pattern ≠ []) {j : ℕ} {spans : List (ℕ × ℕ)}
    (h : Occurrences.Leftmost pattern text j spans) (hj : j ≤ text.length) : InOrder text.length j spans := by
  induction h with
  | none _ => exact hj
  | next hle hat _ _ ih => exact ⟨hle, Nat.le_add_right _ _, ih (hat.le hp)⟩

/-- What `Substr` reports is in order. -/
theorem substr_inOrder (text pattern : Str) :
    InOrder text.length 0 (Search.substrSearch text (Search.substrMake pattern)) := by
  by_cases hp : pattern = []
  · subst hp
    exact Nat.zero_le _
  · exact leftmost_inOrder hp (Search.substrSearch_leftmost hp text) (Nat.zero_le _)

theorem InOrder.within {length : ℕ} {spans : List (ℕ × ℕ)} :
    ∀ {last : ℕ}, InOrder length last spans → Within length spans := by
  induction spans with
  | nil => exact fun _ _ h => absurd h List.not_mem_nil
  | cons span spans ih =>
      intro last h
      obtain ⟨-, hspan, hrest⟩ := h
      exact List.forall_mem_cons.mpr ⟨⟨Nat.le_trans hspan hrest.le_length, hrest.le_length⟩, ih hrest⟩

theorem Reported.within {text : Str} {matchLst : List Match} (h : Reported text matchLst) :
    ∀ spans, spansOf matchLst = some spans → Within text.length spans := by
  intro spans hspans
  cases h with
  | substr pattern h =>
      rw [h, spansOf_map] at hspans
      rw [← Option.some.inj hspans]
      exact (substr_inOrder text pattern).within
  | regexp pattern wholeWords prog turns hprog h =>
      intro span hspan
      obtain ⟨m, hm, hin⟩ := spansOf_mem hspans span hspan
      exact searchAll_within h m hm span hin

/-- For every replacement, `replace-matches` gives the text that the edits of `replace-edits` give,
    and they leave the text outside of the matches as it is. -/
def Agrees (text : Str) (matchLst : List Match) : Prop :=
  ∀ repStr turns c, replaceCompile repStr turns = .ok c →
    (∀ out, replaceMatches text matchLst c = .ok out ↔
      ∃ edits, replaceEdits text matchLst c = .ok edits ∧ applyEdits text edits = out) ∧
    ∀ edits, replaceEdits text matchLst c = .ok edits → applyEdits text edits = interleave text 0 edits

/-- Spans that are not in order are seen by a replacement longer than the text, without group references. -/
theorem inOrder_of_agrees {text : Str} {matchLst : List Match} (h : Reported text matchLst)
    (hagrees : Agrees text matchLst)
    {spans : List (ℕ × ℕ)} (hspans : spansOf matchLst = some spans) : InOrder text.length 0 spans := by
  have hwithin := h.within spans hspans
  have hlen : text.length ≤ (List.replicate (text.length + 1) (120 : Byte)).length := by
    rw [List.length_replicate]
    exact Nat.le_succ _
  have hrep : (36 : Byte) ∉ List.replicate (text.length + 1) (120 : Byte) := fun hin =>
    absurd (List.eq_of_mem_replicate hin) (by decide)
  have hcompiled := replaceCompile_plain (List.cons_ne_nil _ _) hrep 0
  have hedits := replaceEdits_plain text (List.replicate (text.length + 1) (120 : Byte)) matchLst hspans
  have hmatches := ((hagrees _ 0 _ hcompiled).1 _).mpr ⟨_, hedits, rfl⟩
  obtain ⟨edits, hok, heq⟩ := (replaceMatches_iff (replaceCompile_fours hcompiled) h.within _).mp hmatches
  obtain rfl := Except.ok.inj (hedits.symm.trans hok)
  exact (length_applyEdits hlen spans hwithin (Nat.zero_le _)).2.2 (congrArg List.length heq.symm)

theorem agrees_of_inOrder {text : Str} {matchLst : List Match} (h : Reported text matchLst)
    (horder : ∀ spans, spansOf matchLst = some spans → InOrder text.length 0 spans) :
    Agrees text matchLst := by
  intro repStr turns c hc
  have hedits : ∀ edits, replaceEdits text matchLst c = .ok edits →
    applyEdits text edits = interleave text 0 edits := by
    intro edits hok
    rw [applyEdits_eq text edits (horder _ (replaceEdits_spans matchLst hok))]
    rfl
  refine ⟨fun out => ?_, hedits⟩
  rw [replaceMatches_iff (replaceCompile_fours hc) h.within]
  constructor
  · rintro ⟨edits, hok, rfl⟩
    exact ⟨edits, hok, hedits edits hok⟩
  · rintro ⟨edits, hok, rfl⟩
    exact ⟨edits, hok, (hedits edits hok).symm⟩

/-- Both make the same text just where the matches are in order. -/
theorem agrees_iff {text : Str} {matchLst : List Match} (h : Reported text matchLst) :
    Agrees text matchLst ↔ ∀ spans, spansOf matchLst = some spans → InOrder text.length 0 spans :=
  ⟨fun hagrees _ hspans => inOrder_of_agrees h hagrees hspans, agrees_of_inOrder h⟩

/-- What `Substr` reports is replaced alike. -/
theorem agrees_substr (text pattern : Str) :
    Agrees text ((Search.substrSearch text (Search.substrMake pattern)).map fun span => [span]) := by
  refine agrees_of_inOrder (.substr pattern rfl) fun spans hspans => ?_
  rw [spansOf_map] at hspans
  exact Option.some.inj hspans ▸ substr_inOrder text pattern

/-- The program of `a)|(b`. -/
def apartProg : List Elem :=
  [⟨none, [.num 5, .num 1]⟩, ⟨none, [.lrb 0]⟩, ⟨some (.among [97]), [.num 1]⟩, ⟨none, [.rrb 1]⟩,
    ⟨none, [.num 4]⟩, ⟨none, [.lrb 2]⟩, ⟨some (.among [98]), [.num 1]⟩, ⟨none, [.rrb 3]⟩]

/-- Of `ab`, the second match of `a)|(b` has a group 0 that starts at 1 and ends at 0. -/
theorem apart_reported : Reported [97, 98] [[(0, 1)], [(1, 0), (1, 2)]] :=
  .regexp (asc "a)|(b") false apartProg 9 (by decide +kernel) (by decide +kernel)

/-- So what is replaced is not what the edits give. -/
theorem not_agrees_apart : Reported [97, 98] [[(0, 1)], [(1, 0), (1, 2)]] ∧
    ¬ Agrees [97, 98] [[(0, 1)], [(1, 0), (1, 2)]] :=
  ⟨apart_reported, fun h => absurd (inOrder_of_agrees apart_reported h rfl) (by simp [InOrder])⟩

/-- A match of `b` in `ab`. -/
theorem agrees_one : Agrees [97, 98] [[(1, 2)]] := by
  have hreported : Reported [97, 98] [[(1, 2)]] :=
    .regexp (asc "b") false [⟨none, [.lrb 0]⟩, ⟨some (.among [98]), [.num 1]⟩, ⟨none, [.rrb 1]⟩] 9
      (by decide +kernel)
      (by decide +kernel)
  refine (agrees_iff hreported).mpr fun spans hspans => ?_
  obtain rfl := Option.some.inj hspans
  simp [InOrder]

end ChrysaLisp.Replace
