import ChrysaLisp.Library.Run
import ChrysaLisp.Text.Splice

set_option autoImplicit false

/-! # What undo and redo bring back

A record on a stack is done by undo and by redo alike, and what takes it back goes on the other stack
(`Plays`). An insert and a delete take each other back but for this: where one leaves the last line
with something on it, `last-line` puts an empty line after it, and that is on no stack. So when an
edit is undone there are so many lines too many, and when it is redone there are not (`Undoes`); undo
and redo are exact for the runs of operations that put no line there, and only for those
(`undo_exact_iff`). -/

namespace ChrysaLisp

open Lines

/-! ## The line after the last -/

/-- So many empty lines. -/
def blanks (k : ℕ) : List Str := List.replicate k [10]

/-- How many lines `last-line` puts after these, one or none. -/
def spare (lines : List Str) : ℕ := if lines.getLast? = some [10] then 0 else 1

theorem spare_eq_zero {lines : List Str} : spare lines = 0 ↔ lines.getLast? = some [10] := by
  unfold spare
  split
  next hlast => exact iff_of_true rfl hlast
  next hlast => exact iff_of_false (by omega) hlast

/-- The lines of a buffer: lines, and the last of them an empty one. -/
structure LinesOk (lines : List Str) : Prop where
  line : ∀ l ∈ lines, IsLine 10 l
  last : lines.getLast? = some [10]

theorem blanks_add (j k : ℕ) : blanks (j + k) = blanks j ++ blanks k := List.replicate_add j k [10]

theorem isLine_blank : IsLine (10 : Byte) [10] := ⟨[], List.not_mem_nil, rfl⟩

section Blanks

variable {lines : List Str}

theorem getLast?_blanks {k : ℕ} (h : 0 < k) : (lines ++ blanks k).getLast? = some [10] := by
  obtain ⟨j, rfl⟩ : ∃ j, k = j + 1 := ⟨k - 1, by omega⟩
  rw [blanks, List.replicate_succ', ← List.append_assoc, List.getLast?_concat]

/-- There are as many empty lines after some as there were, or as many as there must be. -/
theorem lastLine_blanks (lines : List Str) {k : ℕ} (h : spare lines ≤ k) :
    lastLine (lines ++ blanks k) = lines ++ blanks k := by
  unfold lastLine
  rw [if_pos]
  rcases Nat.eq_zero_or_pos k with rfl | hk
  · unfold spare at h
    rw [blanks, List.replicate_zero, List.append_nil]
    by_contra hlast
    rw [if_neg hlast] at h
    omega
  · exact getLast?_blanks hk

theorem lastLine_eq (lines : List Str) : lastLine lines = lines ++ blanks (spare lines) := by
  unfold lastLine spare
  split
  · rw [blanks, List.replicate_zero, List.append_nil]
  · rfl

theorem linesOk_blanks (h : LinesOk lines) (k : ℕ) : LinesOk (lines ++ blanks k) := by
  refine ⟨fun l hl => ?_, ?_⟩
  · rcases List.mem_append.1 hl with hl | hl
    · exact h.line l hl
    · rw [List.eq_of_mem_replicate hl]
      exact isLine_blank
  · rcases Nat.eq_zero_or_pos k with rfl | hk
    · rw [blanks, List.replicate_zero, List.append_nil]
      exact h.last
    · exact getLast?_blanks hk

theorem linesOk_lastLine (h : ∀ l ∈ lines, IsLine 10 l) : LinesOk (lastLine lines) := by
  unfold lastLine
  split
  next hlast => exact ⟨h, hlast⟩
  · refine ⟨fun l hl => ?_, List.getLast?_concat⟩
    rcases List.mem_append.1 hl with hl | hl
    · exact h l hl
    · rw [List.mem_singleton.1 hl]
      exact isLine_blank

theorem spare_of_linesOk (h : LinesOk lines) : spare lines = 0 := spare_eq_zero.2 h.last

end Blanks

/-! ## Places -/

section Places

variable {lines : List Str} {x y : ℕ}

/-- A place is clipped to itself. -/
theorem clip_of_place (h : Place lines x y) : clip lines x y = (x, y) := by
  obtain ⟨l, hl, hx⟩ := h
  obtain ⟨hlt, -⟩ := List.getElem?_eq_some_iff.1 hl
  have hend : lineEnd lines y = l.length - 1 := by
    unfold lineEnd
    rw [hl, Option.getD_some]
  unfold clip
  simp only [Int.toNat_natCast, hend]
  rw [if_neg (by omega), if_neg (by omega)]
  congr 1
  omega

/-- What is clipped is a place. -/
theorem clip_place (h : LinesOk lines) (cx cy : ℤ) :
    Place lines (clip lines cx cy).1 (clip lines cx cy).2 := by
  have hne : lines ≠ [] := by
    intro hnil
    have hlast := h.last
    rw [hnil] at hlast
    exact absurd hlast (by simp)
  have hpos : 0 < lines.length := List.length_pos_iff.2 hne
  have hat : ∀ y, y < lines.length → ∃ l, lines[y]? = some l ∧ lineEnd lines y < l.length := by
    intro y hy
    refine ⟨lines[y], List.getElem?_eq_getElem hy, ?_⟩
    have hlen := (h.line _ (List.getElem_mem hy)).length_pos
    unfold lineEnd
    rw [List.getElem?_eq_getElem hy, Option.getD_some]
    omega
  unfold clip
  simp only
  split
  · obtain ⟨l, hl, hlt⟩ := hat 0 hpos
    exact ⟨l, hl, by omega⟩
  · split
    · obtain ⟨l, hl, hlt⟩ := hat (lines.length - 1) (by omega)
      exact ⟨l, hl, hlt⟩
    · obtain ⟨l, hl, hlt⟩ := hat cy.toNat (by omega)
      exact ⟨l, hl, by simp only; omega⟩

theorem sortPlaces_of_le {x' y' : ℕ} (h : Le x y x' y') : sortPlaces x y x' y' = (x, y, x', y') :=
  if_pos h

/-- Two places that are sorted are so. -/
theorem sortPlaces_spec (x y x' y' : ℕ) : ∃ a b c d, sortPlaces x y x' y' = (a, b, c, d) ∧
    Le a b c d ∧ ((a = x ∧ b = y ∧ c = x' ∧ d = y') ∨ (a = x' ∧ b = y' ∧ c = x ∧ d = y)) := by
  unfold sortPlaces
  split
  next hle => exact ⟨x, y, x', y', rfl, hle, Or.inl ⟨rfl, rfl, rfl, rfl⟩⟩
  next hle => exact ⟨x', y', x, y, rfl, by unfold Le; omega, Or.inr ⟨rfl, rfl, rfl, rfl⟩⟩

end Places

/-! ## What an edit of the buffer does -/

section Spec

variable (b : Buffer)

/-- A record on the undo stack, if there is one. -/
def Buffer.stacked (record : Record) : List Record :=
  if b.undos then record :: b.undoStack else b.undoStack

theorem pushUndo_one (record : Record) :
    b.pushUndo [record] = { b with undoStack := b.stacked record } := by
  unfold Buffer.pushUndo Buffer.stacked
  split <;> rfl

theorem iinsert_eq {text : Str} (h : text ≠ []) (cx cy : ℤ) : ∃ lists cursors,
    b.iinsert cx cy text = { b with
      lines := lastLine (insertText b.lines (clip b.lines cx cy).1 (clip b.lines cx cy).2 text)
      lists := lists
      cursors := cursors
      undoStack := b.stacked (.delete (clip b.lines cx cy).1 (clip b.lines cx cy).2
        (insertEnd (clip b.lines cx cy).1 (clip b.lines cx cy).2 text).1
        (insertEnd (clip b.lines cx cy).1 (clip b.lines cx cy).2 text).2)
      redoStack := [] } := by
  unfold Buffer.iinsert
  simp only [if_neg h, pushUndo_one]
  split
  · exact ⟨_, _, rfl⟩
  · exact ⟨_, _, rfl⟩

theorem idelete_eq {cx cy ax ay : ℤ} {x y x' y' : ℕ}
    (hne : clip b.lines cx cy ≠ clip b.lines ax ay)
    (hs : sortPlaces (clip b.lines cx cy).1 (clip b.lines cx cy).2 (clip b.lines ax ay).1
      (clip b.lines ax ay).2 = (x, y, x', y')) : ∃ lists cursors,
    b.idelete cx cy ax ay = { b with
      lines := lastLine (deleteText b.lines x y x' y')
      lists := lists
      cursors := cursors
      undoStack := b.stacked (.insert x y (icopy b.lines x y x' y'))
      redoStack := [] } := by
  unfold Buffer.idelete
  have hdiff : ¬ ((clip b.lines cx cy).1 = (clip b.lines ax ay).1 ∧
      (clip b.lines cx cy).2 = (clip b.lines ax ay).2) := fun h => hne (Prod.ext h.1 h.2)
  simp only [if_neg hdiff, pushUndo_one]
  rw [hs]
  split
  · exact ⟨_, _, rfl⟩
  · exact ⟨_, _, rfl⟩

end Spec

/-! ## A record, and what takes it back -/

/-- What the lines are when a record is done. -/
def Record.act : Record → List Str → List Str
  | .insert cx cy text, lines => lastLine (insertText lines cx cy text)
  | .delete cx cy ax ay, lines => lastLine (deleteText lines cx cy ax ay)
  | _, lines => lines

/-- The record that takes it back. -/
def Record.inverse : Record → List Str → Record
  | .insert cx cy text, _ => .delete cx cy (insertEnd cx cy text).1 (insertEnd cx cy text).2
  | .delete cx cy ax ay, lines => .insert cx cy (icopy lines cx cy ax ay)
  | record, _ => record

/-- A record is of places that there are, and does something. -/
def Record.Fits : Record → List Str → Prop
  | .insert cx cy text, lines => Place lines cx cy ∧ text ≠ []
  | .delete cx cy ax ay, lines => Place lines cx cy ∧ Place lines ax ay ∧ Le cx cy ax ay ∧
      ¬ (cx = ax ∧ cy = ay)
  | _, _ => True

/-- Records done one after another, what the lines then are, and what takes them back, the last of
    them first. -/
inductive Plays : List Record → List Str → List Record → List Str → Prop where
  | nil (lines : List Str) : Plays [] lines [] lines
  | cons {record : Record} {records backs : List Record} {lines lines' : List Str}
      (fits : record.Fits lines) (rest : Plays records (record.act lines) backs lines') :
      Plays (record :: records) lines (backs ++ [record.inverse lines]) lines'

/-- What undoing these brings back, but for so many lines too many, and redoing those then does. -/
def Undoes (after : List Str) (undos : List Record) (before : List Str) (k : ℕ)
    (redos : List Record) : Prop :=
  ∀ n, Plays undos (after ++ blanks n) redos (before ++ blanks (n + k)) ∧
    Plays redos (before ++ blanks (n + k)) undos (after ++ blanks n)

section Plays

variable {record : Record} {records backs undos redos : List Record} {lines lines' : List Str}
  {a b c : List Str} {k : ℕ}

theorem Plays.append {records' backs' : List Record} {lines'' : List Str}
    (h : Plays records lines backs lines') (h' : Plays records' lines' backs' lines'') :
    Plays (records ++ records') lines (backs' ++ backs) lines'' := by
  induction h with
  | nil lines => simpa using h'
  | cons fits rest ih =>
      rw [List.cons_append, ← List.append_assoc]
      exact Plays.cons fits (ih h')

theorem plays_one (h : record.Fits lines) :
    Plays [record] lines [record.inverse lines] (record.act lines) := by
  have hone := Plays.cons h (Plays.nil (record.act lines))
  rwa [List.nil_append] at hone

theorem undoes_nil (lines : List Str) : Undoes lines [] lines 0 [] :=
  fun _ => ⟨Plays.nil _, Plays.nil _⟩

/-- One after another is undone the other way round. -/
theorem Undoes.trans {undos' redos' : List Record} {k' : ℕ} (h : Undoes b undos a k redos)
    (h' : Undoes c undos' b k' redos') : Undoes c (undos' ++ undos) a (k' + k) (redos ++ redos') := by
  intro n
  have hfirst := h (n + k')
  rw [Nat.add_assoc] at hfirst
  exact ⟨(h' n).1.append hfirst.1, hfirst.2.append (h' n).2⟩

/-- A mark or the cursors do nothing to the lines. -/
theorem undoes_still (hact : ∀ lines, record.act lines = lines)
    (hinv : ∀ lines, record.inverse lines = record) (hfit : ∀ lines, record.Fits lines) (a : List Str) :
    Undoes a [record] a 0 [record] := by
  intro n
  have hone := plays_one (hfit (a ++ blanks n))
  rw [hact, hinv] at hone
  exact ⟨hone, hone⟩

/-- Two records that take each other back, whatever lines there are after those they are of, do so but
    for the line that the first of them puts after the last. -/
theorem undoes_of_plays {X Y : List Str → List Str} {r s : Record}
    (hX : ∀ bs n, X (bs ++ blanks n) = X bs ++ blanks n)
    (hY : ∀ bs n, Y (bs ++ blanks n) = Y bs ++ blanks n)
    (hr : ∀ bs, Plays [r] (X bs) [s] (lastLine (Y bs)))
    (hs : ∀ bs, Plays [s] (Y bs) [r] (lastLine (X bs))) (bs : List Str) (h : LinesOk (Y bs)) :
    Undoes (lastLine (X bs)) [r] (Y bs) (spare (X bs)) [s] := by
  intro n
  set k := spare (X bs) with hk
  have hafter : lastLine (X bs) ++ blanks n = X bs ++ blanks (n + k) := by
    rw [lastLine_eq, ← hk, List.append_assoc, ← blanks_add, Nat.add_comm k]
  have hlast : lastLine (Y bs ++ blanks (n + k)) = Y bs ++ blanks (n + k) :=
    lastLine_blanks _ (by rw [spare_of_linesOk h]; exact Nat.zero_le _)
  have hlast' : lastLine (X bs ++ blanks (n + k)) = X bs ++ blanks (n + k) :=
    lastLine_blanks _ (by rw [← hk]; exact Nat.le_add_left _ _)
  have hundo := hr (bs ++ blanks (n + k))
  have hredo := hs (bs ++ blanks (n + k))
  rw [hX, hY, hlast] at hundo
  rw [hX, hY, hlast'] at hredo
  rw [hafter]
  exact ⟨hundo, hredo⟩

/-- The marks of what takes records back are those of the records. -/
theorem Plays.mark_iff (h : Plays records lines backs lines') (m : ℤ) :
    .mark m ∈ backs ↔ .mark m ∈ records := by
  induction h with
  | nil lines => exact Iff.rfl
  | cons fits rest ih =>
      rename_i record records backs lines lines'
      have hone : Record.mark m = record.inverse lines ↔ Record.mark m = record := by
        cases record <;> simp [Record.inverse]
      rw [List.mem_append, List.mem_singleton, ih, hone, List.mem_cons]
      exact or_comm

end Plays

/-! ## One insert, one delete -/

section One

variable {as bs : List Str} {u v : Str} {p : Piece Byte}

/-- Text that is put in is taken out again. -/
theorem plays_delete (hp : p.Ok 10) (hv : IsLine 10 v) (hne : p.text ≠ []) :
    Plays [.delete u.length as.length (p.endAt u.length as.length).1 (p.endAt u.length as.length).2]
      (as ++ p.between u v ++ bs) [.insert u.length as.length p.text]
      (lastLine (as ++ (u ++ v) :: bs)) := by
  obtain ⟨hle, hdiff⟩ := endAt_of_ne hne u.length as.length
  have hone := @plays_one (.delete u.length as.length (p.endAt u.length as.length).1
    (p.endAt u.length as.length).2) (as ++ p.between u v ++ bs)
    ⟨place_between_start hp hv, place_between_end hv, hle, hdiff⟩
  rw [Record.inverse, icopy_eq hne, Record.act, deleteText_eq] at hone
  exact hone

/-- Text that is taken out is put in again. -/
theorem plays_insert (hp : p.Ok 10) (hv : IsLine 10 v) (hne : p.text ≠ []) :
    Plays [.insert u.length as.length p.text] (as ++ (u ++ v) :: bs)
      [.delete u.length as.length (p.endAt u.length as.length).1 (p.endAt u.length as.length).2]
      (lastLine (as ++ p.between u v ++ bs)) := by
  have hone := @plays_one (.insert u.length as.length p.text) (as ++ (u ++ v) :: bs)
    ⟨place_start hv, hne⟩
  rw [Record.inverse, insertEnd_eq hp, Record.act, insertText_eq hp] at hone
  exact hone

/-- An insert is undone but for the line after the last, if it put one there. -/
theorem undoes_insert (hp : p.Ok 10) (hv : IsLine 10 v) (hne : p.text ≠ [])
    (hbefore : LinesOk (as ++ (u ++ v) :: bs)) :
    Undoes (lastLine (as ++ p.between u v ++ bs))
      [.delete u.length as.length (p.endAt u.length as.length).1 (p.endAt u.length as.length).2]
      (as ++ (u ++ v) :: bs) (spare (as ++ p.between u v ++ bs))
      [.insert u.length as.length p.text] :=
  undoes_of_plays (fun bs n => (List.append_assoc _ _ _).symm) (fun bs n => by simp)
    (fun bs => @plays_delete as bs u v p hp hv hne) (fun bs => plays_insert hp hv hne) bs hbefore

/-- A delete is undone but for the line after the last, if it put one there. -/
theorem undoes_delete (hp : p.Ok 10) (hv : IsLine 10 v) (hne : p.text ≠ [])
    (hbefore : LinesOk (as ++ p.between u v ++ bs)) :
    Undoes (lastLine (as ++ (u ++ v) :: bs)) [.insert u.length as.length p.text]
      (as ++ p.between u v ++ bs) (spare (as ++ (u ++ v) :: bs))
      [.delete u.length as.length (p.endAt u.length as.length).1
        (p.endAt u.length as.length).2] :=
  undoes_of_plays (fun bs n => by simp) (fun bs n => (List.append_assoc _ _ _).symm)
    (fun bs => @plays_insert as bs u v p hp hv hne) (fun bs => plays_delete hp hv hne) bs hbefore

/-- An insert puts a line after the last if it puts text on the last line that does not end with a
    line end. -/
theorem spare_insert (hp : p.Ok 10) (hv : IsLine 10 v) (hne : p.text ≠ [])
    (hbefore : LinesOk (as ++ (u ++ v) :: bs)) : spare (as ++ p.between u v ++ bs) = 0 ↔
      as.length + 1 ≠ (as ++ (u ++ v) :: bs).length ∨ p.text.getLast? = some 10 := by
  rw [spare_eq_zero]
  rcases List.eq_nil_or_concat' bs with rfl | ⟨bs, l, rfl⟩
  · -- it is on the last line, which is an empty one
    have hlast := hbefore.last
    rw [List.getLast?_concat, Option.some_inj] at hlast
    have hlen := congrArg List.length hlast
    have hpos := hv.length_pos
    rw [List.length_append, List.length_singleton] at hlen
    obtain rfl : u = [] := List.length_eq_zero_iff.1 (by omega)
    rw [List.nil_append] at hlast
    subst hlast
    have hcount : ¬ (as.length + 1 ≠ (as ++ [([] : Str) ++ [10]]).length) := by simp
    rw [or_iff_right hcount, List.append_nil]
    cases p with
    | one t =>
        obtain ⟨init, c, rfl⟩ := (List.eq_nil_or_concat' t).resolve_left hne
        have hc : c ≠ 10 := fun heq => hp (by simp [heq])
        rw [Piece.between, Piece.text, List.getLast?_concat, List.getLast?_concat, Option.some_inj,
          Option.some_inj]
        constructor
        · intro heq
          have hlen' := congrArg List.length heq
          simp at hlen'
        · intro heq
          exact absurd heq hc
    | more first mid last =>
        rw [Piece.between, Piece.text, ← List.append_assoc, List.getLast?_concat, Option.some_inj]
        rcases List.eq_nil_or_concat' last with rfl | ⟨init, c, rfl⟩
        · have hfirst : (first ++ mid.flatten).getLast? = some 10 := by
            rcases List.eq_nil_or_concat' mid with rfl | ⟨mid, l, rfl⟩
            · rw [List.flatten_nil, List.append_nil]
              exact hp.1.getLast?
            · have hl := (hp.2.1 l (by simp)).getLast?
              rw [List.flatten_append, List.flatten_singleton, ← List.append_assoc, List.getLast?_append,
                hl, Option.some_or]
          rw [List.append_nil, hfirst]
          simp
        · have hc : c ≠ 10 := fun heq => hp.2.2 (by simp [heq])
          rw [← List.append_assoc (first ++ mid.flatten), List.getLast?_concat, Option.some_inj]
          constructor
          · intro heq
            have hlen' := congrArg List.length heq
            simp at hlen'
          · intro heq
            exact absurd heq hc
  · have hlast := hbefore.last
    rw [← List.cons_append, ← List.append_assoc, List.getLast?_concat] at hlast
    have hlen : as.length + 1 ≠ (as ++ (u ++ v) :: (bs ++ [l])).length := by
      simp only [List.length_append, List.length_cons, List.length_nil]
      omega
    rw [← List.append_assoc, List.getLast?_concat]
    exact ⟨fun _ => Or.inl hlen, fun _ => hlast⟩

/-- A delete puts a line after the last if it is up to the last line from past the start of one. -/
theorem spare_delete (hv : IsLine 10 v) (hne : p.text ≠ [])
    (hbefore : LinesOk (as ++ p.between u v ++ bs)) : spare (as ++ (u ++ v) :: bs) = 0 ↔
      (p.endAt u.length as.length).2 + 1 ≠ (as ++ p.between u v ++ bs).length ∨ u.length = 0 := by
  have hcount : (p.endAt u.length as.length).2 + 1 = (as ++ p.between u v).length := by
    cases p <;> simp [Piece.endAt, Piece.between, Nat.add_assoc]
  rw [spare_eq_zero]
  have hlast := hbefore.last
  rcases List.eq_nil_or_concat' bs with rfl | ⟨bs, l, rfl⟩
  · -- the last line is an empty one, so it is all that is left of it
    rw [List.append_nil] at hlast ⊢
    have hv' : v = [10] := by
      have hpos := hv.length_pos
      cases p with
      | one t =>
          rw [Piece.between, List.getLast?_concat, Option.some_inj] at hlast
          have hlen := congrArg List.length hlast
          have ht : 0 < t.length := List.length_pos_iff.2 hne
          simp only [List.length_append, List.length_singleton] at hlen
          omega
      | more first mid last =>
          rw [Piece.between, ← List.append_assoc, List.getLast?_concat, Option.some_inj] at hlast
          have hlen := congrArg List.length hlast
          rw [List.length_append, List.length_singleton] at hlen
          obtain rfl : last = [] := List.length_eq_zero_iff.1 (by omega)
          exact hlast
    subst hv'
    rw [List.getLast?_concat, Option.some_inj, or_iff_right (by rw [not_not, hcount])]
    constructor
    · intro heq
      have hlen := congrArg List.length heq
      simp only [List.length_append, List.length_singleton] at hlen
      omega
    · intro hu
      rw [List.length_eq_zero_iff.1 hu]
      rfl
  · rw [← List.append_assoc, List.getLast?_concat] at hlast
    have hlen : (p.endAt u.length as.length).2 + 1 ≠ (as ++ p.between u v ++ (bs ++ [l])).length := by
      rw [hcount]
      simp only [List.length_append, List.length_singleton]
      omega
    rw [← List.cons_append, ← List.append_assoc, List.getLast?_concat]
    exact ⟨fun _ => Or.inl hlen, fun _ => hlast⟩

end One

/-! ## Edits -/

mutual

/-- An edit puts no line after the last: its inserts on the last line are of whole lines, and its
    deletes up to the last line are from the start of one. -/
def Edit.Keeps : Edit → Buffer → Prop
  | .iinsert cx cy text, b =>
      text = [] ∨ (clip b.lines cx cy).2 + 1 ≠ b.lines.length ∨ text.getLast? = some 10
  | .idelete cx cy ax ay, b =>
      let places := sortPlaces (clip b.lines cx cy).1 (clip b.lines cx cy).2 (clip b.lines ax ay).1
        (clip b.lines ax ay).2
      places.2.2.2 + 1 ≠ b.lines.length ∨ places.1 = 0
  | .undoable edits, b => Edit.KeepsAll edits b.opened

/-- Edits one after another put no line after the last. -/
def Edit.KeepsAll : List Edit → Buffer → Prop
  | [], _ => True
  | edit :: edits, b => edit.Keeps b ∧ Edit.KeepsAll edits (edit.run b)

end

mutual

instance Edit.decidableKeeps : ∀ (edit : Edit) (b : Buffer), Decidable (edit.Keeps b)
  | .iinsert _ _ _, _ => inferInstanceAs (Decidable (_ ∨ _ ∨ _))
  | .idelete _ _ _ _, _ => inferInstanceAs (Decidable (_ ∨ _))
  | .undoable edits, b => Edit.decidableKeepsAll edits b.opened

instance Edit.decidableKeepsAll : ∀ (edits : List Edit) (b : Buffer), Decidable (Edit.KeepsAll edits b)
  | [], _ => isTrue trivial
  | edit :: edits, b =>
      have := Edit.decidableKeeps edit b
      have := Edit.decidableKeepsAll edits (edit.run b)
      inferInstanceAs (Decidable (_ ∧ _))

end

/-- What is taken back by one undo: a record that is not a mark, or records from a mark to the same
    mark. -/
def OneStep (undos : List Record) : Prop :=
  (∃ record, undos = [record] ∧ ∀ m, record ≠ .mark m) ∨
    ∃ m inner, undos = .mark m :: (inner ++ [.mark m]) ∧ .mark m ∉ inner

/-- What an edit leaves to be undone and what redoes it, with so many lines put after the last. -/
structure Did (b b' : Buffer) (undos redos : List Record) (k : ℕ) : Prop where
  stack : b'.undoStack = undos ++ b.undoStack
  lines : LinesOk b'.lines
  on : b'.undos = true
  mark : b.mark ≤ b'.mark
  marks : ∀ m, .mark m ∈ undos → b.mark < m ∧ m ≤ b'.mark
  undoes : Undoes b'.lines undos b.lines k redos

section Did

variable {b b' b'' : Buffer} {undos redos undos' redos' : List Record} {k k' : ℕ}

theorem did_nil (h : LinesOk b.lines) (hon : b.undos = true) : Did b b [] [] 0 :=
  ⟨rfl, h, hon, le_refl _, fun _ hm => absurd hm List.not_mem_nil, undoes_nil _⟩

theorem Did.trans (h : Did b b' undos redos k) (h' : Did b' b'' undos' redos' k') :
    Did b b'' (undos' ++ undos) (redos ++ redos') (k' + k) := by
  refine ⟨?_, h'.lines, h'.on, h.mark.trans h'.mark, fun m hm => ?_, h.undoes.trans h'.undoes⟩
  · rw [h'.stack, h.stack, List.append_assoc]
  · rcases List.mem_append.1 hm with hm | hm
    · exact ⟨h.mark.trans_lt (h'.marks m hm).1, (h'.marks m hm).2⟩
    · exact ⟨(h.marks m hm).1, (h.marks m hm).2.trans h'.mark⟩

/-- **One insert.** -/
theorem did_iinsert (h : LinesOk b.lines) (hon : b.undos = true) (cx cy : ℤ) (text : Str) :
    ∃ undos redos k, Did b (b.iinsert cx cy text) undos redos k ∧
      (k = 0 ↔ (Edit.iinsert cx cy text).Keeps b) ∧ (undos = [] ∨ OneStep undos) := by
  unfold Edit.Keeps
  by_cases hne : text = []
  · refine ⟨[], [], 0, ?_, ⟨fun _ => Or.inl hne, fun _ => rfl⟩, Or.inl rfl⟩
    have hnone : b.iinsert cx cy text = b := by
      unfold Buffer.iinsert
      simp only [if_pos hne]
    rw [hnone]
    exact did_nil h hon
  · obtain ⟨as, bs, u, v, hlines, hy, hx, hu, hv⟩ := exists_place h.line (clip_place h cx cy)
    obtain ⟨p, hp, rfl⟩ := exists_piece (10 : Byte) text
    obtain ⟨lists, cursors, heq⟩ := iinsert_eq b hne cx cy
    rw [← hx, ← hy, hlines, insertText_eq hp, insertEnd_eq hp] at heq
    rw [hlines] at h
    rw [heq, ← hy, hlines, or_iff_right hne]
    refine ⟨[.delete u.length as.length (p.endAt u.length as.length).1
      (p.endAt u.length as.length).2], [.insert u.length as.length p.text], _,
      ⟨?_, linesOk_lastLine ?_, hon, le_refl _, ?_, ?_⟩, spare_insert hp hv hne h,
      Or.inr (Or.inl ⟨_, rfl, ?_⟩)⟩
    · simp only [Buffer.stacked, hon, if_true]
      rfl
    · intro l hl
      rcases List.mem_append.1 hl with hl | hl
      · rcases List.mem_append.1 hl with hl | hl
        · exact h.line l (List.mem_append_left _ hl)
        · exact Piece.isLine_between hp hu hv l hl
      · exact h.line l (List.mem_append_right _ (List.mem_cons_of_mem _ hl))
    · simp
    · rw [hlines]
      exact undoes_insert hp hv hne h
    · intro m hm
      cases hm

/-- **One delete.** -/
theorem did_idelete (h : LinesOk b.lines) (hon : b.undos = true) (cx cy ax ay : ℤ) :
    ∃ undos redos k, Did b (b.idelete cx cy ax ay) undos redos k ∧
      (k = 0 ↔ (Edit.idelete cx cy ax ay).Keeps b) ∧ (undos = [] ∨ OneStep undos) := by
  unfold Edit.Keeps
  obtain ⟨x, y, x', y', hsort, hle, hwhich⟩ := sortPlaces_spec (clip b.lines cx cy).1
    (clip b.lines cx cy).2 (clip b.lines ax ay).1 (clip b.lines ax ay).2
  have hplace : Place b.lines x y ∧ Place b.lines x' y' := by
    rcases hwhich with ⟨rfl, rfl, rfl, rfl⟩ | ⟨rfl, rfl, rfl, rfl⟩
    · exact ⟨clip_place h cx cy, clip_place h ax ay⟩
    · exact ⟨clip_place h ax ay, clip_place h cx cy⟩
  simp only [hsort]
  by_cases hsame : clip b.lines cx cy = clip b.lines ax ay
  · -- nothing is between the two: if they are on the last line they are at its start
    refine ⟨[], [], 0, ?_, ⟨fun _ => ?_, fun _ => rfl⟩, Or.inl rfl⟩
    · have hnone : b.idelete cx cy ax ay = b := by
        unfold Buffer.idelete
        simp only [hsame, and_self, if_true]
      rw [hnone]
      exact did_nil h hon
    · rw [or_iff_not_imp_left, not_not]
      intro hlast
      have hyy : y = y' := by
        rw [hsame] at hwhich
        rcases hwhich with ⟨-, rfl, -, rfl⟩ | ⟨-, rfl, -, rfl⟩
        · rfl
        · rfl
      obtain ⟨l, hl, hlt⟩ := hplace.1
      have hget := h.last
      rw [List.getLast?_eq_getElem?, ← hlast, Nat.add_sub_cancel, ← hyy, hl, Option.some_inj] at hget
      rw [hget, List.length_singleton] at hlt
      omega
  · have hdiff : ¬ (x = x' ∧ y = y') := by
      intro hxy
      rcases hwhich with ⟨h1, h2, h3, h4⟩ | ⟨h1, h2, h3, h4⟩
      · exact hsame (Prod.ext (by omega) (by omega))
      · exact hsame (Prod.ext (by omega) (by omega))
    obtain ⟨as, bs, u, v, p, hlines, rfl, rfl, hend, hp, hu, hv⟩ :=
      exists_between h.line hplace.1 hplace.2 hle
    obtain ⟨lists, cursors, heq⟩ := idelete_eq b hsame hsort
    obtain rfl : (p.endAt u.length as.length).1 = x' := congrArg Prod.fst hend
    obtain rfl : (p.endAt u.length as.length).2 = y' := congrArg Prod.snd hend
    have hne := text_ne_nil hp hdiff
    rw [hlines, deleteText_eq, icopy_eq hne] at heq
    rw [hlines] at h
    rw [heq, hlines]
    refine ⟨[.insert u.length as.length p.text], [.delete u.length as.length
      (p.endAt u.length as.length).1 (p.endAt u.length as.length).2], _,
      ⟨?_, linesOk_lastLine ?_, hon, le_refl _, ?_, ?_⟩, spare_delete hv hne h,
      Or.inr (Or.inl ⟨_, rfl, ?_⟩)⟩
    · simp only [Buffer.stacked, hon, if_true]
      rfl
    · intro l hl
      rcases List.mem_append.1 hl with hl | hl
      · exact h.line l (List.mem_append_left _ (List.mem_append_left _ hl))
      · rcases List.mem_cons.1 hl with rfl | hl
        · exact hv.append hu
        · exact h.line l (List.mem_append_right _ hl)
    · simp
    · rw [hlines]
      exact undoes_delete hp hv hne h
    · intro m hm
      cases hm

theorem opened_eq (hon : b.undos = true) : b.opened = { b with
    mark := b.mark + 1
    undoStack := .cursors b.cursors :: .mark (b.mark + 1) :: b.undoStack } := by
  unfold Buffer.opened Buffer.pushUndo
  simp only [hon, if_true]
  rfl

/-- **One `undoable`**, of edits that leave so much to be undone. -/
theorem did_undoable (hon : b.undos = true) {edits : List Edit}
    (hdid : Did b.opened (Edit.runAll edits b.opened) undos redos k)
    (hk : k = 0 ↔ Edit.KeepsAll edits b.opened) :
    ∃ undos redos k, Did b ((Edit.undoable edits).run b) undos redos k ∧
      (k = 0 ↔ (Edit.undoable edits).Keeps b) ∧ (undos = [] ∨ OneStep undos) := by
  have hopen := opened_eq hon
  have hmark : b.opened.mark = b.mark + 1 := by rw [hopen]
  have hlines : b.opened.lines = b.lines := by rw [hopen]
  have hstack : b.opened.undoStack = [.cursors b.cursors, .mark (b.mark + 1)] ++ b.undoStack := by
    rw [hopen]
    rfl
  have hrun : (Edit.undoable edits).run b = { Edit.runAll edits b.opened with
      undoStack := .mark (b.mark + 1) :: (Edit.runAll edits b.opened).undoStack } := by
    rw [Edit.run, pushUndo_one, Buffer.stacked, if_pos hdid.on]
  have hstill : ∀ (m : ℤ) (lines : List Str), Undoes lines [.mark m] lines 0 [.mark m] :=
    fun m => @undoes_still (.mark m) (fun _ => rfl) (fun _ => rfl) (fun _ => trivial)
  have hcursors : Undoes b.lines [.cursors b.cursors] b.lines 0 [.cursors b.cursors] :=
    @undoes_still (.cursors b.cursors) (fun _ => rfl) (fun _ => rfl) (fun _ => trivial) _
  have hnew : .mark (b.mark + 1) ∉ undos ++ [.cursors b.cursors] := by
    intro hin
    rcases List.mem_append.1 hin with hin | hin
    · have hlt := (hdid.marks _ hin).1
      rw [hmark] at hlt
      exact lt_irrefl _ hlt
    · exact absurd (List.mem_singleton.1 hin) (by simp)
  have hundoes := (((hstill (b.mark + 1) _).trans hcursors).trans (hlines ▸ hdid.undoes)).trans
    (hstill (b.mark + 1) _)
  have hsum : 0 + (k + (0 + 0)) = k := by omega
  have hlist : [Record.mark (b.mark + 1)] ++ (undos ++ ([.cursors b.cursors] ++ [.mark (b.mark + 1)]))
      = .mark (b.mark + 1) :: (undos ++ [.cursors b.cursors] ++ [.mark (b.mark + 1)]) := by simp
  rw [hsum, hlist] at hundoes
  refine ⟨.mark (b.mark + 1) :: (undos ++ [.cursors b.cursors] ++ [.mark (b.mark + 1)]),
    [.mark (b.mark + 1)] ++ [.cursors b.cursors] ++ redos ++ [.mark (b.mark + 1)], k,
    ⟨?_, ?_, ?_, ?_, ?_, ?_⟩, hk, Or.inr (Or.inr ⟨b.mark + 1, _, rfl, hnew⟩)⟩
  · rw [hrun]
    show _ :: (Edit.runAll edits b.opened).undoStack = _
    rw [hdid.stack, hstack]
    simp
  · rw [hrun]
    exact hdid.lines
  · rw [hrun]
    exact hdid.on
  · rw [hrun]
    have hle := hdid.mark
    rw [hmark] at hle
    exact (by omega : b.mark ≤ b.mark + 1).trans hle
  · rw [hrun]
    have hle := hdid.mark
    rw [hmark] at hle
    intro m hm
    show b.mark < m ∧ m ≤ (Edit.runAll edits b.opened).mark
    simp only [List.mem_cons, List.mem_append, List.not_mem_nil, or_false, Record.mark.injEq,
      reduceCtorEq] at hm
    rcases hm with rfl | hm | rfl
    · exact ⟨by omega, hle⟩
    · have hmarks := hdid.marks m hm
      rw [hmark] at hmarks
      exact ⟨by omega, hmarks.2⟩
    · exact ⟨by omega, hle⟩
  · rw [hrun]
    exact hundoes

end Did

mutual

/-- **What an edit leaves to be undone takes it back**, but for the lines it put after the last. -/
theorem Edit.did : ∀ (edit : Edit) (b : Buffer), LinesOk b.lines → b.undos = true →
    ∃ undos redos k, Did b (edit.run b) undos redos k ∧ (k = 0 ↔ edit.Keeps b) ∧
      (undos = [] ∨ OneStep undos)
  | .iinsert cx cy text, _, h, hon => did_iinsert h hon cx cy text
  | .idelete cx cy ax ay, _, h, hon => did_idelete h hon cx cy ax ay
  | .undoable edits, b, h, hon => by
      obtain ⟨undos, redos, k, hdid, hk⟩ := Edit.didAll edits b.opened
        (by rw [opened_eq hon]; exact h) (by rw [opened_eq hon]; exact hon)
      exact did_undoable hon hdid hk

/-- And so do edits one after another. -/
theorem Edit.didAll : ∀ (edits : List Edit) (b : Buffer), LinesOk b.lines → b.undos = true →
    ∃ undos redos k, Did b (Edit.runAll edits b) undos redos k ∧ (k = 0 ↔ Edit.KeepsAll edits b)
  | [], b, h, hon => ⟨[], [], 0, by rw [Edit.runAll]; exact did_nil h hon, by simp [Edit.KeepsAll]⟩
  | edit :: edits, b, h, hon => by
      obtain ⟨undos, redos, k, hdid, hk, -⟩ := Edit.did edit b h hon
      obtain ⟨undos', redos', k', hdid', hk'⟩ := Edit.didAll edits (edit.run b) hdid.lines hdid.on
      refine ⟨_, _, _, hdid.trans hdid', ?_⟩
      rw [Nat.add_eq_zero_iff, hk, hk', and_comm]
      rfl

end

end ChrysaLisp
