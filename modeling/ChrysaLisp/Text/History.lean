import ChrysaLisp.Text.Undo

set_option autoImplicit false

/-! # Undo and redo of a run

One undo takes the records of one step off the undo stack and puts what takes them back on the redo
stack, one redo the other way round (`undo_step`, `redo_step`). So after a run of operations, each a
step, so many undos and redos come to where the run was, with the lines too many of the steps that
are undone (`stands_undo`, `stands_redo`), and what they bring back is exact if and only if no
operation put a line after the last (`undo_exact_iff`). -/

namespace ChrysaLisp

open Lines

/-! ## One undo, one redo -/

section Step

variable {b : Buffer} {record : Record} {records backs rest redos : List Record} {lines' : List Str}

/-- A record is done, and what takes it back is on the undo stack. -/
theorem redoRecord_eq (hfit : record.Fits b.lines) (hon : b.undos = true) :
    ∃ lists cursors redoStack, Buffer.redoRecord record b = { b with
      lines := record.act b.lines
      lists := lists
      cursors := cursors
      undoStack := record.inverse b.lines :: b.undoStack
      redoStack := redoStack } := by
  cases record with
  | mark m => exact ⟨b.lists, b.cursors, b.redoStack, rfl⟩
  | cursors list => exact ⟨b.lists, list, b.redoStack, rfl⟩
  | insert cx cy text =>
      obtain ⟨hplace, hne⟩ := hfit
      obtain ⟨lists, cursors, heq⟩ := iinsert_eq b hne cx cy
      rw [clip_of_place hplace] at heq
      refine ⟨lists, cursors, [], heq.trans ?_⟩
      simp only [Buffer.stacked, hon, if_true]
      rfl
  | delete cx cy ax ay =>
      obtain ⟨hplace, hplace', hle, hdiff⟩ := hfit
      have hclip := clip_of_place hplace
      have hclip' := clip_of_place hplace'
      have hne : clip b.lines cx cy ≠ clip b.lines ax ay := by
        rw [hclip, hclip']
        exact fun heq => hdiff (Prod.mk.inj heq)
      have hsort : sortPlaces (clip b.lines cx cy).1 (clip b.lines cx cy).2 (clip b.lines ax ay).1
          (clip b.lines ax ay).2 = (cx, cy, ax, ay) := by
        rw [hclip, hclip']
        exact sortPlaces_of_le hle
      obtain ⟨lists, cursors, heq⟩ := idelete_eq b hne hsort
      refine ⟨lists, cursors, [], heq.trans ?_⟩
      simp only [Buffer.stacked, hon, if_true]
      rfl

/-- A record is done, and what takes it back is with those to redo. -/
theorem undoRecord_eq (hfit : record.Fits b.lines) (hon : b.undos = true) (redos : List Record) :
    ∃ lists cursors redoStack, Buffer.undoRecord record b redos = ({ b with
      lines := record.act b.lines
      lists := lists
      cursors := cursors
      redoStack := redoStack }, record.inverse b.lines :: redos) := by
  obtain ⟨lists, cursors, redoStack, heq⟩ := redoRecord_eq hfit hon
  refine ⟨lists, cursors, redoStack, ?_⟩
  unfold Buffer.undoRecord
  simp only [heq, List.length_cons, Nat.add_sub_cancel_left, List.drop_succ_cons, List.drop_zero,
    List.take_succ_cons, List.take_zero]
  rfl

/-- The loop of `undo` does the records up to the mark. -/
theorem undoLoop_eq {m : ℤ} (h : Plays records b.lines backs lines') (hnot : .mark m ∉ records)
    (hstack : b.undoStack = records ++ .mark m :: rest) (hon : b.undos = true) {turns : ℕ}
    (hturns : records.length < turns) (redos : List Record) :
    ∃ b', Buffer.undoLoop m turns b redos = some (b', .mark m :: (backs ++ redos)) ∧
      b'.lines = lines' ∧ b'.undoStack = rest ∧ b'.undos = true := by
  obtain ⟨turns, rfl⟩ : ∃ k, turns = k + 1 := ⟨turns - 1, by omega⟩
  induction records generalizing b backs redos turns with
  | nil =>
      cases h
      obtain ⟨lists, cursors, redoStack, heq⟩ := @undoRecord_eq { b with undoStack := rest } (.mark m)
        trivial hon redos
      rw [List.nil_append] at hstack
      refine ⟨{ b with undoStack := rest, lists := lists, cursors := cursors, redoStack := redoStack },
        ?_, rfl, rfl, hon⟩
      unfold Buffer.undoLoop
      simp only [hstack, heq, if_true]
      rfl
  | cons record records ih =>
      cases h with
      | cons fits hrest =>
          rename_i backs
          rw [List.mem_cons, not_or] at hnot
          rw [List.length_cons] at hturns
          obtain ⟨lists, cursors, redoStack, heq⟩ :=
            @undoRecord_eq { b with undoStack := records ++ .mark m :: rest } record fits hon redos
          obtain ⟨turns, rfl⟩ : ∃ k, turns = k + 1 := ⟨turns - 1, by omega⟩
          obtain ⟨b', hloop, hb'⟩ := @ih { b with
            lines := record.act b.lines
            lists := lists
            cursors := cursors
            undoStack := records ++ .mark m :: rest
            redoStack := redoStack } backs hrest hnot.2 rfl hon (record.inverse b.lines :: redos) turns
            (by omega)
          refine ⟨b', ?_, hb'⟩
          rw [Buffer.undoLoop]
          simp only [hstack, List.cons_append, heq]
          rw [if_neg (fun hmark => hnot.1 hmark.symm), hloop]
          simp

/-- The loop of `redo` does the records up to the mark. -/
theorem redoLoop_eq {m : ℤ} (h : Plays records b.lines backs lines') (hnot : .mark m ∉ records)
    (hon : b.undos = true) (rest : List Record) :
    ∃ b', Buffer.redoLoop m (records ++ .mark m :: rest) b = some (b', rest) ∧ b'.lines = lines' ∧
      b'.undoStack = .mark m :: (backs ++ b.undoStack) ∧ b'.undos = true := by
  induction records generalizing b backs with
  | nil =>
      cases h
      refine ⟨{ b with undoStack := .mark m :: b.undoStack }, ?_, rfl, rfl, hon⟩
      simp [Buffer.redoLoop, Buffer.redoRecord]
  | cons record records ih =>
      cases h with
      | cons fits hrest =>
          rename_i backs
          rw [List.mem_cons, not_or] at hnot
          obtain ⟨lists, cursors, redoStack, heq⟩ := redoRecord_eq fits hon
          obtain ⟨b', hloop, hlines, hstack, hon'⟩ := @ih { b with
            lines := record.act b.lines
            lists := lists
            cursors := cursors
            undoStack := record.inverse b.lines :: b.undoStack
            redoStack := redoStack } backs hrest hnot.2 hon
          refine ⟨b', ?_, hlines, ?_, hon'⟩
          · rw [List.cons_append, Buffer.redoLoop]
            simp only [heq]
            rw [if_neg (fun hmark => hnot.1 hmark.symm), hloop]
          · rw [hstack]
            simp

/-- Records one after another are some, and then the others. -/
theorem Plays.split {records' : List Record} {lines : List Str}
    (h : Plays (records ++ records') lines backs lines') : ∃ backs₁ backs₂ mid,
      Plays records lines backs₁ mid ∧ Plays records' mid backs₂ lines' ∧ backs = backs₂ ++ backs₁ := by
  induction records generalizing lines backs with
  | nil => exact ⟨[], backs, lines, Plays.nil _, h, (List.append_nil _).symm⟩
  | cons record records ih =>
      cases h with
      | cons fits hrest =>
          obtain ⟨backs₁, backs₂, mid, hfirst, hsecond, rfl⟩ := ih hrest
          exact ⟨_, backs₂, mid, Plays.cons fits hfirst, hsecond, by rw [List.append_assoc]⟩

/-- The records of a group, without the marks at its ends. -/
theorem plays_group {m : ℤ} {inner : List Record} {lines : List Str}
    (h : Plays (.mark m :: (inner ++ [.mark m])) lines backs lines') : ∃ backs',
      Plays inner lines backs' lines' ∧ backs = .mark m :: (backs' ++ [.mark m]) := by
  cases h with
  | cons fits hrest =>
      obtain ⟨backs₁, backs₂, mid, hfirst, hsecond, rfl⟩ := hrest.split
      cases hsecond with
      | cons fits' hnil =>
          cases hnil
          exact ⟨backs₁, hfirst, rfl⟩

/-- What takes one step back is one step. -/
theorem oneStep_backs {lines : List Str} (hone : OneStep records) (h : Plays records lines backs lines') :
    OneStep backs := by
  rcases hone with ⟨record, rfl, hmark⟩ | ⟨m, inner, rfl, hnot⟩
  · cases h with
    | cons fits hnil =>
        cases hnil
        refine Or.inl ⟨_, rfl, fun m hm => hmark m ?_⟩
        cases record with
        | mark m => exact hm
        | cursors list => cases hm
        | insert cx cy text => cases hm
        | delete cx cy ax ay => cases hm
  · obtain ⟨backs', hinner, rfl⟩ := plays_group h
    exact Or.inr ⟨m, backs', rfl, fun hin => hnot ((hinner.mark_iff m).1 hin)⟩

/-- **One undo** of what is one step. -/
theorem undo_step (h : Plays records b.lines backs lines') (hone : OneStep records)
    (hstack : b.undoStack = records ++ rest) (hon : b.undos = true) :
    ∃ b', b.undo = some b' ∧ b'.lines = lines' ∧ b'.undoStack = rest ∧
      b'.redoStack = backs ++ b.redoStack ∧ b'.undos = true := by
  rcases hone with ⟨record, rfl, hmark⟩ | ⟨m, inner, rfl, hnot⟩
  · cases h with
    | cons fits hnil =>
        cases hnil
        obtain ⟨lists, cursors, redoStack, heq⟩ :=
          @undoRecord_eq { b with undoStack := rest } record fits hon b.redoStack
        refine ⟨{ b with
          lines := record.act b.lines
          lists := lists
          cursors := cursors
          undoStack := rest
          redoStack := record.inverse b.lines :: b.redoStack }, ?_, rfl, rfl, rfl, hon⟩
        unfold Buffer.undo
        simp only [hstack, List.singleton_append, heq]
        cases record with
        | mark m => exact absurd rfl (hmark m)
        | cursors list => rfl
        | insert cx cy text => rfl
        | delete cx cy ax ay => rfl
  · obtain ⟨backs', hinner, rfl⟩ := plays_group h
    obtain ⟨lists, cursors, redoStack, heq⟩ := @undoRecord_eq
      { b with undoStack := inner ++ .mark m :: rest } (.mark m) trivial hon b.redoStack
    obtain ⟨b', hloop, hlines, hrest, hon'⟩ := @undoLoop_eq { b with
      lists := lists
      cursors := cursors
      undoStack := inner ++ .mark m :: rest
      redoStack := redoStack } inner backs' rest lines' m hinner hnot rfl hon
      (inner ++ .mark m :: rest).length (by simp) (.mark m :: b.redoStack)
    refine ⟨{ b' with redoStack := .mark m :: (backs' ++ .mark m :: b.redoStack) }, ?_, hlines, hrest,
      by simp, hon'⟩
    have hcat : b.undoStack = .mark m :: (inner ++ .mark m :: rest) := by
      rw [hstack]
      simp
    unfold Buffer.undo
    simp only [hcat, heq]
    exact congrArg _ hloop

/-- **One redo** of what is one step. -/
theorem redo_step (h : Plays records b.lines backs lines') (hone : OneStep records)
    (hstack : b.redoStack = records ++ rest) (hon : b.undos = true) :
    ∃ b', b.redo = some b' ∧ b'.lines = lines' ∧ b'.undoStack = backs ++ b.undoStack ∧
      b'.redoStack = rest ∧ b'.undos = true := by
  rcases hone with ⟨record, rfl, hmark⟩ | ⟨m, inner, rfl, hnot⟩
  · cases h with
    | cons fits hnil =>
        cases hnil
        obtain ⟨lists, cursors, redoStack, heq⟩ :=
          @redoRecord_eq { b with redoStack := rest } record fits hon
        refine ⟨{ b with
          lines := record.act b.lines
          lists := lists
          cursors := cursors
          undoStack := record.inverse b.lines :: b.undoStack
          redoStack := rest }, ?_, rfl, rfl, rfl, hon⟩
        unfold Buffer.redo
        simp only [hstack, List.singleton_append, heq]
        cases record with
        | mark m => exact absurd rfl (hmark m)
        | cursors list => rfl
        | insert cx cy text => rfl
        | delete cx cy ax ay => rfl
  · obtain ⟨backs', hinner, rfl⟩ := plays_group h
    obtain ⟨b', hloop, hlines, hundo, hon'⟩ := @redoLoop_eq { b with
      undoStack := .mark m :: b.undoStack
      redoStack := inner ++ .mark m :: rest } inner backs' lines' m hinner hnot hon rest
    refine ⟨{ b' with redoStack := rest }, ?_, hlines, ?_, rfl, hon'⟩
    · have hcat : b.redoStack = .mark m :: (inner ++ .mark m :: rest) := by
        rw [hstack]
        simp
      unfold Buffer.redo
      simp only [hcat, Buffer.redoRecord]
      rw [hloop]
      rfl
    · show b'.undoStack = _
      rw [hundo]
      simp

end Step

/-! ## Buffers there can be -/

/-- What is so of every buffer: lines, the last an empty one, and it keeps what it has to undo. -/
structure BufferOk (b : Buffer) : Prop where
  lines : LinesOk b.lines
  on : b.undos = true

/-- A buffer that keeps what it has to undo, from when it is made: texts are loaded, operations done
    and undone and redone, and cursors moved, wherever to. -/
inductive Reachable : Buffer → Prop where
  | new : Reachable (Buffer.new true)
  | load {b : Buffer} (texts : List Str) (htexts : ∀ t ∈ texts, (10 : Byte) ∉ t) :
      Reachable b → Reachable (b.load texts)
  | op {b : Buffer} (op : Op) : Reachable b → Reachable (op.run b)
  | undo {b b' : Buffer} : Reachable b → b.undo = some b' → Reachable b'
  | redo {b b' : Buffer} : Reachable b → b.redo = some b' → Reachable b'
  | moved {b : Buffer} (lists : List (List Csr)) (cursors : ℕ) :
      Reachable b → Reachable { b with lists := lists, cursors := cursors }
  | clearUndo {b : Buffer} : Reachable b → Reachable b.clearUndo

section Reachable

variable {b b' : Buffer} {redos redos' : List Record}

theorem bufferOk_redoRecord (record : Record) (h : BufferOk b) :
    BufferOk (Buffer.redoRecord record b) := by
  cases record with
  | mark m => exact ⟨h.lines, h.on⟩
  | cursors list => exact ⟨h.lines, h.on⟩
  | insert cx cy text =>
      obtain ⟨undos, redos, k, hdid, -⟩ := did_iinsert h.lines h.on cx cy text
      exact ⟨hdid.lines, hdid.on⟩
  | delete cx cy ax ay =>
      obtain ⟨undos, redos, k, hdid, -⟩ := did_idelete h.lines h.on cx cy ax ay
      exact ⟨hdid.lines, hdid.on⟩

theorem bufferOk_undoRecord (record : Record) (h : BufferOk b) :
    BufferOk (Buffer.undoRecord record b redos).1 :=
  ⟨(bufferOk_redoRecord record h).lines, (bufferOk_redoRecord record h).on⟩

theorem bufferOk_undoLoop {outer : ℤ} {turns : ℕ} (h : BufferOk b)
    (hloop : Buffer.undoLoop outer turns b redos = some (b', redos')) : BufferOk b' := by
  induction turns generalizing b redos with
  | zero => cases hloop
  | succ turns ih =>
      unfold Buffer.undoLoop at hloop
      split at hloop
      · cases hloop
      next record rest _ =>
        have hok : BufferOk (Buffer.undoRecord record { b with undoStack := rest } redos).1 :=
          bufferOk_undoRecord record ⟨h.lines, h.on⟩
        simp only at hloop
        split at hloop
        · obtain ⟨rfl, -⟩ := Prod.mk.inj (Option.some.inj hloop)
          exact hok
        · exact ih hok hloop

theorem bufferOk_undo (h : BufferOk b) (hundo : b.undo = some b') : BufferOk b' := by
  unfold Buffer.undo at hundo
  split at hundo
  · exact Option.some.inj hundo ▸ h
  next record rest _ =>
    have hok : BufferOk (Buffer.undoRecord record { b with undoStack := rest } b.redoStack).1 :=
      bufferOk_undoRecord record ⟨h.lines, h.on⟩
    obtain ⟨⟨c, redos⟩, hdone, rfl⟩ := Option.map_eq_some_iff.1 hundo
    cases record with
    | mark m => exact ⟨(bufferOk_undoLoop hok hdone).lines, (bufferOk_undoLoop hok hdone).on⟩
    | cursors list =>
        obtain ⟨rfl, -⟩ := Prod.mk.inj (Option.some.inj hdone)
        exact ⟨hok.lines, hok.on⟩
    | insert cx cy text =>
        obtain ⟨rfl, -⟩ := Prod.mk.inj (Option.some.inj hdone)
        exact ⟨hok.lines, hok.on⟩
    | delete cx cy ax ay =>
        obtain ⟨rfl, -⟩ := Prod.mk.inj (Option.some.inj hdone)
        exact ⟨hok.lines, hok.on⟩

theorem bufferOk_redoLoop {outer : ℤ} (h : BufferOk b)
    (hloop : Buffer.redoLoop outer redos b = some (b', redos')) : BufferOk b' := by
  induction redos generalizing b with
  | nil => cases hloop
  | cons record redos ih =>
      have hok := bufferOk_redoRecord record h
      unfold Buffer.redoLoop at hloop
      simp only at hloop
      split at hloop
      · obtain ⟨rfl, -⟩ := Prod.mk.inj (Option.some.inj hloop)
        exact hok
      · exact ih hok hloop

theorem bufferOk_redo (h : BufferOk b) (hredo : b.redo = some b') : BufferOk b' := by
  unfold Buffer.redo at hredo
  split at hredo
  · exact Option.some.inj hredo ▸ h
  next record redos _ =>
    have hok : BufferOk (Buffer.redoRecord record { b with redoStack := redos }) :=
      bufferOk_redoRecord record ⟨h.lines, h.on⟩
    obtain ⟨⟨c, rest⟩, hdone, rfl⟩ := Option.map_eq_some_iff.1 hredo
    cases record with
    | mark m => exact ⟨(bufferOk_redoLoop hok hdone).lines, (bufferOk_redoLoop hok hdone).on⟩
    | cursors list =>
        obtain ⟨rfl, -⟩ := Prod.mk.inj (Option.some.inj hdone)
        exact ⟨hok.lines, hok.on⟩
    | insert cx cy text =>
        obtain ⟨rfl, -⟩ := Prod.mk.inj (Option.some.inj hdone)
        exact ⟨hok.lines, hok.on⟩
    | delete cx cy ax ay =>
        obtain ⟨rfl, -⟩ := Prod.mk.inj (Option.some.inj hdone)
        exact ⟨hok.lines, hok.on⟩

/-- **Every buffer there can be** has lines, the last an empty one. -/
theorem Reachable.ok (h : Reachable b) : BufferOk b := by
  induction h with
  | new =>
      refine ⟨⟨fun l hl => ?_, rfl⟩, rfl⟩
      rw [List.mem_singleton.1 hl]
      exact isLine_blank
  | load texts htexts _ ih =>
      refine ⟨linesOk_lastLine (fun l hl => ?_), ih.on⟩
      obtain ⟨t, ht, rfl⟩ := List.mem_map.1 hl
      exact ⟨t, htexts t ht, rfl⟩
  | op op _ ih =>
      obtain ⟨undos, redos, k, hdid, -⟩ := Edit.did (op.of _) _ ih.lines ih.on
      exact ⟨hdid.lines, hdid.on⟩
  | undo _ hundo ih => exact bufferOk_undo ih hundo
  | redo _ hredo ih => exact bufferOk_redo ih hredo
  | moved _ _ _ ih => exact ⟨ih.lines, ih.on⟩
  | clearUndo _ ih => exact ⟨ih.lines, ih.on⟩

end Reachable

/-! ## Undo and redo of a run of operations -/

/-- So many times, one after another. -/
def times (f : Buffer → Option Buffer) : ℕ → Buffer → Option Buffer
  | 0, b => some b
  | n + 1, b => (f b).bind (times f n)

/-- Operations one after another. -/
def runOps (b : Buffer) (ops : List Op) : Buffer := Run.run (fun b op => op.run b) b ops

/-- Every operation pushes onto the undo stack. -/
def Pushes (b : Buffer) (ops : List Op) : Prop :=
  Run.Each (fun b op => Op.run op b) (fun b op => (op.run b).undoStack ≠ b.undoStack) b ops

/-- No operation puts a line after the last. -/
def KeepsEach (b : Buffer) (ops : List Op) : Prop :=
  Run.Each (fun b op => Op.run op b) (fun b op => (op.of b).Keeps b) b ops

instance (b : Buffer) (ops : List Op) : Decidable (Pushes b ops) :=
  inferInstanceAs (Decidable (Run.Each _ _ b ops))

instance (b : Buffer) (ops : List Op) : Decidable (KeepsEach b ops) :=
  inferInstanceAs (Decidable (Run.Each _ _ b ops))

/-- Undo and redo are exact for a run: after any number of undos the lines are as they were before
    that many of the last operations, and after any number of redos then as they were after so many of
    those. -/
def UndoExact (b : Buffer) (ops : List Op) : Prop :=
  ∀ i ≤ ops.length, ∃ c, times Buffer.undo i (runOps b ops) = some c ∧
    c.lines = (runOps b (ops.take (ops.length - i))).lines ∧
    ∀ j ≤ i, ∃ d, times Buffer.redo j c = some d ∧
      d.lines = (runOps b (ops.take (ops.length - i + j))).lines

/-- What a step of a run leaves to be undone and what redoes it, with so many lines too many. -/
structure Rung where
  undos : List Record
  redos : List Record
  spare : ℕ

section History

variable {b c : Buffer} {ops : List Op} {rungs : List Rung} {i : ℕ}

theorem times_succ (f : Buffer → Option Buffer) (n : ℕ) (b : Buffer) :
    times f (n + 1) b = (times f n b).bind f := by
  induction n generalizing b with
  | zero =>
      show (f b).bind some = f b
      cases f b <;> rfl
  | succ n ih =>
      show (f b).bind (times f (n + 1)) = ((f b).bind (times f n)).bind f
      cases f b with
      | none => rfl
      | some d => exact ih d

/-- The steps of a run are these. -/
structure Rungs (b : Buffer) (ops : List Op) (rungs : List Rung) : Prop where
  length : rungs.length = ops.length
  one : ∀ i, (hi : i < rungs.length) → OneStep (rungs.get ⟨i, hi⟩).undos
  undoes : ∀ i, (hi : i < rungs.length) → Undoes (runOps b (ops.take (i + 1))).lines
    (rungs.get ⟨i, hi⟩).undos (runOps b (ops.take i)).lines (rungs.get ⟨i, hi⟩).spare
    (rungs.get ⟨i, hi⟩).redos
  stack : (runOps b ops).undoStack = (rungs.reverse.map Rung.undos).flatten ++ b.undoStack
  on : (runOps b ops).undos = true
  spare : (rungs.map Rung.spare).sum = 0 ↔ KeepsEach b ops

theorem exists_rungs (h : BufferOk b) (hpush : Pushes b ops) : ∃ rungs, Rungs b ops rungs := by
  induction ops generalizing b with
  | nil => exact ⟨[], ⟨rfl, fun i hi => absurd hi (Nat.not_lt_zero i),
      fun i hi => absurd hi (Nat.not_lt_zero i), rfl, h.on, by simp [KeepsEach, Run.Each]⟩⟩
  | cons op ops ih =>
      obtain ⟨undos, redos, k, hdid, hk, hone⟩ := Edit.did (op.of b) b h.lines h.on
      have hone : OneStep undos := by
        refine hone.resolve_left (fun hnil => hpush.1 ?_)
        show ((op.of b).run b).undoStack = b.undoStack
        rw [hdid.stack, hnil, List.nil_append]
      obtain ⟨rungs, hrungs⟩ := @ih (op.run b) ⟨hdid.lines, hdid.on⟩ hpush.2
      refine ⟨⟨undos, redos, k⟩ :: rungs, ⟨congrArg (· + 1) hrungs.length, fun i hi => ?_,
        fun i hi => ?_, ?_, hrungs.on, ?_⟩⟩
      · cases i with
        | zero => exact hone
        | succ i => exact hrungs.one i (Nat.lt_of_succ_lt_succ hi)
      · cases i with
        | zero => exact hdid.undoes
        | succ i => exact hrungs.undoes i (Nat.lt_of_succ_lt_succ hi)
      · show (runOps (op.run b) ops).undoStack = _
        have hstack : (op.run b).undoStack = undos ++ b.undoStack := hdid.stack
        rw [hrungs.stack, hstack]
        simp
      · show k + (rungs.map Rung.spare).sum = 0 ↔ (op.of b).Keeps b ∧ KeepsEach (op.run b) ops
        rw [Nat.add_eq_zero_iff, hk, hrungs.spare]

/-- A buffer is where a run was after so many operations, with those before to be undone, those after
    to be redone, and the lines too many of those. -/
structure Stands (b : Buffer) (ops : List Op) (rungs : List Rung) (i : ℕ) (c : Buffer) : Prop where
  on : c.undos = true
  lines : c.lines = (runOps b (ops.take i)).lines ++ blanks ((rungs.drop i).map Rung.spare).sum
  undoStack : c.undoStack = ((rungs.take i).reverse.map Rung.undos).flatten ++ b.undoStack
  redoStack : c.redoStack = ((rungs.drop i).map Rung.redos).flatten ++ (runOps b ops).redoStack

theorem stands_end (h : Rungs b ops rungs) : Stands b ops rungs ops.length (runOps b ops) := by
  refine ⟨h.on, ?_, ?_, ?_⟩
  · rw [List.take_length, ← h.length, List.drop_length]
    exact (List.append_nil _).symm
  · rw [← h.length, List.take_length, h.stack]
  · rw [← h.length, List.drop_length]
    rfl

/-- **One undo of a run.** -/
theorem stands_undo (h : Rungs b ops rungs) (hi : i < rungs.length)
    (hc : Stands b ops rungs (i + 1) c) : ∃ c', c.undo = some c' ∧ Stands b ops rungs i c' := by
  have htake : rungs.take (i + 1) = rungs.take i ++ [rungs.get ⟨i, hi⟩] :=
    (List.take_concat_get' rungs i hi).symm
  have hdrop : rungs.drop i = rungs.get ⟨i, hi⟩ :: rungs.drop (i + 1) := List.drop_eq_getElem_cons hi
  have hplays := (h.undoes i hi ((rungs.drop (i + 1)).map Rung.spare).sum).1
  rw [← hc.lines] at hplays
  obtain ⟨c', hundo, hlines, hstack, hredo, hon⟩ := undo_step hplays (h.one i hi)
    (hc.undoStack.trans (by rw [htake, List.reverse_append, List.reverse_singleton, List.singleton_append,
      List.map_cons, List.flatten_cons, List.append_assoc])) hc.on
  refine ⟨c', hundo, hon, ?_, hstack, ?_⟩
  · rw [hlines, hdrop, List.map_cons, List.sum_cons, Nat.add_comm]
  · rw [hredo, hc.redoStack, hdrop, List.map_cons, List.flatten_cons, List.append_assoc]

/-- **One redo of a run.** -/
theorem stands_redo (h : Rungs b ops rungs) (hi : i < rungs.length)
    (hc : Stands b ops rungs i c) : ∃ c', c.redo = some c' ∧ Stands b ops rungs (i + 1) c' := by
  have htake : rungs.take (i + 1) = rungs.take i ++ [rungs.get ⟨i, hi⟩] :=
    (List.take_concat_get' rungs i hi).symm
  have hdrop : rungs.drop i = rungs.get ⟨i, hi⟩ :: rungs.drop (i + 1) := List.drop_eq_getElem_cons hi
  have hplays := (h.undoes i hi ((rungs.drop (i + 1)).map Rung.spare).sum).2
  have hlines := hc.lines
  rw [hdrop, List.map_cons, List.sum_cons, Nat.add_comm] at hlines
  rw [← hlines] at hplays
  obtain ⟨c', hredo, hlines, hundo, hstack, hon⟩ := redo_step hplays
    (oneStep_backs (h.one i hi) (h.undoes i hi 0).1)
    (hc.redoStack.trans (by rw [hdrop, List.map_cons, List.flatten_cons, List.append_assoc])) hc.on
  refine ⟨c', hredo, hon, hlines, ?_, hstack⟩
  rw [hundo, hc.undoStack, htake, List.reverse_append, List.reverse_singleton, List.singleton_append,
    List.map_cons, List.flatten_cons, List.append_assoc]

theorem stands_undos (h : Rungs b ops rungs) (hi : i ≤ ops.length) :
    ∃ c, times Buffer.undo i (runOps b ops) = some c ∧ Stands b ops rungs (ops.length - i) c := by
  induction i with
  | zero => exact ⟨runOps b ops, rfl, stands_end h⟩
  | succ i ih =>
      obtain ⟨c, hundo, hc⟩ := ih (by omega)
      have hpos : ops.length - i = ops.length - (i + 1) + 1 := by omega
      rw [hpos] at hc
      obtain ⟨c', hone, hc'⟩ := stands_undo h (by rw [h.length]; omega) hc
      refine ⟨c', ?_, hc'⟩
      rw [times_succ, hundo]
      exact hone

theorem stands_redos (h : Rungs b ops rungs) (hc : Stands b ops rungs i c) {j : ℕ}
    (hj : i + j ≤ ops.length) :
    ∃ d, times Buffer.redo j c = some d ∧ Stands b ops rungs (i + j) d := by
  induction j with
  | zero => exact ⟨c, rfl, hc⟩
  | succ j ih =>
      obtain ⟨d, hredo, hd⟩ := ih (by omega)
      obtain ⟨d', hone, hd'⟩ := stands_redo h (by rw [h.length]; omega) hd
      refine ⟨d', ?_, hd'⟩
      rw [times_succ, hredo]
      exact hone

/-- **Undo and redo are exact for a run of operations, each of which can be undone, if and only if no
    operation of it puts a line after the last**: no insert puts text on the last line that does not
    end with a line end, and no delete goes up to the last line from past the start of one. -/
theorem undo_exact_iff (hb : Reachable b) (hpush : Pushes b ops) :
    UndoExact b ops ↔ KeepsEach b ops := by
  obtain ⟨rungs, hrungs⟩ := exists_rungs hb.ok hpush
  rw [← hrungs.spare]
  constructor
  · intro hexact
    obtain ⟨c, hundo, hlines, -⟩ := hexact ops.length (le_refl _)
    obtain ⟨c', hundo', hc⟩ := stands_undos hrungs (le_refl ops.length)
    obtain rfl : c = c' := Option.some.inj (hundo.symm.trans hundo')
    have hlen := congrArg List.length (hc.lines.symm.trans hlines)
    rw [List.length_append, Nat.sub_self, List.drop_zero, blanks, List.length_replicate] at hlen
    omega
  · intro hzero
    have hall : ∀ k, ((rungs.drop k).map Rung.spare).sum = 0 := by
      intro k
      have hsum := congrArg (fun l => (l.map Rung.spare).sum) (List.take_append_drop k rungs)
      simp only [List.map_append, List.sum_append] at hsum
      omega
    have hexact : ∀ {k : ℕ} {c : Buffer}, Stands b ops rungs k c →
        c.lines = (runOps b (ops.take k)).lines := by
      intro k c hc
      rw [hc.lines, hall k]
      exact List.append_nil _
    intro i hi
    obtain ⟨c, hundo, hc⟩ := stands_undos hrungs hi
    refine ⟨c, hundo, hexact hc, fun j hj => ?_⟩
    obtain ⟨d, hredo, hd⟩ := stands_redos hrungs hc (by omega : ops.length - i + j ≤ ops.length)
    exact ⟨d, hredo, hexact hd⟩

end History

/-- Text put in a line, and a line end after it taken out again. -/
theorem undo_exact_song :
    UndoExact ((Buffer.new true).load [asc "le"]) [.insert (asc "x\n"), .backspace] :=
  (undo_exact_iff (Reachable.load _ (by decide) Reachable.new) (by decide)).2 (by decide)

/-- One letter put in an empty buffer is not undone, and neither is a line end taken out before the
    last line. -/
theorem undo_fails :
    (Reachable (Buffer.new true) ∧ Pushes (Buffer.new true) [.insert (asc "a")] ∧
      ¬ UndoExact (Buffer.new true) [.insert (asc "a")]) ∧
    (Reachable ((Buffer.new true).load [asc "ab"]) ∧
      Pushes ((Buffer.new true).load [asc "ab"]) [.edit (.undoable [.idelete 1 0 0 1])] ∧
      ¬ UndoExact ((Buffer.new true).load [asc "ab"]) [.edit (.undoable [.idelete 1 0 0 1])]) := by
  have hnot : ∀ {b : Buffer} {op : Op}, (times Buffer.undo 1 (op.run b)).map Buffer.lines ≠ some b.lines →
      ¬ UndoExact b [op] := by
    intro b op hne h
    obtain ⟨c, hundo, hlines, -⟩ := h 1 (le_refl 1)
    exact hne ((congrArg (Option.map Buffer.lines) hundo).trans (congrArg some hlines))
  exact ⟨⟨Reachable.new, by decide, hnot (by decide)⟩,
    ⟨Reachable.load _ (by decide) Reachable.new, by decide, hnot (by decide)⟩⟩

end ChrysaLisp
