import ChrysaLisp.Lock.Exclusion
import Mathlib.Algebra.BigOperators.Group.List.Basic
import Mathlib.Data.List.Pairwise

set_option autoImplicit false

/-! # Whose the locks are

Beside the service goes what each client was granted and has not ended, its holds. A hold ends by a
release or a cancel of its holder for it, or when the timer takes its lock off and its own lease has
expired or its node is lost; by nothing else. A release comes whenever it comes, and so may a
cancel: the hold it was sent for may have ended long before. The event of a release says which
claim it was sent for, which the message does not.

The service does not know whose a lock is that it takes off for a release, nor whose the read that
a release or a cancel takes off a record. As long as each that finds a lock was sent by a holder
of it, the count of every read record is that of the reads held (`counted_of_owned`), and every
hold has its lock (`backed_of_owned`). One that comes too late takes another's (`count_fails`,
`ownership_fails`). -/

namespace ChrysaLisp

/-- A hold: a claim that was granted, and when. -/
structure Hold where
  reply : NetId
  key : Str
  mode : LockMode
  node : ℕ
  time : ℕ
  deriving DecidableEq

/-- The hold of a claim that is granted. -/
def LockReq.hold (req : LockReq) : Hold := ⟨req.reply, req.key, req.mode, req.node, req.time⟩

/-- A read of a key. -/
def Hold.reads (key : Str) (h : Hold) : Bool := decide (h.mode = .read ∧ h.key = key)

/-- A write of a key, of this claim. -/
def Hold.writes (claim : NetId) (h : Hold) : Bool := decide (h.mode = .write ∧ h.reply = claim)

/-- The service, what the clients hold, and the time. -/
structure Holding where
  lock : Lock
  holds : List Hold
  now : ℕ

/-- A message that comes to the service, so long after the one before: with the nodes there are
    then, and, of a release, the claim whose lock its client releases. -/
structure LockEvent where
  msg : LockMsg
  claim : NetId
  nodes : List ℕ
  later : ℕ

/-- How many reads of a key are on record. -/
def readCount (reads : List LockRead) (key : Str) : ℕ :=
  ((reads.filter (fun r => decide (r.key = key))).map LockRead.count).sum

/-- There is a lock for the hold. -/
def Lock.onRecord (lock : Lock) (h : Hold) : Bool :=
  match h.mode with
  | .write => lock.writes.any (fun w => decide (w.reply = h.reply ∧ w.key = h.key))
  | .read => lock.reads.any (fun r => decide (r.key = h.key))

/-- The first read of a key of this claim, ended. -/
def endRead (claim : NetId) (key : Str) (holds : List Hold) : List Hold :=
  holds.eraseP (fun h => decide (h.reply = claim) && h.reads key)

namespace Holding

variable (lease grace : ℕ)

/-- As the service starts. -/
def start : Holding := ⟨⟨[], [], [], [], [], []⟩, [], 0⟩

/-- The hold's own lease has expired, or its node is lost. -/
def isOver (s : Holding) (nodes : List ℕ) (now : ℕ) (h : Hold) : Bool :=
  decide (lease < now - h.time ∨
    NodeLost grace nodes (mergeNodes s.lock.known nodes) s.lock.gone now h.node)

/-- What is held after a message, but for what is granted then. -/
def ended (s : Holding) (took : Lock) (now : ℕ) (e : LockEvent) : List Hold :=
  match e.msg with
  | .release _ key =>
      endRead e.claim key (s.holds.filter (fun h => !(h.writes e.claim && decide (h.key = key))))
  | .cancel reply key mode =>
      if s.lock.pending.any (fun req => decide (req.reply = reply)) then s.holds
      else
        match mode with
        | .write => s.holds.filter (fun h => !h.writes reply)
        | .read => endRead reply key s.holds
  | .timer =>
      s.holds.filter (fun h => took.onRecord h || !s.isOver lease grace e.nodes now h)
  | _ => s.holds

/-- What a message does: to the service, and to what is held. -/
def step (s : Holding) (e : LockEvent) : Holding :=
  let now := s.now + e.later
  let took := s.lock.take lease grace e.nodes now e.msg
  let done := s.lock.handle lease grace e.nodes now e.msg
  ⟨done.1, s.ended lease grace took now e ++ done.2.map LockReq.hold, now⟩

/-! ## What is to be so -/

/-- The writes held are not in each other's way, nor any of them in that of a read. -/
def Excludes (s : Holding) : Prop :=
  s.lock.writes.Pairwise (fun a b => ¬ (a.path <+: b.path ∨ b.path <+: a.path)) ∧
    ∀ w ∈ s.lock.writes, ∀ r ∈ s.lock.reads, ¬ (w.path <+: r.path ∨ r.path <+: w.path)

/-- The count of each read record is the number of the reads of its key that are held. -/
def Counted (s : Holding) : Prop :=
  ∀ r ∈ s.lock.reads, r.count = s.holds.countP (Hold.reads r.key)

/-- Every hold has its lock: a write has the write of its claim and key, and there are as many
    reads of a key on record as are held, or more. -/
def Backed (s : Holding) : Prop :=
  (∀ h ∈ s.holds, h.mode = .write → ∃ w ∈ s.lock.writes, w.reply = h.reply ∧ w.key = h.key) ∧
    ∀ key, s.holds.countP (Hold.reads key) ≤ readCount s.lock.reads key

/-- **Who takes a read off holds one.** A release that finds no write of its key but a read, and a
    cancel of a read that does not wait, but finds one of its key, is of a claim that holds a read
    of that key. -/
def ReadOwned (s : Holding) (e : LockEvent) : Prop :=
  match e.msg with
  | .release _ key =>
      s.lock.writeOf key = none → (s.lock.readOf key).isSome →
        ∃ h ∈ s.holds, h.reply = e.claim ∧ h.reads key = true
  | .cancel reply key .read =>
      s.lock.pending.any (fun req => decide (req.reply = reply)) = false →
        (s.lock.readOf key).isSome → ∃ h ∈ s.holds, h.reply = reply ∧ h.reads key = true
  | _ => True

/-- **Who takes a lock off holds it**: the same, and a release that finds a write of its key is of
    the claim that write was granted to. -/
def Owned (s : Holding) (e : LockEvent) : Prop :=
  s.ReadOwned e ∧ ∀ reply key w i, e.msg = .release reply key → s.lock.writeOf key = some (w, i) →
    w.reply = e.claim

theorem excludes_of_sound {s : Holding} (h : s.lock.Sound) : s.Excludes := by
  refine ⟨h.held.apart.imp ?_, fun w hw r hr => ?_⟩
  · intro a b hab
    rw [← overlap_iff, hab]
    exact Bool.false_ne_true
  · rw [← overlap_iff, h.held.noRead w hw r hr]
    exact Bool.false_ne_true

/-- **The locks exclude**: in every state of every run, whoever takes what off, the locks that are
    held are not in each other's way. -/
theorem excludes_run (es : List LockEvent) : (Run.run (step lease grace) start es).Excludes :=
  excludes_of_sound (Run.inv_of_step (I := fun s : Holding => s.lock.Sound)
    (fun _ e h => h.handle e.msg) ⟨heldSound_nil, fun _ h => absurd h List.not_mem_nil⟩ es)

end Holding

/-! ## How many reads are on record -/

section ReadCount

variable {reads reads' : List LockRead} {key : Str}

@[simp] theorem readCount_nil (key : Str) : readCount [] key = 0 := rfl

theorem readCount_cons (r : LockRead) (reads : List LockRead) (key : Str) :
    readCount (r :: reads) key = (if r.key = key then r.count else 0) + readCount reads key := by
  unfold readCount
  rw [List.filter_cons]
  by_cases h : r.key = key <;> simp [h]

theorem readCount_perm (h : reads.Perm reads') (key : Str) :
    readCount reads key = readCount reads' key :=
  ((h.filter _).map _).sum_eq

theorem readCount_of_mem (hkeys : (reads.map LockRead.key).Nodup) {r : LockRead} (hr : r ∈ reads) :
    readCount reads r.key = r.count := by
  induction reads with
  | nil => exact absurd hr List.not_mem_nil
  | cons x reads ih =>
      rw [List.map_cons, List.nodup_cons] at hkeys
      have hnone : ∀ key, key ∉ reads.map LockRead.key → readCount reads key = 0 := by
        intro key hkey
        have : reads.filter (fun r => decide (r.key = key)) = [] := by
          rw [List.filter_eq_nil_iff]
          intro y hy he
          exact hkey (List.mem_map.2 ⟨y, hy, by simpa using he⟩)
        simp [readCount, this]
      rw [readCount_cons]
      rcases List.mem_cons.1 hr with rfl | hr
      · rw [if_pos rfl, hnone _ hkeys.1, Nat.add_zero]
      · have hne : x.key ≠ r.key := fun he => hkeys.1 (he ▸ List.mem_map_of_mem hr)
        rw [if_neg hne, Nat.zero_add, ih hkeys.2 hr]

/-- No read of a key is on record where no record is of it. -/
theorem readCount_eq_zero (h : ∀ r ∈ reads, r.key ≠ key) : readCount reads key = 0 := by
  have : reads.filter (fun r => decide (r.key = key)) = [] := by
    rw [List.filter_eq_nil_iff]
    exact fun r hr he => h r hr (by simpa using he)
  simp [readCount, this]

theorem readCount_addRead (k : Str) (path : List Str) (now : ℕ) (key : Str) :
    readCount (addRead k path now reads) key
      = readCount reads key + if k = key then 1 else 0 := by
  induction reads with
  | nil => simp [addRead, readCount_cons]
  | cons r reads ih =>
      rw [addRead]
      split
      next hk =>
        subst hk
        rw [readCount_cons, readCount_cons]
        by_cases h : r.key = key <;> simp only [h, if_true, if_false] <;> omega
      · rw [readCount_cons, readCount_cons, ih, Nat.add_assoc]

/-- One less read on a record is one less read of its key. -/
theorem readCount_takeRead {lock : Lock} {i : ℕ} {rec : LockRead}
    (hi : lock.reads[i]? = some rec) (hpos : 0 < rec.count) (key : Str) :
    readCount (lock.takeRead i rec).reads key + (if rec.key = key then 1 else 0)
      = readCount lock.reads key := by
  obtain ⟨hlt, hrec⟩ := List.getElem?_eq_some_iff.1 hi
  have hall := readCount_perm (List.getElem_cons_eraseIdx_perm hlt) key
  rw [hrec, readCount_cons] at hall
  unfold Lock.takeRead
  simp only
  split
  next hlast =>
    have hdrop := readCount_perm (cons_dropAt_perm hi) key
    rw [readCount_cons] at hdrop
    by_cases hk : rec.key = key <;> simp only [hk, if_true, if_false] at hall hdrop ⊢ <;> omega
  · have hset := readCount_perm (List.set_perm_cons_eraseIdx hlt
      { rec with count := rec.count - 1 }) key
    rw [readCount_cons] at hset
    simp only at hset
    by_cases hk : rec.key = key <;> simp only [hk, if_true, if_false] at hall hset ⊢ <;> omega

/-- The record of a key that has had another read is as of now. -/
theorem time_addRead (hkeys : (reads.map LockRead.key).Nodup) {path : List Str} {now : ℕ}
    {r : LockRead} (hr : r ∈ addRead key path now reads) (hk : r.key = key) : r.time = now := by
  induction reads with
  | nil =>
      rw [addRead, List.mem_singleton] at hr
      rw [hr]
  | cons x reads ih =>
      rw [List.map_cons, List.nodup_cons] at hkeys
      rw [addRead] at hr
      split at hr
      next hx =>
        rcases List.mem_cons.1 hr with rfl | hr
        · rfl
        · exact absurd (hx.trans hk.symm ▸ List.mem_map_of_mem hr) hkeys.1
      next hx =>
        rcases List.mem_cons.1 hr with rfl | hr
        · exact absurd hk hx
        · exact ih hkeys.2 hr

end ReadCount

/-! ## Ending a hold -/

section EndRead

variable {claim : NetId} {key : Str} {holds : List Hold}

/-- A read that is ended is one less of its key, and no other hold is touched. -/
theorem countP_endRead (h : ∃ h ∈ holds, h.reply = claim ∧ h.reads key = true) (k : Str) :
    (endRead claim key holds).countP (Hold.reads k) + (if key = k then 1 else 0)
      = holds.countP (Hold.reads k) := by
  obtain ⟨x, hx, hreply, hread⟩ := h
  obtain ⟨a, l₁, l₂, -, ha, hl, herase⟩ := List.exists_of_eraseP
    (p := fun h => decide (h.reply = claim) && h.reads key) hx (by simp [hreply, hread])
  unfold endRead
  rw [herase, hl, List.countP_append, List.countP_append, List.countP_cons]
  have hak : a.reads k = decide (key = k) := by
    simp only [Bool.and_eq_true, Hold.reads, decide_eq_true_eq] at ha
    simp [Hold.reads, ha.2.1, ha.2.2]
  rw [hak]
  by_cases hk : key = k
  · simp only [hk, if_true, decide_true]
    omega
  · simp only [hk, if_false, decide_false, Bool.false_eq_true]
    omega

theorem endRead_of_none (h : holds.countP (Hold.reads key) = 0) :
    endRead claim key holds = holds := by
  refine List.eraseP_of_forall_not (fun x hx hp => ?_)
  rw [List.countP_eq_zero] at h
  simp only [Bool.and_eq_true] at hp
  exact h x hx hp.2

theorem mem_of_mem_endRead {h : Hold} (hh : h ∈ endRead claim key holds) : h ∈ holds :=
  List.mem_of_mem_eraseP hh

/-- A write is never ended by it. -/
theorem countP_filter_writes (p : Hold → Bool) (hp : ∀ h, p h = false → h.mode = .write) (k : Str) :
    (holds.filter p).countP (Hold.reads k) = holds.countP (Hold.reads k) := by
  rw [List.countP_filter]
  refine List.countP_congr (fun h _ => ?_)
  cases hph : p h with
  | true => simp
  | false => simp [Hold.reads, hp h hph]

end EndRead

/-! ## The reads -/

/-- What is so of the reads: as many are on record as are held, of each key, and none was granted
    after the last of its record. -/
structure ReadsOwned (reads : List LockRead) (holds : List Hold) : Prop where
  count : ∀ key, readCount reads key = holds.countP (Hold.reads key)
  time : ∀ h ∈ holds, ∀ r ∈ reads, h.reads r.key = true → h.time ≤ r.time

section Reads

variable {reads : List LockRead} {holds : List Hold} {lock : Lock}

/-- One read less on record, and one less that is held. -/
theorem ReadsOwned.takeRead (h : ReadsOwned lock.reads holds) {i : ℕ} {rec : LockRead}
    (hi : lock.reads[i]? = some rec) (hpos : 0 < rec.count) {claim : NetId}
    (hown : ∃ x ∈ holds, x.reply = claim ∧ x.reads rec.key = true) :
    ReadsOwned (lock.takeRead i rec).reads (endRead claim rec.key holds) := by
  refine ⟨fun key => ?_, fun x hx r hr hread => ?_⟩
  · have h1 := readCount_takeRead hi hpos key
    have h2 := countP_endRead hown key
    have h3 := h.count key
    omega
  · have hr' : r ∈ lock.reads ∨ r = { rec with count := rec.count - 1 } := by
      unfold Lock.takeRead at hr
      simp only at hr
      split at hr
      · exact Or.inl ((dropAt_subperm hi).subset hr)
      · exact List.mem_or_eq_of_mem_set hr
    rcases hr' with hr' | rfl
    · exact h.time x (mem_of_mem_endRead hx) r hr' hread
    · exact h.time x (mem_of_mem_endRead hx) rec (List.mem_of_getElem? hi) hread

/-- Where nothing is taken off the reads, and no read of the key is on record, none is ended. -/
theorem ReadsOwned.endRead (h : ReadsOwned reads holds) {key : Str}
    (hnone : ∀ r ∈ reads, r.key ≠ key) (claim : NetId) :
    ReadsOwned reads (ChrysaLisp.endRead claim key holds) := by
  rw [endRead_of_none]
  · exact h
  · rw [← h.count, readCount_eq_zero hnone]

theorem ReadsOwned.filter (h : ReadsOwned reads holds) {p : Hold → Bool}
    (hp : ∀ x, p x = false → x.mode = .write) : ReadsOwned reads (holds.filter p) :=
  ⟨fun key => (h.count key).trans (countP_filter_writes p hp key).symm,
    fun x hx => h.time x (List.mem_of_mem_filter hx)⟩

/-- A claim that is granted is one more read of its key on record and one more that is held, or
    neither. -/
theorem ReadsOwned.grant {pass : Pass} {req : LockReq} {now : ℕ}
    (h : ReadsOwned pass.reads (holds ++ pass.granted.map LockReq.hold))
    (hkeys : (pass.reads.map LockRead.key).Nodup)
    (hpast : ∀ x ∈ holds ++ pass.granted.map LockReq.hold, x.time ≤ now) :
    ReadsOwned (pass.grant now req).reads
      (holds ++ (pass.grant now req).granted.map LockReq.hold) := by
  unfold Pass.grant
  cases hmode : req.mode with
  | write =>
      simp only [List.map_append, List.map_cons, List.map_nil, ← List.append_assoc]
      refine ⟨fun key => ?_, fun x hx r hr hread => ?_⟩
      · rw [h.count, List.countP_append, List.countP_append]
        simp [Hold.reads, LockReq.hold]
      · rcases List.mem_append.1 hx with hx | hx
        · exact h.time x hx r hr hread
        · rw [List.mem_singleton.1 hx] at hread
          simp [Hold.reads, LockReq.hold] at hread
  | read =>
      simp only [List.map_append, List.map_cons, List.map_nil, ← List.append_assoc]
      refine ⟨fun key => ?_, fun x hx r hr hread => ?_⟩
      · rw [readCount_addRead, h.count, @List.countP_append _ _ (holds ++ _)]
        simp [List.countP_cons, Hold.reads, LockReq.hold]
      · have hx' : x.time ≤ now := by
          rcases List.mem_append.1 hx with hx | hx
          · exact hpast x hx
          · rw [List.mem_singleton.1 hx]
            exact le_rfl
        by_cases hk : r.key = req.key
        · rw [time_addRead hkeys hr hk]
          exact hx'
        · have hr' := (mem_addRead hr).resolve_right (fun he => hk he.1)
          rcases List.mem_append.1 hx with hx | hx
          · exact h.time x hx r hr' hread
          · rw [List.mem_singleton.1 hx] at hread
            simp only [Hold.reads, LockReq.hold, decide_eq_true_eq] at hread
            exact absurd hread.2.symm hk

end Reads

/-! ## The writes -/

/-- Every write that is held has a write of its claim, key and node, granted no earlier. -/
def WritesOwned (writes : List LockReq) (holds : List Hold) : Prop :=
  ∀ h ∈ holds, h.mode = .write →
    ∃ w ∈ writes, w.reply = h.reply ∧ w.key = h.key ∧ w.node = h.node ∧ h.time ≤ w.time

section Writes

variable {writes : List LockReq} {holds holds' : List Hold}

theorem WritesOwned.mono (h : WritesOwned writes holds) (hsub : ∀ x ∈ holds', x ∈ holds) :
    WritesOwned writes holds' :=
  fun x hx => h x (hsub x hx)

/-- A write that is taken off, where no hold that is left is of it. -/
theorem WritesOwned.dropAt (h : WritesOwned writes holds) {i : ℕ} {w : LockReq}
    (hi : writes[i]? = some w)
    (hnot : ∀ x ∈ holds, x.mode = .write → ¬ (w.reply = x.reply ∧ w.key = x.key)) :
    WritesOwned (ChrysaLisp.dropAt writes i) holds := by
  intro x hx hmode
  obtain ⟨v, hv, hreply, hkey, hnode, htime⟩ := h x hx hmode
  rcases mem_dropAt hi hv with rfl | hv
  · exact absurd ⟨hreply, hkey⟩ (hnot x hx hmode)
  · exact ⟨v, hv, hreply, hkey, hnode, htime⟩

theorem WritesOwned.grant {pass : Pass} {req : LockReq} {now : ℕ}
    (h : WritesOwned pass.writes (holds ++ pass.granted.map LockReq.hold)) :
    WritesOwned (pass.grant now req).writes
      (holds ++ (pass.grant now req).granted.map LockReq.hold) := by
  unfold Pass.grant
  cases hmode : req.mode with
  | write =>
      simp only [List.map_append, List.map_cons, List.map_nil, ← List.append_assoc]
      intro x hx hw
      rcases List.mem_append.1 hx with hx | hx
      · obtain ⟨w, hwm, hrest⟩ := h x hx hw
        exact ⟨w, List.mem_append_left _ hwm, hrest⟩
      · rw [List.mem_singleton.1 hx]
        exact ⟨_, List.mem_append_right _ (List.mem_singleton.2 rfl), rfl, rfl, rfl, le_rfl⟩
  | read =>
      simp only [List.map_append, List.map_cons, List.map_nil, ← List.append_assoc]
      intro x hx hw
      rcases List.mem_append.1 hx with hx | hx
      · exact h x hx hw
      · rw [List.mem_singleton.1 hx] at hw
        simp [LockReq.hold] at hw

end Writes

namespace Holding

variable {lease grace : ℕ} {s : Holding} {e : LockEvent}

/-! ## What a message leaves of the reads -/

/-- No hold is of a time that is not yet. -/
def Past (s : Holding) : Prop := ∀ h ∈ s.holds, h.time ≤ s.now

theorem mem_ended {took : Lock} {now : ℕ} {h : Hold}
    (hh : h ∈ s.ended lease grace took now e) : h ∈ s.holds := by
  unfold ended at hh
  split at hh
  · exact List.mem_of_mem_filter (mem_of_mem_endRead hh)
  · split at hh
    · exact hh
    · split at hh
      · exact List.mem_of_mem_filter hh
      · exact mem_of_mem_endRead hh
  · exact List.mem_of_mem_filter hh
  · exact hh

/-- No read record is of a key a write is held of. -/
theorem key_ne_of_writeOf (h : s.lock.Sound) {key : Str} {w : LockReq} {i : ℕ}
    (hw : s.lock.writeOf key = some (w, i)) : ∀ r ∈ s.lock.reads, r.key ≠ key := by
  obtain ⟨hi, hkey⟩ := Lock.getElem?_of_writeOf hw
  intro r hr he
  have hmem := List.mem_of_getElem? hi
  have hpath : w.path = r.path := by
    rw [h.held.writePath w hmem, h.held.readPath r hr, hkey, he]
  have := h.held.noRead w hmem r hr
  rw [hpath, overlap_self] at this
  exact absurd this (by simp)

theorem key_ne_of_readOf {lock : Lock} {key : Str} (h : lock.readOf key = none) :
    ∀ r ∈ lock.reads, r.key ≠ key := by
  intro r hr he
  obtain ⟨i, hi⟩ := List.mem_iff_getElem?.1 hr
  have := List.find?_eq_none.1 h (r, i) (List.mem_zipIdx_iff_getElem?.2 hi)
  exact this (by simpa using he)

/-- What the timer leaves: the reads of the records it leaves, and of those it does not every hold
    is over. -/
theorem readsOwned_timer (hs : s.lock.Sound) (h : ReadsOwned s.lock.reads s.holds) {now : ℕ}
    {nodes : List ℕ} {took : Lock}
    (htook : took.reads = purgeReads lease now s.lock.reads.length 0 s.lock.reads) :
    ReadsOwned took.reads
      (s.holds.filter (fun h => took.onRecord h || !s.isOver lease grace nodes now h)) := by
  obtain ⟨hsub, hleft⟩ : took.reads.Subperm s.lock.reads ∧
      ∀ r ∈ s.lock.reads, r ∈ took.reads ∨ lease < now - r.time := by
    rw [htook]
    exact purgeReads_spec _ 0 s.lock.reads
  have hkeys : (took.reads.map LockRead.key).Nodup :=
    (hs.held.of_subperm_reads hsub).keys
  have honrec : ∀ x key, Hold.reads key x = true →
      (took.onRecord x = true ↔ ∃ r ∈ took.reads, r.key = key) := by
    intro x key hx
    simp only [Hold.reads, decide_eq_true_eq] at hx
    unfold Lock.onRecord
    rw [hx.1]
    simp only [List.any_eq_true, decide_eq_true_eq, hx.2]
  refine ⟨fun key => ?_, fun x hx r hr hread =>
    h.time x (List.mem_of_mem_filter hx) r (hsub.subset hr) hread⟩
  rw [List.countP_filter]
  by_cases hrec : ∃ r ∈ took.reads, r.key = key
  · -- the record is left, and so are all its holds
    obtain ⟨r, hr, rfl⟩ := hrec
    rw [readCount_of_mem hkeys hr, ← readCount_of_mem hs.held.keys (hsub.subset hr), h.count]
    refine List.countP_congr (fun x _ => ?_)
    have := honrec x r.key
    by_cases hx : Hold.reads r.key x = true
    · simp [hx, (this hx).2 ⟨r, hr, rfl⟩]
    · simp [hx]
  · -- no record is left of the key: if there was one, every hold of it is over
    push Not at hrec
    rw [readCount_eq_zero hrec, eq_comm, List.countP_eq_zero]
    intro x hx hboth
    simp only [Bool.and_eq_true, Bool.or_eq_true, Bool.not_eq_true'] at hboth
    have hpos : 0 < readCount s.lock.reads key := by
      rw [h.count, List.countP_pos_iff]
      exact ⟨x, hx, hboth.1⟩
    obtain ⟨r, hr, hrk⟩ : ∃ r ∈ s.lock.reads, r.key = key := by
      by_contra hnone
      push Not at hnone
      rw [readCount_eq_zero hnone] at hpos
      exact absurd hpos (lt_irrefl 0)
    have hexp : lease < now - r.time :=
      (hleft r hr).resolve_left (fun hin => hrec r hin hrk)
    have htime := h.time x hx r hr (by rw [hrk]; exact hboth.1)
    rcases hboth.2 with hon | hover
    · obtain ⟨r', hr', hk'⟩ := (honrec x key hboth.1).1 hon
      exact hrec r' hr' hk'
    · simp only [isOver, decide_eq_false_iff_not, not_or] at hover
      exact hover.1 (by omega)

/-- What a message leaves of the reads, where whoever takes one off holds one. -/
theorem readsOwned_take (lease grace now : ℕ) (hs : s.lock.Sound)
    (h : ReadsOwned s.lock.reads s.holds) (hc : s.ReadOwned e) :
    ReadsOwned (s.lock.take lease grace e.nodes now e.msg).reads
      (s.ended lease grace (s.lock.take lease grace e.nodes now e.msg) now e) := by
  unfold ended
  unfold ReadOwned at hc
  cases hmsg : e.msg with
  | claim reply key mode timeout => exact h
  | history reply => exact h
  | release reply key =>
      rw [hmsg] at hc
      simp only [Lock.take, Lock.release]
      have hfilter : ReadsOwned s.lock.reads
          (s.holds.filter (fun h => !(h.writes e.claim && decide (h.key = key)))) := by
        refine h.filter (fun x hx => ?_)
        simp only [Bool.not_eq_false', Bool.and_eq_true, Hold.writes, decide_eq_true_eq] at hx
        exact hx.1.1
      cases hw : s.lock.writeOf key with
      | some p => exact hfilter.endRead (key_ne_of_writeOf hs hw) e.claim
      | none =>
          cases hr : s.lock.readOf key with
          | none => exact hfilter.endRead (key_ne_of_readOf hr) e.claim
          | some p =>
              obtain ⟨rec, i⟩ := p
              obtain ⟨hi, rfl⟩ := Lock.getElem?_of_readOf hr
              obtain ⟨x, hx, hreply, hread⟩ := hc hw (by rw [hr]; rfl)
              refine hfilter.takeRead hi (hs.held.count _ (List.mem_of_getElem? hi))
                ⟨x, List.mem_filter.2 ⟨hx, ?_⟩, hreply, hread⟩
              simp only [Hold.reads, decide_eq_true_eq] at hread
              simp [Hold.writes, hread.1]
  | cancel reply key mode =>
      rw [hmsg] at hc
      simp only [Lock.take, Lock.cancel]
      cases hp : s.lock.pending.findIdx? (fun req => decide (req.reply = reply)) with
      | some i =>
          have hany : s.lock.pending.any (fun req => decide (req.reply = reply)) = true := by
            obtain ⟨hlt, hat, -⟩ := List.findIdx?_eq_some_iff_getElem.1 hp
            exact List.any_eq_true.2 ⟨_, List.getElem_mem hlt, hat⟩
          rw [if_pos hany]
          exact h
      | none =>
          have hany : s.lock.pending.any (fun req => decide (req.reply = reply)) = false := by
            rw [List.any_eq_false]
            exact fun x hx => by simpa using List.findIdx?_eq_none_iff.1 hp x hx
          rw [if_neg (by rw [hany]; simp)]
          cases mode with
          | write =>
              have hfilter : ReadsOwned s.lock.reads
                  (s.holds.filter (fun h => !h.writes reply)) := by
                refine h.filter (fun x hx => ?_)
                simp only [Bool.not_eq_false', Hold.writes, decide_eq_true_eq] at hx
                exact hx.1
              simp only
              split <;> exact hfilter
          | read =>
              simp only at hc ⊢
              cases hr : s.lock.readOf key with
              | none => exact h.endRead (key_ne_of_readOf hr) reply
              | some p =>
                  obtain ⟨rec, i⟩ := p
                  obtain ⟨hi, rfl⟩ := Lock.getElem?_of_readOf hr
                  exact h.takeRead hi (hs.held.count _ (List.mem_of_getElem? hi))
                    (hc hany (by rw [hr]; rfl))
  | timer => exact readsOwned_timer hs h rfl

/-- What is kept of the reads by every message, where whoever takes one off holds one. -/
structure ReadsSound (s : Holding) : Prop where
  sound : s.lock.Sound
  reads : ReadsOwned s.lock.reads s.holds
  past : s.Past

theorem ReadsSound.step (h : s.ReadsSound) (hc : s.ReadOwned e) :
    (s.step lease grace e).ReadsSound := by
  have htake := readsOwned_take lease grace (s.now + e.later) h.sound h.reads hc
  have hsound := h.sound.take lease grace e.nodes (s.now + e.later) e.msg
  have hpast : ∀ x ∈ s.ended lease grace (s.lock.take lease grace e.nodes (s.now + e.later) e.msg)
      (s.now + e.later) e, x.time ≤ s.now + e.later :=
    fun x hx => (h.past x (mem_ended hx)).trans (Nat.le_add_right _ _)
  set left := s.ended lease grace (s.lock.take lease grace e.nodes (s.now + e.later) e.msg)
    (s.now + e.later) e with hleft
  have hall := s.lock.handle_inv lease grace e.nodes (s.now + e.later) e.msg
    (I := fun writes reads granted => HeldSound writes reads ∧
      ReadsOwned reads (left ++ granted.map LockReq.hold) ∧
      ∀ x ∈ left ++ granted.map LockReq.hold, x.time ≤ s.now + e.later)
    (fun pass req hp hpath hw hr => by
      refine ⟨hp.1.grant hpath hw hr, hp.2.1.grant hp.1.keys hp.2.2, ?_⟩
      have hgranted : (pass.grant (s.now + e.later) req).granted
          = pass.granted ++ [{ req with time := s.now + e.later }] := by
        unfold Pass.grant
        cases req.mode <;> rfl
      intro x hx
      rw [hgranted, List.map_append, ← List.append_assoc] at hx
      rcases List.mem_append.1 hx with hx | hx
      · exact hp.2.2 x hx
      · rw [List.mem_singleton.1 hx]
        exact le_rfl)
    hsound.pending ⟨hsound.held, by simpa using htake, by simpa using hpast⟩
  exact ⟨h.sound.handle e.msg, hall.2.1, hall.2.2⟩

theorem readsSound_start : start.ReadsSound :=
  ⟨⟨heldSound_nil, fun _ h => absurd h List.not_mem_nil⟩, ⟨fun _ => rfl, by simp [start]⟩,
    by simp [Past, start]⟩

/-- **The locks exclude, and the counts are right**: in every run the locks that are held are not
    in each other's way, and where whoever takes a read off holds one, the count of every read
    record is that of the reads of its key that are held. -/
theorem counted_of_owned {es : List LockEvent}
    (hc : Run.Each (step lease grace) ReadOwned start es) :
    (Run.run (step lease grace) start es).Excludes ∧
      (Run.run (step lease grace) start es).Counted := by
  have h := Run.inv_of_each (I := ReadsSound) (fun _ _ h hc => h.step hc) readsSound_start hc
  refine ⟨excludes_of_sound h.sound, fun r hr => ?_⟩
  rw [← readCount_of_mem h.sound.held.keys hr, h.reads.count]

/-! ## A read that is released late

`A` reads `k` and its lease expires. `B` and `C` read `k`, and then the release of `A` comes. -/

/-- A message from a node, with the three nodes there. -/
def said (msg : LockMsg) (claim : NetId) (later : ℕ) : LockEvent := ⟨msg, claim, [1, 2, 3], later⟩

/-- `A`'s claim of a lock of `k`, its lease expired, two more claims, and `A`'s release. -/
def lateRelease (mode : LockMode) : List LockEvent :=
  [said (.claim ⟨10, 1⟩ (asc "k") mode 10000000) ⟨10, 1⟩ 0, said .timer ⟨0, 0⟩ 61000000,
    said (.claim ⟨20, 2⟩ (asc "k") mode 10000000) ⟨20, 2⟩ 0,
    said (.claim ⟨30, 3⟩ (asc "k") mode 10000000) ⟨30, 3⟩ 0,
    said (.release ⟨11, 1⟩ (asc "k")) ⟨10, 1⟩ 0]

/-- **It is taken off the reads of the others**: one is on record, and two are held. -/
theorem count_fails : ¬ ∀ es : List LockEvent,
    (Run.run (step 60000000 5000000) start es).Excludes ∧
      (Run.run (step 60000000 5000000) start es).Counted := by
  intro h
  have hcount := (h (lateRelease .read)).2
  unfold Counted at hcount
  revert hcount
  decide +kernel

/-- `A` and `B` read `k`, and `A` releases it. -/
def ownRelease : List LockEvent :=
  [said (.claim ⟨10, 1⟩ (asc "k") .read 10000000) ⟨10, 1⟩ 0,
    said (.claim ⟨20, 2⟩ (asc "k") .read 10000000) ⟨20, 2⟩ 0,
    said (.release ⟨11, 1⟩ (asc "k")) ⟨10, 1⟩ 0]

theorem counted_ownRelease : (Run.run (step 60000000 5000000) start ownRelease).Excludes ∧
    (Run.run (step 60000000 5000000) start ownRelease).Counted :=
  counted_of_owned ⟨trivial, trivial, fun _ _ => ⟨⟨⟨10, 1⟩, asc "k", .read, 1, 0⟩,
    by decide +kernel, rfl, rfl⟩, trivial⟩

/-! ## What a message leaves of the writes -/

/-- One write of a key is held at most. -/
theorem eq_of_key (h : s.lock.Sound) {w w' : LockReq} (hw : w ∈ s.lock.writes)
    (hw' : w' ∈ s.lock.writes) (hkey : w.key = w'.key) : w = w' := by
  by_contra hne
  have : Std.Symm (fun a b : LockReq => overlap a.path b.path = false) :=
    ⟨fun a b hab => by rwa [overlap_comm]⟩
  have hno := h.held.apart.forall hw hw' hne
  rw [h.held.writePath w hw, h.held.writePath w' hw', hkey, overlap_self] at hno
  exact absurd hno (by simp)

/-- What the timer leaves: the hold of every write it takes off is over. -/
theorem writesOwned_timer (hs : s.lock.Sound) (h : WritesOwned s.lock.writes s.holds) {now : ℕ}
    {nodes : List ℕ} {took : Lock}
    (htook : took.writes = (purgeWrites lease grace nodes (mergeNodes s.lock.known nodes) now
      s.lock.writes.length 0 s.lock.writes s.lock.gone).1) :
    WritesOwned took.writes
      (s.holds.filter (fun h => took.onRecord h || !s.isOver lease grace nodes now h)) := by
  have hgone : GoneFrom nodes now s.lock.gone s.lock.gone := fun _ _ => Or.inl rfl
  obtain ⟨hsub, hleft⟩ : took.writes.Subperm s.lock.writes ∧
      ∀ w ∈ s.lock.writes, w ∈ took.writes ∨
        NodeLost grace nodes (mergeNodes s.lock.known nodes) s.lock.gone now w.node ∨
          lease < now - w.time := by
    rw [htook]
    exact purgeWrites_spec _ 0 s.lock.writes hgone
  intro x hx hmode
  obtain ⟨hx, hstays⟩ := List.mem_filter.1 hx
  obtain ⟨w, hw, hreply, hkey, hnode, htime⟩ := h x hx hmode
  rcases hleft w hw with hw' | hgone
  · exact ⟨w, hw', hreply, hkey, hnode, htime⟩
  · -- the write may go, so its hold is over, and is only held if the write has not gone
    have hover : s.isOver lease grace nodes now x = true := by
      simp only [isOver, decide_eq_true_eq]
      rcases hgone with hlost | hexp
      · exact Or.inr (hnode ▸ hlost)
      · exact Or.inl (by omega)
    rw [hover, Bool.not_true, Bool.or_false] at hstays
    unfold Lock.onRecord at hstays
    rw [hmode] at hstays
    simp only [List.any_eq_true, decide_eq_true_eq] at hstays
    obtain ⟨w', hw', -, hkey'⟩ := hstays
    obtain rfl := eq_of_key hs hw (hsub.subset hw') (hkey.trans hkey'.symm)
    exact ⟨w, hw', hreply, hkey, hnode, htime⟩

/-- What a message leaves of the writes, where whoever releases one holds it. -/
theorem writesOwned_take (lease grace now : ℕ) (hs : s.lock.Sound)
    (h : WritesOwned s.lock.writes s.holds) (hc : s.Owned e) :
    WritesOwned (s.lock.take lease grace e.nodes now e.msg).writes
      (s.ended lease grace (s.lock.take lease grace e.nodes now e.msg) now e) := by
  have hsub : ∀ x ∈ s.ended lease grace (s.lock.take lease grace e.nodes now e.msg) now e,
      x ∈ s.holds := fun x hx => mem_ended hx
  have hleft := h.mono hsub
  unfold ended at hleft ⊢
  cases hmsg : e.msg with
  | claim reply key mode timeout => exact h
  | history reply => exact h
  | release reply key =>
      rw [hmsg] at hleft
      simp only [Lock.take, Lock.release] at hleft ⊢
      cases hw : s.lock.writeOf key with
      | some p =>
          obtain ⟨w, i⟩ := p
          have hown := hc.2 reply key w i hmsg hw
          obtain ⟨hi, hkey⟩ := Lock.getElem?_of_writeOf hw
          refine hleft.dropAt hi (fun x hx hmode hboth => ?_)
          -- the hold of that write is what the release ends
          have hx' := List.mem_filter.1 (mem_of_mem_endRead hx)
          have : x.writes e.claim = true := by
            simp [Hold.writes, hmode, ← hboth.1, hown]
          simp [this, ← hboth.2, hkey] at hx'
      | none =>
          cases hr : s.lock.readOf key with
          | none => exact hleft
          | some p => exact hleft
  | cancel reply key mode =>
      rw [hmsg] at hleft
      simp only [Lock.take, Lock.cancel] at hleft ⊢
      cases hp : s.lock.pending.findIdx? (fun req => decide (req.reply = reply)) with
      | some i => exact hleft
      | none =>
          have hany : s.lock.pending.any (fun req => decide (req.reply = reply)) = false := by
            rw [List.any_eq_false]
            exact fun x hx => by simpa using List.findIdx?_eq_none_iff.1 hp x hx
          rw [if_neg (by rw [hany]; simp)] at hleft ⊢
          cases mode with
          | write =>
              simp only at hleft ⊢
              cases hw : s.lock.writes.findIdx? (fun rec => decide (rec.reply = reply)) with
              | none => exact hleft
              | some i =>
                  obtain ⟨hlt, hat, -⟩ := List.findIdx?_eq_some_iff_getElem.1 hw
                  refine hleft.dropAt (List.getElem?_eq_getElem hlt) (fun x hx hmode hboth => ?_)
                  have hx' := (List.mem_filter.1 hx).2
                  have hreply : x.reply = reply := by
                    rw [← hboth.1]
                    simpa using hat
                  simp [Hold.writes, hmode, hreply] at hx'
          | read =>
              simp only at hleft ⊢
              cases hr : s.lock.readOf key with
              | none => exact hleft
              | some p => exact hleft
  | timer => exact writesOwned_timer hs h rfl

/-- What is kept of the reads and of the writes, where whoever takes a lock off holds it. -/
structure HoldsSound (s : Holding) : Prop extends ReadsSound s where
  writes : WritesOwned s.lock.writes s.holds

theorem HoldsSound.step (h : s.HoldsSound) (hc : s.Owned e) :
    (s.step lease grace e).HoldsSound := by
  refine ⟨h.toReadsSound.step hc.1, ?_⟩
  have hsound := h.sound.take lease grace e.nodes (s.now + e.later) e.msg
  have htake := writesOwned_take lease grace (s.now + e.later) h.sound h.writes hc
  exact s.lock.handle_inv lease grace e.nodes (s.now + e.later) e.msg
    (I := fun writes _ granted => WritesOwned writes (s.ended lease grace
      (s.lock.take lease grace e.nodes (s.now + e.later) e.msg) (s.now + e.later) e
        ++ granted.map LockReq.hold))
    (fun _ _ hp _ _ _ => hp.grant) hsound.pending (by simpa using htake)

/-- **A hold is ended by nobody else**: in every run where whoever takes a lock off holds it, every
    hold that was not released or cancelled by its holder, nor taken off by the timer when its own
    lease had expired or its node was lost, has its lock. -/
theorem backed_of_owned {es : List LockEvent}
    (hc : Run.Each (step lease grace) Owned start es) :
    (Run.run (step lease grace) start es).Backed := by
  have hstart : start.HoldsSound := ⟨readsSound_start, by simp [WritesOwned, start]⟩
  have h := Run.inv_of_each (I := HoldsSound) (fun _ _ h hc => h.step hc) hstart hc
  refine ⟨fun x hx hmode => ?_, fun key => (h.reads.count key).ge⟩
  obtain ⟨w, hw, hreply, hkey, -⟩ := h.writes x hx hmode
  exact ⟨w, hw, hreply, hkey⟩

/-- **A late release of a write takes the lock of another**: `A`'s, once `B` has been granted `k`. -/
theorem ownership_fails : ¬ ∀ es : List LockEvent,
    (Run.run (step 60000000 5000000) start es).Backed := by
  intro h
  obtain ⟨hwrites, -⟩ := h ((lateRelease .write).eraseIdx 3)
  revert hwrites
  decide +kernel

/-- `A` writes `k` and releases it, and then `B` writes it. -/
def ownWrites : List LockEvent :=
  [said (.claim ⟨10, 1⟩ (asc "k") .write 10000000) ⟨10, 1⟩ 0,
    said (.release ⟨11, 1⟩ (asc "k")) ⟨10, 1⟩ 0,
    said (.claim ⟨20, 2⟩ (asc "k") .write 10000000) ⟨20, 2⟩ 0]

theorem backed_ownWrites : (Run.run (step 60000000 5000000) start ownWrites).Backed := by
  have hclaim : ∀ (s : Holding) reply key mode timeout claim later,
      s.Owned (said (.claim reply key mode timeout) claim later) :=
    fun s reply key mode timeout claim later =>
      ⟨trivial, fun _ _ _ _ h => absurd h (by simp [said])⟩
  refine backed_of_owned ⟨hclaim _ _ _ _ _ _ _, ⟨fun h => absurd h (by decide +kernel), ?_⟩,
    hclaim _ _ _ _ _ _ _, trivial⟩
  intro reply key w i hmsg hw
  obtain ⟨-, rfl⟩ := LockMsg.release.inj hmsg
  have hfound : (step 60000000 5000000 start (said (.claim ⟨10, 1⟩ (asc "k") .write 10000000)
      ⟨10, 1⟩ 0)).lock.writeOf (asc "k")
      = some (⟨asc "k", [asc "k"], .write, ⟨10, 1⟩, 1, 0, 10000000⟩, 0) := by decide +kernel
  obtain ⟨rfl, -⟩ := Prod.mk.inj (Option.some.inj (hw.symm.trans hfound))
  rfl

end Holding

end ChrysaLisp
