import ChrysaLisp.Lisp.Str
import Mathlib.Data.List.Perm.Basic

set_option autoImplicit false

/-! # The Lock service

A lock is of a path, and covers what is above it and below it. The service keeps the writes that
are held, the reads that are held, those of one key as one record with a count, and the claims that
wait. A claim joins the end of what waits; a release, a cancel, or what the timer finds is dead or
too old, takes a lock off; and after each the claims that wait are gone through in order, and
granted where nothing held and nothing that waits before is in the way (`Lock.mergeLocks`).

What is known of who a lock is held by is the mailbox its claim is answered to, of a write. A read
is a number on a record, and a release says nothing but its key. -/

namespace ChrysaLisp

/-- A mailbox, on a node. -/
structure NetId where
  mbox : ℕ
  node : ℕ
  deriving DecidableEq

/-- `+lock_mode`. -/
inductive LockMode where
  | write
  | read
  deriving DecidableEq

/-- A claim, as it waits, and a write, as it is held. -/
structure LockReq where
  key : Str
  path : List Str
  mode : LockMode
  reply : NetId
  node : ℕ
  time : ℕ
  timeout : ℕ
  deriving DecidableEq

/-- The reads of one key: how many, and when the last of them was granted. -/
structure LockRead where
  key : Str
  path : List Str
  count : ℕ
  time : ℕ
  deriving DecidableEq

/-- What the service keeps, with the nodes it has ever been routed to and those that are missing
    from the routes, each since when. -/
structure Lock where
  writes : List LockReq
  reads : List LockRead
  pending : List LockReq
  history : List Str
  known : List ℕ
  gone : List (ℕ × ℕ)
  deriving DecidableEq

/-! ## Paths -/

/-- `(every (const eql) a b)` of two paths: they are the same as far as the shorter goes. -/
def overlap (a b : List Str) : Bool := (a.zip b).all (fun p => decide (p.1 = p.2))

/-- `(conflict? key_path locks)`. -/
def conflict? (path : List Str) (locks : List (List Str)) : Bool := locks.any (overlap path)

/-- Two paths are in each other's way if one is above the other, or it is the one path. -/
theorem overlap_iff {a b : List Str} : overlap a b = true ↔ a <+: b ∨ b <+: a := by
  induction a generalizing b with
  | nil => simp [overlap]
  | cons x a ih =>
      cases b with
      | nil => simp [overlap]
      | cons y b =>
          have h := ih (b := b)
          unfold overlap at h ⊢
          simp only [List.zip_cons_cons, List.all_cons, Bool.and_eq_true, decide_eq_true_eq, h,
            List.cons_prefix_cons]
          constructor
          · rintro ⟨rfl, h | h⟩
            · exact Or.inl ⟨rfl, h⟩
            · exact Or.inr ⟨rfl, h⟩
          · rintro (⟨rfl, h⟩ | ⟨rfl, h⟩)
            · exact ⟨rfl, Or.inl h⟩
            · exact ⟨rfl, Or.inr h⟩

theorem overlap_comm (a b : List Str) : overlap a b = overlap b a := by
  rw [Bool.eq_iff_iff, overlap_iff, overlap_iff, or_comm]

@[simp] theorem overlap_self (a : List Str) : overlap a a = true :=
  overlap_iff.2 (Or.inl (List.prefix_refl a))

theorem conflict?_eq_false {path : List Str} {locks : List (List Str)} :
    conflict? path locks = false ↔ ∀ p ∈ locks, overlap path p = false := by
  simp [conflict?, List.any_eq_false]

/-! ## Taking one off a list -/

/-- `(elem-set l i (last l)) (pop l)`. -/
def dropAt {α : Type} (l : List α) (i : ℕ) : List α :=
  match l.getLast? with
  | some x => (l.set i x).dropLast
  | none => l

/-- It is the list without that one, in some order. -/
theorem cons_dropAt_perm {α : Type} {l : List α} {i : ℕ} {x : α} (h : l[i]? = some x) :
    (x :: dropAt l i).Perm l := by
  obtain ⟨hi, hx⟩ := List.getElem?_eq_some_iff.1 h
  obtain ⟨init, y, rfl⟩ : ∃ init y, l = init ++ [y] :=
    ⟨_, _, (List.dropLast_append_getLast (List.ne_nil_of_length_pos (by omega))).symm⟩
  have hlast : (init ++ [y]).getLast? = some y := by simp
  simp only [List.length_append, List.length_singleton] at hi
  unfold dropAt
  rw [hlast]
  simp only
  rcases Nat.lt_or_ge i init.length with hlt | hge
  · rw [List.set_append_left i y hlt, List.dropLast_concat]
    rw [List.getElem_append_left hlt] at hx
    refine ((List.set_perm_cons_eraseIdx hlt y).cons x).trans ((List.Perm.swap y x _).trans ?_)
    rw [← hx]
    exact ((List.getElem_cons_eraseIdx_perm hlt).cons y).trans
      (List.perm_append_singleton y init).symm
  · obtain rfl : i = init.length := by omega
    rw [List.set_append_right _ _ le_rfl]
    simp only [Nat.sub_self, List.set_cons_zero, List.dropLast_concat]
    have hxy : x = y := by simpa using hx.symm
    rw [hxy]
    exact (List.perm_append_singleton y init).symm

/-! ## The nodes that have gone -/

/-- Since when a node has been missing from the routes, if it is. -/
def goneSince (gone : List (ℕ × ℕ)) (node : ℕ) : Option ℕ :=
  (gone.find? (fun rec => decide (rec.1 = node))).map Prod.snd

/-- `(merge known nodes)`: those that are in either, once each. -/
def mergeNodes (known nodes : List ℕ) : List ℕ :=
  nodes.foldl (fun known node => if node ∈ known then known else known ++ [node]) known

/-- `(node-died? node nodes known)`: has it, and who is missing from the routes now that it has
    been asked. -/
def nodeDied (grace node : ℕ) (nodes known : List ℕ) (gone : List (ℕ × ℕ)) (now : ℕ) :
    Bool × List (ℕ × ℕ) :=
  if node ∈ nodes then (false, gone.eraseP (fun rec => decide (rec.1 = node)))
  else if node ∉ known then (false, gone)
  else
    match goneSince gone node with
    | some since => (decide (grace < now - since), gone)
    | none => (false, gone ++ [(node, now)])

/-! ## What is too old -/

section Purge

variable (lease grace : ℕ) (nodes known : List ℕ) (now : ℕ)

/-- The writes of nodes that have died, or that are held too long, taken off. By what is still to
    be looked at, as the loop of the source goes. -/
def purgeWrites : ℕ → ℕ → List LockReq → List (ℕ × ℕ) → List LockReq × List (ℕ × ℕ)
  | 0, _, writes, gone => (writes, gone)
  | n + 1, i, writes, gone =>
      match writes[i]? with
      | none => (writes, gone)
      | some rec =>
          let died := nodeDied grace rec.node nodes known gone now
          if died.1 ∨ lease < now - rec.time then purgeWrites n i (dropAt writes i) died.2
          else purgeWrites n (i + 1) writes died.2

/-- The reads that are held too long, taken off. -/
def purgeReads : ℕ → ℕ → List LockRead → List LockRead
  | 0, _, reads => reads
  | n + 1, i, reads =>
      match reads[i]? with
      | none => reads
      | some rec =>
          if lease < now - rec.time then purgeReads n i (dropAt reads i)
          else purgeReads n (i + 1) reads

end Purge

/-! ## The history -/

/-- `+lock_max_history`. -/
def lockMaxHistory : ℕ := 128

/-- `(log-lock-history history action key mode)`. -/
def logLockHistory (history : List Str) (action key : Str) (mode : LockMode) : List Str :=
  let said := match mode with
    | .write => asc "write"
    | .read => asc "read"
  let history := history ++ [key ++ asc " (" ++ action ++ asc " " ++ said ++ asc ")"]
  if 2 * lockMaxHistory ≤ history.length then history.drop (history.length - lockMaxHistory)
  else history

/-! ## Going through the claims that wait -/

/-- One more read of a key: on its record, if there is one. -/
def addRead (key : Str) (path : List Str) (now : ℕ) : List LockRead → List LockRead
  | [] => [⟨key, path, 1, now⟩]
  | rec :: reads =>
      if rec.key = key then { rec with count := rec.count + 1, time := now } :: reads
      else rec :: addRead key path now reads

/-- Where `(merge-locks ..)` is: what it changes, those found in the way so far, those that wait on,
    and those that were granted, as they were then. -/
structure Pass where
  writes : List LockReq
  reads : List LockRead
  history : List Str
  gone : List (ℕ × ℕ)
  blocked : List LockReq
  waits : List LockReq
  granted : List LockReq

section Merge

variable (grace : ℕ) (nodes known : List ℕ) (now : ℕ)

/-- A claim that waits on, and is in the way of those after it. -/
def Pass.wait (pass : Pass) (req : LockReq) : Pass :=
  { pass with blocked := pass.blocked ++ [req], waits := pass.waits ++ [req] }

/-- A claim that is granted. -/
def Pass.grant (pass : Pass) (req : LockReq) : Pass :=
  let held := { req with time := now }
  let pass := { pass with
    history := logLockHistory pass.history (asc "lock") req.key req.mode
    granted := pass.granted ++ [held] }
  match req.mode with
  | .write => { pass with writes := pass.writes ++ [held] }
  | .read => { pass with reads := addRead req.key req.path now pass.reads }

/-- One claim of those that wait. -/
def mergeReq (pass : Pass) (req : LockReq) : Pass :=
  let died := nodeDied grace req.node nodes known pass.gone now
  let pass := { pass with gone := died.2 }
  if died.1 ∨ 2 * req.timeout < now - req.time then pass
  else
    let inWay := conflict? req.path (pass.writes.map LockReq.path) ||
      (decide (req.mode = .write) && conflict? req.path (pass.reads.map LockRead.path)) ||
      conflict? req.path (pass.blocked.map LockReq.path)
    if inWay then pass.wait req else pass.grant now req

/-- `(merge-locks writes reads pending nodes known now history)`: the service after it, and those
    that were granted. -/
def Lock.mergeLocks (lock : Lock) : Lock × List LockReq :=
  let pass := lock.pending.foldl (mergeReq grace nodes lock.known now)
    ⟨lock.writes, lock.reads, lock.history, lock.gone, [], [], []⟩
  ({ lock with
    writes := pass.writes, reads := pass.reads, history := pass.history, gone := pass.gone,
    pending := pass.waits }, pass.granted)

end Merge

/-! ## What the service is sent -/

/-- A message to the service, and the tick of its timer. -/
inductive LockMsg where
  | claim (reply : NetId) (key : Str) (mode : LockMode) (timeout : ℕ)
  | release (reply : NetId) (key : Str)
  | cancel (reply : NetId) (key : Str) (mode : LockMode)
  | history (reply : NetId)
  | timer
  deriving DecidableEq

namespace Lock

variable (lock : Lock)

/-- One less read on a record, and no record when there is none left. -/
def takeRead (i : ℕ) (rec : LockRead) : Lock :=
  { lock with
    reads := if rec.count - 1 ≤ 0 then dropAt lock.reads i
      else lock.reads.set i { rec with count := rec.count - 1 }
    history := logLockHistory lock.history (asc "unlock") rec.key .read }

/-- A write that is held no more. -/
def takeWrite (i : ℕ) (key : Str) : Lock :=
  { lock with
    writes := dropAt lock.writes i
    history := logLockHistory lock.history (asc "unlock") key .write }

/-- The first write of a key, and where it is. -/
def writeOf (key : Str) : Option (LockReq × ℕ) :=
  lock.writes.zipIdx.find? (fun p => decide (p.1.key = key))

/-- The first read record of a key, and where it is. -/
def readOf (key : Str) : Option (LockRead × ℕ) :=
  lock.reads.zipIdx.find? (fun p => decide (p.1.key = key))

/-- A release: the first write of the key is taken off, or else one read of it. -/
def release (key : Str) : Lock :=
  match lock.writeOf key with
  | some (_, i) => lock.takeWrite i key
  | none =>
      match lock.readOf key with
      | some (rec, i) => lock.takeRead i rec
      | none => lock

/-- A cancel: the claim is forgotten if it waits, and if not it was granted, and that is undone. -/
def cancel (reply : NetId) (key : Str) (mode : LockMode) : Lock :=
  match lock.pending.findIdx? (fun req => decide (req.reply = reply)) with
  | some i => { lock with pending := lock.pending.eraseIdx i }
  | none =>
      match mode with
      | .write =>
          match lock.writes.findIdx? (fun rec => decide (rec.reply = reply)) with
          | some i => lock.takeWrite i key
          | none => lock
      | .read =>
          match lock.readOf key with
          | some (rec, i) => lock.takeRead i rec
          | none => lock

/-- `(purge-expired writes reads nodes known now)`. -/
def purge (lease grace : ℕ) (nodes : List ℕ) (now : ℕ) : Lock :=
  let purged := purgeWrites lease grace nodes lock.known now lock.writes.length 0 lock.writes
    lock.gone
  { lock with
    writes := purged.1, gone := purged.2
    reads := purgeReads lease now lock.reads.length 0 lock.reads }

/-- What a message does before the claims that wait are gone through. -/
def take (lease grace : ℕ) (nodes : List ℕ) (now : ℕ) : LockMsg → Lock
  | .claim reply key mode timeout =>
      { lock with
        pending := lock.pending ++ [⟨key, split key 47, mode, reply, reply.node, now, timeout⟩] }
  | .release _ key => lock.release key
  | .cancel reply key mode => lock.cancel reply key mode
  | .history _ => lock
  | .timer => { lock with known := mergeNodes lock.known nodes }.purge lease grace nodes now

/-- What the service does with a message: itself after it, and the claims that were granted. -/
def handle (lease grace : ℕ) (nodes : List ℕ) (now : ℕ) (msg : LockMsg) : Lock × List LockReq :=
  let lock := lock.take lease grace nodes now msg
  match msg with
  | .history _ => (lock, [])
  | .timer => lock.mergeLocks grace nodes now
  | _ => { lock with known := mergeNodes lock.known nodes }.mergeLocks grace nodes now

end Lock

end ChrysaLisp
