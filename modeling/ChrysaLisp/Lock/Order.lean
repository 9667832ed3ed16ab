import ChrysaLisp.Lock.Service

set_option autoImplicit false

/-! # No claim passes another that it is in the way of

What becomes of each claim that waits, as the list is gone through: it is dropped, it waits on, or
it is granted. A claim that is granted is in the way of none before it that waits on
(`mergeLocks_in_order`). What waits keeps its order and what comes joins the end, so for as long as
a claim waits nothing that is in its way is granted from behind it, whatever the service is sent
(`Lock.behind_apart`). -/

namespace ChrysaLisp

/-! ## What becomes of a claim -/

/-- What becomes of a claim as the list is gone through. -/
inductive Fate where
  | dropped
  | waits
  | granted
  deriving DecidableEq

section Merge

variable (grace : ℕ) (nodes known : List ℕ) (now : ℕ)

/-- What becomes of a claim, where the pass has come to. -/
def Pass.fate (pass : Pass) (req : LockReq) : Fate :=
  if (nodeDied grace req.node nodes known pass.gone now).1 ∨ 2 * req.timeout < now - req.time then .dropped
  else if conflict? req.path (pass.writes.map LockReq.path) ||
      (decide (req.mode = .write) && conflict? req.path (pass.reads.map LockRead.path)) ||
      conflict? req.path (pass.blocked.map LockReq.path) then .waits
  else .granted

/-- What becomes of each of them. -/
def fates : Pass → List LockReq → List Fate
  | _, [] => []
  | pass, req :: reqs => pass.fate grace nodes known now req ::
    fates (mergeReq grace nodes known now pass req) reqs

/-- The claims of a fate. -/
def ofFate (fate : Fate) (reqs : List LockReq) (fs : List Fate) : List LockReq :=
  ((reqs.zip fs).filter fun p => decide (p.2 = fate)).map Prod.fst

variable {grace : ℕ} {nodes known : List ℕ} {now : ℕ} {pass : Pass} {req : LockReq}

/-- A claim that is dropped leaves what is in the way as it is, one that waits is added to it, and one that is
    granted is in the way of nothing that waits. -/
theorem mergeReq_dropped (h : pass.fate grace nodes known now req = .dropped) :
    (mergeReq grace nodes known now pass req).blocked = pass.blocked ∧
      (mergeReq grace nodes known now pass req).waits = pass.waits ∧
      (mergeReq grace nodes known now pass req).granted = pass.granted := by
  unfold Pass.fate at h
  split_ifs at h with hdrop
  simp only [mergeReq, if_pos hdrop, and_self]

theorem mergeReq_waits (h : pass.fate grace nodes known now req = .waits) :
    (mergeReq grace nodes known now pass req).blocked = pass.blocked ++ [req] ∧
      (mergeReq grace nodes known now pass req).waits = pass.waits ++ [req] ∧
      (mergeReq grace nodes known now pass req).granted = pass.granted := by
  unfold Pass.fate at h
  split_ifs at h with hdrop hway
  simp only [mergeReq, if_neg hdrop, if_pos hway, Pass.wait, and_self]

theorem mergeReq_granted (h : pass.fate grace nodes known now req = .granted) :
    (mergeReq grace nodes known now pass req).blocked = pass.blocked ∧
      (mergeReq grace nodes known now pass req).waits = pass.waits ∧
      (mergeReq grace nodes known now pass req).granted = pass.granted ++ [{ req with time := now }] ∧
      ∀ p ∈ pass.blocked, overlap req.path p.path = false := by
  unfold Pass.fate at h
  split_ifs at h with hdrop hway
  have hclear : conflict? req.path (pass.blocked.map LockReq.path) = false := by
    rw [Bool.not_eq_true, Bool.or_eq_false_iff] at hway
    exact hway.2
  rw [conflict?_eq_false] at hclear
  refine ⟨?_, ?_, ?_, fun p hp => hclear p.path (List.mem_map_of_mem hp)⟩
  all_goals
    simp only [mergeReq, if_neg hdrop, if_neg hway, Pass.grant]
    cases req.mode <;> rfl

theorem length_fates (pass : Pass) (reqs : List LockReq) :
    (fates grace nodes known now pass reqs).length = reqs.length := by
  induction reqs generalizing pass with
  | nil => rfl
  | cons req reqs ih => rw [fates, List.length_cons, ih, List.length_cons]

/-- What is left of the pass is those that wait, and what was granted is those that were granted. -/
theorem foldl_mergeReq (pass : Pass) (reqs : List LockReq) :
    (reqs.foldl (mergeReq grace nodes known now) pass).waits
        = pass.waits ++ ofFate .waits reqs (fates grace nodes known now pass reqs) ∧
      (reqs.foldl (mergeReq grace nodes known now) pass).granted
        = pass.granted ++ (ofFate .granted reqs (fates grace nodes known now pass reqs)).map
            fun req => { req with time := now } := by
  induction reqs generalizing pass with
  | nil => simp [ofFate]
  | cons req reqs ih =>
      obtain ⟨hwaits, hgranted⟩ := ih (mergeReq grace nodes known now pass req)
      rw [List.foldl_cons, hwaits, hgranted, fates]
      cases hfate : pass.fate grace nodes known now req with
      | dropped =>
          obtain ⟨-, hw, hg⟩ := mergeReq_dropped hfate
          simp [ofFate, hw, hg]
      | waits =>
          obtain ⟨-, hw, hg⟩ := mergeReq_waits hfate
          simp [ofFate, hw, hg]
      | granted =>
          obtain ⟨-, hw, hg, -⟩ := mergeReq_granted hfate
          simp [ofFate, hw, hg]

/-- What is granted is in the way of nothing that waited before the pass came to it. -/
theorem fates_clear {reqs : List LockReq} {j : ℕ} {later : LockReq} (hlater : reqs[j]? = some later)
    (hfate : (fates grace nodes known now pass reqs)[j]? = some .granted) :
    ∀ p ∈ pass.blocked, overlap later.path p.path = false := by
  induction reqs generalizing pass j with
  | nil => exact absurd hlater (by simp)
  | cons req reqs ih =>
      rw [fates] at hfate
      cases j with
      | zero =>
          obtain rfl := Option.some.inj hlater
          exact (mergeReq_granted (Option.some.inj hfate)).2.2.2
      | succ j =>
          intro p hp
          refine ih hlater hfate p ?_
          cases hthis : pass.fate grace nodes known now req with
          | dropped => rwa [(mergeReq_dropped hthis).1]
          | waits =>
              rw [(mergeReq_waits hthis).1]
              exact List.mem_append_left _ hp
          | granted => rwa [(mergeReq_granted hthis).1]

/-- Of two claims the earlier waits on and the later is granted only where neither is in the other's way. -/
theorem fates_in_order {reqs : List LockReq} {i j : ℕ} (hij : i < j) {earlier later : LockReq}
    (hearlier : reqs[i]? = some earlier) (hlater : reqs[j]? = some later)
    (hwaits : (fates grace nodes known now pass reqs)[i]? = some .waits)
    (hgranted : (fates grace nodes known now pass reqs)[j]? = some .granted) :
    overlap earlier.path later.path = false := by
  induction reqs generalizing pass i j with
  | nil => exact absurd hlater (by simp)
  | cons req reqs ih =>
      obtain ⟨k, rfl⟩ : ∃ k, j = k + 1 := ⟨j - 1, by omega⟩
      rw [fates] at hwaits hgranted
      cases i with
      | zero =>
          obtain rfl := Option.some.inj hearlier
          rw [List.getElem?_cons_succ] at hlater hgranted
          rw [overlap_comm]
          refine fates_clear hlater hgranted req ?_
          rw [(mergeReq_waits (Option.some.inj hwaits)).1]
          exact List.mem_append_right _ List.mem_cons_self
      | succ i => exact ih (Nat.lt_of_succ_lt_succ hij) hearlier hlater hwaits hgranted

end Merge

/-! ## A pass -/

namespace Lock

variable (grace : ℕ) (nodes : List ℕ) (now : ℕ)

/-- What becomes of each claim that waits. -/
def passFates (lock : Lock) : List Fate :=
  fates grace nodes lock.known now ⟨lock.writes, lock.reads, lock.history, lock.gone, [], [], []⟩ lock.pending

end Lock

/-! ## A claim that goes on waiting -/

/-- A message, with the nodes that are routed to and the time it comes at. -/
structure LockMoment where
  nodes : List ℕ
  now : ℕ
  msg : LockMsg

namespace Lock

/-- Where a claim that waits is once a message is taken: a cancel may take it off, or one before it. -/
def takePlace (lock : Lock) (k : ℕ) : LockMsg → Option ℕ
  | .cancel reply _ _ =>
      match lock.pending.findIdx? (fun req => decide (req.reply = reply)) with
      | some i => if i = k then none else some (if i < k then k - 1 else k)
      | none => some k
  | _ => some k

section Pass

variable (grace : ℕ) (nodes : List ℕ) (now : ℕ)

/-- Where it is after a pass, if it waits still. -/
def passPlace (lock : Lock) (k : ℕ) : Option ℕ :=
  if (lock.passFates grace nodes now)[k]? = some .waits then
    some ((lock.passFates grace nodes now).take k |>.count .waits)
  else none

/-- What a pass grants from behind it. -/
def passBehind (lock : Lock) (k : ℕ) : List LockReq :=
  ofFate .granted (lock.pending.drop (k + 1)) ((lock.passFates grace nodes now).drop (k + 1))

end Pass

variable (lease grace : ℕ)

/-- The service, as it is when it goes through the claims that wait. -/
def ready (lock : Lock) (m : LockMoment) : Lock :=
  match m.msg with
  | .timer => lock.take lease grace m.nodes m.now m.msg
  | _ => { lock.take lease grace m.nodes m.now m.msg with
      known := mergeNodes (lock.take lease grace m.nodes m.now m.msg).known m.nodes }

/-- The service after a message. -/
def next (lock : Lock) (m : LockMoment) : Lock := (lock.handle lease grace m.nodes m.now m.msg).1

/-- A message, with a claim that waits at a place: where it is then, if it waits still, and what was
    granted from behind it. -/
def nextPlace (lock : Lock) (k : ℕ) (m : LockMoment) : Option (ℕ × List LockReq) :=
  match m.msg with
  | .history _ => some (k, [])
  | _ =>
      (lock.takePlace k m.msg).bind fun k =>
        ((lock.ready lease grace m).passPlace grace m.nodes m.now k).map fun k' =>
          (k', (lock.ready lease grace m).passBehind grace m.nodes m.now k)

/-- A claim that waits through all of the messages: where it is then, and what was granted from behind it. -/
def follow : Lock → ℕ → List LockMoment → Option (ℕ × List LockReq)
  | _, k, [] => some (k, [])
  | lock, k, m :: ms =>
      (lock.nextPlace lease grace k m).bind fun p =>
        (follow (lock.next lease grace m) p.1 ms).map fun q => (q.1, p.2 ++ q.2)

variable {lease grace : ℕ} {lock : Lock} {k k' : ℕ} {w : LockReq}

theorem pending_takeRead (i : ℕ) (rec : LockRead) : (lock.takeRead i rec).pending = lock.pending := rfl

theorem pending_takeWrite (i : ℕ) (key : Str) : (lock.takeWrite i key).pending = lock.pending := rfl

theorem pending_release (key : Str) : (lock.release key).pending = lock.pending := by
  unfold release
  split
  · exact pending_takeWrite ..
  · split
    · exact pending_takeRead ..
    · rfl

/-- A cancel takes off the claim of its mailbox, or else nothing that waits. -/
theorem pending_cancel (reply : NetId) (key : Str) (mode : LockMode) :
    (lock.cancel reply key mode).pending =
      match lock.pending.findIdx? (fun req => decide (req.reply = reply)) with
      | some i => lock.pending.eraseIdx i
      | none => lock.pending := by
  unfold cancel
  cases hfind : lock.pending.findIdx? (fun req => decide (req.reply = reply)) with
  | some i => rfl
  | none =>
      cases mode with
      | write =>
          simp only
          split <;> rfl
      | read =>
          simp only
          split <;> rfl

theorem takePlace_spec {nodes : List ℕ} {now : ℕ} {msg : LockMsg} (hw : lock.pending[k]? = some w)
    (hk : lock.takePlace k msg = some k') : (lock.take lease grace nodes now msg).pending[k']? = some w := by
  cases msg with
  | claim reply key mode timeout =>
      obtain rfl := Option.some.inj hk
      rw [take, List.getElem?_append_left (List.getElem?_eq_some_iff.mp hw).1]
      exact hw
  | release reply key =>
      obtain rfl := Option.some.inj hk
      rwa [take, pending_release]
  | cancel reply key mode =>
      rw [take, pending_cancel]
      rw [takePlace] at hk
      cases hfind : lock.pending.findIdx? (fun req => decide (req.reply = reply)) with
      | none =>
          rw [hfind] at hk
          obtain rfl := Option.some.inj hk
          exact hw
      | some i =>
          rw [hfind] at hk
          simp only at hk ⊢
          split_ifs at hk with hself hbefore
          · obtain rfl := Option.some.inj hk
            rw [List.getElem?_eraseIdx_of_ge (by omega), Nat.sub_add_cancel (by omega)]
            exact hw
          · obtain rfl := Option.some.inj hk
            rw [List.getElem?_eraseIdx_of_lt (by omega)]
            exact hw
  | history reply =>
      obtain rfl := Option.some.inj hk
      exact hw
  | timer =>
      obtain rfl := Option.some.inj hk
      exact hw

theorem pending_ready (m : LockMoment) :
    (lock.ready lease grace m).pending = (lock.take lease grace m.nodes m.now m.msg).pending := by
  unfold ready
  split <;> rfl

/-- All but the asking for the history is followed by a pass. -/
theorem next_eq {m : LockMoment} (hm : ∀ reply, m.msg ≠ .history reply) :
    lock.next lease grace m = ((lock.ready lease grace m).mergeLocks grace m.nodes m.now).1 := by
  unfold next handle ready
  cases hmsg : m.msg with
  | history reply => exact absurd hmsg (hm reply)
  | timer => rfl
  | _ => rfl

end Lock

theorem getElem?_ofFate {fate : Fate} {reqs : List LockReq} {fs : List Fate} {k : ℕ} {w : LockReq}
    (hlen : fs.length = reqs.length) (hw : reqs[k]? = some w) (hfate : fs[k]? = some fate) :
    (ofFate fate reqs fs)[(fs.take k).count fate]? = some w := by
  induction reqs generalizing fs k with
  | nil => exact absurd hw (by simp)
  | cons req reqs ih =>
      cases fs with
      | nil => exact absurd hfate (by simp)
      | cons f fs =>
          cases k with
          | zero =>
              obtain rfl := Option.some.inj hw
              obtain rfl := Option.some.inj hfate
              simp [ofFate]
          | succ k =>
              have hnext := ih (Nat.succ.inj hlen) hw hfate
              by_cases hf : f = fate
              · subst hf
                simpa [ofFate] using hnext
              · simpa [ofFate, hf] using hnext

theorem mem_ofFate {fate : Fate} {reqs : List LockReq} {fs : List Fate} {r : LockReq}
    (h : r ∈ ofFate fate reqs fs) :
    ∃ j : ℕ, reqs[j]? = some r ∧ fs[j]? = some fate := by
  obtain ⟨⟨r', f⟩, hmem, rfl⟩ := List.mem_map.mp h
  obtain ⟨hzip, hf⟩ := List.mem_filter.mp hmem
  obtain ⟨j, hj⟩ := List.mem_iff_getElem?.mp hzip
  obtain ⟨hreq, hfate⟩ := List.getElem?_zip_eq_some.mp hj
  exact ⟨j, hreq, hfate.trans (congrArg some (of_decide_eq_true hf))⟩

/-- What waits after a pass is the claims that were to wait, and what it grants those that were to
    be granted, and none of these is in the way of an earlier one of those. -/
theorem mergeLocks_in_order (grace : ℕ) (nodes : List ℕ) (now : ℕ) (lock : Lock) :
    (lock.mergeLocks grace nodes now).1.pending
        = ofFate .waits lock.pending (lock.passFates grace nodes now) ∧
      (lock.mergeLocks grace nodes now).2
        = (ofFate .granted lock.pending (lock.passFates grace nodes now)).map
          (fun req => { req with time := now }) ∧
      ∀ (i j : ℕ) (earlier later : LockReq), i < j → lock.pending[i]? = some earlier →
        lock.pending[j]? = some later →
        (lock.passFates grace nodes now)[i]? = some .waits →
          (lock.passFates grace nodes now)[j]? = some .granted →
        overlap earlier.path later.path = false := by
  obtain ⟨hwaits, hgranted⟩ := @foldl_mergeReq grace nodes lock.known now
    ⟨lock.writes, lock.reads, lock.history, lock.gone, [], [], []⟩ lock.pending
  refine ⟨hwaits, hgranted, fun i j earlier later hij hi hj hw hg => ?_⟩
  exact fates_in_order hij hi hj hw hg

namespace Lock

variable {lease grace : ℕ} {lock : Lock} {k k' : ℕ} {w : LockReq}

/-- A pass keeps a claim that waits on, and grants nothing in its way from behind it. -/
theorem passPlace_spec {nodes : List ℕ} {now : ℕ} (hw : lock.pending[k]? = some w)
    (hk : lock.passPlace grace nodes now k = some k') :
    (lock.mergeLocks grace nodes now).1.pending[k']? = some w ∧
      ∀ r ∈ lock.passBehind grace nodes now k, overlap w.path r.path = false := by
  obtain ⟨hpending, -, horder⟩ := mergeLocks_in_order grace nodes now lock
  unfold passPlace at hk
  split_ifs at hk with hfate
  obtain rfl := Option.some.inj hk
  constructor
  · rw [hpending]
    exact getElem?_ofFate (length_fates _ _) hw hfate
  · intro r hr
    obtain ⟨j, hreq, hj⟩ := mem_ofFate hr
    rw [List.getElem?_drop] at hreq hj
    exact horder k (k + 1 + j) w r (by omega) hw hreq hfate hj

theorem nextPlace_spec {m : LockMoment} {behind : List LockReq} (hw : lock.pending[k]? = some w)
    (hk : lock.nextPlace lease grace k m = some (k', behind)) :
    (lock.next lease grace m).pending[k']? = some w ∧ ∀ r ∈ behind, overlap w.path r.path = false := by
  by_cases hm : ∃ reply, m.msg = .history reply
  · obtain ⟨reply, hmsg⟩ := hm
    simp only [nextPlace, hmsg, Option.some.injEq, Prod.mk.injEq] at hk
    obtain ⟨rfl, rfl⟩ := hk
    refine ⟨?_, fun r hr => absurd hr List.not_mem_nil⟩
    have hnext : lock.next lease grace m = lock := by
      unfold next handle
      rw [hmsg]
      rfl
    rwa [hnext]
  · have hm' : ∀ reply, m.msg ≠ .history reply := fun reply h => hm ⟨reply, h⟩
    have hplace : (lock.takePlace k m.msg).bind (fun k =>
        ((lock.ready lease grace m).passPlace grace m.nodes m.now k).map fun k' =>
          (k', (lock.ready lease grace m).passBehind grace m.nodes m.now k)) = some (k', behind) := by
      rw [← hk, nextPlace]
      split
      · rename_i reply hmsg
        exact absurd hmsg (hm' reply)
      · rfl
    obtain ⟨taken, htaken, hpass⟩ := Option.bind_eq_some_iff.mp hplace
    obtain ⟨passed, hpassed, heq⟩ := Option.map_eq_some_iff.mp hpass
    obtain ⟨rfl, rfl⟩ := Prod.mk.inj heq
    rw [next_eq hm']
    refine passPlace_spec ?_ hpassed
    rw [pending_ready]
    exact takePlace_spec hw htaken

/-- For as long as a claim waits, nothing in its way is granted from behind it. -/
theorem behind_apart {ms : List LockMoment} {behind : List LockReq} (hw : lock.pending[k]? = some w)
    (hk : lock.follow lease grace k ms = some (k', behind)) :
    (ms.foldl (next lease grace) lock).pending[k']? = some w ∧ ∀ r ∈ behind,
      overlap w.path r.path = false := by
  induction ms generalizing lock k behind with
  | nil =>
      obtain ⟨rfl, rfl⟩ := Prod.mk.inj (Option.some.inj hk)
      exact ⟨hw, fun r hr => absurd hr List.not_mem_nil⟩
  | cons m ms ih =>
      obtain ⟨p, hp, hrest⟩ := Option.bind_eq_some_iff.mp hk
      obtain ⟨q, hq, heq⟩ := Option.map_eq_some_iff.mp hrest
      obtain ⟨rfl, rfl⟩ := Prod.mk.inj heq
      obtain ⟨hstill, hclear⟩ :=
        nextPlace_spec hw (show lock.nextPlace lease grace k m = some (p.1, p.2) from hp)
      obtain ⟨hend, hafter⟩ := ih hstill hq
      refine ⟨hend, fun r hr => ?_⟩
      rcases List.mem_append.mp hr with hr | hr
      · exact hclear r hr
      · exact hafter r hr

end Lock

/-- **No claim passes another that it is in the way of**: not in a pass, and not from behind it for
    as long as it waits. -/
theorem no_overtaking (lease grace : ℕ) (nodes : List ℕ) (now : ℕ) (lock : Lock) :
    ((lock.mergeLocks grace nodes now).1.pending
        = ofFate .waits lock.pending (lock.passFates grace nodes now) ∧
      (lock.mergeLocks grace nodes now).2
        = (ofFate .granted lock.pending (lock.passFates grace nodes now)).map
          (fun req => { req with time := now }) ∧
      ∀ (i j : ℕ) (earlier later : LockReq), i < j → lock.pending[i]? = some earlier →
        lock.pending[j]? = some later →
        (lock.passFates grace nodes now)[i]? = some .waits →
          (lock.passFates grace nodes now)[j]? = some .granted →
        overlap earlier.path later.path = false) ∧
    ∀ (k : ℕ) (w : LockReq) (ms : List LockMoment) (k' : ℕ) (behind : List LockReq),
      lock.pending[k]? = some w → lock.follow lease grace k ms = some (k', behind) →
      (ms.foldl (Lock.next lease grace) lock).pending[k']? = some w ∧ ∀ r ∈ behind,
        overlap w.path r.path = false :=
  ⟨mergeLocks_in_order grace nodes now lock, fun _ _ _ _ _ hw hk => Lock.behind_apart hw hk⟩

/-- A read that waits behind a write of what is above it. -/
def heldUp : Lock :=
  { writes := []
    reads := [⟨asc "a/b", [asc "a", asc "b"], 1, 0⟩]
    pending := [⟨asc "a", [asc "a"], .write, ⟨1, 1⟩, 1, 0, 9⟩,
      ⟨asc "a/b", [asc "a", asc "b"], .read, ⟨2, 1⟩, 1, 0, 9⟩]
    history := [], known := [], gone := [] }

theorem no_overtaking_heldUp : (heldUp.mergeLocks 5 [] 1).1.pending = heldUp.pending ∧
    overlap [asc "c"] [asc "a"] = false := by
  refine ⟨(no_overtaking 60 5 [] 1 heldUp).1.1.trans (by decide), ?_⟩
  have hbehind := (no_overtaking 60 5 [] 1 heldUp).2 0 _ [⟨[], 1, .claim ⟨3, 1⟩ (asc "c") .read 9⟩]
    0 _ rfl rfl
  decide

end ChrysaLisp
