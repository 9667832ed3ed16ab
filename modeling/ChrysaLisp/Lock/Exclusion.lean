import ChrysaLisp.Library.Run
import ChrysaLisp.Lock.Service

set_option autoImplicit false

/-! # The locks that are held are not in each other's way

A claim is granted only where no lock that is held is in its way, whatever waits, and everything
else the service does takes locks off or makes a record less. So in every state of every run no two
writes are in each other's way, and no write and read (`Lock.Sound.handle`). -/

namespace ChrysaLisp

/-! ## Locks that are held -/

/-- What is so of the locks that are held: none is in the way of a write but itself, the path of
    each is that of its key, and a key has one read record, of one read at least. -/
structure HeldSound (writes : List LockReq) (reads : List LockRead) : Prop where
  apart : writes.Pairwise (fun a b => overlap a.path b.path = false)
  noRead : ∀ w ∈ writes, ∀ r ∈ reads, overlap w.path r.path = false
  writePath : ∀ w ∈ writes, w.path = split w.key 47
  readPath : ∀ r ∈ reads, r.path = split r.key 47
  keys : (reads.map LockRead.key).Nodup
  count : ∀ r ∈ reads, 0 < r.count

theorem heldSound_nil : HeldSound [] [] :=
  ⟨List.Pairwise.nil, by simp, by simp, by simp, List.nodup_nil, by simp⟩

section Held

variable {writes writes' : List LockReq} {reads reads' : List LockRead}

/-- Some of the writes, in any order, are as sound as all of them. -/
theorem HeldSound.of_subperm_writes (h : HeldSound writes reads) (hsub : writes'.Subperm writes) :
    HeldSound writes' reads := by
  obtain ⟨l, hperm, hl⟩ := hsub
  have hmem : ∀ w ∈ writes', w ∈ writes := fun w hw => hl.subset (hperm.symm.mem_iff.1 hw)
  refine ⟨?_, fun w hw => h.noRead w (hmem w hw), fun w hw => h.writePath w (hmem w hw),
    h.readPath, h.keys, h.count⟩
  refine (hperm.pairwise_iff ?_).1 (h.apart.sublist hl)
  intro a b hab
  rwa [overlap_comm]

theorem HeldSound.of_subperm_reads (h : HeldSound writes reads) (hsub : reads'.Subperm reads) :
    HeldSound writes reads' := by
  have hmem : ∀ r ∈ reads', r ∈ reads := fun r hr => hsub.subset hr
  refine ⟨h.apart, fun w hw r hr => h.noRead w hw r (hmem r hr), h.writePath,
    fun r hr => h.readPath r (hmem r hr), ?_, fun r hr => h.count r (hmem r hr)⟩
  obtain ⟨l, hperm, hl⟩ := hsub
  exact (hperm.map _).nodup_iff.1 (h.keys.sublist (hl.map _))

theorem HeldSound.addWrite (h : HeldSound writes reads) {req : LockReq}
    (hpath : req.path = split req.key 47)
    (hwrites : conflict? req.path (writes.map LockReq.path) = false)
    (hreads : conflict? req.path (reads.map LockRead.path) = false) :
    HeldSound (writes ++ [req]) reads := by
  rw [conflict?_eq_false] at hwrites hreads
  refine ⟨?_, fun w hw r hr => ?_, fun w hw => ?_, h.readPath, h.keys, h.count⟩
  · refine List.pairwise_append.2 ⟨h.apart, List.pairwise_singleton _ _, fun w hw r hr => ?_⟩
    rw [List.mem_singleton.1 hr, overlap_comm]
    exact hwrites _ (List.mem_map_of_mem hw)
  · rcases List.mem_append.1 hw with hw | hw
    · exact h.noRead w hw r hr
    · rw [List.mem_singleton.1 hw]
      exact hreads _ (List.mem_map_of_mem hr)
  · rcases List.mem_append.1 hw with hw | hw
    · exact h.writePath w hw
    · rw [List.mem_singleton.1 hw]
      exact hpath

theorem mem_addRead {key : Str} {path : List Str} {now : ℕ} {r : LockRead}
    (h : r ∈ addRead key path now reads) :
    r ∈ reads ∨ (r.key = key ∧ r.time = now ∧ 0 < r.count ∧
      (r.path = path ∨ ∃ old ∈ reads, old.key = key ∧ r.path = old.path)) := by
  induction reads with
  | nil =>
      rw [addRead, List.mem_singleton] at h
      subst h
      exact Or.inr ⟨rfl, rfl, Nat.one_pos, Or.inl rfl⟩
  | cons rec reads ih =>
      rw [addRead] at h
      split at h
      next hkey =>
        rcases List.mem_cons.1 h with rfl | h
        · exact Or.inr ⟨hkey, rfl, Nat.succ_pos _, Or.inr ⟨rec, List.mem_cons_self, hkey, rfl⟩⟩
        · exact Or.inl (List.mem_cons_of_mem _ h)
      · rcases List.mem_cons.1 h with rfl | h
        · exact Or.inl List.mem_cons_self
        · rcases ih h with h | ⟨h1, h2, h3, h4⟩
          · exact Or.inl (List.mem_cons_of_mem _ h)
          · refine Or.inr ⟨h1, h2, h3, h4.imp id ?_⟩
            rintro ⟨old, hold, he⟩
            exact ⟨old, List.mem_cons_of_mem _ hold, he⟩

theorem keys_addRead (key : Str) (path : List Str) (now : ℕ) :
    (addRead key path now reads).map LockRead.key
      = if key ∈ reads.map LockRead.key then reads.map LockRead.key
        else reads.map LockRead.key ++ [key] := by
  induction reads with
  | nil => simp [addRead]
  | cons rec reads ih =>
      rw [addRead]
      by_cases hkey : rec.key = key
      · simp [hkey]
      · have hne : key ≠ rec.key := fun h => hkey h.symm
        simp only [hkey, if_false, List.map_cons, ih, List.mem_cons, hne, false_or]
        split <;> simp

theorem HeldSound.addRead (h : HeldSound writes reads) {key : Str} {path : List Str} {now : ℕ}
    (hpath : path = split key 47) (hwrites : conflict? path (writes.map LockReq.path) = false) :
    HeldSound writes (addRead key path now reads) := by
  rw [conflict?_eq_false] at hwrites
  have hsame : ∀ r ∈ ChrysaLisp.addRead key path now reads,
      r ∈ reads ∨ (r.path = path ∧ r.key = key ∧ 0 < r.count) := by
    intro r hr
    rcases mem_addRead hr with hr | ⟨hkey, -, hcount, hp | ⟨old, hold, hk, hp⟩⟩
    · exact Or.inl hr
    · exact Or.inr ⟨hp, hkey, hcount⟩
    · refine Or.inr ⟨?_, hkey, hcount⟩
      rw [hp, h.readPath old hold, hk, hpath]
  refine ⟨h.apart, fun w hw r hr => ?_, h.writePath, fun r hr => ?_, ?_, fun r hr => ?_⟩
  · rcases hsame r hr with hr | ⟨hp, -⟩
    · exact h.noRead w hw r hr
    · rw [hp, overlap_comm]
      exact hwrites _ (List.mem_map_of_mem hw)
  · rcases hsame r hr with hr | ⟨hp, hk, -⟩
    · exact h.readPath r hr
    · rw [hp, hk, hpath]
  · rw [keys_addRead]
    split
    · exact h.keys
    next hnot => exact h.keys.append (List.nodup_singleton _) (List.disjoint_singleton.2 hnot)
  · rcases hsame r hr with hr | ⟨-, -, hc⟩
    · exact h.count r hr
    · exact hc

/-- A record that is as it was but for its count, which is not nought. -/
theorem HeldSound.setCount (h : HeldSound writes reads) {i : ℕ} {rec : LockRead}
    (hi : reads[i]? = some rec) {n : ℕ} (hn : 0 < n) :
    HeldSound writes (reads.set i { rec with count := n }) := by
  have hmem : rec ∈ reads := List.mem_of_getElem? hi
  have hset : ∀ r ∈ reads.set i { rec with count := n },
      r ∈ reads ∨ r = { rec with count := n } := fun r hr => List.mem_or_eq_of_mem_set hr
  refine ⟨h.apart, fun w hw r hr => ?_, h.writePath, fun r hr => ?_, ?_, fun r hr => ?_⟩
  · rcases hset r hr with hr | rfl
    · exact h.noRead w hw r hr
    · exact h.noRead w hw rec hmem
  · rcases hset r hr with hr | rfl
    · exact h.readPath r hr
    · exact h.readPath rec hmem
  · have hkeys : (reads.set i { rec with count := n }).map LockRead.key
        = reads.map LockRead.key := by
      obtain ⟨hlt, hrec⟩ := List.getElem?_eq_some_iff.1 hi
      refine List.ext_getElem (by simp) (fun j hj hj' => ?_)
      rw [List.getElem_map, List.getElem_map, List.getElem_set]
      split
      next hij =>
        subst hij
        rw [hrec]
      · rfl
    rw [hkeys]
    exact h.keys
  · rcases hset r hr with hr | rfl
    · exact h.count r hr
    · exact hn

end Held

/-! ## What is taken off -/

theorem dropAt_subperm {α : Type} {l : List α} {i : ℕ} {x : α} (h : l[i]? = some x) :
    (dropAt l i).Subperm l :=
  (List.sublist_cons_self x _).subperm.trans (cons_dropAt_perm h).subperm

theorem mem_dropAt {α : Type} {l : List α} {i : ℕ} {x : α} (h : l[i]? = some x) {y : α}
    (hy : y ∈ l) : y = x ∨ y ∈ dropAt l i :=
  List.mem_cons.1 ((cons_dropAt_perm h).mem_iff.2 hy)

/-- The node is lost: it is not in the routes, was once, and has been missing for long. -/
def NodeLost (grace : ℕ) (nodes known : List ℕ) (gone : List (ℕ × ℕ)) (now node : ℕ) : Prop :=
  node ∉ nodes ∧ node ∈ known ∧ grace < now - (goneSince gone node).getD now

instance (grace : ℕ) (nodes known : List ℕ) (gone : List (ℕ × ℕ)) (now node : ℕ) :
    Decidable (NodeLost grace nodes known gone now node) :=
  inferInstanceAs (Decidable (_ ∧ _ ∧ _))

/-- A list of who is missing, of another: the same of the nodes not in the routes, but that some
    are missing as from now. -/
def GoneFrom (nodes : List ℕ) (now : ℕ) (gone gone' : List (ℕ × ℕ)) : Prop :=
  ∀ node ∉ nodes, goneSince gone' node = goneSince gone node ∨ goneSince gone' node = some now

section Purge

variable {lease grace : ℕ} {nodes known : List ℕ} {now : ℕ}

theorem goneSince_eraseP {gone : List (ℕ × ℕ)} {node other : ℕ} (h : node ≠ other) :
    goneSince (gone.eraseP (fun rec => decide (rec.1 = other))) node = goneSince gone node := by
  induction gone with
  | nil => rfl
  | cons rec gone ih =>
      unfold goneSince at ih ⊢
      by_cases hother : rec.1 = other
      · have hne : ¬ rec.1 = node := fun he => h (he.symm.trans hother)
        rw [List.eraseP_cons_of_pos (by simpa using hother),
          List.find?_cons_of_neg (by simpa using hne)]
      · rw [List.eraseP_cons_of_neg (by simpa using hother), List.find?_cons, List.find?_cons]
        split
        · rfl
        · exact ih

theorem goneFrom_nodeDied {gone gone' : List (ℕ × ℕ)} (h : GoneFrom nodes now gone gone')
    (node : ℕ) : GoneFrom nodes now gone (nodeDied grace node nodes known gone' now).2 := by
  intro other hother
  unfold nodeDied
  split
  next hin =>
    have hne : other ≠ node := fun he => hother (he ▸ hin)
    simp only
    rw [goneSince_eraseP hne]
    exact h other hother
  · split
    · exact h other hother
    · split
      · exact h other hother
      next hnone =>
        by_cases hne : other = node
        · subst hne
          right
          simp only [goneSince, Option.map_eq_none_iff] at hnone ⊢
          rw [List.find?_append, hnone]
          simp
        · have hsame : goneSince (gone' ++ [(node, now)]) other = goneSince gone' other := by
            simp [goneSince, List.find?_append, Ne.symm hne]
          simp only
          rw [hsame]
          exact h other hother

theorem nodeLost_of_died {gone gone' : List (ℕ × ℕ)} (h : GoneFrom nodes now gone gone')
    {node : ℕ} (hd : (nodeDied grace node nodes known gone' now).1 = true) :
    NodeLost grace nodes known gone now node := by
  unfold nodeDied at hd
  split at hd
  · exact absurd hd (by simp)
  next hnodes =>
    split at hd
    · exact absurd hd (by simp)
    next hknown =>
      push Not at hknown
      split at hd
      next since hsince =>
        have hlong : grace < now - since := by simpa using hd
        refine ⟨hnodes, hknown, ?_⟩
        rcases h node hnodes with he | he
        · rw [← he, hsince]
          exact hlong
        · -- a node that is missed for the first time is not lost
          rw [he] at hsince
          obtain rfl := Option.some.inj hsince
          omega
      · exact absurd hd (by simp)

/-- The writes that are left are some of those there were, and a write that is not left is of a
    node that is lost, or was held too long. By what is still to be looked at. -/
theorem purgeWrites_spec {gone gone' : List (ℕ × ℕ)} (n i : ℕ) (writes : List LockReq)
    (h : GoneFrom nodes now gone gone') :
    (purgeWrites lease grace nodes known now n i writes gone').1.Subperm writes ∧
      ∀ w ∈ writes, w ∈ (purgeWrites lease grace nodes known now n i writes gone').1 ∨
        NodeLost grace nodes known gone now w.node ∨ lease < now - w.time := by
  induction n generalizing i writes gone' with
  | zero => exact ⟨List.Subperm.refl _, fun w hw => Or.inl hw⟩
  | succ n ih =>
      rw [purgeWrites]
      split
      · exact ⟨List.Subperm.refl _, fun w hw => Or.inl hw⟩
      next rec hrec =>
        have hgone : GoneFrom nodes now gone (nodeDied grace rec.node nodes known gone' now).2 :=
          goneFrom_nodeDied h rec.node
        simp only
        split
        next hout =>
          obtain ⟨hsub, hleft⟩ := ih i (dropAt writes i) hgone
          refine ⟨hsub.trans (dropAt_subperm hrec), fun w hw => ?_⟩
          rcases mem_dropAt hrec hw with rfl | hw
          · exact Or.inr (hout.imp (nodeLost_of_died h) id)
          · exact hleft w hw
        · exact ih (i + 1) writes hgone

/-- The reads that are left are some of those there were, and a read that is not left was held too
    long. -/
theorem purgeReads_spec (n i : ℕ) (reads : List LockRead) :
    (purgeReads lease now n i reads).Subperm reads ∧
      ∀ r ∈ reads, r ∈ purgeReads lease now n i reads ∨ lease < now - r.time := by
  induction n generalizing i reads with
  | zero => exact ⟨List.Subperm.refl _, fun r hr => Or.inl hr⟩
  | succ n ih =>
      rw [purgeReads]
      split
      · exact ⟨List.Subperm.refl _, fun r hr => Or.inl hr⟩
      next rec hrec =>
        split
        next hout =>
          obtain ⟨hsub, hleft⟩ := ih i (dropAt reads i)
          refine ⟨hsub.trans (dropAt_subperm hrec), fun r hr => ?_⟩
          rcases mem_dropAt hrec hr with rfl | hr
          · exact Or.inr hout
          · exact hleft r hr
        · exact ih (i + 1) reads

end Purge

/-! ## What a claim that waits comes to -/

section Merge

variable {grace : ℕ} {nodes known : List ℕ} {now : ℕ}

/-- A claim is let go of, waits on, or is granted; and it is granted only if nothing held is in its
    way, and nothing found in the way before it. -/
theorem mergeReq_cases (grace : ℕ) (nodes known : List ℕ) (now : ℕ) (pass : Pass) (req : LockReq) :
    ∃ gone,
    mergeReq grace nodes known now pass req = { pass with gone := gone } ∨
    mergeReq grace nodes known now pass req = { pass with gone := gone }.wait req ∨
    (mergeReq grace nodes known now pass req = { pass with gone := gone }.grant now req ∧
      conflict? req.path (pass.writes.map LockReq.path) = false ∧
      (req.mode = .write → conflict? req.path (pass.reads.map LockRead.path) = false) ∧
      conflict? req.path (pass.blocked.map LockReq.path) = false) := by
  refine ⟨(nodeDied grace req.node nodes known pass.gone now).2, ?_⟩
  unfold mergeReq
  simp only
  split
  · exact Or.inl rfl
  · split
    · exact Or.inr (Or.inl rfl)
    next hfree =>
      rw [Bool.not_eq_true] at hfree
      simp only [Bool.or_eq_false_iff, Bool.and_eq_false_imp, decide_eq_true_eq] at hfree
      exact Or.inr (Or.inr ⟨rfl, hfree.1.1, hfree.1.2, hfree.2⟩)

/-- A claim that is granted where nothing held is in its way leaves what is held sound. -/
theorem HeldSound.grant {pass : Pass} {req : LockReq} (h : HeldSound pass.writes pass.reads)
    (hpath : req.path = split req.key 47)
    (hwrites : conflict? req.path (pass.writes.map LockReq.path) = false)
    (hreads : req.mode = .write → conflict? req.path (pass.reads.map LockRead.path) = false) :
    HeldSound (pass.grant now req).writes (pass.grant now req).reads := by
  unfold Pass.grant
  cases hmode : req.mode with
  | write => exact h.addWrite hpath hwrites (hreads hmode)
  | read => exact h.addRead hpath hwrites

/-- What is kept of the locks held and what was granted: at every claim that is granted, where
    nothing held is in its way, and at the claims let go of or left waiting, where neither changes.
    Then it is kept of going through them all. -/
theorem mergeLocks_inv {I : List LockReq → List LockRead → List LockReq → Prop}
    (hgrant : ∀ (pass : Pass) (req : LockReq), I pass.writes pass.reads pass.granted →
      req.path = split req.key 47 → conflict? req.path (pass.writes.map LockReq.path) = false →
      (req.mode = .write → conflict? req.path (pass.reads.map LockRead.path) = false) →
      I (pass.grant now req).writes (pass.grant now req).reads (pass.grant now req).granted)
    (lock : Lock) (hpending : ∀ req ∈ lock.pending, req.path = split req.key 47)
    (h : I lock.writes lock.reads []) :
    I (lock.mergeLocks grace nodes now).1.writes (lock.mergeLocks grace nodes now).1.reads
      (lock.mergeLocks grace nodes now).2 := by
  have hfold : ∀ (reqs : List LockReq) (pass : Pass),
      (∀ req ∈ reqs, req.path = split req.key 47) → I pass.writes pass.reads pass.granted →
      I (reqs.foldl (mergeReq grace nodes lock.known now) pass).writes
        (reqs.foldl (mergeReq grace nodes lock.known now) pass).reads
        (reqs.foldl (mergeReq grace nodes lock.known now) pass).granted := by
    intro reqs
    induction reqs with
    | nil => exact fun _ _ hp => hp
    | cons req reqs ih =>
        intro pass hreqs hp
        refine ih _ (fun r hr => hreqs r (List.mem_cons_of_mem _ hr)) ?_
        obtain ⟨gone, he | he | ⟨he, hw, hr, -⟩⟩ :=
          mergeReq_cases grace nodes lock.known now pass req
        · rw [he]
          exact hp
        · rw [he]
          exact hp
        · rw [he]
          exact hgrant { pass with gone := gone } req hp (hreqs req List.mem_cons_self) hw hr
  exact hfold lock.pending _ hpending h

/-- Those that wait on were waiting. -/
theorem mergeLocks_pending (lock : Lock) :
    ∀ req ∈ (lock.mergeLocks grace nodes now).1.pending, req ∈ lock.pending := by
  have hfold : ∀ (reqs : List LockReq) (pass : Pass),
      (∀ req ∈ reqs, req ∈ lock.pending) → (∀ req ∈ pass.waits, req ∈ lock.pending) →
      ∀ req ∈ (reqs.foldl (mergeReq grace nodes lock.known now) pass).waits,
        req ∈ lock.pending := by
    intro reqs
    induction reqs with
    | nil => exact fun _ _ hp => hp
    | cons req reqs ih =>
        intro pass hreqs hp
        refine ih _ (fun r hr => hreqs r (List.mem_cons_of_mem _ hr)) ?_
        obtain ⟨gone, he | he | ⟨he, -⟩⟩ :=
          mergeReq_cases grace nodes lock.known now pass req
        · rw [he]
          exact hp
        · rw [he]
          intro r hr
          rcases List.mem_append.1 hr with hr | hr
          · exact hp r hr
          · rw [List.mem_singleton.1 hr]
            exact hreqs req List.mem_cons_self
        · rw [he]
          unfold Pass.grant
          simp only
          split <;> exact hp
  exact hfold lock.pending _ (fun _ h => h) (by simp)

end Merge

/-! ## Every state of every run -/

namespace Lock

variable {lease grace : ℕ} {nodes : List ℕ} {now : ℕ} {lock : Lock}

/-- The service is sound: the locks that are held are, and what waits is of the path of its key. -/
structure Sound (lock : Lock) : Prop where
  held : HeldSound lock.writes lock.reads
  pending : ∀ req ∈ lock.pending, req.path = split req.key 47

theorem getElem?_of_readOf {key : Str} {rec : LockRead} {i : ℕ}
    (h : lock.readOf key = some (rec, i)) : lock.reads[i]? = some rec ∧ rec.key = key :=
  ⟨List.mem_zipIdx_iff_getElem?.1 (List.mem_of_find?_eq_some h), by
    simpa using List.find?_some h⟩

theorem getElem?_of_writeOf {key : Str} {rec : LockReq} {i : ℕ}
    (h : lock.writeOf key = some (rec, i)) : lock.writes[i]? = some rec ∧ rec.key = key :=
  ⟨List.mem_zipIdx_iff_getElem?.1 (List.mem_of_find?_eq_some h), by
    simpa using List.find?_some h⟩

theorem Sound.takeRead (h : lock.Sound) {i : ℕ} {rec : LockRead} (hi : lock.reads[i]? = some rec) :
    (lock.takeRead i rec).Sound := by
  refine ⟨?_, h.pending⟩
  unfold Lock.takeRead
  simp only
  split
  · exact h.held.of_subperm_reads (dropAt_subperm hi)
  · exact h.held.setCount hi (by omega)

theorem Sound.takeWrite (h : lock.Sound) {i : ℕ} {rec : LockReq}
    (hi : lock.writes[i]? = some rec) (key : Str) : (lock.takeWrite i key).Sound :=
  ⟨h.held.of_subperm_writes (dropAt_subperm hi), h.pending⟩

theorem Sound.release (h : lock.Sound) (key : Str) : (lock.release key).Sound := by
  unfold Lock.release
  split
  next rec i hw =>
    exact h.takeWrite (getElem?_of_writeOf hw).1 key
  · split
    next rec i hr => exact h.takeRead (getElem?_of_readOf hr).1
    · exact h

theorem Sound.cancel (h : lock.Sound) (reply : NetId) (key : Str) (mode : LockMode) :
    (lock.cancel reply key mode).Sound := by
  unfold Lock.cancel
  split
  · exact ⟨h.held, fun req hreq => h.pending req (List.mem_of_mem_eraseIdx hreq)⟩
  · cases mode with
    | write =>
        simp only
        split
        next i hi =>
          obtain ⟨hlt, -⟩ := List.findIdx?_eq_some_iff_getElem.1 hi
          exact h.takeWrite (List.getElem?_eq_getElem hlt) key
        · exact h
    | read =>
        simp only
        split
        next rec i hr => exact h.takeRead (getElem?_of_readOf hr).1
        · exact h

theorem Sound.purge (lock : Lock) (h : lock.Sound) : (lock.purge lease grace nodes now).Sound := by
  refine ⟨?_, h.pending⟩
  have hgone : GoneFrom nodes now lock.gone lock.gone := fun _ _ => Or.inl rfl
  exact (h.held.of_subperm_writes (purgeWrites_spec _ 0 lock.writes hgone).1).of_subperm_reads
    (purgeReads_spec _ 0 lock.reads).1

theorem Sound.take (h : lock.Sound) (lease grace : ℕ) (nodes : List ℕ) (now : ℕ) (msg : LockMsg) :
    (lock.take lease grace nodes now msg).Sound := by
  cases msg with
  | claim reply key mode timeout =>
      refine ⟨h.held, fun req hreq => ?_⟩
      rcases List.mem_append.1 hreq with hreq | hreq
      · exact h.pending req hreq
      · rw [List.mem_singleton.1 hreq]
  | release reply key => exact h.release key
  | cancel reply key mode => exact h.cancel reply key mode
  | history reply => exact h
  | timer => exact Sound.purge { lock with known := _ } ⟨h.held, h.pending⟩

/-- What every claim that is granted keeps, of the locks held and what was granted, is kept of all
    a message comes to, if it is so once the message is taken. -/
theorem handle_inv (lock : Lock) (lease grace : ℕ) (nodes : List ℕ) (now : ℕ) (msg : LockMsg)
    {I : List LockReq → List LockRead → List LockReq → Prop}
    (hgrant : ∀ (pass : Pass) (req : LockReq), I pass.writes pass.reads pass.granted →
      req.path = split req.key 47 → conflict? req.path (pass.writes.map LockReq.path) = false →
      (req.mode = .write → conflict? req.path (pass.reads.map LockRead.path) = false) →
      I (pass.grant now req).writes (pass.grant now req).reads (pass.grant now req).granted)
    (hpending : ∀ req ∈ (lock.take lease grace nodes now msg).pending,
      req.path = split req.key 47)
    (h : I (lock.take lease grace nodes now msg).writes (lock.take lease grace nodes now msg).reads
      []) :
    I (lock.handle lease grace nodes now msg).1.writes
      (lock.handle lease grace nodes now msg).1.reads
      (lock.handle lease grace nodes now msg).2 := by
  unfold Lock.handle
  cases msg with
  | history reply => exact h
  | timer => exact mergeLocks_inv hgrant _ hpending h
  | claim reply key mode timeout =>
      exact mergeLocks_inv hgrant { Lock.take _ _ _ _ _ _ with known := _ } hpending h
  | release reply key =>
      exact mergeLocks_inv hgrant { Lock.take _ _ _ _ _ _ with known := _ } hpending h
  | cancel reply key mode =>
      exact mergeLocks_inv hgrant { Lock.take _ _ _ _ _ _ with known := _ } hpending h

theorem handle_pending (msg : LockMsg) :
    ∀ req ∈ (lock.handle lease grace nodes now msg).1.pending,
      req ∈ (lock.take lease grace nodes now msg).pending := by
  unfold Lock.handle
  cases msg with
  | history reply => exact fun _ h => h
  | timer => exact mergeLocks_pending _
  | claim reply key mode timeout =>
      exact mergeLocks_pending { Lock.take _ _ _ _ _ _ with known := _ }
  | release reply key =>
      exact mergeLocks_pending { Lock.take _ _ _ _ _ _ with known := _ }
  | cancel reply key mode =>
      exact mergeLocks_pending { Lock.take _ _ _ _ _ _ with known := _ }

theorem Sound.handle (h : lock.Sound) (msg : LockMsg) :
    (lock.handle lease grace nodes now msg).1.Sound := by
  have ht := h.take lease grace nodes now msg
  refine ⟨?_, fun req hreq => ht.pending req (handle_pending msg req hreq)⟩
  exact lock.handle_inv lease grace nodes now msg (I := fun writes reads _ => HeldSound writes reads)
    (fun pass req hp hpath hw hr => hp.grant hpath hw hr) ht.pending ht.held

end Lock

end ChrysaLisp
