import ChrysaLisp.Storage.Store

set_option autoImplicit false

/-! # Snapshots of a store

A snapshot of a name is paths, `snapshots/<name>/<path>`, set to the objects that the paths under a
prefix are then, and to restore it sets those paths back (`(store-snapshot)`, `(store-restore)` of
`lib/storage/store.inc`). They are paths like any other: what is under the name from before stays
there where there is no object of it now, and is brought back too. Where nothing is, and nobody
writes there since, what is brought back is that moment (`restore_moment`). -/

namespace ChrysaLisp

/-- `+store_snapshots` -/
def storeSnapshots : Str := asc "snapshots/"

-- what `∈` of a name is decided by
local instance lawfulBEq_nameByte : LawfulBEq Byte := inferInstance

/-- `(store-snapshot-name? name)`: not empty, and no `/` or space in it. -/
def storeSnapshotName (name : Str) : Bool := decide (name ≠ [] ∧ 47 ∉ name ∧ 32 ∉ name)

/-- Where the paths of a snapshot are. -/
def snapshotUnder (name : Str) : Str := storeSnapshots ++ name ++ asc "/"

namespace Store

variable (store : Store)

/-- `(store-list store prefix)` -/
def listUnder (start : Str) : List Entry :=
  store.entries.filter fun entry => decide (start <+: entry.path) && !entry.deleted

/-- An object goes into a snapshot, if it is not one of another. -/
def snapshotOne (under : Str) (acc : Store × ℕ) (entry : Entry) : Store × ℕ :=
  if storeSnapshots <+: entry.path then acc
  else ((acc.1.set (under ++ entry.path) entry.hash entry.bytes none false (some entry.copies)).2, acc.2 + 1)

/-- `(store-snapshot store name prefix)` -/
def snapshot (name start : Str) : Option ℕ × Store :=
  if storeSnapshotName name then
    let done := (store.listUnder start).foldl (snapshotOne (snapshotUnder name)) (store, 0)
    (some done.2, done.1)
  else (none, store)

/-- A path is set back, if it is not as it was. -/
def restoreOne (under : Str) (acc : Store × ℕ) (entry : Entry) : Store × ℕ :=
  let path := entry.path.drop under.length
  if acc.1.now path = entry.hash then acc
  else ((acc.1.set path entry.hash entry.bytes none false (some entry.copies)).2, acc.2 + 1)

/-- What there is of a snapshot under a prefix. -/
def snap (name start : Str) : List Entry :=
  (store.listUnder (snapshotUnder name)).filter fun entry =>
    decide (snapshotUnder name ++ start <+: entry.path)

/-- `(store-restore store name prefix)`: how many were set back, and how many there are that the
    snapshot has not. -/
def restore (name start : Str) : Option (ℕ × ℕ) × Store :=
  let snap := store.snap name start
  if snap = [] then (none, store)
  else
    let done := snap.foldl (restoreOne (snapshotUnder name)) (store, 0)
    let had : List Str := snap.map fun entry => entry.path.drop (snapshotUnder name).length
    let newer := (done.1.listUnder start).filter fun (entry : Entry) =>
      decide (¬ storeSnapshots <+: entry.path ∧ entry.path ∉ had)
    (some (done.2, newer.length), done.1)

end Store

/-- What is done to a store after a snapshot of it: writes and deletions, and further snapshots. -/
inductive Since where
  | write (w : Write)
  | snapshot (name start : Str)

/-- What it does. -/
def Store.since (sha256 : Str → Str) (store : Store) : Since → Store
  | .write w => (store.write sha256 w).2
  | .snapshot name start => (store.snapshot name start).2

/-- It is not of the paths of a snapshot. -/
def Since.Leaves (name : Str) : Since → Prop
  | .write w => ¬ snapshotUnder name <+: w.path
  | .snapshot other _ => other ≠ name

instance (name : Str) : DecidablePred (Since.Leaves name)
  | .write _ => inferInstanceAs (Decidable (¬ _))
  | .snapshot _ _ => inferInstanceAs (Decidable (_ ≠ _))

namespace Store

variable {store : Store} {name start under x : Str}

/-! ## One path is set -/

theorem find_set (name hash : Str) (size copies : ℕ) :
    (store.set name hash size none false (some copies)).2.find x =
      if x = name then some (store.setEntry name hash size false (some copies)) else store.find x := by
  have hset : (store.set name hash size none false (some copies)).2 =
      store.wrote (store.setEntry name hash size false (some copies)) := rfl
  rw [hset]
  unfold find wrote PathMap.put
  by_cases hx : x = name
  · rw [if_pos hx, hx]
    exact AList.lookup_insert _
  · rw [if_neg hx]
    exact AList.lookup_insert_ne hx

theorem keyed_set (h : store.map.Keyed) (name hash : Str) (size copies : ℕ) :
    (store.set name hash size none false (some copies)).2.map.Keyed := h.put _

theorem keyed_write (sha256 : Str → Str) (h : store.map.Keyed) (w : Write) :
    (store.write sha256 w).2.map.Keyed := by
  rcases store.write_cases sha256 w with ⟨heq, -⟩ | ⟨hash, size, deleted, copies, -, heq⟩
  · rwa [heq]
  · rw [heq]
    exact h.put _

theorem find_write (sha256 : Str → Str) {w : Write} (hx : x ≠ w.path) :
    (store.write sha256 w).2.find x = store.find x := by
  rcases store.write_cases sha256 w with ⟨heq, -⟩ | ⟨hash, size, deleted, copies, -, heq⟩
  · rw [heq]
  · rw [heq]
    exact AList.lookup_insert_ne hx

theorem mem_listUnder (h : store.map.Keyed) {entry : Entry} :
    entry ∈ store.listUnder start ↔
      store.find entry.path = some entry ∧ start <+: entry.path ∧ entry.deleted = false := by
  unfold listUnder entries
  rw [List.mem_filter, PathMap.mem_inOrder h]
  simp [find]

theorem nodup_listUnder (h : store.map.Keyed) : ((store.listUnder start).map Entry.path).Nodup :=
  (PathMap.nodup_inOrder h).sublist (List.filter_sublist.map Entry.path)

theorem stat_eq_some {entry : Entry} :
    store.stat x = some entry ↔ store.find x = some entry ∧ entry.deleted = false := by
  unfold stat
  rw [Option.filter_eq_some_iff]
  simp

/-! ## A snapshot is taken -/

theorem keyed_snapshotOne {acc : Store × ℕ} (h : acc.1.map.Keyed) (entry : Entry) :
    (snapshotOne under acc entry).1.map.Keyed := by
  unfold snapshotOne
  split_ifs
  · exact h
  · exact keyed_set h _ _ _ _

theorem keyed_snapshot (h : store.map.Keyed) (name start : Str) :
    (store.snapshot name start).2.map.Keyed := by
  have hfold : ∀ l : List Entry, ∀ acc : Store × ℕ, acc.1.map.Keyed →
      (l.foldl (snapshotOne (snapshotUnder name)) acc).1.map.Keyed := by
    intro l
    induction l with
    | nil => exact fun _ hacc => hacc
    | cons entry l ih => exact fun acc hacc => ih _ (keyed_snapshotOne hacc entry)
  unfold snapshot
  split_ifs
  · exact hfold _ _ h
  · exact h

/-- No other path is set than those of the snapshot. -/
theorem find_foldl_snapshotOne_ne {l : List Entry} (acc : Store × ℕ)
    (hx : ∀ entry ∈ l, ¬ storeSnapshots <+: entry.path → x ≠ under ++ entry.path) :
    (l.foldl (snapshotOne under) acc).1.find x = acc.1.find x := by
  induction l generalizing acc with
  | nil => rfl
  | cons entry l ih =>
      rw [List.foldl_cons, ih _ fun e he => hx e (List.mem_cons_of_mem entry he)]
      unfold snapshotOne
      split_ifs with hsnap
      · rfl
      · exact (find_set _ _ _ _).trans (if_neg (hx entry List.mem_cons_self hsnap))

/-- Each object that is not one of a snapshot is in it. -/
theorem find_foldl_snapshotOne {l : List Entry} (acc : Store × ℕ)
    (hnodup : (l.map Entry.path).Nodup) {entry : Entry}
    (hentry : entry ∈ l) (hsnap : ¬ storeSnapshots <+: entry.path) :
    ∃ kept, (l.foldl (snapshotOne under) acc).1.find (under ++ entry.path) = some kept ∧
      kept.hash = entry.hash ∧ kept.deleted = false := by
  induction l generalizing acc with
  | nil => exact absurd hentry List.not_mem_nil
  | cons e l ih =>
      obtain ⟨hnot, hrest⟩ := List.nodup_cons.mp hnodup
      rw [List.foldl_cons]
      rcases List.mem_cons.mp hentry with rfl | hentry
      · have hone : (snapshotOne under acc entry).1.find (under ++ entry.path) =
            some (acc.1.setEntry (under ++ entry.path) entry.hash entry.bytes false (some entry.copies)) := by
          unfold snapshotOne
          rw [if_neg hsnap]
          exact (find_set _ _ _ _).trans (if_pos rfl)
        rw [find_foldl_snapshotOne_ne, hone]
        · exact ⟨_, rfl, rfl, rfl⟩
        · intro e he _ heq
          exact hnot (List.mem_map.mpr ⟨e, he, (List.append_cancel_left heq).symm⟩)
      · exact ih _ hrest hentry

/-- The paths of snapshots of two names are apart. -/
theorem under_ne {other y : Str} (hname : storeSnapshotName name = true)
    (hother : storeSnapshotName other = true)
    (hne : other ≠ name) : snapshotUnder name ++ x ≠ snapshotUnder other ++ y := by
  intro heq
  unfold snapshotUnder at heq
  rw [List.append_assoc, List.append_assoc, List.append_assoc, List.append_assoc] at heq
  have hrest := List.append_cancel_left heq
  have hn := (of_decide_eq_true hname).2.1
  have ho := (of_decide_eq_true hother).2.1
  have hcut : ∀ {m : Str} (z : Str), 47 ∉ m →
    (m ++ (asc "/" ++ z)).takeWhile (fun c => decide (c ≠ 47)) = m := by
    intro m z hm
    rw [List.takeWhile_append_of_pos fun c hc => decide_eq_true (ne_of_mem_of_not_mem hc hm)]
    simp [asc]
  have hsame := congrArg (List.takeWhile fun c => decide (c ≠ 47)) hrest
  rw [hcut x hn, hcut y ho] at hsame
  exact hne hsame.symm

/-- What is done after leaves the paths of a snapshot as they were. -/
theorem find_since (sha256 : Str → Str) {op : Since} (hname : storeSnapshotName name = true)
    (hop : op.Leaves name) :
    (store.since sha256 op).find (snapshotUnder name ++ x) = store.find (snapshotUnder name ++ x) := by
  cases op with
  | write w => exact find_write sha256 fun heq => hop (heq ▸ List.prefix_append _ x)
  | snapshot other start =>
      simp only [since, snapshot]
      split_ifs with hother
      · exact find_foldl_snapshotOne_ne _ fun entry _ _ => under_ne hname hother hop
      · rfl

theorem keyed_since (sha256 : Str → Str) (h : store.map.Keyed) (op : Since) :
    (store.since sha256 op).map.Keyed := by
  cases op with
  | write w => exact keyed_write sha256 h w
  | snapshot other start => exact keyed_snapshot h other start

theorem find_foldl_since (sha256 : Str → Str) (run : List Since) (hname : storeSnapshotName name = true)
    (hrun : ∀ op ∈ run, op.Leaves name) (h : store.map.Keyed) :
    (run.foldl (Store.since sha256) store).map.Keyed ∧
      (run.foldl (Store.since sha256) store).find (snapshotUnder name ++ x) = store.find
        (snapshotUnder name ++ x) := by
  induction run generalizing store with
  | nil => exact ⟨h, rfl⟩
  | cons op run ih =>
      obtain ⟨hkeyed, hfind⟩ := ih (fun o ho => hrun o (List.mem_cons_of_mem op ho)) (keyed_since sha256 h op)
      exact ⟨hkeyed, hfind.trans (find_since sha256 hname (hrun op List.mem_cons_self))⟩

/-! ## A snapshot is restored -/

theorem find_restoreOne_ne {acc : Store × ℕ} {entry : Entry} (hx : x ≠ entry.path.drop under.length) :
    (restoreOne under acc entry).1.find x = acc.1.find x := by
  unfold restoreOne
  simp only
  split_ifs
  · rfl
  · exact (find_set _ _ _ _).trans (if_neg hx)

theorem now_restoreOne (acc : Store × ℕ) (entry : Entry) :
    (restoreOne under acc entry).1.now (entry.path.drop under.length) = entry.hash := by
  unfold restoreOne
  simp only
  split_ifs with hnow
  · exact hnow
  · unfold now stat
    rw [find_set, if_pos rfl]
    rfl

theorem now_congr {a b : Store} (h : a.find x = b.find x) : a.now x = b.now x := by
  unfold now stat
  rw [h]

/-- No other path is set than those the snapshot is of. -/
theorem find_foldl_restoreOne_ne {l : List Entry} (acc : Store × ℕ)
    (hx : ∀ entry ∈ l, x ≠ entry.path.drop under.length) :
    (l.foldl (restoreOne under) acc).1.find x = acc.1.find x := by
  induction l generalizing acc with
  | nil => rfl
  | cons entry l ih =>
      rw [List.foldl_cons, ih _ fun e he => hx e (List.mem_cons_of_mem entry he)]
      exact find_restoreOne_ne (hx entry List.mem_cons_self)

/-- Each path the snapshot is of is set to what the snapshot has. -/
theorem now_foldl_restoreOne {l : List Entry} (acc : Store × ℕ)
    (hnodup : (l.map fun entry => entry.path.drop under.length).Nodup) {entry : Entry} (hentry : entry ∈ l) :
    (l.foldl (restoreOne under) acc).1.now (entry.path.drop under.length) = entry.hash := by
  induction l generalizing acc with
  | nil => exact absurd hentry List.not_mem_nil
  | cons e l ih =>
      obtain ⟨hnot, hrest⟩ := List.nodup_cons.mp hnodup
      rw [List.foldl_cons]
      rcases List.mem_cons.mp hentry with rfl | hentry
      · refine (now_congr (find_foldl_restoreOne_ne _ ?_)).trans (now_restoreOne acc entry)
        intro e he heq
        exact hnot (List.mem_map.mpr ⟨e, he, heq.symm⟩)
      · exact ih _ hrest hentry

theorem mem_snap (h : store.map.Keyed) {entry : Entry} : entry ∈ store.snap name start ↔
    ∃ path, entry.path = snapshotUnder name ++ path ∧ start <+: path ∧
      store.find (snapshotUnder name ++ path) = some entry ∧ entry.deleted = false := by
  unfold snap
  rw [List.mem_filter, mem_listUnder h, decide_eq_true_eq]
  constructor
  · rintro ⟨⟨hfind, ⟨path, hpath⟩, hlive⟩, hstart⟩
    rw [← hpath, List.prefix_append_right_inj] at hstart
    exact ⟨path, hpath.symm, hstart, hpath ▸ hfind, hlive⟩
  · rintro ⟨path, hpath, hstart, hfind, hlive⟩
    rw [hpath]
    exact ⟨⟨hfind, List.prefix_append _ _, hlive⟩, (List.prefix_append_right_inj _).mpr hstart⟩

/-- What a restore leaves: each path of the snapshot as it is there, and all others as they were. -/
theorem restore_spec (h : store.map.Keyed) (name start : Str) :
    (∀ path entry, start <+: path → store.find (snapshotUnder name ++ path) = some entry →
      entry.deleted = false →
      (store.restore name start).2.now path = entry.hash) ∧
    ∀ path, (start <+: path → ∀ entry, store.find (snapshotUnder name ++ path) = some entry →
      entry.deleted = true) →
      (store.restore name start).2.find path = store.find path := by
  have hdrop : ∀ path : Str, (snapshotUnder name ++ path).drop (snapshotUnder name).length = path :=
    fun path => List.drop_left
  have hnodup : ((store.snap name start).map fun entry =>
    entry.path.drop (snapshotUnder name).length).Nodup := by
    have hpaths : ((store.snap name start).map Entry.path).Nodup :=
      (nodup_listUnder h).sublist (List.filter_sublist.map Entry.path)
    refine List.Nodup.map_on ?_ (List.Nodup.of_map _ hpaths)
    intro a ha b hb heq
    obtain ⟨pa, hpa, -, hfa, -⟩ := (mem_snap h).mp ha
    obtain ⟨pb, hpb, -, hfb, -⟩ := (mem_snap h).mp hb
    rw [hpa, hpb, hdrop, hdrop] at heq
    rw [heq, hfb] at hfa
    exact (Option.some.inj hfa).symm
  by_cases hsnap : store.snap name start = []
  · have hsame : (store.restore name start).2 = store := by
      unfold restore
      simp only [if_pos hsnap]
    refine ⟨?_, fun path _ => by rw [hsame]⟩
    intro path entry hstart hfind hlive
    have hmem : entry ∈ store.snap name start := (mem_snap h).mpr ⟨path, h _ _ hfind, hstart, hfind, hlive⟩
    rw [hsnap] at hmem
    exact absurd hmem List.not_mem_nil
  · have hback : (store.restore name start).2 =
        ((store.snap name start).foldl (restoreOne (snapshotUnder name)) (store, 0)).1 := by
      unfold restore
      simp only [if_neg hsnap]
    rw [hback]
    constructor
    · intro path entry hstart hfind hlive
      have hpath := h _ _ hfind
      have hmem : entry ∈ store.snap name start := (mem_snap h).mpr ⟨path, hpath, hstart, hfind, hlive⟩
      have hnow := now_foldl_restoreOne (store, 0) hnodup hmem
      rwa [hpath, hdrop] at hnow
    · intro path hgone
      refine find_foldl_restoreOne_ne _ ?_
      rintro entry hentry rfl
      obtain ⟨p, hp, hstart, hfind, hlive⟩ := (mem_snap h).mp hentry
      rw [hp, hdrop] at hgone
      rw [hgone hstart entry hfind] at hlive
      exact absurd hlive (by decide)

/-! ## The moment that is brought back -/

/-- What a snapshot has of a path: what the path is, where it is one of those the snapshot is of,
    and else what was there before. -/
theorem find_snapshot (h : store.map.Keyed) (hname : storeSnapshotName name = true) (path : Str) :
    (∀ entry, store.stat path = some entry → start <+: path → ¬ storeSnapshots <+: path →
      ∃ kept, (store.snapshot name start).2.find (snapshotUnder name ++ path) = some kept ∧
        kept.hash = entry.hash ∧
        kept.deleted = false) ∧
    ((store.stat path = none ∨ ¬ start <+: path ∨ storeSnapshots <+: path) →
      (store.snapshot name start).2.find (snapshotUnder name ++ path) = store.find
        (snapshotUnder name ++ path)) := by
  have hdone : (store.snapshot name start).2 =
      ((store.listUnder start).foldl (snapshotOne (snapshotUnder name)) (store, 0)).1 := by
    unfold snapshot
    simp only [if_pos hname]
  rw [hdone]
  constructor
  · intro entry hstat hstart hsnap
    obtain ⟨hfind, hlive⟩ := stat_eq_some.mp hstat
    have hpath := h _ _ hfind
    subst hpath
    exact find_foldl_snapshotOne _ (nodup_listUnder h) ((mem_listUnder h).mpr ⟨hfind, hstart, hlive⟩) hsnap
  · intro hnot
    refine find_foldl_snapshotOne_ne _ ?_
    intro entry hentry hsnap heq
    obtain ⟨hfind, hstart, hlive⟩ := (mem_listUnder h).mp hentry
    rw [List.append_cancel_left heq] at hnot
    rcases hnot with hnone | hnot | hnot
    · rw [stat_eq_some.mpr ⟨hfind, hlive⟩] at hnone
      exact absurd hnone (by simp)
    · exact hnot hstart
    · exact hsnap hnot

/-- A path under the prefix that there is an object of. -/
def Stood (start : Str) (store : Store) (path : Str) : Prop := start <+: path ∧ (store.stat path).isSome

instance (start : Str) (store : Store) (path : Str) : Decidable (Stood start store path) :=
  inferInstanceAs (Decidable (_ ∧ _))

/-- What is brought back of a store as it was: each of some paths is what it was then, and no other is set. -/
structure Moment (kept : Str → Prop) (then' after back : Store) : Prop where
  was : ∀ path, kept path → back.now path = then'.now path
  other : ∀ path, ¬ kept path → back.find path = after.find path

/-- A snapshot is taken, some things are done, and it is restored. -/
def backAfter (sha256 : Str → Str) (store : Store) (name start : Str) (run : List Since) : Store × Store :=
  let after := run.foldl (Store.since sha256) (store.snapshot name start).2
  (after, (after.restore name start).2)

/-- What is there of a snapshot of the name, under the prefix, is of paths that there are objects of
    now, none of them one of a snapshot. -/
def NoneLeft (name start : Str) (store : Store) : Prop :=
  ∀ path, start <+: path → (store.stat (snapshotUnder name ++ path)).isSome →
    (store.stat path).isSome ∧ ¬ storeSnapshots <+: path

/-- After a snapshot, and whatever is done since that is not of its paths, a restore brings back the
    moment it was taken, of all paths but those of snapshots. -/
theorem restore_moment (sha256 : Str → Str) (store : Store) (name start : Str) (run : List Since)
    (hkeyed : store.map.Keyed) (hname : storeSnapshotName name = true) (hnone : NoneLeft name start store)
    (hrun : ∀ op ∈ run, op.Leaves name) :
    Moment (fun path => Stood start store path ∧ ¬ storeSnapshots <+: path) store
      (backAfter sha256 store name start run).1 (backAfter sha256 store name start run).2 := by
  have hsince := fun x => find_foldl_since (x := x) sha256 run hname hrun (keyed_snapshot hkeyed name start)
  obtain ⟨hset, hkeep⟩ := restore_spec (hsince []).1 name start
  constructor
  · rintro path ⟨⟨hstart, hsome⟩, hsnap⟩
    obtain ⟨entry, hstat⟩ := Option.isSome_iff_exists.mp hsome
    obtain ⟨kept, hkept, hhash, hlive⟩ := (find_snapshot hkeyed hname path).1 entry hstat hstart hsnap
    refine (hset path kept hstart ((hsince path).2.trans hkept) hlive).trans ?_
    unfold now
    rw [hhash, hstat]
    rfl
  · intro path hnot
    refine hkeep path ?_
    intro hstart entry hfind
    have hout : store.stat path = none ∨ ¬ start <+: path ∨ storeSnapshots <+: path := by
      by_contra hall
      push Not at hall
      exact hnot ⟨⟨hstart, Option.isSome_iff_ne_none.mpr hall.1⟩, hall.2.2⟩
    rw [(hsince path).2, (find_snapshot hkeyed hname path).2 hout] at hfind
    by_contra hlive
    have hold : store.stat (snapshotUnder name ++ path) = some entry :=
      stat_eq_some.mpr ⟨hfind, Bool.eq_false_iff.mpr hlive⟩
    obtain ⟨hthere, hsnap⟩ := hnone path hstart (by rw [hold]; rfl)
    exact hnot ⟨⟨hstart, hthere⟩, hsnap⟩

/-- A store with nothing in it. -/
def bare : Store where
  member := asc "aaaa"
  members := []
  retired := []
  pinned := ∅
  blockSize := 4096
  map := ∅
  digest := none

/-- A store with one object, of a path `a`. -/
def oneObject : Store := (bare.set (asc "a") (asc "h") 1 none false none).2

/-- It is snapshot, its object deleted, and another put. -/
def gone : Store :=
  (((oneObject.snapshot (asc "s") []).2.delete (asc "a") none).2.set (asc "b") (asc "i") 1 none false none).2

/-- A snapshot of one object, that is put over and deleted after, and a snapshot of another name. -/
theorem restore_moment_of_one :
    Moment (fun path => Stood [] oneObject path ∧ ¬ storeSnapshots <+: path) oneObject
      (backAfter (fun s => s) oneObject (asc "s") []
        [.write (.put (fun _ => true) (asc "a") (asc "new") none), .snapshot (asc "t") [],
          .write (.delete (asc "a") none)]).1
      (backAfter (fun s => s) oneObject (asc "s") []
        [.write (.put (fun _ => true) (asc "a") (asc "new") none), .snapshot (asc "t") [],
          .write (.delete (asc "a") none)]).2 :=
  restore_moment (fun s => s) oneObject (asc "s") [] _ (keyed_empty.put _) (by decide)
    (by
      intro path _ hsome
      have hne : snapshotUnder (asc "s") ++ path ≠ asc "a" := by
        intro heq
        have hhead : (some 115 : Option Byte) = some 97 := congrArg List.head? heq
        exact absurd hhead (by decide)
      have hset : oneObject.find (snapshotUnder (asc "s") ++ path) =
          if snapshotUnder (asc "s") ++ path = asc "a"
            then some (bare.setEntry (asc "a") (asc "h") 1 false (some 0))
            else bare.find (snapshotUnder (asc "s") ++ path) := find_set _ _ _ 0
      have hnone : oneObject.find (snapshotUnder (asc "s") ++ path) = none := hset.trans (if_neg hne)
      unfold stat at hsome
      rw [hnone] at hsome
      exact absurd hsome (by decide))
    (by decide)

/-- A snapshot taken again of a name has in it what is no more, and one does not have in it the
    paths of another. -/
theorem restore_not_moment :
    ¬ Moment (Stood [] gone) gone (backAfter (fun s => s) gone (asc "s") [] []).1
        (backAfter (fun s => s) gone (asc "s") [] []).2 ∧
      ¬ Moment (Stood [] (oneObject.snapshot (asc "m") []).2) (oneObject.snapshot (asc "m") []).2
        (backAfter (fun s => s) (oneObject.snapshot (asc "m") []).2 (asc "s") []
          [.write (.delete (asc "snapshots/m/a") none)]).1
        (backAfter (fun s => s) (oneObject.snapshot (asc "m") []).2 (asc "s") []
          [.write (.delete (asc "snapshots/m/a") none)]).2 ∧
      ¬ Moment (Stood [] oneObject) oneObject
        (backAfter (fun s => s) oneObject (asc "s") []
          [.write (.put (fun _ => true) (asc "snapshots/s/a") (asc "new") none)]).1
        (backAfter (fun s => s) oneObject (asc "s") []
          [.write (.put (fun _ => true) (asc "snapshots/s/a") (asc "new") none)]).2 := by
  refine ⟨fun h => ?_, fun h => ?_, fun h => ?_⟩
  · exact absurd (h.other (asc "a") (by decide +kernel)) (by decide +kernel)
  · exact absurd (h.was (asc "snapshots/m/a") (by decide +kernel)) (by decide +kernel)
  · exact absurd (h.was (asc "a") (by decide +kernel)) (by decide +kernel)

end Store

end ChrysaLisp
