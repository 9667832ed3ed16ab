import ChrysaLisp.Storage.Meet

set_option autoImplicit false

/-! # A store: its path map, and the ways it is changed

What a store is in memory as far as its path map goes: whose it is, who the members are and who
is retired, what each member has pinned, the map, and the digest once it is worked out. The blocks
an object is cut into are known here by their names alone, the SHA-256 of what is in them, and
whether the volume has room for one (`room`) is the volume's to say.

A path is changed by `storeSet`, which `storePut`, `storeDelete` and `storeCopies` come to, and by
`storeMeet`. Every one of them that changes the map lets go of the digest. -/

namespace ChrysaLisp

/-- What a store holds in memory that its path map and digest are made of. -/
structure Store where
  member : Str
  members : List Str
  retired : List Str
  /-- of each member, a count and the prefixes it has pinned -/
  pinned : AList (fun _ : Str => ℕ × List Str)
  blockSize : ℕ
  map : PathMap
  digest : Option Str

/-- What a write says came of it. -/
inductive Wrote where
  | ok (entry : Entry)
  | stale (now : Option Entry)
  | full
  | none
  deriving DecidableEq

/-! ## Objects -/

/-- `+store_object_magic`. -/
def storeObjectMagic : Str := asc "CHRYSA_OBJECT 1"

/-- `(store-manifest-text size names)`: what is kept for an object. -/
def storeManifestText (size : ℕ) (names : List Str) : Str :=
  storeText (storeObjectMagic :: strNum size :: names.map hexEncode)

/-- `(store-cut store data)`: an object as the blocks it is kept in. -/
def storeCut (blockSize : ℕ) (data : Str) : List Str :=
  (List.range ((data.length + blockSize - 1) / blockSize)).map
    (fun i => (data.drop (i * blockSize)).take blockSize)

namespace Store

variable (sha256 : Str → Str) (room : Str → Bool) (store : Store)

/-- `(store-find store path)`. -/
def find (name : Str) : Option Entry := store.map.lookup name

/-- `(store-stat store path)`: `none` if there is no object of that name. -/
def stat (name : Str) : Option Entry := (store.find name).filter (fun e => !e.deleted)

/-- `(store-now store path)`: the name of the object a path is now, `""` if there is none. -/
def now (name : Str) : Str := ((store.stat name).map Entry.hash).getD []

/-- Is what the writer says the path is now not what it is. -/
def isStale (name : Str) (was : Option Str) : Bool :=
  match was with
  | some hash => decide (hash ≠ store.now name)
  | none => false

/-- The entry a write makes of a path. -/
def setEntry (name hash : Str) (size : ℕ) (deleted : Bool) (copies : Option ℕ) : Entry :=
  let was := store.find name
  { path := name, hash := hash, bytes := size,
    vv := storeVvBump ((was.map Entry.vv).getD []) store.member,
    writer := store.member, seen := [store.member], deleted := deleted,
    copies := copies.getD ((was.map Entry.copies).getD 0) }

/-- `(store-set store name hash size from deleted [copies])`: the one way a path is changed. -/
def set (name hash : Str) (size : ℕ) (was : Option Str) (deleted : Bool) (copies : Option ℕ) :
    Wrote × Store :=
  if store.isStale name was then (.stale (store.stat name), store)
  else
    let entry := store.setEntry name hash size deleted copies
    (.ok entry, { store with map := store.map.put entry, digest := none })

/-- `(store-commit store path names size [from])`, of blocks that are kept already. -/
def commit (name : Str) (names : List Str) (size : ℕ) (was : Option Str) : Wrote × Store :=
  if store.isStale name was then (.stale (store.stat name), store)
  else
    let hash := sha256 (storeManifestText size names)
    if room hash then store.set name hash size was false none else (.full, store)

/-- `(store-put store path data [from])`. -/
def put (name data : Str) (was : Option Str) : Wrote × Store :=
  if store.isStale name was then (.stale (store.stat name), store)
  else
    let names := (storeCut store.blockSize data).map sha256
    if names.all room then store.commit sha256 room name names data.length was else (.full, store)

/-- `(store-delete store path [from])`. -/
def delete (name : Str) (was : Option Str) : Wrote × Store :=
  match store.stat name with
  | none => (.none, store)
  | some _ => store.set name [] 0 was true none

/-- `(store-copies store path copies)`. -/
def copies (name : Str) (copies : ℤ) : Wrote × Store :=
  match store.stat name with
  | none => (.none, store)
  | some entry => store.set name entry.hash entry.bytes none false (some copies.toNat)

/-- `(store-members store)`. -/
def memberList : List Str := storeMembers store.members store.retired

/-- `(store-entries store)`: every entry of the path map, those deleted too, in order. -/
def entries : List Entry := store.map.inOrder

/-- `(store-meet store entries)`: the store, and the entries that are not as they were. -/
def meet (theirs : List Entry) : Store × List Entry :=
  let (map, changed) := meetAll store.memberList store.member store.map theirs
  ({ store with map := map, digest := if changed = [] then store.digest else none }, changed)

/-- `(store-pinned-lines store)`. -/
def pinnedLines : List Str :=
  sortStr (store.pinned.entries.flatMap (fun row =>
    let head := row.1 ++ asc " " ++ strNum row.2.1
    if row.2.2 = [] then [head] else row.2.2.map (fun start => head ++ asc " " ++ start)))

/-- What the digest is the name of: the path map and the members, as text. -/
def digestText : Str :=
  storeText (sortStr (store.map.entries.map (fun e => storeEntryLine e.2)) ++
    [asc "members"] ++ store.memberList ++ [asc "retired"] ++ sortStr store.retired ++
    [asc "pinned"] ++ store.pinnedLines)

/-- `(store-digest store)`: the digest, held from then on till something changes. -/
def digestOf : Str × Store :=
  match store.digest with
  | some d => (d, store)
  | none => (sha256 store.digestText, { store with digest := some (sha256 store.digestText) })

end Store

/-! ## The writes of a store -/

/-- A write asked of a store. -/
inductive Write where
  | put (room : Str → Bool) (name data : Str) (was : Option Str)
  | delete (name : Str) (was : Option Str)
  | copies (name : Str) (copies : ℤ)

/-- The path it is asked of. -/
def Write.path : Write → Str
  | .put _ name _ _ => name
  | .delete name _ => name
  | .copies name _ => name

namespace Store

variable (sha256 : Str → Str) (store : Store)

/-- What a write does. -/
def write : Write → Wrote × Store
  | .put room name data was => store.put sha256 room name data was
  | .delete name was => store.delete name was
  | .copies name copies => store.copies name copies

/-- The store with an entry it has made. -/
def wrote (entry : Entry) : Store :=
  { store with map := store.map.put entry, digest := none }

theorem set_cases (name hash : Str) (size : ℕ) (was : Option Str) (deleted : Bool)
    (copies : Option ℕ) :
    ((∃ now, (store.set name hash size was deleted copies).1 = .stale now) ∧
        (store.set name hash size was deleted copies).2 = store) ∨
      ((store.set name hash size was deleted copies).1
          = .ok (store.setEntry name hash size deleted copies) ∧
        (store.set name hash size was deleted copies).2
          = store.wrote (store.setEntry name hash size deleted copies)) := by
  unfold set
  split
  · exact Or.inl ⟨⟨_, rfl⟩, rfl⟩
  · exact Or.inr ⟨rfl, rfl⟩

/-- Everything a write can do: it says why it is refused and leaves the store as it was, or it
    makes an entry. -/
theorem write_cases (w : Write) :
    ((store.write sha256 w).2 = store ∧ ∀ e, (store.write sha256 w).1 ≠ .ok e) ∨
      ∃ hash size deleted copies,
        (store.write sha256 w).1 = .ok (store.setEntry w.path hash size deleted copies) ∧
        (store.write sha256 w).2
          = store.wrote (store.setEntry w.path hash size deleted copies) := by
  have hset : ∀ name hash size was deleted copies,
      ((store.set name hash size was deleted copies).2 = store ∧
          ∀ e, (store.set name hash size was deleted copies).1 ≠ .ok e) ∨
        ∃ hash' size' deleted' copies',
          (store.set name hash size was deleted copies).1
            = .ok (store.setEntry name hash' size' deleted' copies') ∧
          (store.set name hash size was deleted copies).2
            = store.wrote (store.setEntry name hash' size' deleted' copies') := by
    intro name hash size was deleted copies
    rcases store.set_cases name hash size was deleted copies with ⟨⟨n, h1⟩, h2⟩ | ⟨h1, h2⟩
    · exact Or.inl ⟨h2, by simp [h1]⟩
    · exact Or.inr ⟨_, _, _, _, h1, h2⟩
  cases w with
  | put room name data was =>
      simp only [write, put, commit]
      split
      · exact Or.inl ⟨rfl, by simp⟩
      · split
        · split
          · exact hset _ _ _ _ _ _
          · exact Or.inl ⟨rfl, by simp⟩
        · exact Or.inl ⟨rfl, by simp⟩
  | delete name was =>
      simp only [write, delete]
      split
      · exact Or.inl ⟨rfl, by simp⟩
      · exact hset _ _ _ _ _ _
  | copies name n =>
      simp only [write, copies]
      split
      · exact Or.inl ⟨rfl, by simp⟩
      · exact hset _ _ _ _ _ _

/-! ## Entries that are sound -/

/-- An entry every store can read: its counts and its members in order, each once. -/
structure EntrySound (e : Entry) : Prop where
  vv : VvSound e.vv
  seen : SeenSound e.seen

/-- A path map of sound entries, each under its own path. -/
structure MapSound (map : PathMap) : Prop where
  keyed : map.Keyed
  entry : ∀ p e, map.lookup p = some e → EntrySound e

theorem mapSound_empty : MapSound ∅ := ⟨keyed_empty, fun p e h => by simp at h⟩

theorem MapSound.put {map : PathMap} (h : MapSound map) {e : Entry} (he : EntrySound e) :
    MapSound (map.put e) := by
  refine ⟨h.keyed.put e, fun p e' he' => ?_⟩
  by_cases hp : p = e.path
  · subst hp
    rw [lookup_put_self] at he'
    rwa [← Option.some.inj he']
  · rw [lookup_put_ne hp] at he'
    exact h.entry p e' he'

variable {store}

/-- The entry of a write is sound if the path map is. -/
theorem entrySound_setEntry (h : MapSound store.map) {name hash : Str} {size : ℕ} {deleted : Bool}
    {copies : Option ℕ} : EntrySound (store.setEntry name hash size deleted copies) := by
  refine ⟨vvSound_bump ?_ _, seenSound_singleton _⟩
  cases hf : store.find name with
  | none => exact CountList.Canonical.nil
  | some old => exact (h.entry name old hf).vv

theorem mapSound_write (h : MapSound store.map) (w : Write) :
    MapSound (store.write sha256 w).2.map := by
  rcases store.write_cases sha256 w with ⟨h2, -⟩ | ⟨hash, size, deleted, copies, -, h2⟩
  · rwa [h2]
  · rw [h2]
    exact h.put (entrySound_setEntry h)

variable {members : List Str} {me : Str} {theirs mine : Entry}

theorem EntrySound.taken (h : EntrySound theirs) : EntrySound (taken me theirs) :=
  ⟨h.vv, seenSound_storeSeen h.seen _⟩

theorem entrySound_resolved (ht : EntrySound theirs) (hm : EntrySound mine) :
    EntrySound (resolved members me theirs mine) :=
  ⟨vvSound_merge ht.vv hm.vv, seenSound_singleton me⟩

theorem entrySound_meetNow (ht : EntrySound theirs) (hm : EntrySound mine) {now : Entry}
    (h : meetNow members me theirs mine = some now) : EntrySound now := by
  unfold meetNow at h
  split at h
  · rw [← Option.some.inj h]
    exact ht.taken
  · exact absurd h (by simp)
  · split at h
    · simp only at h
      split at h
      · exact absurd h (by simp)
      · rw [← Option.some.inj h]
        exact ⟨hm.vv, seenSound_storeSeen ht.seen _⟩
    · rw [← Option.some.inj h]
      exact entrySound_resolved ht hm

theorem entrySound_meetAside (ht : EntrySound theirs) (hm : EntrySound mine) {kept : Entry}
    (h : meetAside members me theirs mine = some kept) : EntrySound kept := by
  obtain ⟨-, rfl, -, -⟩ := meetAside_eq_some h
  have hl : EntrySound (loser members theirs mine) := by
    rcases loser_eq_or members theirs mine with he | he <;> rw [he]
    · exact ht
    · exact hm
  exact ⟨hl.vv, seenSound_singleton me⟩

theorem mapSound_meetAll {map : PathMap} (h : MapSound map) {es : List Entry}
    (hes : ∀ e ∈ es, EntrySound e) : MapSound (meetAll members me map es).1 :=
  ⟨keyed_meetAll members me h.keyed es,
    (meetAll_all h.entry (fun t ht => (hes t ht).taken)
      (fun t ht _ _ hm hnow => entrySound_meetNow (hes t ht) hm hnow)
      (fun t ht _ _ hm hkept => entrySound_meetAside (hes t ht) hm hkept)).1⟩

end Store

theorem lines_congr {a b : PathMap} (h : a.entries.Perm b.entries) :
    sortStr (a.entries.map (fun e => storeEntryLine e.2))
      = sortStr (b.entries.map (fun e => storeEntryLine e.2)) :=
  sortStr_eq_of_perm (h.map _)

/-- The digest is of the entries, the members, the retired and the pinned, and nothing else. -/
theorem Store.digestText_congr {s t : Store} (hmap : s.map.entries.Perm t.map.entries)
    (hmembers : s.members = t.members) (hretired : s.retired = t.retired)
    (hpinned : s.pinned = t.pinned) : s.digestText = t.digestText := by
  unfold Store.digestText Store.memberList Store.pinnedLines
  rw [lines_congr hmap, hmembers, hretired, hpinned]

/-! ## The entries of a map, in order -/

namespace PathMap

variable {map : PathMap}

theorem inOrder_perm (map : PathMap) : map.inOrder.Perm (map.entries.map (·.2)) :=
  List.perm_insertionSort _ _

theorem mem_inOrder (hkeyed : map.Keyed) {e : Entry} :
    e ∈ map.inOrder ↔ map.lookup e.path = some e := by
  rw [(inOrder_perm map).mem_iff, List.mem_map]
  constructor
  · rintro ⟨⟨p, e'⟩, hmem, rfl⟩
    have hlook : map.lookup p = some e' := (AList.mem_lookup_iff).2 hmem
    rw [hkeyed p e' hlook]
    exact hlook
  · intro h
    exact ⟨⟨e.path, e⟩, AList.mem_lookup_iff.1 h, rfl⟩

theorem nodup_inOrder (hkeyed : map.Keyed) : (map.inOrder.map Entry.path).Nodup := by
  have hkeys : map.entries.map (fun x => x.2.path) = map.keys := by
    refine List.map_congr_left (fun x hx => ?_)
    exact hkeyed x.1 x.2 (AList.mem_lookup_iff.2 hx)
  refine ((inOrder_perm map).map _).nodup_iff.2 ?_
  rw [List.map_map]
  exact hkeys ▸ map.keys_nodup

/-- Two maps with the same entry for every path have the same pairs. -/
theorem perm_of_lookup {a b : PathMap} (h : ∀ p, a.lookup p = b.lookup p) :
    a.entries.Perm b.entries :=
  List.lookup_ext a.nodupKeys b.nodupKeys (fun p e => by
    have := h p
    simp only [AList.lookup] at this
    rw [this])

end PathMap

end ChrysaLisp
