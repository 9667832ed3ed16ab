import ChrysaLisp.Library.Run
import ChrysaLisp.Lisp.Text
import ChrysaLisp.Storage.Tender

set_option autoImplicit false

/-! # Does a sweep leave every block that is of an object

A store with its blocks as the volume has them: some are spoilt, not what their names say, and are
as good as not there to whoever reads them. What an object is made of is read of its manifest, a
block too, and is held once it has been read.

A sweep lets go of every block but those of the objects of its paths, as far as their manifests can
be read. The blocks of an object whose manifest cannot be read are none to it. So it leaves every
block that a path needs if each of them is of some path whose manifest can be read, and not else
(`sweep_safe_iff`). -/

namespace ChrysaLisp

/-- A store and its blocks: those the volume has, those of them that are spoilt, and the objects
    whose manifests have been read and are held. -/
structure Shelf extends Store where
  held : List Str
  spoilt : List Str
  known : List Str

namespace Shelf

variable (sha256 : Str → Str) (object : Str → Option (ℕ × List Str)) (store : Shelf)

/-! ## Blocks -/

/-- `(store-block-has? store name)`. -/
def blockHas (name : Str) : Bool := decide (name ∈ store.held)

/-- Does `(store-block-get store name)` give the block: it is kept here, and it is what its name
    says. -/
def blockGet (name : Str) : Bool := store.blockHas name && decide (name ∉ store.spoilt)

/-- `(store-block-put store data)`. -/
def blockPut (room : Bool) (data : Str) : Shelf :=
  let name := sha256 data
  if store.blockHas name then store
  else if room then
    { store with held := fsetInsert store.held name, spoilt := fsetErase store.spoilt name }
  else store

/-- `(store-block-drop store name)`. -/
def blockDrop (name : Str) : Shelf :=
  { store with held := fsetErase store.held name, known := fsetErase store.known name }

/-- What the object of a name is made of, as far as can be told here. What a block of a name says is
    the one thing for ever, `object`. -/
def tells (hash : Str) : Option (ℕ × List Str) :=
  if hash ∈ store.known ∨ store.blockGet hash = true then object hash else none

/-- `(store-manifest store hash)`: what it is made of, which is held from then on. -/
def manifest (hash : Str) : Option (ℕ × List Str) × Shelf :=
  (store.tells object hash,
    if (store.tells object hash).isSome then { store with known := fsetInsert store.known hash }
    else store)

/-! ## What the paths need -/

/-- `(store-list store [prefix deleted])`. -/
def list (start : Str) (deleted : Bool) : List Entry :=
  ((store.map.entries.filter (fun row =>
    decide (start <+: row.1) && (deleted || !row.2.deleted))).map (·.2)).insertionSort
      (fun a b => a.path ≤ b.path)

/-- The blocks of one path, as names in hex, into those that are kept here and those that are not. -/
def wantedOne (acc : Shelf × List Str × List Str) (entry : Entry) :
    Shelf × List Str × List Str :=
  let (store, held, missing) := acc
  match store.manifest object entry.hash with
  | (some made, store) =>
      let held := fsetInsert held (hexEncode entry.hash)
      made.2.foldl (fun acc name =>
        if store.blockHas name then (acc.1, fsetInsert acc.2.1 (hexEncode name), acc.2.2)
        else (acc.1, acc.2.1, fsetInsert acc.2.2 (hexEncode name))) (store, held, missing)
  | (none, store) => (store, held, fsetInsert missing (hexEncode entry.hash))

/-- `(store-wanted store [prefix])`. -/
def wanted (start : Str) : Shelf × List Str × List Str :=
  (store.list start false).foldl (wantedOne object) (store, [], [])

/-! ## Sweeping and checking -/

/-- `(store-sweep store)`: how many blocks are let go of. -/
def sweep : ℕ × Shelf :=
  let (store, live, _) := store.wanted object []
  store.held.foldl (fun acc name =>
    if hexEncode name ∈ live then acc else (acc.1 + 1, acc.2.blockDrop name)) (0, store)

/-- `(store-check store [mend])`: the blocks that are not what their names say. -/
def check (mend : Bool) : List Str × Shelf :=
  let bad := store.held.filter (fun name => !store.blockGet name)
  (bad, if mend then bad.foldl blockDrop store else store)

/-! ## Writes -/

/-- `(store-set store name hash size from deleted [copies])`. -/
def set (name hash : Str) (size : ℕ) (was : Option Str) (deleted : Bool) (copies : Option ℕ) :
    Wrote × Shelf :=
  let (wrote, after) := store.toStore.set name hash size was deleted copies
  (wrote, { store with toStore := after })

/-- `(store-commit store path names size [from])`: those of the blocks that are not here if there
    are such. -/
def commit (room : Str → Bool) (name : Str) (names : List Str) (size : ℕ) (was : Option Str) :
    Except (List Str) Wrote × Shelf :=
  let missing := names.filter (fun name => !store.blockHas name)
  if missing ≠ [] then (.error missing, store)
  else if store.isStale name was then (.ok (.stale (store.stat name)), store)
  else
    let text := storeManifestText size names
    let store := store.blockPut sha256 (room (sha256 text)) text
    if store.blockHas (sha256 text) then
      let (wrote, store) := store.set name (sha256 text) size was false none
      (.ok wrote, store)
    else (.ok .full, store)

/-- `(store-put store path data [from])`. -/
def put (room : Str → Bool) (name data : Str) (was : Option Str) :
    Except (List Str) Wrote × Shelf :=
  if store.isStale name was then (.ok (.stale (store.stat name)), store)
  else
    let blocks := storeCut store.blockSize data
    let store := blocks.foldl (fun store block => store.blockPut sha256 (room (sha256 block)) block)
      store
    if blocks.all (fun block => store.blockHas (sha256 block)) then
      store.commit sha256 room name (blocks.map sha256) data.length was
    else (.ok .full, store)

/-- `(store-delete store path [from])`. -/
def delete (name : Str) (was : Option Str) : Wrote × Shelf :=
  match store.stat name with
  | none => (.none, store)
  | some _ => store.set name [] 0 was true none

end Shelf

/-- What happens to a store and its blocks. -/
inductive ShelfEvent where
  | put (room : Str → Bool) (name data : Str) (was : Option Str)
  | commit (room : Str → Bool) (name : Str) (names : List Str) (size : ℕ) (was : Option Str)
  | delete (name : Str) (was : Option Str)
  | copies (name : Str) (copies : ℤ)
  | meet (theirs : List Entry)
  | block (room : Bool) (data : Str)
  | drop (name : Str)
  /-- a block goes wrong on the disk -/
  | spoil (name : Str)
  /-- what an object is made of is asked, to read it or for whatever else -/
  | manifest (hash : Str)
  | check (mend : Bool)
  | sweep

namespace Shelf

variable (sha256 : Str → Str) (object : Str → Option (ℕ × List Str)) (store : Shelf)

/-- What an event does. -/
def step (store : Shelf) : ShelfEvent → Shelf
  | .put room name data was => (store.put sha256 room name data was).2
  | .commit room name names size was => (store.commit sha256 room name names size was).2
  | .delete name was => (store.delete name was).2
  | .copies name copies => { store with toStore := (store.toStore.copies name copies).2 }
  | .meet theirs => { store with toStore := (store.toStore.meet theirs).1 }
  | .block room data => store.blockPut sha256 room data
  | .drop name => store.blockDrop name
  | .spoil name => { store with spoilt := fsetInsert store.spoilt name }
  | .manifest hash => (store.manifest object hash).2
  | .check mend => (store.check mend).2
  | .sweep => (store.sweep object).2

/-- A path that is not deleted. -/
def Live (path : Str) (entry : Entry) : Prop :=
  store.map.lookup path = some entry ∧ entry.deleted = false

/-- A block the object of a path that is not deleted is made of, whether or not its manifest is
    here. -/
def Needs (name : Str) : Prop :=
  ∃ path entry made, store.Live path entry ∧ object entry.hash = some made ∧ name ∈ made.2

/-- A block of a path that is not deleted whose manifest can be read here. -/
def Told (name : Str) : Prop :=
  ∃ path entry made, store.Live path entry ∧ store.tells object entry.hash = some made ∧
    (name = entry.hash ∨ name ∈ made.2)

/-- Each block held here of a path whose manifest cannot be read here is also one of a path whose
    manifest can. -/
def EachTold : Prop :=
  ∀ path entry made, store.Live path entry → store.tells object entry.hash = none →
    object entry.hash = some made → ∀ name ∈ made.2, name ∈ store.held → store.Told object name

variable {object store}

/-! ## What a sweep leaves -/

section Sweep

variable {entry : Entry} {name : Str}

theorem hexEncode_inj {a b : Str} : hexEncode a = hexEncode b ↔ a = b := by
  refine ⟨fun h => ?_, fun h => congrArg hexEncode h⟩
  rw [← hexDecode_hexEncode a, h, hexDecode_hexEncode]

theorem mem_list {start : Str} {deleted : Bool} :
    entry ∈ store.list start deleted ↔ ∃ path, store.map.lookup path = some entry ∧
      start <+: path ∧ (deleted = true ∨ entry.deleted = false) := by
  unfold list
  rw [List.mem_insertionSort, List.mem_map]
  constructor
  · rintro ⟨⟨path, e⟩, hrow, rfl⟩
    obtain ⟨hin, hcond⟩ := List.mem_filter.1 hrow
    refine ⟨path, AList.mem_lookup_iff.2 hin, ?_⟩
    simpa using hcond
  · rintro ⟨path, hlook, hcond⟩
    refine ⟨⟨path, entry⟩, List.mem_filter.2 ⟨AList.mem_lookup_iff.1 hlook, ?_⟩, rfl⟩
    simpa using hcond

/-- To read a manifest changes nothing but what has been read. -/
theorem manifest_rest (store : Shelf) (hash : Str) :
    (store.manifest object hash).2.toStore = store.toStore ∧
      (store.manifest object hash).2.held = store.held ∧
      (store.manifest object hash).2.spoilt = store.spoilt := by
  unfold manifest
  simp only
  split <;> exact ⟨rfl, rfl, rfl⟩

/-- What can be told of an object is the same when the manifest of another, or its own, has been
    read. -/
theorem tells_manifest (store : Shelf) (hash other : Str) :
    (store.manifest object hash).2.tells object other = store.tells object other := by
  have hget : (store.manifest object hash).2.blockGet other = store.blockGet other := by
    unfold blockGet blockHas
    rw [(manifest_rest store hash).2.1, (manifest_rest store hash).2.2]
  unfold tells
  rw [hget]
  unfold manifest
  simp only
  split
  next hsome =>
    by_cases heq : other = hash
    · -- it has been read, so it could be
      subst heq
      have hcan : other ∈ store.known ∨ store.blockGet other = true := by
        by_contra hnot
        rw [tells, if_neg hnot] at hsome
        exact absurd hsome (by simp)
      rw [if_pos hcan, if_pos (Or.inl (mem_fsetInsert.2 (Or.inr rfl)))]
    · simp only [mem_fsetInsert, or_iff_left heq]
  · rfl

/-- The same store, of which no less and no more can be told. -/
structure Same (object : Str → Option (ℕ × List Str)) (store after : Shelf) : Prop where
  toStore : after.toStore = store.toStore
  held : after.held = store.held
  tells : ∀ hash, after.tells object hash = store.tells object hash

theorem Same.refl (store : Shelf) : Same object store store := ⟨rfl, rfl, fun _ => rfl⟩

theorem Same.trans {a b c : Shelf} (h : Same object a b) (h' : Same object b c) :
    Same object a c :=
  ⟨h'.toStore.trans h.toStore, h'.held.trans h.held, fun hash => (h'.tells hash).trans (h.tells hash)⟩

theorem same_manifest (store : Shelf) (hash : Str) :
    Same object store (store.manifest object hash).2 :=
  ⟨(manifest_rest store hash).1, (manifest_rest store hash).2.1, tells_manifest store hash⟩

/-- The blocks of an object, each into those that are kept here or those that are not. -/
theorem mem_wantedBlocks (store : Shelf) (names : List Str) (acc : Shelf × List Str × List Str) :
    (names.foldl (fun acc name =>
        if store.blockHas name then (acc.1, fsetInsert acc.2.1 (hexEncode name), acc.2.2)
        else (acc.1, acc.2.1, fsetInsert acc.2.2 (hexEncode name))) acc).1 = acc.1 ∧
      ∀ n, hexEncode n ∈ (names.foldl (fun acc name =>
        if store.blockHas name then (acc.1, fsetInsert acc.2.1 (hexEncode name), acc.2.2)
        else (acc.1, acc.2.1, fsetInsert acc.2.2 (hexEncode name))) acc).2.1 ↔
          hexEncode n ∈ acc.2.1 ∨ (n ∈ names ∧ n ∈ store.held) := by
  induction names generalizing acc with
  | nil => exact ⟨rfl, fun n => by simp⟩
  | cons name names ih =>
      rw [List.foldl_cons]
      by_cases hhas : name ∈ store.held
      · have hb : store.blockHas name = true := decide_eq_true hhas
        simp only [hb, if_true]
        refine ⟨(ih _).1, fun n => ((ih _).2 n).trans ?_⟩
        rw [mem_fsetInsert, hexEncode_inj, List.mem_cons]
        constructor
        · rintro ((hin | rfl) | hn)
          · exact Or.inl hin
          · exact Or.inr ⟨Or.inl rfl, hhas⟩
          · exact Or.inr ⟨Or.inr hn.1, hn.2⟩
        · rintro (hin | ⟨rfl | hn, hheld⟩)
          · exact Or.inl (Or.inl hin)
          · exact Or.inl (Or.inr rfl)
          · exact Or.inr ⟨hn, hheld⟩
      · have hb : store.blockHas name = false := decide_eq_false hhas
        simp only [hb]
        refine ⟨(ih _).1, fun n => ((ih _).2 n).trans (or_congr Iff.rfl ?_)⟩
        rw [List.mem_cons]
        refine ⟨fun hn => ⟨Or.inr hn.1, hn.2⟩, fun hn => ⟨hn.1.resolve_left ?_, hn.2⟩⟩
        rintro rfl
        exact hhas hn.2

/-- What one path adds to the blocks there are to be here: those of its object that are, if it can
    be told what it is made of. -/
theorem wantedOne_spec (acc : Shelf × List Str × List Str) (entry : Entry) :
    Same object acc.1 (wantedOne object acc entry).1 ∧
      ∀ n, hexEncode n ∈ (wantedOne object acc entry).2.1 ↔ hexEncode n ∈ acc.2.1 ∨
        ∃ made, acc.1.tells object entry.hash = some made ∧
          (n = entry.hash ∨ (n ∈ made.2 ∧ n ∈ acc.1.held)) := by
  obtain ⟨store, held, missing⟩ := acc
  have hsame := @same_manifest object store entry.hash
  have hfst : (store.manifest object entry.hash).1 = store.tells object entry.hash := rfl
  unfold wantedOne
  simp only
  split
  next made after heq =>
    rw [heq] at hsame hfst
    obtain ⟨hstore, hmem⟩ := mem_wantedBlocks after made.2
      (after, fsetInsert held (hexEncode entry.hash), missing)
    refine ⟨hstore ▸ hsame, fun n => (hmem n).trans ?_⟩
    have hheld : after.held = store.held := hsame.held
    rw [mem_fsetInsert, hexEncode_inj, hheld, or_assoc]
    refine or_congr Iff.rfl ⟨fun h => ⟨made, hfst.symm, h⟩, ?_⟩
    rintro ⟨made', hmade', h⟩
    obtain rfl := Option.some.inj (hfst.trans hmade')
    exact h
  next after heq =>
    rw [heq] at hsame hfst
    refine ⟨hsame, fun n => ⟨Or.inl, fun h => h.resolve_right ?_⟩⟩
    rintro ⟨made, hmade, -⟩
    rw [← hfst] at hmade
    exact absurd hmade (by simp)

theorem wanted_spec (entries : List Entry) (acc : Shelf × List Str × List Str) :
    Same object acc.1 (entries.foldl (wantedOne object) acc).1 ∧
      ∀ n, hexEncode n ∈ (entries.foldl (wantedOne object) acc).2.1 ↔ hexEncode n ∈ acc.2.1 ∨
        ∃ entry ∈ entries, ∃ made, acc.1.tells object entry.hash = some made ∧
          (n = entry.hash ∨ (n ∈ made.2 ∧ n ∈ acc.1.held)) := by
  induction entries generalizing acc with
  | nil => exact ⟨Same.refl _, fun n => by simp⟩
  | cons entry entries ih =>
      obtain ⟨hone, hmem⟩ := wantedOne_spec acc entry
      obtain ⟨hrest, hmem'⟩ := ih (wantedOne object acc entry)
      rw [List.foldl_cons]
      refine ⟨hone.trans hrest, fun n => (hmem' n).trans ?_⟩
      rw [hmem n, or_assoc, List.exists_mem_cons_iff]
      simp only [hone.tells, hone.held]

/-- A block held here is let go of by a sweep if it is not of a path whose manifest can be read. -/
theorem mem_held_sweep (store : Shelf) (name : Str) :
    name ∈ (store.sweep object).2.held ↔ name ∈ store.held ∧ store.Told object name := by
  obtain ⟨hsame, hlive⟩ := @wanted_spec object (store.list [] false) (store, [], [])
  have hfold : ∀ (live names : List Str) (acc : ℕ × Shelf),
      name ∈ (names.foldl (fun acc name =>
        if hexEncode name ∈ live then acc else (acc.1 + 1, acc.2.blockDrop name)) acc).2.held ↔
        name ∈ acc.2.held ∧ (name ∈ names → hexEncode name ∈ live) := by
    intro live names
    induction names with
    | nil => exact fun acc => by simp
    | cons other names ih =>
        intro acc
        rw [List.foldl_cons, ih, List.mem_cons]
        split
        next hin =>
          refine and_congr_right (fun _ => ⟨?_, fun h hn => h (Or.inr hn)⟩)
          rintro h (rfl | hn)
          · exact hin
          · exact h hn
        next hout =>
          show name ∈ fsetErase acc.2.held other ∧ _ ↔ _
          rw [mem_fsetErase]
          constructor
          · rintro ⟨⟨hin, hne⟩, h⟩
            exact ⟨hin, fun hn => h (hn.resolve_left hne)⟩
          · rintro ⟨hin, h⟩
            refine ⟨⟨hin, ?_⟩, fun hn => h (Or.inr hn)⟩
            rintro rfl
            exact hout (h (Or.inl rfl))
  have hsweep := hfold (store.wanted object []).2.1 (store.wanted object []).1.held
    (0, (store.wanted object []).1)
  have hheld : (store.wanted object []).1.held = store.held := hsame.held
  refine hsweep.trans ?_
  rw [hheld]
  refine and_congr_right (fun hin => ?_)
  rw [imp_iff_right hin]
  refine (hlive name).trans ?_
  simp only [List.not_mem_nil, false_or, mem_list, List.nil_prefix, true_and]
  constructor
  · rintro ⟨entry, ⟨path, hlook, hdel⟩, made, hmade, hname⟩
    exact ⟨path, entry, made, ⟨hlook, by simpa using hdel⟩, hmade, hname.imp_right And.left⟩
  · rintro ⟨path, entry, made, ⟨hlook, hdel⟩, hmade, hname⟩
    exact ⟨entry, ⟨path, hlook, Or.inr hdel⟩, made, hmade, hname.imp_right (fun hn => ⟨hn, hin⟩)⟩

/-- **A sweep leaves every block a path needs** if each of those whose manifest cannot be read is
    also of a path whose manifest can, and not else. -/
theorem sweep_keeps_iff (store : Shelf) :
    (∀ name ∈ store.held, store.Needs object name → name ∈ (store.sweep object).2.held) ↔
      store.EachTold object := by
  constructor
  · intro h path entry made hlive _ hmade name hname hheld
    exact ((mem_held_sweep store name).1 (h name hheld ⟨path, entry, made, hlive, hmade, hname⟩)).2
  · rintro h name hheld ⟨path, entry, made, hlive, hmade, hname⟩
    refine (mem_held_sweep store name).2 ⟨hheld, ?_⟩
    cases htells : store.tells object entry.hash with
    | none => exact h path entry made hlive htells hmade name hname hheld
    | some made' =>
        have heq : object entry.hash = some made' := by
          unfold tells at htells
          split at htells
          · exact htells
          · exact absurd htells (by simp)
        obtain rfl := Option.some.inj (hmade.symm.trans heq)
        exact ⟨path, entry, made, hlive, htells, Or.inr hname⟩

/-- **Sweeps over a run**: none lets go of a block that a path needs if, whenever one is made, each
    block of a path whose manifest cannot be read is also of a path whose manifest can, and not
    else. -/
theorem sweep_safe_iff (store : Shelf) (es : List ShelfEvent) :
    Run.Each (step sha256 object) (fun store e => e = .sweep →
        ∀ name ∈ store.held, store.Needs object name → name ∈ (step sha256 object store e).held)
        store es ↔
      Run.Each (step sha256 object) (fun store e => e = .sweep → store.EachTold object) store es := by
  have hstep : ∀ (store : Shelf) (e : ShelfEvent),
      (e = .sweep → ∀ name ∈ store.held, store.Needs object name →
        name ∈ (step sha256 object store e).held) ↔ (e = .sweep → store.EachTold object) := by
    intro store e
    refine forall_congr' (fun he => ?_)
    subst he
    exact sweep_keeps_iff store
  exact ⟨Run.Each.imp (fun s e => (hstep s e).1), Run.Each.imp (fun s e => (hstep s e).2)⟩

end Sweep

/-! ## A song whose manifest is spoilt

A song is put, its manifest goes wrong on the disk before it is read again, and a check lets go of
it, to be had again from another member. A sweep then lets go of the song. -/

/-- A store of a member of two, with nothing in it. -/
def shelfOfTwo : Shelf where
  toStore := Mesh.storeOfTwo (asc "aaaa")
  held := []
  spoilt := []
  known := []

/-- The song, its manifest spoilt and let go of, and a sweep. -/
def songSpoilt : List ShelfEvent :=
  [.put (fun _ => true) (asc "song") (asc "a song") none, .spoil Tending.songManifest, .check true,
    .sweep]

/-- **The sweep lets go of the song**, which its path needs yet. -/
theorem sweep_fails : ¬ ∀ (sha256 : Str → Str) (object : Str → Option (ℕ × List Str))
    (store : Shelf) (es : List ShelfEvent), store.held = [] → store.map = ∅ →
    Run.Each (step sha256 object) (fun store e => e = .sweep →
      ∀ name ∈ store.held, store.Needs object name → name ∈ (step sha256 object store e).held)
      store es := by
  intro h
  have heach := h Mesh.songSha256 Tending.songObject shelfOfTwo songSpoilt rfl rfl
  have hsong : ((Run.run (step Mesh.songSha256 Tending.songObject) shelfOfTwo
      (songSpoilt.take 3)).map.lookup (asc "song")).map (fun e => (e.deleted, e.hash))
        = some (false, Tending.songManifest) := by decide +kernel
  obtain ⟨entry, hlook, hentry⟩ := Option.map_eq_some_iff.1 hsong
  obtain ⟨hdel, hhash⟩ := Prod.mk.injEq .. ▸ hentry
  have hobject : Tending.songObject entry.hash = some (6, [Tending.songBlock]) := by
    rw [hhash]
    rfl
  have hkept := heach.2.2.2.1 rfl Tending.songBlock (by decide +kernel)
    ⟨asc "song", entry, _, ⟨hlook, hdel⟩, hobject, List.mem_singleton_self _⟩
  revert hkept
  decide +kernel

end Shelf

end ChrysaLisp
