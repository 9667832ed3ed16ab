import ChrysaLisp.Library.FlatArray
import ChrysaLisp.Storage.Text

set_option autoImplicit false

/-! # The journal of the path map

The path map is a file that is written whole, and the journal a file of a set length that a path
that is set is added to the end of. A store is opened by reading the map and then the journal, an
entry at a time.

The journal begins with a line that is its count. A line of it is marked by the count and what is in
the line, so that a line left from before the count was last changed is not taken. The files are
here what is in them; whether there is room for the map when it is written is the volume's to say. -/

namespace ChrysaLisp

open FlatArray

/-- The files of a volume its store's path map is in: the map, `""` if there is none, the journal,
    and as long a journal as the volume may be given. -/
structure StoreVolume where
  paths : Str
  journal : Option Str
  want : ℕ

/-- Where a store is in its journal: its count, and where the next line goes. -/
structure JournalAt where
  count : ℕ
  pos : ℕ

/-- A store that is open on a volume. -/
structure OpenStore where
  store : Store
  vol : StoreVolume
  journal : Option JournalAt
  dirty : Bool

/-- `(store-journal-mark count line)`: a line of the journal. -/
def storeJournalMark (sha256 : Str → Str) (count : ℕ) (line : Str) : Str :=
  (hexEncode (sha256 (strNum count ++ asc " " ++ line))).take 8 ++ asc " " ++ line ++ storeLf

/-- The first line of a journal. -/
def journalHead (count : ℕ) : Str := strNum count ++ storeLf

/-! ## Reading it -/

/-- Is an entry later than what the map has of its path. -/
def isLater (map : PathMap) (entry : Entry) : Bool :=
  match map.lookup entry.path with
  | none => true
  | some was => decide (storeVvCmp entry.vv was.vv = .after)

/-- An entry of the journal: it is taken if it is later. The map, and how many were taken. -/
def journalTake (read : PathMap × ℕ) (entry : Entry) : PathMap × ℕ :=
  if isLater read.1 entry then (read.1.put entry, read.2 + 1) else read

/-- The entry of the line that is at `pos`, and where the next is. -/
def journalLine (sha256 : Str → Str) (text : Str) (count pos : ℕ) : Option (Entry × ℕ) :=
  match findByte 10 text pos with
  | none => none
  | some last =>
      let line := slice text (pos + 9) last
      if 9 < last - pos ∧ slice text pos (last + 1) = storeJournalMark sha256 count line then
        (storeEntryRead line).map (fun entry => (entry, last + 1))
      else none

/-- The journal from `pos` on, at most `n` lines of it. -/
def journalRead (sha256 : Str → Str) (text : Str) (count : ℕ) :
    ℕ → ℕ → PathMap × ℕ → (PathMap × ℕ) × ℕ
  | 0, pos, read => (read, pos)
  | n + 1, pos, read =>
      if text.length ≤ pos then (read, pos)
      else
        match journalLine sha256 text count pos with
        | none => (read, pos)
        | some (entry, next) => journalRead sha256 text count n next (journalTake read entry)

/-- A volume that has no journal is given one, if there is room for it. -/
def journalMake (vol : StoreVolume) (room : Bool) : StoreVolume :=
  if vol.journal = none ∧ 2 < vol.want ∧ room then
    { vol with journal := some (journalHead 0 ++ List.replicate (vol.want - 2) 0) }
  else vol

/-- `(store-journal-open store)`, of the map that has just been read: the map and how many were
    taken, and where the journal is added to. -/
def journalOpen (sha256 : Str → Str) (vol : StoreVolume) (map : PathMap) :
    (PathMap × ℕ) × Option JournalAt :=
  match vol.journal with
  | none => ((map, 0), none)
  | some text =>
      let last := (findByte 10 text 0).getD 0
      let count := strAsNum (asc "0" ++ text.take last)
      let (read, pos) := journalRead sha256 text count text.length (min text.length (last + 1)) (map, 0)
      (read, some ⟨count, pos⟩)

namespace OpenStore

variable (sha256 : Str → Str) (s : OpenStore)

/-- `(store-open device member)`: the path map, and the journal. The rest of the store is as its
    other files say. -/
def storeOpen (of : Store) (vol : StoreVolume) (room : Bool) : OpenStore :=
  let vol := journalMake vol room
  let (read, journal) := journalOpen sha256 vol (storeMapRead vol.paths)
  { store := { of with map := read.1, digest := none }
    vol := vol
    journal := journal
    dirty := false }

/-! ## Writing it -/

/-- `(store-journal-write store at data)`: bytes of the journal, where they are. Its length is as it
    was. -/
def journalWrite (pos : ℕ) (data : Str) : OpenStore :=
  { s with vol := { s.vol with
      journal := s.vol.journal.map (fun text => (overwrite text pos data).take text.length) } }

/-- `(store-journal-reset store)`: it has nothing in it. -/
def journalReset : OpenStore :=
  match s.journal with
  | none => s
  | some j =>
      let head := journalHead (j.count + 1)
      { s.journalWrite 0 head with journal := some ⟨j.count + 1, head.length⟩ }

/-- The lines of entries. -/
def journalLines (count : ℕ) (entries : List Entry) : Str :=
  (entries.map (fun e => storeJournalMark sha256 count (storeEntryLine e))).flatten

/-- `(store-journal-add store entries)`: `none` if there is no journal or no room in it. -/
def journalAdd (entries : List Entry) : Option OpenStore :=
  match s.journal with
  | none => none
  | some j =>
      let lines := journalLines sha256 j.count entries
      if j.pos + lines.length ≤ (s.vol.journal.getD []).length then
        some { s.journalWrite j.pos lines with
          journal := some ⟨j.count, j.pos + lines.length⟩
          store := { s.store with digest := none } }
      else none

/-- `(store-save store)`: the map is written whole, if there is room for it, and the journal has
    nothing in it, whether there was or not. -/
def save (room : Bool) : OpenStore :=
  { s with
    store := { s.store with digest := none }
    dirty := false
    vol := if room then { s.vol with paths := storeMapText s.store.map } else s.vol }.journalReset

/-- `(store-later store)`. -/
def later : OpenStore := { s with store := { s.store with digest := none }, dirty := true }

/-- `(store-make device size id member)`: a new store with nothing in it. -/
def make (of : Store) (want : ℕ) (room : Bool) : OpenStore :=
  (storeOpen sha256 { of with map := ∅ } ⟨[], none, want⟩ room).save room

/-- What is done with entries that have just been set: they go to the journal, or else the whole
    map. -/
def keep (entries : List Entry) (room : Bool) : OpenStore :=
  (s.journalAdd sha256 entries).getD (s.save room)

/-- A write. -/
def write (w : Write) (room : Bool) : OpenStore :=
  match s.store.write sha256 w with
  | (.ok entry, store) => { s with store := store }.keep sha256 [entry] room
  | (_, store) => { s with store := store }

/-- `(store-meet store entries later)`. -/
def meet (theirs : List Entry) (later room : Bool) : OpenStore :=
  let (store, changed) := s.store.meet theirs
  let s := { s with store := store }
  if changed = [] then s
  else
    match s.journalAdd sha256 changed with
    | some out => out
    | none => if later then s.later else s.save room

/-- `(store-close store)`. -/
def close (room : Bool) : OpenStore := if s.dirty then s.save room else s

end OpenStore

/-! ## Runs of a store on a volume -/

/-- What is asked of it. -/
inductive StoreAsk where
  | write (w : Write)
  | meet (theirs : List Entry) (later : Bool)
  | save
  | close
  /-- the volume opened again, whatever the store had that is not on it -/
  | reopen

/-- What is asked, and is there room on the volume for what is then written whole. -/
structure StoreEvent where
  ask : StoreAsk
  room : Bool

/-- What is done. -/
def OpenStore.step (sha256 : Str → Str) (s : OpenStore) (e : StoreEvent) : OpenStore :=
  match e.ask with
  | .write w => s.write sha256 w e.room
  | .meet theirs later => s.meet sha256 theirs later e.room
  | .save => s.save e.room
  | .close => s.close e.room
  | .reopen => OpenStore.storeOpen sha256 s.store s.vol e.room

end ChrysaLisp
