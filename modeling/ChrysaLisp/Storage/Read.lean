import ChrysaLisp.Library.FlatArray
import ChrysaLisp.Storage.Text

set_option autoImplicit false

/-! # Objects, read whole and read in part

An object is cut into blocks of the size the store was opened with, and what it is made of, how
long it is and the names of its blocks in order, is a block too, its manifest. To have all of an
object is to go by the manifest from block to block (`Holder.get`). To have a part of it is to
count off which blocks that part is in (`readObject`), each of them as long as this store would cut
it, whoever cut it.

So the two agree of an object whose blocks are the pieces this store would cut (`Aligned`), and of
no other (`readObject_iff`). -/

namespace ChrysaLisp

/-- `(slice str start end)`: backwards where the end is before the start; `none` throws. -/
def strSlice (s : Str) (start stop : ℤ) : Option Str :=
  let start := if start < 0 then start + s.length + 1 else start
  let stop := if stop < 0 then stop + s.length + 1 else stop
  if start < 0 ∨ stop < 0 ∨ s.length < start ∨ s.length < stop then none
  else if start ≤ stop then some (FlatArray.slice s start.toNat stop.toNat)
  else some (FlatArray.slice s stop.toNat start.toNat).reverse

/-! ## An object of these blocks -/

/-- What a reading comes to. -/
inductive Reading where
  | data (data : Str)
  | nil
  | threw
  deriving DecidableEq

/-- The blocks of an object in order, each given to a function with what the last one gave; `none`
if one of them can not be had. -/
def foldBlocks {σ : Type*} (block : Str → Option Str) (step : σ → Str → ℕ → σ) :
    List Str → ℕ → σ → Option σ
  | [], _, state => some state
  | name :: names, i, state =>
      match block name with
      | some data => foldBlocks block step names (i + 1) (step state data i)
      | none => none

/-- All of an object: the parts of it, put together. -/
def getObject (block : Str → Option Str) (names : List Str) : Option Str :=
  (foldBlocks block (fun parts data _ => parts ++ [data]) names 0 []).map List.flatten

/-- The loop of a reading, from a block on: what is wanted of each block is cut from it. -/
def readParts (size : ℕ) (block : Str → Option Str) (offset stop : ℤ) :
    List Str → ℕ → Str → Reading
  | [], i, parts => if (i : ℤ) * size < stop then .threw else .data parts
  | name :: names, i, parts =>
      if (i : ℤ) * size < stop then
        match block name with
        | none => .nil
        | some data =>
            match strSlice data (max 0 (offset - i * size)) (min data.length (stop - i * size)) with
            | none => .threw
            | some part => readParts size block offset stop names (i + 1) (parts ++ part)
      else .data parts

/-- Part of an object that is so long and of those blocks, by a size of its blocks. -/
def readObject (size : ℕ) (block : Str → Option Str) (object : ℕ × List Str) (offset len : ℤ) :
    Reading :=
  let stop := min (object.1 : ℤ) (offset + len)
  let offset := max 0 (min offset stop)
  let i := (offset / size).toNat
  readParts size block offset stop (object.2.drop i) i []

/-! ## A store and the blocks that are in it -/

/-- A store as far as what its blocks have in them goes. What is kept is what its name says: a block
gone wrong on the disk is found, and let go of. -/
structure Holder (sha256 : Str → Str) extends Store where
  held : AList (fun _ : Str => Str)
  named : ∀ name data, held.lookup name = some data → sha256 data = name

namespace Holder

variable {sha256 : Str → Str} (store : Holder sha256)

/-- `(store-block-has? store name)`. -/
def blockHas (name : Str) : Bool := (store.held.lookup name).isSome

/-- `(store-block-get store name)`. -/
def blockGet (name : Str) : Option Str :=
  (store.held.lookup name).filter (fun found => decide (sha256 found = name))

/-- `(store-block-put store data)`, where the volume has room for it or not. -/
def blockPut (room : Bool) (data : Str) : Holder sha256 :=
  if store.blockHas (sha256 data) then store
  else if room then
    { store with
      held := store.held.insert (sha256 data) data
      named := fun name found h => by
        by_cases hname : name = sha256 data
        · subst hname
          rw [AList.lookup_insert] at h
          rw [← Option.some.inj h]
        · rw [AList.lookup_insert_ne hname] at h
          exact store.named name found h }
  else store

/-- `(store-manifest store hash)`. One that has been read is held, in the source, and is what it
would be read as again: a name is of the one thing for ever. -/
def manifest (hash : Str) : Option (ℕ × List Str) :=
  match storeLines ((store.blockGet hash).getD []) with
  | magic :: size :: names =>
      if magic = storeObjectMagic then some (strAsNum size, names.map hexDecode) else none
  | _ => none

/-- What `store-commit` says came of it. -/
inductive Committed where
  | missing (names : List Str)
  | wrote (wrote : Wrote)
  deriving DecidableEq

/-- `(store-set store name hash size from deleted [copies])`. -/
def set (name hash : Str) (size : ℕ) (was : Option Str) (deleted : Bool) (copies : Option ℕ) :
    Wrote × Holder sha256 :=
  let wrote := store.toStore.set name hash size was deleted copies
  (wrote.1, { store with toStore := wrote.2 })

/-- `(store-commit store path names size [from])`. -/
def commit (room : Str → Bool) (name : Str) (names : List Str) (size : ℕ) (was : Option Str) :
    Committed × Holder sha256 :=
  let missing := names.filter (fun name => !store.blockHas name)
  if missing ≠ [] then (.missing missing, store)
  else if store.isStale name was then (.wrote (.stale (store.stat name)), store)
  else
    let text := storeManifestText size names
    let store := store.blockPut (room (sha256 text)) text
    if store.blockHas (sha256 text) then
      let wrote := store.set name (sha256 text) size was false none
      (.wrote wrote.1, wrote.2)
    else (.wrote .full, store)

/-- `(store-put store path data [from])`. -/
def put (room : Str → Bool) (name data : Str) (was : Option Str) : Committed × Holder sha256 :=
  if store.isStale name was then (.wrote (.stale (store.stat name)), store)
  else
    let blocks := storeCut store.blockSize data
    let store := blocks.foldl (fun store block => store.blockPut (room (sha256 block)) block) store
    if blocks.all (fun block => store.blockHas (sha256 block)) then
      store.commit room name (blocks.map sha256) data.length was
    else (.wrote .full, store)

/-- `(store-meet store entries)`. -/
def meet (theirs : List Entry) : Holder sha256 :=
  { store with toStore := (store.toStore.meet theirs).1 }

/-- The object a path is: how long it is, and the names of its blocks. -/
def object (name : Str) : Option (ℕ × List Str) :=
  (store.stat name).bind (fun entry => store.manifest entry.hash)

/-- `(store-fold store path state step)`: `store-walk`, from each block to the one after it. -/
def fold {σ : Type*} (name : Str) (state : σ) (step : σ → Str → ℕ → σ) : Option σ :=
  (store.object name).bind (fun object => foldBlocks store.blockGet step object.2 0 state)

/-- `(store-get store path)`. -/
def get (name : Str) : Option Str :=
  (store.fold name [] (fun parts data _ => parts ++ [data])).map List.flatten

/-- `(store-read store path offset len)`. -/
def read (name : Str) (offset len : ℤ) : Reading :=
  match store.object name with
  | some object => readObject store.blockSize store.blockGet object offset len
  | none => .nil

end Holder

/-- One who asks a service: what it says of a path, the block of a name as it can be had of it, and
the block size it says it has. -/
structure Asker where
  stat : Str → Option Entry
  block : Str → Option Str
  blockSize : Option ℕ

namespace Asker

variable (svc : Asker)

/-- `(storage-manifest path [svc])`. -/
def manifest (name : Str) : Option (ℕ × List Str) :=
  (svc.stat name).bind (fun entry =>
    match storeLines ((svc.block entry.hash).getD []) with
    | _ :: size :: names => some (strAsNum size, names.map hexDecode)
    | _ => none)

/-- `(storage-get path [svc])`. -/
def get (name : Str) : Option Str :=
  (svc.manifest name).bind (fun object => getObject svc.block object.2)

/-- `(storage-read path offset len [svc])`. -/
def read (name : Str) (offset len : ℤ) : Reading :=
  match svc.manifest name, svc.blockSize with
  | some object, some size => readObject size svc.block object offset len
  | _, _ => .nil

end Asker

/-! ## The blocks a reading goes to -/

section Parts

variable {size : ℕ} {block : Str → Option Str}

/-- A part that is wanted of a block, as `store-read` says which. -/
theorem strSlice_part (data : Str) {start stop : ℕ} (h : start ≤ stop) :
    strSlice data start (min (data.length : ℤ) stop)
      = if data.length < start then none else some ((data.take stop).drop start) := by
  have hstop : min (data.length : ℤ) stop = ((min data.length stop : ℕ) : ℤ) := by push_cast; rfl
  rw [hstop]
  unfold strSlice
  simp only [Int.not_ofNat_neg, if_false, false_or, Nat.cast_lt, Nat.cast_le, Int.toNat_natCast]
  by_cases hlen : data.length < start
  · rw [if_pos (Or.inl hlen), if_pos hlen]
  · rw [if_neg (by omega), if_neg hlen, if_pos (by omega), FlatArray.slice, List.drop_take]
    congr 1
    apply List.ext_getElem?
    intro k
    simp only [List.getElem?_take, List.getElem?_drop]
    by_cases hk : k < stop - start
    · rw [if_pos hk]
      by_cases hk' : k < min data.length stop - start
      · rw [if_pos hk']
      · rw [if_neg hk', List.getElem?_eq_none (by omega)]
    · rw [if_neg hk, if_neg (by omega)]

theorem readParts_done {offset stop : ℤ} {i : ℕ} (h : stop ≤ (i : ℤ) * size) (names : List Str)
    (parts : Str) : readParts size block offset stop names i parts = .data parts := by
  cases names with
  | nil => rw [readParts, if_neg (by omega)]
  | cons name names => rw [readParts, if_neg (by omega)]

variable {o s : ℕ}

/-- One block of a reading. -/
theorem readParts_cons {name : Str} {names : List Str} {data : Str} (hblock : block name = some data)
    (hos : o ≤ s) {i : ℕ} (hi : i * size < s) (parts : Str) :
    readParts size block o s (name :: names) i parts
      = if data.length < o - i * size then .threw
        else readParts size block o s names (i + 1)
          (parts ++ (data.take (s - i * size)).drop (o - i * size)) := by
  have hlt : (i : ℤ) * size < s := by exact_mod_cast hi
  have hstart : max 0 ((o : ℤ) - i * size) = ((o - i * size : ℕ) : ℤ) := by omega
  have hstop : (s : ℤ) - i * size = ((s - i * size : ℕ) : ℤ) := by omega
  rw [readParts, if_pos hlt, hblock]
  simp only
  rw [hstart, hstop, strSlice_part data (by omega)]
  by_cases hlen : data.length < o - i * size
  · rw [if_pos hlen, if_pos hlen]
  · rw [if_neg hlen, if_neg hlen]

/-- A reading of whole numbers from one place of an object to another. -/
def readFrom (size : ℕ) (block : Str → Option Str) (names : List Str) (o s : ℕ) : Reading :=
  readParts size block o s (names.drop (o / size)) (o / size) []

/-- What is wanted, as far as the manifest says there is so much, is read from one place to
    another that is not before it. -/
theorem readObject_eq (n : ℕ) (names : List Str) (offset len : ℤ) :
    ∃ o s : ℕ, o ≤ s ∧ s ≤ n ∧
      readObject size block (n, names) offset len = readFrom size block names o s ∧
      ∀ data : Str, data.length ≤ n →
        FlatArray.slice data offset.toNat (offset + len).toNat = (data.take s).drop o := by
  set stop := min (n : ℤ) (offset + len) with hstop
  have hslice : ∀ data : Str, data.length ≤ n → FlatArray.slice data offset.toNat (offset + len).toNat
      = (data.take stop.toNat).drop (max 0 (min offset stop)).toNat := by
    intro data hdata
    apply List.ext_getElem?
    intro k
    rw [FlatArray.getElem?_slice, List.getElem?_drop, List.getElem?_take]
    by_cases hin : offset.toNat + k < data.length
    · have hmin : (offset.toNat + k < (offset + len).toNat) ↔
          ((max 0 (min offset stop)).toNat + k < stop.toNat) := by omega
      by_cases hk : offset.toNat + k < (offset + len).toNat
      · rw [if_pos hk, if_pos (hmin.1 hk)]
        congr 1
        omega
      · rw [if_neg hk, if_neg (fun h => hk (hmin.2 h))]
    · -- past the end of the data there is nothing, whichever way it is counted
      have hnone : data[offset.toNat + k]? = none := List.getElem?_eq_none (by omega)
      rw [hnone, ite_self]
      split
      · rw [List.getElem?_eq_none (by omega)]
      · rfl
  by_cases hneg : stop < 0
  · refine ⟨0, 0, le_rfl, Nat.zero_le n, ?_, fun data hdata => ?_⟩
    · have hzero : max 0 (min offset stop) = 0 := by omega
      unfold readObject readFrom
      simp only
      rw [← hstop, hzero, readParts_done (by simp; omega), readParts_done (by simp)]
    · rw [hslice data hdata]
      have h0 : stop.toNat = 0 := by omega
      rw [h0]
      simp
  · refine ⟨(max 0 (min offset stop)).toNat, stop.toNat, by omega, by omega, ?_, hslice⟩
    have ho : max 0 (min offset stop) = (((max 0 (min offset stop)).toNat : ℕ) : ℤ) := by omega
    have hs : stop = ((stop.toNat : ℕ) : ℤ) := by omega
    have hdiv : (max 0 (min offset stop) / (size : ℤ)).toNat = (max 0 (min offset stop)).toNat / size := by
      rw [ho]
      exact_mod_cast rfl
    unfold readObject readFrom
    simp only
    rw [← hstop, hdiv, ← ho, ← hs]

theorem readObject_self (n : ℕ) (names : List Str) (hos : o ≤ s) (hs : s ≤ n) :
    readObject size block (n, names) o ((s - o : ℕ) : ℤ) = readFrom size block names o s := by
  have hstop : min (n : ℤ) ((o : ℤ) + ((s - o : ℕ) : ℤ)) = (s : ℤ) := by omega
  have ho : max 0 (min (o : ℤ) (s : ℤ)) = (o : ℤ) := by omega
  unfold readObject readFrom
  simp only
  rw [hstop, ho]
  norm_cast

/-! ## When the whole and the parts agree -/

/-- The piece of so many bytes that a place in the blocks counts off. -/
def piece (size : ℕ) (data : Str) (i : ℕ) : Str := (data.drop (i * size)).take size

/-- Blocks that a store of this block size counts off rightly, of an object said to be so long: each
    that a reading can go to is the piece of that size, and the object is as long as it is said to
    be. (It may be said to be longer where no reading can begin inside of what is not there.) -/
structure Aligned (size n : ℕ) (blocks : List Str) : Prop where
  pieces : ∀ i, i * size < n → blocks[i]? = some (piece size blocks.flatten i)
  length : blocks.flatten.length ≤ n
  past : ∀ place, blocks.flatten.length < place → place ≤ n → size ∣ place

theorem length_piece (data : Str) (i : ℕ) :
    (piece size data i).length = min size (data.length - i * size) := by
  simp [piece]

/-- What is wanted of a piece, and what is wanted after it. -/
theorem piece_append_drop {data : Str} (hos : o ≤ s) {i : ℕ} (hi : i * size < s)
    (hlen : o - i * size ≤ (piece size data i).length) :
    ((piece size data i).take (s - i * size)).drop (o - i * size)
        ++ (data.take s).drop (max o ((i + 1) * size))
      = (data.take s).drop (max o (i * size)) := by
  have hnext : (i + 1) * size = i * size + size := Nat.succ_mul i size
  rw [length_piece] at hlen
  have hmax : max o ((i + 1) * size) = i * size + size := by omega
  rw [hmax]
  apply List.ext_getElem?
  intro k
  simp only [piece, List.getElem?_append, List.getElem?_drop, List.getElem?_take,
    List.length_drop, List.length_take]
  by_cases hk : k < min (s - i * size) (min size (data.length - i * size)) - (o - i * size)
  · rw [if_pos hk, if_pos (by omega), if_pos (by omega), if_pos (by omega)]
    congr 1
    omega
  · rw [if_neg hk]
    by_cases hend : max o (i * size) + k < s
    · rw [if_pos hend]
      by_cases hdata : max o (i * size) + k < data.length
      · rw [if_pos (by omega)]
        congr 1
        omega
      · have hnone : data[max o (i * size) + k]? = none := List.getElem?_eq_none (by omega)
        rw [hnone, List.getElem?_eq_none (by omega), ite_self]
    · rw [if_neg hend, if_neg (by omega)]

/-- From a block on, of blocks that are the pieces, a reading gives what is there. -/
theorem readParts_pieces {data : Str} (hos : o ≤ s) (names : List Str) : ∀ (i : ℕ) (parts : Str),
    (∀ j, (i + j) * size < s →
      ∃ name, names[j]? = some name ∧ block name = some (piece size data (i + j))) →
    (i * size < s → o - i * size ≤ (piece size data i).length) →
    readParts size block o s names i parts
      = .data (parts ++ (data.take s).drop (max o (i * size))) := by
  have hdone : ∀ (names : List Str) (i : ℕ) (parts : Str), s ≤ i * size →
      readParts size block o s names i parts
        = .data (parts ++ (data.take s).drop (max o (i * size))) := by
    intro names i parts hi
    rw [readParts_done (by exact_mod_cast hi), List.drop_eq_nil_of_le
      (by rw [List.length_take]; omega), List.append_nil]
  induction names with
  | nil =>
      intro i parts hnames hfirst
      by_cases hi : i * size < s
      · obtain ⟨name, hname, -⟩ := hnames 0 hi
        exact absurd hname (by simp)
      · exact hdone [] i parts (by omega)
  | cons name names ih =>
      intro i parts hnames hfirst
      by_cases hi : i * size < s
      · obtain ⟨name', hname, hblock⟩ := hnames 0 hi
        obtain rfl : name = name' := Option.some.inj hname
        have hlen := hfirst hi
        have hnext : (i + 1) * size = i * size + size := Nat.succ_mul i size
        have hplace : o - (i + 1) * size = 0 := by
          rw [length_piece] at hlen
          omega
        rw [readParts_cons hblock hos hi, Nat.add_zero, if_neg (by omega),
          ih (i + 1) _ (fun j hj => ?_) (fun _ => by omega), List.append_assoc,
          piece_append_drop hos hi hlen]
        obtain ⟨name', hname', hblock'⟩ := hnames (j + 1) (by rwa [← Nat.add_assoc, Nat.add_right_comm])
        exact ⟨name', hname', by rwa [Nat.add_right_comm, Nat.add_assoc]⟩
      · exact hdone (name :: names) i parts (by omega)

/-- The names of these blocks: each is what the block of its name is. -/
theorem exists_name {names : List Str} {blocks : List Str}
    (hblocks : names.map block = blocks.map some) {i : ℕ} {data : Str}
    (h : blocks[i]? = some data) : ∃ name, names[i]? = some name ∧ block name = some data := by
  have hi := congrArg (fun l => l[i]?) hblocks
  simp only [List.getElem?_map, h, Option.map_some] at hi
  obtain ⟨name, hname, hdata⟩ := Option.map_eq_some_iff.1 hi
  exact ⟨name, hname, hdata⟩

/-- Of blocks that are counted off rightly a reading gives what is there. -/
theorem readFrom_aligned {n : ℕ} {names blocks : List Str} (hsize : 0 < size)
    (hblocks : names.map block = blocks.map some) (h : Aligned size n blocks) (hos : o ≤ s)
    (hs : s ≤ n) : readFrom size block names o s = .data ((blocks.flatten.take s).drop o) := by
  have hdiv : o / size * size ≤ o := Nat.div_mul_le_self o size
  have hmod : o < o / size * size + size := by
    have := Nat.lt_div_mul_add (a := o) hsize
    omega
  unfold readFrom
  rw [readParts_pieces hos (names.drop (o / size)) (o / size) [], List.nil_append,
    max_eq_left hdiv]
  · intro j hj
    obtain ⟨name, hname, hdata⟩ := exists_name hblocks (h.pieces (o / size + j) (by omega))
    exact ⟨name, by rw [List.getElem?_drop, hname], hdata⟩
  · intro _
    rw [length_piece]
    by_cases hpast : o ≤ blocks.flatten.length
    · omega
    · -- a place that is past the end begins a block
      obtain ⟨m, hm⟩ := h.past o (by omega) (by omega)
      have hwhole : o / size * size = o := by rw [hm, Nat.mul_div_cancel_left _ hsize, mul_comm]
      omega

/-! ## Only of those -/

/-- A reading that has come to a block there is. -/
theorem readParts_at {names blocks : List Str} (hblocks : names.map block = blocks.map some)
    {i : ℕ} {data : Str} (h : blocks[i]? = some data) (hos : o ≤ s) (hi : i * size < s)
    (parts : Str) :
    readParts size block o s (names.drop i) i parts
      = if data.length < o - i * size then .threw
        else readParts size block o s (names.drop (i + 1)) (i + 1)
          (parts ++ (data.take (s - i * size)).drop (o - i * size)) := by
  obtain ⟨name, hname, hdata⟩ := exists_name hblocks h
  obtain ⟨hlt, hget⟩ := List.getElem?_eq_some_iff.1 hname
  rw [List.drop_eq_getElem_cons hlt, hget, readParts_cons hdata hos hi]

/-- What has come through the blocks before, of blocks that are the pieces so far. -/
theorem flatten_take {data : Str} {blocks : List Str} {i : ℕ}
    (h : ∀ j < i, blocks[j]? = some (piece size data j)) :
    (blocks.take i).flatten = data.take (i * size) := by
  induction i with
  | zero => simp
  | succ i ih =>
      rw [List.take_add_one, h i (Nat.lt_succ_self i), List.flatten_append,
        ih (fun j hj => h j (Nat.lt_succ_of_lt hj)), Nat.succ_mul, List.take_add]
      simp [piece]

section Reads

variable {n : ℕ} {names blocks : List Str}

/-- A reading that begins at a block, and goes no further than that block is to go. -/
theorem exists_block (hsize : 0 < size) (hblocks : names.map block = blocks.map some)
    (h : ∀ o s, o ≤ s → s ≤ n →
      readFrom size block names o s = .data ((blocks.flatten.take s).drop o)) {i : ℕ}
    (hi : i * size < n) :
    ∃ data, blocks[i]? = some data ∧ ∀ s, i * size < s → s ≤ n → s ≤ (i + 1) * size →
      data.take (s - i * size) = (blocks.flatten.take s).drop (i * size) := by
  have hfirst : ∀ s, i * size < s → s ≤ n →
      readParts size block ((i * size : ℕ) : ℤ) s (names.drop i) i []
        = .data ((blocks.flatten.take s).drop (i * size)) := by
    intro s hs hn
    have hread := h (i * size) s hs.le hn
    rwa [readFrom, Nat.mul_div_cancel i hsize] at hread
  cases hdata : blocks[i]? with
  | none =>
      -- there is no block for it to go to
      have hlen : names.length = blocks.length := by simpa using congrArg List.length hblocks
      have hread := hfirst n hi le_rfl
      rw [List.drop_eq_nil_of_le (hlen ▸ List.getElem?_eq_none_iff.1 hdata), readParts,
        if_pos (by exact_mod_cast hi)] at hread
      exact absurd hread (by simp)
  | some data =>
      refine ⟨data, rfl, fun s hs hn hend => ?_⟩
      have hread := hfirst s hs hn
      rw [readParts_at hblocks hdata hs.le hs, if_neg (by omega),
        readParts_done (by exact_mod_cast hend), Nat.sub_self, List.drop_zero, List.nil_append] at hread
      exact Reading.data.inj hread

/-- Where every reading gives what is there, the blocks are the pieces. -/
theorem pieces_of_reads (hsize : 0 < size) (hblocks : names.map block = blocks.map some)
    (hlen : blocks.flatten.length ≤ n)
    (h : ∀ o s, o ≤ s → s ≤ n →
      readFrom size block names o s = .data ((blocks.flatten.take s).drop o)) (i : ℕ) :
    i * size < n → blocks[i]? = some (piece size blocks.flatten i) := by
  induction i using Nat.strong_induction_on with
  | _ i ih =>
      intro hi
      have hnext : (i + 1) * size = i * size + size := Nat.succ_mul i size
      obtain ⟨data, hdata, hone⟩ := exists_block hsize hblocks h hi
      -- what is left of the object is this block and those after it
      obtain ⟨hlt, hget⟩ := List.getElem?_eq_some_iff.1 hdata
      have hrest : blocks.flatten.drop (i * size) = data ++ (blocks.drop (i + 1)).flatten := by
        have hbefore : (blocks.take i).flatten = blocks.flatten.take (i * size) :=
          flatten_take (fun j hj => ih j hj
            ((Nat.mul_le_mul_right size hj.le).trans_lt hi))
        have hall : blocks.flatten.take (i * size) ++ blocks.flatten.drop (i * size)
            = blocks.flatten.take (i * size) ++ (blocks.drop i).flatten := by
          rw [List.take_append_drop, ← hbefore, ← List.flatten_append, List.take_append_drop]
        rw [List.append_cancel_left hall, List.drop_eq_getElem_cons hlt, hget, List.flatten_cons]
      have hcount := congrArg List.length hrest
      rw [List.length_drop, List.length_append] at hcount
      have hshort : data.length ≤ size := by
        by_contra hlong
        have hmore : (i + 1) * size < n := by omega
        obtain ⟨data', hdata', hone'⟩ := exists_block hsize hblocks h hmore
        -- one byte of the block after it is read on the end of all that is too much of this one
        have hread := h (i * size) ((i + 1) * size + 1) (by omega) hmore
        rw [readFrom, Nat.mul_div_cancel i hsize, readParts_at hblocks hdata (by omega) (by omega),
          if_neg (by omega), readParts_at hblocks hdata' (by omega) (by omega), if_neg (by omega),
          readParts_done (by push_cast; nlinarith)] at hread
        have hread := congrArg List.length (Reading.data.inj hread)
        have hlen' := congrArg List.length (hone' ((i + 1) * size + 1) (by omega) hmore (by nlinarith))
        simp only [List.length_append, List.length_take, List.length_drop, List.length_nil]
          at hread hlen'
        omega
      have htake := congrArg List.length (hone (min n ((i + 1) * size)) (by omega) (by omega) (by omega))
      simp only [List.length_take, List.length_drop] at htake
      rw [hdata, piece, hrest]
      congr 1
      rw [List.take_append]
      have hafter : (blocks.drop (i + 1)).flatten.take (size - data.length) = [] := by
        rw [← List.length_eq_zero_iff, List.length_take]
        omega
      rw [hafter, List.append_nil, List.take_of_length_le hshort]

/-- **Readings agree with the object just where its blocks are counted off rightly.** -/
theorem readObject_iff (hsize : 0 < size) (hblocks : names.map block = blocks.map some) :
    (∀ offset len : ℤ, readObject size block (n, names) offset len
      = .data (FlatArray.slice blocks.flatten offset.toNat (offset + len).toNat)) ↔
    Aligned size n blocks := by
  refine ⟨fun h => ?_, fun h offset len => ?_⟩
  · have hlen : blocks.flatten.length ≤ n := by
      -- to read as much as is said, and one byte more than that, is the same reading
      have hall := h 0 n
      have hmore := h 0 (n + 1)
      have hsame : readObject size block (n, names) 0 n = readObject size block (n, names) 0 (n + 1) := by
        have hstop : min (n : ℤ) (0 + n) = min (n : ℤ) (0 + (n + 1)) := by omega
        simp only [readObject, hstop]
      rw [hall, hmore] at hsame
      have hslice := congrArg List.length (Reading.data.inj hsame)
      simp only [FlatArray.length_slice] at hslice
      omega
    have hreads : ∀ o s, o ≤ s → s ≤ n →
        readFrom size block names o s = .data ((blocks.flatten.take s).drop o) := by
      intro o s hos hs
      rw [← readObject_self n names hos hs, h, FlatArray.slice, List.drop_take]
      have hend : ((o : ℤ) + ((s - o : ℕ) : ℤ)).toNat = s := by omega
      rw [hend, Int.toNat_natCast]
    have hpieces := pieces_of_reads hsize hblocks hlen hreads
    refine ⟨hpieces, hlen, fun place hpast hplace => ?_⟩
    by_contra hinside
    have hdiv : place / size * size ≤ place := Nat.div_mul_le_self place size
    have hi : place / size * size < place :=
      lt_of_le_of_ne hdiv (fun he => hinside ⟨place / size, by rw [← he, mul_comm]; simp [hsize]⟩)
    have hread := hreads place place le_rfl hplace
    rw [readFrom, readParts_at hblocks (hpieces _ (by omega)) le_rfl hi, length_piece,
      if_pos (by omega)] at hread
    exact absurd hread (by simp)
  · obtain ⟨o, s, hos, hs, hread, hslice⟩ := @readObject_eq size block n names offset len
    rw [hread, hslice _ h.length]
    exact readFrom_aligned hsize hblocks h hos hs

end Reads

end Parts

/-! ## Blocks as a store cuts them -/

section Cut

variable {size : ℕ}

theorem getElem?_storeCut (hsize : 0 < size) (data : Str) (i : ℕ) :
    (storeCut size data)[i]? = if i * size < data.length then some (piece size data i) else none := by
  have hcount : i < (data.length + size - 1) / size ↔ i * size < data.length := by
    rw [← Nat.succ_le_iff, Nat.le_div_iff_mul_le hsize, Nat.succ_mul]
    omega
  unfold storeCut
  rw [List.getElem?_map]
  by_cases h : i * size < data.length
  · rw [if_pos h, List.getElem?_range (hcount.2 h)]
    rfl
  · rw [if_neg h, List.getElem?_eq_none (by rw [List.length_range]; exact Nat.le_of_not_lt (mt hcount.1 h))]
    rfl

/-- The blocks an object is cut into are that object. -/
theorem flatten_storeCut (hsize : 0 < size) (data : Str) : (storeCut size data).flatten = data := by
  set count := (data.length + size - 1) / size with hcount
  have hlen : (storeCut size data).length = count := by simp [storeCut, hcount]
  have hall : data.length ≤ count * size := by
    have hceil := Nat.lt_div_mul_add (a := data.length + size - 1) hsize
    rw [← hcount] at hceil
    omega
  have hpieces : ∀ j < count, (storeCut size data)[j]? = some (piece size data j) := by
    intro j hj
    rw [getElem?_storeCut hsize, if_pos]
    by_contra hend
    have hnone : (storeCut size data)[j]? = none := by rw [getElem?_storeCut hsize, if_neg hend]
    rw [List.getElem?_eq_none_iff, hlen] at hnone
    omega
  have htake : ((storeCut size data).take count).flatten = data.take (count * size) :=
    flatten_take hpieces
  rwa [← hlen, List.take_length, hlen, List.take_of_length_le hall] at htake

/-- An object cut with a size is counted off rightly with another just if it is one block of
    either: what is read first tells, if it is not. -/
theorem aligned_storeCut {cut : ℕ} (hcut : 0 < cut) (data : Str) :
    Aligned size data.length (storeCut cut data) ↔ cut = size ∨ data.length ≤ min cut size := by
  constructor
  · intro h
    by_cases hnil : 0 < data.length
    · have hfirst := h.pieces 0 (by omega)
      rw [getElem?_storeCut hcut, if_pos (by omega), flatten_storeCut hcut] at hfirst
      have hlen := congrArg List.length (Option.some.inj hfirst)
      rw [length_piece, length_piece] at hlen
      omega
    · exact Or.inr (by omega)
  · intro h
    refine ⟨fun i hi => ?_, (congrArg List.length (flatten_storeCut hcut data)).le, ?_⟩
    · rw [flatten_storeCut hcut]
      rcases h with rfl | hsmall
      · rw [getElem?_storeCut hcut, if_pos hi]
      · have hzero : i = 0 := by
          by_contra hi0
          have : size ≤ i * size := Nat.le_mul_of_pos_left size (Nat.pos_of_ne_zero hi0)
          omega
        subst hzero
        rw [getElem?_storeCut hcut, if_pos (by omega), piece, piece, Nat.zero_mul, Nat.zero_mul,
          List.drop_zero, List.take_of_length_le (by omega), List.take_of_length_le (by omega)]
    · rw [flatten_storeCut hcut]
      exact fun place h1 h2 => absurd h1 (by omega)

end Cut

/-! ## An object put is the object had -/

section Get

variable {block : Str → Option Str}

theorem foldBlocks_push {names blocks : List Str} (hblocks : names.map block = blocks.map some) :
    ∀ (i : ℕ) (parts : List Str),
      foldBlocks block (fun parts data _ => parts ++ [data]) names i parts = some (parts ++ blocks) := by
  induction names generalizing blocks with
  | nil =>
      intro i parts
      rw [List.map_nil, eq_comm, List.map_eq_nil_iff] at hblocks
      rw [hblocks, List.append_nil]
      rfl
  | cons name names ih =>
      intro i parts
      cases blocks with
      | nil => exact absurd hblocks (by simp)
      | cons data blocks =>
          rw [List.map_cons, List.map_cons, List.cons.injEq] at hblocks
          rw [foldBlocks, hblocks.1]
          simp only
          rw [ih hblocks.2, List.append_assoc]
          rfl

/-- What is had of an object is its blocks, and every one of them can be had. -/
theorem getObject_eq_some {names : List Str} {data : Str} :
    getObject block names = some data ↔
      ∃ blocks : List Str, names.map block = blocks.map some ∧ blocks.flatten = data := by
  constructor
  · intro h
    have hfold : ∀ (names : List Str) (i : ℕ) (parts all : List Str),
        foldBlocks block (fun parts data _ => parts ++ [data]) names i parts = some all →
          ∃ blocks : List Str, names.map block = blocks.map some ∧ all = parts ++ blocks := by
      intro names
      induction names with
      | nil => exact fun i parts all h => ⟨[], rfl, by simpa [foldBlocks] using h.symm⟩
      | cons name names ih =>
          intro i parts all h
          rw [foldBlocks] at h
          cases hdata : block name with
          | none =>
              rw [hdata] at h
              exact absurd h (by simp)
          | some data =>
              rw [hdata] at h
              obtain ⟨blocks, hblocks, rfl⟩ := ih (i + 1) (parts ++ [data]) all h
              exact ⟨data :: blocks, by simp [hdata, hblocks], by simp⟩
    obtain ⟨all, hall, rfl⟩ := Option.map_eq_some_iff.1 h
    obtain ⟨blocks, hblocks, hparts⟩ := hfold names 0 [] all hall
    exact ⟨blocks, hblocks, by rw [hparts, List.nil_append]⟩
  · intro h
    obtain ⟨blocks, hblocks, rfl⟩ := h
    rw [getObject, foldBlocks_push hblocks]
    simp

end Get

namespace Holder

variable {sha256 : Str → Str} {store : Holder sha256}

theorem get_eq (name : Str) :
    store.get name = (store.object name).bind (fun object => getObject store.blockGet object.2) := by
  unfold get fold getObject
  cases store.object name <;> rfl

theorem toStore_blockPut (room : Bool) (data : Str) :
    (store.blockPut room data).toStore = store.toStore := by
  unfold blockPut
  split
  · rfl
  · split <;> rfl

/-- What is kept after a block is put was kept before, or is that block. -/
theorem lookup_blockPut {room : Bool} {data name found : Str}
    (h : (store.blockPut room data).held.lookup name = some found) :
    store.held.lookup name = some found ∨ found = data := by
  unfold blockPut at h
  split at h
  · exact Or.inl h
  · split at h
    · by_cases hname : name = sha256 data
      · subst hname
        rw [AList.lookup_insert] at h
        exact Or.inr (Option.some.inj h).symm
      · exact Or.inl ((AList.lookup_insert_ne hname).symm.trans h)
    · exact Or.inl h

theorem blockHas_blockPut {room : Bool} {data name : Str} (h : store.blockHas name = true) :
    (store.blockPut room data).blockHas name = true := by
  unfold blockPut
  split
  · exact h
  next hnot =>
    split
    · have hname : name ≠ sha256 data := fun he => hnot (he ▸ h)
      exact (congrArg Option.isSome (AList.lookup_insert_ne hname)).trans h
    · exact h

theorem foldl_blockPut (room : Str → Bool) (blocks : List Str) : ∀ store : Holder sha256,
    let now := blocks.foldl (fun store block => store.blockPut (room (sha256 block)) block) store
    now.toStore = store.toStore ∧
      ∀ name found, now.held.lookup name = some found →
        store.held.lookup name = some found ∨ found ∈ blocks := by
  induction blocks with
  | nil => exact fun store => ⟨rfl, fun _ _ h => Or.inl h⟩
  | cons block blocks ih =>
      intro store
      obtain ⟨hstore, hheld⟩ := ih (store.blockPut (room (sha256 block)) block)
      refine ⟨hstore.trans (toStore_blockPut _ _), fun name found h => ?_⟩
      rcases hheld name found h with h' | h'
      · rcases lookup_blockPut h' with h'' | rfl
        · exact Or.inl h''
        · exact Or.inr List.mem_cons_self
      · exact Or.inr (List.mem_cons_of_mem _ h')

/-- What is kept of an object put: its manifest, and its blocks. -/
def kept (sha256 : Str → Str) (size : ℕ) (data : Str) : List Str :=
  storeManifestText data.length ((storeCut size data).map sha256) :: storeCut size data

/-- A path set to an object: its entry, and that all the object is made of is kept. -/
theorem put_ok {room : Str → Bool} {name data : Str} {was : Option Str} {entry : Entry}
    {now : Holder sha256} (h : store.put room name data was = (.wrote (.ok entry), now)) :
    now.stat name = some entry ∧
      entry.hash = sha256 (storeManifestText data.length ((storeCut store.blockSize data).map sha256)) ∧
      (∀ d ∈ kept sha256 store.blockSize data, now.blockHas (sha256 d) = true) ∧
      ∀ nm found, now.held.lookup nm = some found →
        store.held.lookup nm = some found ∨ found ∈ kept sha256 store.blockSize data := by
  set blocks := storeCut store.blockSize data with hblocks
  set text := storeManifestText data.length (blocks.map sha256) with htext
  obtain ⟨hstore, hheld⟩ := foldl_blockPut room blocks store
  unfold put at h
  simp only at h
  rw [← hblocks] at h
  set mid := blocks.foldl (fun store block => store.blockPut (room (sha256 block)) block) store
  split at h
  · exact absurd h (by simp)
  · split at h
    next hall =>
      unfold commit at h
      simp only at h
      split at h
      · exact absurd h (by simp)
      · split at h
        · exact absurd h (by simp)
        · split at h
          next hhas =>
            obtain ⟨hwrote, rfl⟩ := Prod.mk.inj h
            have hset := (mid.blockPut (room (sha256 text)) text).toStore.set_cases name
              (sha256 text) data.length was false none
            rcases hset with ⟨⟨stale, hstale⟩, -⟩ | ⟨hok, hafter⟩
            · exact absurd (hstale.symm.trans (Committed.wrote.inj hwrote)) (by simp)
            · have hentry := Wrote.ok.inj (hok.symm.trans (Committed.wrote.inj hwrote))
              refine ⟨?_, by rw [← hentry]; rfl, fun d hd => ?_, fun nm found hfound => ?_⟩
              · show Store.stat (Store.set _ name (sha256 text) data.length was false none).2 name
                  = some entry
                rw [hafter, ← hentry]
                unfold Store.stat Store.find Store.wrote
                exact congrArg (Option.filter _) (lookup_put_self _ _)
              · rcases List.mem_cons.1 hd with rfl | hd
                · exact hhas
                · exact blockHas_blockPut (List.all_eq_true.1 hall d hd)
              · rcases lookup_blockPut hfound with hmid | rfl
                · exact (hheld nm found hmid).imp_right (List.mem_cons_of_mem _)
                · exact Or.inr List.mem_cons_self
          · exact absurd h (by simp)
    · exact absurd h (by simp)

/-- A block that is kept, and whose name no other block has, is had by its name. -/
theorem blockGet_of_has {d : Str} (hhas : store.blockHas (sha256 d) = true)
    (hone : ∀ nm found, store.held.lookup nm = some found → sha256 found = sha256 d → found = d) :
    store.blockGet (sha256 d) = some d := by
  obtain ⟨found, hfound⟩ := Option.isSome_iff_exists.1 hhas
  have hname := store.named _ found hfound
  rw [blockGet, hfound, Option.filter_some, if_pos (decide_eq_true hname), hone _ found hfound hname]

/-- A manifest that is kept is read as what it was written of. -/
theorem manifest_of_text {size : ℕ} {names : List Str} (hnames : ∀ name ∈ names, name ≠ [])
    {hash : Str} (h : store.blockGet hash = some (storeManifestText size names)) :
    store.manifest hash = some (size, names) := by
  have hlines : storeLines (storeManifestText size names)
      = storeObjectMagic :: strNum size :: names.map hexEncode := by
    refine storeLines_storeText (fun line hline => ?_)
    rcases List.mem_cons.1 hline with rfl | hline
    · decide
    · rcases List.mem_cons.1 hline with rfl | hline
      · exact ⟨strNum_ne_nil size, not_mem_strNum (by decide) size⟩
      · obtain ⟨name, hname, rfl⟩ := List.mem_map.1 hline
        refine ⟨fun hnil => hnames name hname ?_, fun hmem => ?_⟩
        · have hlen := congrArg List.length hnil
          rw [length_hexEncode] at hlen
          exact List.length_eq_zero_iff.1 (by simpa using hlen)
        · exact absurd (le_of_mem_hexEncode hmem).1 (by decide)
  unfold manifest
  rw [h, Option.getD_some, hlines]
  simp only [if_true, strAsNum_strNum, List.map_map]
  have hback : (hexDecode ∘ hexEncode) = id := funext hexDecode_hexEncode
  rw [hback, List.map_id]

end Holder

/-! ## Reads agree with the object -/

section Agree

variable {sha256 : Str → Str} (store : Holder sha256)

/-- No two of what is kept, and what an object of this data is kept as, have the one name. -/
def Holder.NoClash (data : Str) : Prop :=
  ∀ d ∈ Holder.kept sha256 store.blockSize data, ∀ found,
    (found ∈ Holder.kept sha256 store.blockSize data ∨
      ∃ name, store.held.lookup name = some found) → sha256 found = sha256 d → found = d

/-- The blocks of the object a path is, if there is one, are counted off rightly by this store. -/
def Holder.Counted (name : Str) : Prop :=
  ∀ object, store.object name = some object →
    Aligned store.blockSize object.1 (object.2.filterMap store.blockGet)

variable {store}

theorem get_of_put (hsha : ∀ data, (sha256 data).length = 32) (hsize : 0 < store.blockSize)
    {room : Str → Bool} {name data : Str} {was : Option Str} {entry : Entry} {now : Holder sha256}
    (hclash : store.NoClash data) (h : store.put room name data was = (.wrote (.ok entry), now)) :
    now.get name = some data := by
  obtain ⟨hstat, hhash, hhas, hheld⟩ := Holder.put_ok h
  have hget : ∀ d ∈ Holder.kept sha256 store.blockSize data, now.blockGet (sha256 d) = some d :=
    fun d hd => Holder.blockGet_of_has (hhas d hd) (fun nm found hfound =>
      hclash d hd found ((hheld nm found hfound).symm.imp_right (fun h => ⟨nm, h⟩)))
  have hnames : ∀ name ∈ (storeCut store.blockSize data).map sha256, name ≠ [] := by
    intro name hname hnil
    obtain ⟨d, -, rfl⟩ := List.mem_map.1 hname
    exact absurd (hsha d) (by simp [hnil])
  have hobject : now.object name
      = some (data.length, (storeCut store.blockSize data).map sha256) := by
    rw [Holder.object, hstat, Option.bind_some, hhash]
    exact Holder.manifest_of_text hnames (hget _ List.mem_cons_self)
  rw [Holder.get_eq, hobject, Option.bind_some, getObject_eq_some]
  refine ⟨storeCut store.blockSize data, ?_, flatten_storeCut hsize data⟩
  rw [List.map_map]
  exact List.map_congr_left (fun d hd => hget d (List.mem_cons_of_mem _ hd))

/-- What is had of an object that every block of can be had. -/
theorem filterMap_of_map {block : Str → Option Str} {names blocks : List Str}
    (h : names.map block = blocks.map some) : names.filterMap block = blocks := by
  have hid : names.filterMap block = (names.map block).filterMap id := by
    rw [List.filterMap_map]
    rfl
  rw [hid, h, List.filterMap_map]
  exact List.filterMap_some

theorem read_iff_counted (hsize : 0 < store.blockSize) {name data : Str}
    (h : store.get name = some data) :
    (∀ offset len : ℤ, store.read name offset len
      = .data (FlatArray.slice data offset.toNat (offset + len).toNat)) ↔ store.Counted name := by
  rw [Holder.get_eq] at h
  obtain ⟨⟨n, names⟩, hobject, hget⟩ := Option.bind_eq_some_iff.1 h
  obtain ⟨blocks, hblocks, rfl⟩ := getObject_eq_some.1 hget
  have hcounted : store.Counted name ↔ Aligned store.blockSize n blocks := by
    unfold Holder.Counted
    rw [hobject]
    simp [filterMap_of_map hblocks]
  rw [hcounted, ← readObject_iff hsize hblocks]
  unfold Holder.read
  rw [hobject]

end Agree

/-- One who asks a service: its readings agree with the object just where the blocks are as long
as the service says it cuts them. -/
theorem Asker.read_iff_aligned {svc : Asker} {size : ℕ} (hsize : 0 < size)
    (hinfo : svc.blockSize = some size) {name data : Str} (h : svc.get name = some data) :
    (∀ offset len : ℤ, svc.read name offset len
      = .data (FlatArray.slice data offset.toNat (offset + len).toNat)) ↔
    ∀ object, svc.manifest name = some object →
      Aligned size object.1 (object.2.filterMap svc.block) := by
  obtain ⟨⟨n, names⟩, hobject, hget⟩ := Option.bind_eq_some_iff.1 h
  obtain ⟨blocks, hblocks, rfl⟩ := getObject_eq_some.1 hget
  have haligned : (∀ object, svc.manifest name = some object →
      Aligned size object.1 (object.2.filterMap svc.block)) ↔ Aligned size n blocks := by
    rw [hobject]
    simp [filterMap_of_map hblocks]
  rw [haligned, ← readObject_iff hsize hblocks]
  unfold Asker.read
  rw [hobject, hinfo]

/-- The SHA-256 of two blocks, of the manifest of the object that they are, and of nothing. -/
def lettersSha256 (data : Str) : Str :=
  if data = asc "abcd" then
    [136, 212, 38, 111, 212, 230, 51, 141, 19, 184, 69, 252, 242, 137, 87, 157,
     32, 156, 137, 120, 35, 185, 33, 125, 163, 225, 97, 147, 111, 3, 21, 137]
  else if data = asc "ef" then
    [76, 166, 105, 172, 55, 19, 209, 244, 174, 160, 125, 174, 141, 204, 13, 28,
     152, 103, 210, 126, 168, 42, 59, 164, 230, 21, 138, 66, 32, 111, 149, 155]
  else if data = storeManifestText 6 [
      [136, 212, 38, 111, 212, 230, 51, 141, 19, 184, 69, 252, 242, 137, 87, 157,
       32, 156, 137, 120, 35, 185, 33, 125, 163, 225, 97, 147, 111, 3, 21, 137],
      [76, 166, 105, 172, 55, 19, 209, 244, 174, 160, 125, 174, 141, 204, 13, 28,
       152, 103, 210, 126, 168, 42, 59, 164, 230, 21, 138, 66, 32, 111, 149, 155]] then
    [77, 222, 180, 99, 80, 175, 69, 250, 243, 33, 229, 160, 72, 101, 183, 26,
     20, 47, 228, 171, 108, 212, 120, 201, 119, 127, 188, 102, 103, 138, 147, 14]
  else
    [227, 176, 196, 66, 152, 252, 28, 20, 154, 251, 244, 200, 153, 111, 185, 36,
     39, 174, 65, 228, 100, 155, 147, 76, 164, 149, 153, 27, 120, 82, 184, 85]

theorem length_lettersSha256 (data : Str) : (lettersSha256 data).length = 32 := by
  unfold lettersSha256
  split
  · rfl
  · split
    · rfl
    · split <;> rfl

/-- A store of such a block size, with nothing in it. -/
def nothingHeld (sha256 : Str → Str) (member : Str) (size : ℕ) : Holder sha256 where
  member := member
  members := [member]
  retired := []
  pinned := ∅
  blockSize := size
  map := ∅
  digest := none
  held := ∅
  named := fun _ _ h => absurd h (by simp)

/-- An object put where a block is four bytes. -/
def cutByFour : Holder lettersSha256 :=
  ((nothingHeld lettersSha256 (asc "AA") 4).put (fun _ => true) (asc "p") (asc "abcdef") none).2

/-- A member whose blocks are two bytes, that has met the one whose are four, and has its blocks. -/
def metByTwo : Holder lettersSha256 :=
  (cutByFour.held.entries.foldl (fun store block => store.blockPut true block.2)
    (nothingHeld lettersSha256 (asc "BB") 2)).meet cutByFour.entries

end ChrysaLisp
