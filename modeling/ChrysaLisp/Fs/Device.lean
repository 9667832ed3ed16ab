import ChrysaLisp.Library.FlatArray
import ChrysaLisp.Lisp.Str
import Mathlib.Data.List.SplitBy
import Mathlib.Data.List.Sort
import Mathlib.Logic.Function.Basic

set_option autoImplicit false

/-! # The device, in blocks of sectors

The device of an exFAT volume is only ever asked for whole blocks, and the blocks last read are
kept. A small write changes the blocks that are kept, and they go to the device together, at
`flush`; a run of whole blocks goes straight to it.

The functions are those of `lib/fs/exfat.inc`, under their own names. What is kept of a volume here
is its stream, which is a flat array of bytes, the blocks of it that are kept, how many they are,
and which of them are still to be written. -/

namespace ChrysaLisp

open FlatArray

/-- `+exfat_block_size`. -/
abbrev exfatBlockSize : ℕ := 4096

/-- `+exfat_cache_blocks`, as many blocks as are kept. -/
abbrev exfatCacheBlocks : ℕ := 512

/-- `+exfat_direct_blocks`: this many whole blocks, or more, are written straight to the device. -/
abbrev exfatDirectBlocks : ℕ := 4

/-- A sector, eight of them a block. -/
abbrev exfatSector : ℕ := 512

/-- The device, and the blocks of it that are kept. -/
structure Device where
  stream : Str
  cache : ℕ → Option Str
  cached : ℕ
  dirty : List ℕ

namespace Device

/-- As `exfat-mount` starts: nothing is kept. -/
def mount (stream : Str) : Device := ⟨stream, fun _ => none, 0, []⟩

variable (vol : Device)

/-- `(exfat-raw-read vol offset len)`, `none` if the bytes are not all there. -/
def rawRead (offset len : ℕ) : Option Str :=
  let data := slice vol.stream offset (offset + len)
  if data.length = len then some data else none

/-- `(exfat-raw-write vol offset data)`. -/
def rawWrite (offset : ℕ) (data : Str) : Device :=
  { vol with stream := overwrite vol.stream offset data }

/-- What is kept of the blocks, one after the other. -/
def keptOf (run : List ℕ) : Str := run.flatMap (fun index => (vol.cache index).getD [])

/-- `(exfat-flush vol)`: the blocks that were changed go to the device in the order they are on it,
    and those that are next to each other as one write. -/
def flush : Device :=
  let runs := (vol.dirty.insertionSort (· ≤ ·)).splitBy (fun i j => decide (j = i + 1))
  { runs.foldl (fun out run => out.rawWrite (run.headD 0 * exfatBlockSize) (vol.keptOf run)) vol with
    dirty := [] }

/-- `(exfat-keep vol index block)`: when there are too many, those that were changed go to the
    device and all are let go. -/
def keep (index : ℕ) (block : Str) : Device :=
  let out :=
    if (vol.cache index).isSome then vol
    else
      let out :=
        if exfatCacheBlocks ≤ vol.cached then
          { vol.flush with cache := fun _ => none, cached := 0 }
        else vol
      { out with cached := out.cached + 1 }
  { out with cache := Function.update out.cache index (some block) }

/-- `(exfat-drop vol index)`: a block is no longer kept, and is not to be written. -/
def drop (index : ℕ) : Device :=
  if (vol.cache index).isSome then
    { vol with
      cache := Function.update vol.cache index none
      dirty := vol.dirty.filter (· ≠ index)
      cached := vol.cached - 1 }
  else vol

/-- What `exfat-block` reads of a block that is not kept: the block, or, where the device is short
    of a whole one, the sectors of it that are there. -/
def blockRead (index : ℕ) : Str :=
  match vol.rawRead (index * exfatBlockSize) exfatBlockSize with
  | some data => data
  | none =>
      ((List.range 8).filterMap
        (fun i => vol.rawRead (index * exfatBlockSize + i * exfatSector) exfatSector)).flatten

/-- `(exfat-block vol index)`: a block of the device, from those kept if it is there. -/
def block (index : ℕ) : Device × Str :=
  match vol.cache index with
  | some data => (vol, data)
  | none => (vol.keep index (vol.blockRead index), vol.blockRead index)

/-- How many blocks from `index` on are not kept, of `n`. -/
def unkept : ℕ → ℕ → ℕ
  | 0, _ => 0
  | n + 1, index => if (vol.cache index).isSome then 0 else unkept n (index + 1) + 1

/-- The blocks of a run that are not kept, a block at a time. -/
def readBlocks (run : List ℕ) : Device × Str :=
  run.foldl (fun (out, parts) index =>
    let (out, data) := out.block index
    (out, parts ++ data)) (vol, [])

/-- The blocks of a run that was read as one, kept. -/
def keepBlocks (i : ℕ) (data : Str) (run : List ℕ) : Device :=
  run.foldl (fun out index => out.keep index
    (slice data ((index - i) * exfatBlockSize) ((index + 1 - i) * exfatBlockSize))) vol

/-- A run of blocks that are not kept, from `i` to `j`: one read of the device where it is more
    than one block and all of it is there, and then kept if the run is short or it is asked for. -/
def readRun (keep : Bool) (i j : ℕ) : Device × Str :=
  match if 1 < j - i then vol.rawRead (i * exfatBlockSize) ((j - i) * exfatBlockSize) else none with
  | none => vol.readBlocks (List.range' i (j - i))
  | some data =>
      if keep ∨ j - i ≤ exfatDirectBlocks then
        (vol.keepBlocks i data (List.range' i (j - i)), data)
      else (vol, data)

/-- The blocks from `i` up to `hi`, at most `n` runs of them. -/
def readFrom (keep : Bool) (hi : ℕ) : ℕ → Device → ℕ → Device × Str
  | 0, vol, _ => (vol, [])
  | n + 1, vol, i =>
      if hi ≤ i then (vol, [])
      else
        match vol.cache i with
        | some data =>
            let (out, parts) := readFrom keep hi n vol (i + 1)
            (out, data ++ parts)
        | none =>
            let j := i + 1 + vol.unkept (hi - (i + 1)) (i + 1)
            let (out, data) := vol.readRun keep i j
            let (out, parts) := readFrom keep hi n out j
            (out, data ++ parts)

/-- `(exfat-read vol offset len keep)`: bytes of the device. -/
def read (offset len : ℕ) (keep : Bool) : Device × Str :=
  let lo := offset / exfatBlockSize
  let hi := (offset + len + (exfatBlockSize - 1)) / exfatBlockSize
  let base := lo * exfatBlockSize
  let (out, parts) := readFrom keep hi (hi - lo) vol lo
  (out, slice parts (offset - base) (offset - base + len))

/-- A block that is kept is still to be written. -/
def setDirty (index : ℕ) : Device := { vol with dirty := vol.dirty.insert index }

/-- One block of a write. The blocks from `wholeLo` to `wholeHi` are let go, since they go straight
    to the device. A block that is only part written is read first. -/
def writeBlock (offset : ℕ) (data : Str) (wholeLo wholeHi index : ℕ) : Device :=
  let base := index * exfatBlockSize
  let first := max offset base
  let last := min (offset + data.length) (base + exfatBlockSize)
  if wholeLo ≤ index ∧ index < wholeHi then vol.drop index
  else if last - first = exfatBlockSize then
    (vol.keep index (slice data (first - offset) (last - offset))).setDirty index
  else
    let (out, old) := vol.block index
    (out.keep index (slice old 0 (first - base) ++ slice data (first - offset) (last - offset)
      ++ slice old (min old.length (last - base)) old.length)).setDirty index

/-- `(exfat-write vol offset data)`: bytes to the device. -/
def write (offset : ℕ) (data : Str) : Device :=
  let last := offset + data.length
  let lo := offset / exfatBlockSize
  let hi := (last + (exfatBlockSize - 1)) / exfatBlockSize
  let wholeLo := (offset + (exfatBlockSize - 1)) / exfatBlockSize
  let wholeHi := last / exfatBlockSize
  let wholeHi := if wholeHi - wholeLo < exfatDirectBlocks then wholeLo else wholeHi
  let out := (List.range' lo (hi - lo)).foldl
    (fun out index => out.writeBlock offset data wholeLo wholeHi index) vol
  if wholeLo < wholeHi then
    out.rawWrite (wholeLo * exfatBlockSize)
      (slice data (wholeLo * exfatBlockSize - offset) (wholeHi * exfatBlockSize - offset))
  else out

/-- `(exfat-sync vol)`: all that was written is on the device. -/
def sync : Device := vol.flush

end Device

end ChrysaLisp
