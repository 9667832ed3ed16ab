import ChrysaLisp.Library.Run
import ChrysaLisp.Lisp.Text
import Mathlib.Logic.Function.Basic

set_option autoImplicit false

/-! # The sync service, as it is sent files

A file is sent in chunks, each with where in the file it is from and how long the file is. The
service has one file open to be written, by its path and how far it has got: a chunk from 0 opens
its file, whatever was open, and any other goes on with the file that is open if the path and the
place are the ones it has got to. Nothing says whose the chunk is.

What is written to a file is held till there is a buffer of it, so what is on the host is behind
what was sent. When a file is let go of, what is held is written where it was to go, whatever the
host has there by then. -/

namespace ChrysaLisp

/-! ## Files of the host -/

/-- What a host has in its files. -/
abbrev Files := Str → Option Str

/-- `pii_write` by a handle that has got so far: what is there is written over, and what the file
    has not got up to there is zeros. -/
def writeAt (bytes : Str) (pos : ℕ) (data : Str) : Str :=
  bytes.take pos ++ List.replicate (pos - bytes.length) 0 ++ data ++ bytes.drop (pos + data.length)

/-- An `fstream` that is written: its file, where its handle has got to, and what is in the buffer. -/
structure FileStream where
  path : Str
  pos : ℕ
  buf : Str

/-- `fstream_buf_size`. -/
def fstreamBufSize : ℕ := 4096

namespace FileStream

variable (files : Files) (stream : FileStream)

/-- `:fstream :flush`. -/
def flush : Files × FileStream :=
  if stream.buf = [] then (files, stream)
  else
    (Function.update files stream.path
        (some (writeAt ((files stream.path).getD []) stream.pos stream.buf)),
      { stream with pos := stream.pos + stream.buf.length, buf := [] })

/-- `:stream :write_char`: a buffer that is full is written first. -/
def writeChar (files : Files) (stream : FileStream) (c : Byte) : Files × FileStream :=
  let (files, stream) := if stream.buf.length = fstreamBufSize then stream.flush files
    else (files, stream)
  (files, { stream with buf := stream.buf ++ [c] })

/-- `(write-blk stream str)`, a char after another. -/
def writeBlk (body : Str) : Files × FileStream :=
  body.foldl (fun acc c => writeChar acc.1 acc.2 c) (files, stream)

end FileStream

/-! ## Paths -/

/-- `(sync-safe? path)`. -/
def syncSafe (path : Str) : Bool :=
  decide (path ≠ []) && !decide (asc "/" <+: path) && !decide (asc "~" <+: path) &&
    decide (58 ∉ path) && decide (92 ∉ path) && !decide (asc "//" <:+: path) &&
    path.all (fun c => decide (32 ≤ c.val)) &&
    (split path 47).all (fun part => decide (part ≠ asc ".." ∧ part ≠ asc "." ∧ part ≠ asc ".git"))

/-! ## The service -/

/-- A put as it reaches the service, with who sent it, which the service is not told, and what the
    host says when it comes: is the path inside the root, `sync-inside?`, and can the file be
    opened. -/
structure SyncPut (ι : Type) where
  sender : ι
  place : ℤ
  total : ℤ
  data : Str
  inside : Bool
  opens : Bool

namespace SyncPut

variable {ι : Type} (m : SyncPut ι)

/-- Where the first line of what is sent ends. -/
def nl : Option ℕ := findByte 10 m.data 0

/-- The path it is to be written to. -/
def path : Str := m.data.take (m.nl.getD 0)

/-- What is to be written. -/
def body : Str := m.data.drop ((m.nl.map (· + 1)).getD 0)

/-- Is it a path the service will write to. -/
def safe : Bool := m.nl.isSome && syncSafe m.path && m.inside

end SyncPut

/-- The service between two messages, as far as what it writes goes. -/
structure SyncService where
  fenced : Bool
  files : Files
  out : Option FileStream
  outPath : Str
  outAt : ℕ

namespace SyncService

variable {ι : Type} (service : SyncService) (m : SyncPut ι)

/-- A stream that is let go of is flushed. -/
def letGo (out : Option FileStream) (files : Files) : Files :=
  match out with
  | some stream => (stream.flush files).1
  | none => files

/-- A file starts at 0. It is opened before the one that was open is let go of. -/
def start : SyncService :=
  if m.place = 0 then
    let files := if m.opens then Function.update service.files m.path (some []) else service.files
    { service with
      files := letGo service.out files
      out := if m.opens then some ⟨m.path, 0, []⟩ else none
      outPath := m.path
      outAt := 0 }
  else service

/-- A put of a file that is open, or is not. -/
def goOn : SyncService × ℤ :=
  match service.out with
  | none => ({ service with outPath := [] }, -3)
  | some stream =>
      if m.path ≠ service.outPath ∨ m.place ≠ service.outAt then
        ({ service with files := letGo service.out service.files, out := none, outPath := [] }, -3)
      else
        let (files, stream) := stream.writeBlk service.files m.body
        let got := service.outAt + m.body.length
        if m.total ≤ got then
          ({ service with files := (stream.flush files).1, out := none, outPath := [], outAt := got },
            0)
        else ({ service with files := files, out := some stream, outAt := got }, 0)

/-- `+sync_type_put`: the service, and the status it answers. -/
def put : SyncService × ℤ :=
  if !service.fenced then (service, -1)
  else if !m.safe then (service, -2)
  else (service.start m).goOn m

/-- What a put does. -/
def step (service : SyncService) (m : SyncPut ι) : SyncService := (service.put m).1

end SyncService

/-! ## A sender -/

/-- `+sync_chunk`. -/
def syncChunk : ℕ := 131072

/-- The chunks a file goes over in, from a place on: where each is from, and what is in it. A file
    of nothing is a chunk of nothing. -/
def chunksFrom (data : Str) (place : ℕ) : List (ℕ × Str) :=
  if place < data.length ∨ place = 0 then
    let last := min data.length (place + syncChunk)
    (place, (data.drop place).take (last - place)) ::
      chunksFrom data (if last = place then data.length + 1 else last)
  else []
termination_by data.length + 1 - place
decreasing_by
  have hchunk : 0 < syncChunk := by decide
  by_cases hend : min data.length (place + syncChunk) = place
  · rw [dif_pos hend]
    omega
  · rw [dif_neg hend]
    omega

/-- A chunk of a file, as it is sent. -/
def SyncPut.IsChunk {ι : Type} (m : SyncPut ι) (path data : Str) (chunk : ℕ × Str) : Prop :=
  m.place = chunk.1 ∧ m.total = data.length ∧ m.data = path ++ [10] ++ chunk.2

/-! ## The chunks of a file -/

section Chunks

variable {data : Str} {place : ℕ}

theorem chunksFrom_done (h : data.length ≤ place) (hpos : 0 < place) : chunksFrom data place = [] := by
  rw [chunksFrom, if_neg (by omega)]

/-- The chunk from a place is what there is there, and the next is from where it ends. -/
theorem chunksFrom_next (h : place < data.length) : ∃ body : Str, body ≠ [] ∧
    chunksFrom data place = (place, body) :: chunksFrom data (place + body.length) ∧
    data.take place ++ body = data.take (place + body.length) ∧
    place + body.length ≤ data.length := by
  have hlast : place < min data.length (place + syncChunk) := by
    rw [syncChunk]
    omega
  set last := min data.length (place + syncChunk) with hdef
  have hle : last ≤ data.length := min_le_left _ _
  have hlen : ((data.drop place).take (last - place)).length = last - place := by
    rw [List.length_take, List.length_drop]
    omega
  refine ⟨(data.drop place).take (last - place), ?_, ?_, ?_, ?_⟩
  · intro hnil
    rw [hnil] at hlen
    simp only [List.length_nil] at hlen
    omega
  · conv_lhs => rw [chunksFrom]
    rw [if_pos (Or.inl h), hlen]
    simp only [← hdef]
    rw [if_neg (by omega), Nat.add_sub_cancel' (by omega)]
  · rw [hlen, Nat.add_sub_cancel' (by omega)]
    have hcut := @List.take_add _ data place (last - place)
    rw [Nat.add_sub_cancel' (by omega)] at hcut
    exact hcut.symm
  · rw [hlen]
    omega

theorem chunksFrom_nil : chunksFrom [] 0 = [(0, [])] := by
  rw [chunksFrom, if_pos (Or.inr rfl)]
  simp only [List.length_nil, Nat.zero_min, if_true, zero_add, List.drop_nil, List.take_nil]
  rw [chunksFrom_done (by simp) (by omega)]

/-- The first chunk is the file, or there is more to come. -/
theorem chunksFrom_zero (data : Str) : ∃ (body : Str) (rest : List (ℕ × Str)),
    chunksFrom data 0 = (0, body) :: rest ∧ body = data.take body.length ∧
    body.length ≤ data.length ∧ (body.length = data.length → rest = []) ∧
    (body.length < data.length → 0 < body.length ∧ rest = chunksFrom data body.length) := by
  rcases Nat.eq_zero_or_pos data.length with hlen | hpos
  · obtain rfl := List.length_eq_zero_iff.1 hlen
    exact ⟨[], [], chunksFrom_nil, rfl, le_rfl, fun _ => rfl, fun h => absurd h (lt_irrefl _)⟩
  · obtain ⟨body, hne, hnext, hcut, hle⟩ := chunksFrom_next hpos
    rw [zero_add] at hnext hcut hle
    have hbody : 0 < body.length := List.length_pos_iff.2 hne
    refine ⟨body, _, hnext, by simpa using hcut, hle, fun heq => ?_, fun _ => ⟨hbody, rfl⟩⟩
    exact chunksFrom_done heq.ge hbody

/-- A file of no more than a chunk. -/
theorem chunksFrom_one (hne : data ≠ []) (hle : data.length ≤ syncChunk) :
    chunksFrom data 0 = [(0, data)] := by
  have hpos : 0 < data.length := List.length_pos_iff.2 hne
  rw [chunksFrom, if_pos (Or.inr rfl)]
  simp only [zero_add, Nat.min_eq_left hle, List.drop_zero, Nat.sub_zero, List.take_length]
  rw [if_neg hpos.ne', chunksFrom_done le_rfl hpos]

/-- A file of a chunk and a little more. -/
theorem chunksFrom_two {whole rest : Str} (hwhole : whole.length = syncChunk) (hne : rest ≠ [])
    (hle : rest.length ≤ syncChunk) :
    chunksFrom (whole ++ rest) 0 = [(0, whole), (syncChunk, rest)] := by
  have hpos : 0 < rest.length := List.length_pos_iff.2 hne
  have hchunk : 0 < syncChunk := by decide
  rw [chunksFrom, if_pos (Or.inr rfl)]
  simp only [List.length_append, hwhole, zero_add, Nat.min_eq_right (Nat.le_add_right _ _),
    List.drop_zero, Nat.sub_zero]
  rw [if_neg hchunk.ne', List.take_left' hwhole, chunksFrom, if_pos (Or.inl (by
    rw [List.length_append]
    omega))]
  simp only [List.length_append, hwhole]
  rw [Nat.min_eq_left (by omega), if_neg (by omega), List.drop_left' hwhole,
    List.take_of_length_le (by omega), chunksFrom_done (by simp [hwhole]) (by omega)]

end Chunks

end ChrysaLisp
