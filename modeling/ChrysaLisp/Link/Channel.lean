import ChrysaLisp.Library.Memory
import ChrysaLisp.Library.Run
import ChrysaLisp.Lisp.Str

set_option autoImplicit false

/-! # The shared memory link

One way of a link of `sys/link/class.vp`: a ring of buffers in shared memory, what
`:sys_link :out` puts in it and what `:sys_link :in` of the peer takes. Each buffer has a status and
a length, and a fragment, a ping or nothing after them. The `:out` writes a buffer, then the length,
then the status of where the next will be, which it makes `ready`, and last its own status; the `:in`
waits on a status that is `ready`, takes what it finds, and makes the status `ready` again, by which
the `:out` knows it is taken.

Memory is bytes, by their place from the start of the ring, past its end too, and a step of either
side is one write or one read of it, with what that side does on its own. The peer's process runs
on, so what the `:out` does for one that has gone is not here. -/

namespace ChrysaLisp.Link

open Memory

/-! ## What is in a buffer -/

/-- `lk_data_size`: a heap cell of 24 bytes doubled to no less than a page, with no heap pointer, `str`
or null byte. -/
def lkDataSize : ℕ := 24 <<< 8 - (24 + 8 + 8)
/-- `lk_buf_size`, `lk_frag_size`, `lk_node_size`, as they are aligned. -/
def lkBufSize : ℕ := 8
def lkFragSize : ℕ := 64
def lkNodeSize : ℕ := 56
/-- `lk_chan_size`, `lk_bufs_per_chan` of them. -/
def lkChanSize : ℕ := (lkBufSize + lkFragSize + lkDataSize) * 5

/-- `lk_chan_status`. -/
def lkReady : ℕ := 0
def lkPing : ℕ := 1
def lkFrag : ℕ := 2
def lkSkip : ℕ := 3

structure NodeId where
  node1 : UInt64
  node2 : UInt64
  deriving DecidableEq

structure NetId where
  mbox : UInt64
  node : NodeId
  deriving DecidableEq

/-- What a ping says of the node that sends it: the fields of `lk_node` it writes. -/
structure Ping where
  peerNode : NodeId
  peerSystem : NodeId
  taskCount : UInt32
  peerPid : UInt32
  deriving DecidableEq

/-- A fragment of mail: the fields of `lk_frag`, its length that of the data, and the data. -/
structure Frag where
  dest : NetId
  src : NetId
  offset : UInt32
  total : UInt32
  data : Str
  deriving DecidableEq

inductive Item where
  | ping (p : Ping)
  | frag (f : Frag)
  deriving DecidableEq

/-- A fragment is of `lk_data_size` bytes at most. -/
def Item.Fits : Item → Prop
  | .ping _ => True
  | .frag f => f.data.length ≤ lkDataSize

/-- What `:sys_link :out` has to put: mail for the link, that `:sys_mail :out` cut so that it fits,
or a ping. -/
structure Mail where
  item : Item
  fits : item.Fits

def Item.status : Item → ℕ
  | .ping _ => lkPing
  | .frag _ => lkFrag

/-- The bytes of its buffer, so many longs. -/
def Item.size : Item → ℕ
  | .ping _ => lkBufSize + lkNodeSize
  | .frag f => (f.data.length + lkBufSize + lkFragSize + 8 - 1) / 8 * 8

/-- The room the `:out` waits for. -/
def Item.needs : Item → ℕ
  | .ping _ => lkNodeSize + lkBufSize
  | .frag _ => lkBufSize + lkFragSize + lkDataSize + lkBufSize

/-- The fields of a ping or of a fragment's header: where each is in the buffer, in how many bytes, and
what it is, in the order they are read. -/
def Item.fields : Item → List (ℕ × ℕ × ℕ)
  | .ping p =>
    [(8, 8, p.peerNode.node1.toNat), (16, 8, p.peerNode.node2.toNat),
      (24, 8, p.peerSystem.node1.toNat), (32, 8, p.peerSystem.node2.toNat),
      (40, 4, p.taskCount.toNat), (44, 4, p.peerPid.toNat)]
  | .frag f =>
    [(56, 4, f.data.length), (60, 4, f.offset.toNat), (64, 4, f.total.toNat),
      (8, 8, f.dest.mbox.toNat), (16, 8, f.dest.node.node1.toNat), (24, 8, f.dest.node.node2.toNat),
      (32, 8, f.src.mbox.toNat), (40, 8, f.src.node.node1.toNat), (48, 8, f.src.node.node2.toNat)]

/-- The order a ping's are written in has its task count first. -/
def Item.fieldsWritten : Item → List (ℕ × ℕ × ℕ)
  | .ping p =>
    [(40, 4, p.taskCount.toNat), (8, 8, p.peerNode.node1.toNat), (16, 8, p.peerNode.node2.toNat),
      (24, 8, p.peerSystem.node1.toNat), (32, 8, p.peerSystem.node2.toNat),
      (44, 4, p.peerPid.toNat)]
  | .frag f => (Item.frag f).fields

def Item.data : Item → Str
  | .ping _ => []
  | .frag f => f.data

/-- Where the fields of what has a status are. -/
def layout (status : ℕ) : List (ℕ × ℕ) :=
  if status = lkPing then [(8, 8), (16, 8), (24, 8), (32, 8), (40, 4), (44, 4)]
  else [(56, 4), (60, 4), (64, 4), (8, 8), (16, 8), (24, 8), (32, 8), (40, 8), (48, 8)]

/-- What is read, from the fields and the data. -/
def itemOf (status : ℕ) (got : List ℕ) (data : Str) : Item :=
  let long := fun k => UInt64.ofNat (got.getD k 0)
  let uint := fun k => UInt32.ofNat (got.getD k 0)
  if status = lkPing then .ping ⟨⟨long 0, long 1⟩, ⟨long 2, long 3⟩, uint 4, uint 5⟩
  else .frag ⟨⟨long 3, ⟨long 4, long 5⟩⟩, ⟨long 6, ⟨long 7, long 8⟩⟩, uint 1, uint 2, data⟩

/-! ## The two sides -/

/-- A place that came to the end of the ring is taken back by its size. -/
def wrap (a : ℕ) : ℕ := if lkChanSize ≤ a then a - lkChanSize else a

/-- The writes of a ping or a fragment at `head`: the fields, and the data byte by byte, which goes on
at the start of the ring (`:sys_mem :copy_to_ring`). -/
def Item.writes (head : ℕ) (i : Item) : List (ℕ × Str) :=
  i.fieldsWritten.map (fun f => (head + f.1, bytesOf f.2.1 f.2.2)) ++
    i.data.zipIdx.map (fun d => (wrap (head + lkBufSize + lkFragSize + d.2), [d.1]))

/-- `write_buf`. -/
def writeBuf (head status size : ℕ) : List (ℕ × Str) :=
  [(head + 4, bytesOf 4 size), (wrap (head + size), bytesOf 4 lkReady), (head, bytesOf 4 status)]

/-- Where `:sys_link :out` is: at the head's status, at what is to be reclaimed, at what there is to
put, in the writes of a buffer, of so many bytes, for an item or to skip, or done with one. -/
inductive Out where
  | top
  | reclaim
  | choose
  | writing (todo : List (ℕ × Str)) (size : ℕ) (item : Option Item)
  | yield

/-- Where `:sys_link :in` is: at the head's status, at its length, at the fields, at the data, or done
with them. -/
inductive In where
  | top
  | length (status : ℕ)
  | fields (status length : ℕ) (todo : List (ℕ × ℕ)) (got : List ℕ)
  | data (status length : ℕ) (got : List ℕ) (n : ℕ) (bytes : Str)
  | clear (length : ℕ) (item : Option Item)

/-- The memory of the ring, the locals of each side, and all that was put and all that was taken. -/
structure Channel where
  mem : ℕ → Byte
  head : ℕ
  tail : ℕ
  free : ℕ
  out : Out
  rxHead : ℕ
  inn : In
  put : List Item
  taken : List Item

/-- A `uint` in memory. -/
def word (mem : ℕ → Byte) (a : ℕ) : ℕ := numOf (load mem a 4)

/-- The room from head to tail. -/
def space (head tail : ℕ) : ℕ :=
  ((tail : ℤ) - head + if (tail : ℤ) - head ≤ 0 then (lkChanSize : ℤ) else 0).toNat

/-- A step of `:sys_link :out`, `mail` what it finds there is to put if it comes to look. The length of
a buffer to be reclaimed is one it wrote. -/
def outStep (mail : Option Mail) (c : Channel) : Channel :=
  match c.out with
  | .top => { c with out := if word c.mem c.head = lkReady then .reclaim else .top }
  | .reclaim =>
    if c.tail ≠ c.head ∧ word c.mem c.tail = lkReady then
      { c with tail := wrap (c.tail + word c.mem (c.tail + 4)) }
    else { c with free := space c.head c.tail, out := .choose }
  | .choose =>
    match mail with
    | none => { c with out := .top }
    | some m =>
      if c.free < m.item.needs then { c with out := .top }
      else
        { c with
          put := c.put ++ [m.item]
          out := .writing (m.item.writes c.head ++ writeBuf c.head m.item.status m.item.size)
            m.item.size (some m.item) }
  | .writing [] _ _ => { c with out := .top }
  | .writing (st :: todo) size item =>
    let mem := store c.mem st.1 st.2
    if todo = [] then
      { c with
        mem := mem, head := wrap (c.head + size)
        out := if item = none then .top else .yield }
    else { c with mem := mem, out := .writing todo size item }
  | .yield =>
    if lkChanSize < c.head + (lkBufSize + lkFragSize) then
      { c with
        out := .writing (writeBuf c.head lkSkip (lkChanSize - c.head)) (lkChanSize - c.head) none }
    else { c with out := .top }

/-- A step of `:sys_link :in`. A parcel for this node is taken to where it is put together, and what
goes on is taken to a message: it is read and its status cleared the same. -/
def inStep (c : Channel) : Channel :=
  match c.inn with
  | .top =>
    if word c.mem c.rxHead = lkReady then c
    else { c with inn := .length (word c.mem c.rxHead) }
  | .length status =>
    let length := word c.mem (c.rxHead + 4)
    if status = lkSkip then { c with inn := .clear length none }
    else if status = lkPing ∨ status = lkFrag then
      { c with inn := .fields status length (layout status) [] }
    else { c with rxHead := wrap (c.rxHead + length), inn := .top }
  | .fields status length (f :: todo) got =>
    { c with inn := .fields status length todo (got ++ [numOf (load c.mem (c.rxHead + f.1) f.2)]) }
  | .fields status length [] got =>
    { c with inn := .data status length got (if status = lkPing then 0 else got.getD 0 0) [] }
  | .data status length got n bytes =>
    if bytes.length < n then
      { c with
        inn := .data status length got n
          (bytes ++ [c.mem (wrap (c.rxHead + lkBufSize + lkFragSize + bytes.length))]) }
    else { c with inn := .clear length (some (itemOf status got bytes)) }
  | .clear length item =>
    { c with
      mem := store c.mem c.rxHead (bytesOf 4 lkReady), rxHead := wrap (c.rxHead + length), inn := .top
      taken := c.taken ++ item.toList }

/-- A step of one side or the other. -/
inductive Act where
  | out (mail : Option Mail)
  | inn

def step (c : Channel) : Act → Channel
  | .out mail => outStep mail c
  | .inn => inStep c

/-- A link as it starts: nothing is at the start of the ring. -/
def start (mem : ℕ → Byte) : Channel where
  mem := mem
  head := 0
  tail := 0
  free := 0
  out := .top
  rxHead := 0
  inn := .top
  put := []
  taken := []

end ChrysaLisp.Link
