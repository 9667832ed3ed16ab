import ChrysaLisp.Library.Linked

set_option autoImplicit false

/-! # The cell heap

`sys/heap/class.vp`. A heap has blocks of memory from the host, each cut into cells of one size. The
cells that are free lie in one list, through their own first words, whatever block they are of. An
object of a kind is its address, and each field of its kind a function of that: the words
`ln_fnode_next` of a cell and `free_flist` of a block and of the heap are all of `next`. -/

namespace ChrysaLisp.Heap

open Linked Function

def lhListTail : ℕ := 8

/-- `+hp_heap_size`, a list header, the list of free cells and two sizes. -/
def hpHeapSize : ℕ := 40

def hpBlockSize : ℕ := 40

def hpCellNext : ℕ := 8

def ldPageSize : ℕ := 4096

def ptrSize : ℕ := 8

/-- The sizes of a heap. `guard` is `+hp_cell_guard_size`, which a validate build has. A cell holds
    the link of the list of free cells. -/
structure Sizes where
  cellsize : ℕ
  blocksize : ℕ
  guard : ℕ
  holds : ptrSize ≤ cellsize
  fits : hpBlockSize + hpCellNext + cellsize + guard ≤ blocksize

/-- The sizes `:init` gives a heap. -/
def Sizes.init (guard cell_size num_cells : ℕ) (hcell : 0 < cell_size) : Sizes :=
  let cellsize := (cell_size + (ptrSize - 1)) / ptrSize * ptrSize
  let room := max 1 num_cells * (cellsize + (hpCellNext + guard))
  { cellsize, guard
    blocksize := (room + (hpBlockSize + (ldPageSize - 1))) / ldPageSize * ldPageSize
    holds := by
      simp only [cellsize, ptrSize]
      omega
    fits := by
      have hroom : 1 * (cellsize + (hpCellNext + guard)) ≤ room :=
        Nat.mul_le_mul_right _ (Nat.le_max_left 1 num_cells)
      have hpage : ∀ x, x ≤ (x + (ldPageSize - 1)) / ldPageSize * ldPageSize := by
        intro x
        unfold ldPageSize
        omega
      have := hpage (room + hpBlockSize)
      rw [Nat.add_assoc] at this
      omega }

structure Mem where
  succ : ℕ → ℕ
  pred : ℕ → ℕ
  next : ℕ → ℕ
  block : ℕ → ℕ
  tail : ℕ → ℕ
  cellcnt : ℕ → ℕ
  freecnt : ℕ → ℕ
  /-- `statics_sys_mem_total` -/
  total : ℕ

/-- `ln-add-node-after` -/
def Mem.addNodeAfter (m : Mem) (node1 node2 : ℕ) : Mem :=
  let succ := m.succ node1
  { m with succ := update (update m.succ node1 node2) node2 succ
           pred := update (update m.pred succ node2) node2 node1 }

/-- `ln-remove-node` -/
def Mem.removeNode (m : Mem) (node : ℕ) : Mem :=
  let succ := m.succ node
  let pred := m.pred node
  { m with pred := update m.pred succ pred, succ := update m.succ pred succ }

/-- `ln-add-fnode` -/
def Mem.addFnode (m : Mem) (list node : ℕ) : Mem :=
  { m with next := update (update m.next node (m.next list)) list node }

section

variable (z : Sizes) (this : ℕ)

def init (m : Mem) : Mem :=
  { m with next := update m.next this 0
           succ := update (update m.succ (this + lhListTail) 0) this (this + lhListTail)
           pred := update m.pred (this + lhListTail) this }

/-! ## `:alloc` -/

/-- From a cell of a block to the next. -/
def Sizes.stride : ℕ := z.cellsize + (hpCellNext + z.guard)

/-- Where the last cell of a block can be. -/
def Sizes.blockend (block : ℕ) : ℕ := block + z.blocksize - z.cellsize - z.guard

/-- The cells of a new block, from this one on, each linked to the one before it, the last one,
    and how many there are. -/
def carve (block : ℕ) (m : Mem) (cell next cnt : ℕ) : Mem × ℕ × ℕ :=
  let m := { m with block := update m.block cell block, next := update m.next cell next }
  if z.blockend block < cell + z.stride then (m, cell, cnt + 1)
  else carve block m (cell + z.stride) cell (cnt + 1)
  termination_by z.blockend block - cell
  decreasing_by
    have : 0 < z.stride := by simp only [Sizes.stride, hpCellNext]; omega
    omega

/-- A new block, and the last of its cells, which all the others follow. -/
def addBlock (m : Mem) (block : ℕ) : Mem × ℕ :=
  let m := { m with total := m.total + z.blocksize }
  let m := m.addNodeAfter this block
  let m := { m with next := update m.next block 0, tail := update m.tail block 0
                    freecnt := update m.freecnt block 0 }
  let r := carve z block m (block + (hpBlockSize + hpCellNext)) 0 0
  ({ r.1 with cellcnt := update r.1.cellcnt block r.2.2 }, r.2.1)

def gotCell (m : Mem) (cell : ℕ) : Mem × ℕ :=
  ({ m with next := update m.next this (m.next cell) }, cell)

/-- A cell, of a new block that the host gives if there is no free one. -/
def alloc (m : Mem) (block : ℕ) : Mem × ℕ :=
  if m.next this ≠ 0 then gotCell this m (m.next this)
  else
    let r := addBlock z this m block
    gotCell this r.1 r.2

/-! ## `:collect` -/

/-- The first loop of `:collect`: the words there are, what it counts of the total, and the blocks
    not given back to the host. -/
structure Count where
  mem : Mem
  total : ℕ
  mapped : List ℕ

/-- A free cell counted for its block, which is given back if all of its cells are free. -/
def countCell (s : Count) (cel : ℕ) : Count :=
  let blk := s.mem.block cel
  let tail := s.mem.tail blk
  let m := s.mem.addFnode blk cel
  let m := { m with tail := if tail = 0 then update m.tail blk cel else m.tail }
  let m := { m with freecnt := update m.freecnt blk (m.freecnt blk + 1) }
  if m.cellcnt blk ≠ m.freecnt blk then { s with mem := m }
  else
    { mem := m.removeNode blk, total := s.total - z.blocksize, mapped := s.mapped.erase blk }

def countCells : ℕ → Count → ℕ → Option Count
  | 0, _, _ => none
  | fuel + 1, s, next =>
      if next = 0 then some s
      else countCells fuel (countCell z s next) (s.mem.next next)

/-- The free cells of a block put on the list of the heap. -/
def spliceBlock (m : Mem) (blk : ℕ) : Mem :=
  if m.next blk = 0 then m
  else
    { m with next := update (update (update m.next this (m.next blk)) (m.tail blk) (m.next this)) blk 0
             tail := update m.tail blk 0
             freecnt := update m.freecnt blk 0 }

def spliceBlocks : ℕ → Mem → ℕ → Option Mem
  | 0, _, _ => none
  | fuel + 1, m, blk =>
      if m.succ blk = 0 then some m else spliceBlocks fuel (spliceBlock this m blk) (m.succ blk)

/-! ## A heap and who has its cells -/

/-- The heap, the blocks the host has mapped for it, and the cells that are handed out. -/
structure State where
  mem : Mem
  mapped : List ℕ
  live : List ℕ

def State.alloc (s : State) (block : ℕ) : State where
  mem := (Heap.alloc z this s.mem block).1
  mapped := if s.mem.next this ≠ 0 then s.mapped else block :: s.mapped
  live := (Heap.alloc z this s.mem block).2 :: s.live

/-- `hp-freecell` -/
def State.free (s : State) (cell : ℕ) : State :=
  { s with mem := s.mem.addFnode this cell, live := s.live.erase cell }

/-- `:collect`, of so many turns of each loop at most. -/
def State.collect (s : State) (fuel : ℕ) : Option State :=
  (countCells z fuel ⟨s.mem, s.mem.total, s.mapped⟩ (s.mem.next this)).bind fun c =>
    let m := { c.mem with next := update c.mem.next this 0 }
    (spliceBlocks this fuel m (m.succ this)).map fun m =>
      { mem := { m with total := c.total }, mapped := c.mapped, live := s.live }

/-- Two parts of memory that have no byte of each other's. -/
def Apart (a n b m : ℕ) : Prop := a + n ≤ b ∨ b + m ≤ a

/-- What the host gives is no part of what is had. -/
structure Fresh (mapped : List ℕ) (block : ℕ) : Prop where
  nonzero : block ≠ 0
  heap : Apart this hpHeapSize block z.blocksize
  blocks : ∀ b ∈ mapped, Apart block z.blocksize b z.blocksize

/-- The states of a heap, from its `:init` on, where `base` is what the others have of the total. -/
inductive Reach (base : ℕ) : State → Prop
  | init (m : Mem) (htotal : m.total = base) : Reach base ⟨Heap.init this m, [], []⟩
  | alloc {s : State} (block : ℕ) (h : Reach base s)
      (hfresh : s.mem.next this = 0 → Fresh z this s.mapped block) : Reach base (s.alloc z this block)
  | free {s : State} (cell : ℕ) (h : Reach base s) (hlive : cell ∈ s.live) :
      Reach base (s.free this cell)
  | collect {s s' : State} (h : Reach base s) (hs : Returns (s.collect z this) s') : Reach base s'

/-- The cells of a block: as many as there is room for. -/
def Sizes.cellCount : ℕ :=
  (z.blocksize - z.cellsize - z.guard - (hpBlockSize + hpCellNext)) / z.stride + 1

def Sizes.cellAt (block k : ℕ) : ℕ := block + (hpBlockSize + hpCellNext) + k * z.stride

def Sizes.cellsOf (block : ℕ) : List ℕ := (List.range z.cellCount).map (z.cellAt block)

end

end ChrysaLisp.Heap
