import ChrysaLisp.Library.Bounded
import Mathlib.Data.BitVec
import Mathlib.Data.List.Sort

set_option autoImplicit false

/-! # The lengths of a Huffman code

`huffman-lengths` of `lib/streams/huffman.inc`. The tree is made from two queues, the leaves by how
often they are and the nodes as they were made, and is no more than the parent of each. What is too
long for the limit is made shorter two at a time, in the counts of how many there are of each
length, and the lengths are given out by those.

Numbers that are only places are natural ones. How often a symbol is, is a number of 64 bits, and so
is what the nodes come to. A loop is given the turns it may take. -/

namespace ChrysaLisp.HuffmanLengths

open Bounded

/-! ## The symbols that are used -/

/-- How often a symbol is. -/
def freq (freqs : List (BitVec 64)) (s : ℕ) : BitVec 64 := freqs.getD s 0

/-- The symbols there are any of. -/
def used (freqs : List (BitVec 64)) : List ℕ :=
  (List.range freqs.length).filter fun s => decide (0 < (freq freqs s).toInt)

/-- What the symbols are sorted by: the difference of how often they are, or else of what they are. -/
def compareUsed (freqs : List (BitVec 64)) (a b : ℕ) : ℤ :=
  let d := freq freqs a - freq freqs b
  if d ≠ 0 then d.toInt else (a : ℤ) - b

/-- `(sort used ..)`, the least often first. -/
def sorted (freqs : List (BitVec 64)) : List ℕ :=
  (used freqs).insertionSort fun a b => compareUsed freqs a b ≤ 0

/-! ## The tree -/

/-- What each is worth, the parent of each, and where the two queues and the nodes that are made are. -/
structure Tree where
  weight : List (BitVec 64)
  parent : List ℕ
  leaf : ℕ
  node : ℕ
  made : ℕ

/-- `(least)`: the next of the leaves, or of the nodes. -/
def least (n : ℕ) (t : Tree) : Read (ℕ × Tree) :=
  if t.leaf < n then
    if t.made ≤ t.node then .ok (t.leaf, { t with leaf := t.leaf + 1 })
    else do
      let a ← elem t.weight t.leaf
      let b ← elem t.weight t.node
      if a.sle b then .ok (t.leaf, { t with leaf := t.leaf + 1 })
      else .ok (t.node, { t with node := t.node + 1 })
  else .ok (t.node, { t with node := t.node + 1 })

/-- The two least are put under a node. -/
def join (n : ℕ) (t : Tree) : Read Tree := do
  let (a, t) ← least n t
  let (b, t) ← least n t
  let wa ← elem t.weight a
  let wb ← elem t.weight b
  let weight ← put t.weight t.made (wa + wb)
  let parent ← put t.parent a t.made
  let parent ← put parent b t.made
  .ok { t with weight := weight, parent := parent, made := t.made + 1 }

/-- The loop that makes the nodes. -/
def grow (n : ℕ) : ℕ → Tree → Read Tree
  | 0, _ => .error .endless
  | turns + 1, t => if t.made < 2 * n - 1 then join n t >>= grow n turns else .ok t

/-- The depth of each, from the root down. -/
def depths (parent : List ℕ) : ℕ → List ℕ → Read (List ℕ)
  | 0, depth => .ok depth
  | i + 1, depth => do
      let p ← elem parent i
      let d ← elem depth p
      let depth ← put depth i (d + 1)
      depths parent i depth

/-! ## How many of each length -/

/-- How many leaves there are of each depth, and the most that one is. -/
def countDepths : List ℕ → List ℤ × ℕ → Read (List ℤ × ℕ)
  | [], s => .ok s
  | d :: ds, (counts, most) => do
      let c ← elem counts d
      let counts ← put counts d (c + 1)
      countDepths ds (counts, max most d)

/-- The longest that is shorter and that there are any of. Below none at all there is nothing to look at. -/
def shorter (counts : List ℤ) : ℕ → Read ℕ
  | 0 => do
      let c ← elem counts 0
      if c = 0 then .error .element else .ok 0
  | j + 1 => do
      let c ← elem counts (j + 1)
      if c = 0 then shorter counts j else .ok (j + 1)

/-- A number added to one of them. -/
def change (counts : List ℤ) (i : ℕ) (d : ℤ) : Read (List ℤ) := do
  let c ← elem counts i
  put counts i (c + d)

/-- Two of a length are made one shorter, and one that is shorter made two of one longer. -/
def shift (counts : List ℤ) (i : ℕ) : Read (List ℤ) := do
  let j ← if i < 2 then .error .element else shorter counts (i - 2)
  let counts ← change counts i (-2)
  let counts ← change counts (i - 1) 1
  let counts ← change counts (j + 1) 2
  change counts j (-1)

/-- None is left of a length. -/
def clear (i : ℕ) : ℕ → List ℤ → Read (List ℤ)
  | 0, _ => .error .endless
  | turns + 1, counts => do
      let c ← elem counts i
      if 0 < c then shift counts i >>= clear i turns else .ok counts

/-- None is longer than the limit. -/
def limitTo (limit turns : ℕ) : ℕ → List ℤ → Read (List ℤ)
  | 0, counts => .ok counts
  | i + 1, counts =>
      if limit < i + 1 then clear (i + 1) turns counts >>= limitTo limit turns i else .ok counts

/-! ## The lengths -/

/-- The shortest to the most taken: so many symbols are still to be given one. -/
def assign (syms : List ℕ) : ℕ → (left len : ℕ) → List ℤ → List ℕ → Read (List ℕ)
  | 0, _, _, _, _ => .error .endless
  | _ + 1, 0, _, _, lengths => .ok lengths
  | turns + 1, at' + 1, len, counts, lengths => do
      let c ← elem counts len
      if c = 0 then assign syms turns (at' + 1) (len + 1) counts lengths
      else
        let s ← elem syms at'
        let lengths ← put lengths s len
        let counts ← put counts len (c - 1)
        assign syms turns at' len counts lengths

/-- How many codes there are of each length, none longer than the limit: the tree, the depths of its
    leaves, and those made shorter. -/
def countLengths (turns n limit : ℕ) (weight : List (BitVec 64)) : Read (List ℤ) := do
  let tree ← grow n turns ⟨weight, List.replicate (2 * n - 1) 0, 0, n, n⟩
  let depth ← depths tree.parent (2 * n - 2) (List.replicate (2 * n - 1) 0)
  let (counts, most) ← countDepths (depth.take n) (List.replicate (max limit n + 1) 0, 0)
  limitTo limit turns most counts

/-- `(huffman-lengths freqs limit)` -/
def huffmanLengths (turns : ℕ) (freqs : List (BitVec 64)) (limit : ℕ) : Read (List ℕ) :=
  let lengths := List.replicate freqs.length 0
  let n := (used freqs).length
  if n = 0 then .ok lengths
  else if n = 1 then do
    let s ← elem (used freqs) 0
    put lengths s 1
  else do
    let syms := sorted freqs
    let counts ← countLengths turns n limit (syms.map (freq freqs) ++ List.replicate (n - 1) 0)
    assign syms turns n 1 counts lengths

end ChrysaLisp.HuffmanLengths
