import Mathlib.Data.List.TakeDrop
import ChrysaLisp.Library.FiniteMap

set_option autoImplicit false

/-! # Lisp objects and the pmap

What the maps of `lib/collections` use of Lisp: `:eql` and `:hash` of the objects, `%`, `elem-get`,
`partition`, and `class/pmap`, a list of keys and values turn about.

A `:pmap :pfind` of a symbol or a string looks first where the key's `str_hashslot` says, the place
it was at the last time it was searched for, in whatever list that was. So a search is given a
hint that may be anything. -/

namespace ChrysaLisp.Collections

open FiniteMap

/-- What `:pmap :pfind` looks at the vtable of a key for. -/
inductive Kind
  | sym
  | str
  | other
  deriving DecidableEq

/-- The objects of Lisp, as the maps see them. An object is its address. -/
structure Lisp (O : Type) where
  nil : O
  kind : O → Kind
  eql : O → O → Bool
  hash : O → ℤ

/-- `:eql` is an equivalence, and that of a symbol is `class/obj/eql`. -/
structure Lisp.Lawful {O : Type} (L : Lisp O) : Prop where
  same : Same L.eql
  sym : ∀ a b, L.kind a = .sym → (L.eql a b ↔ a = b)

/-! ## Numbers and lists -/

/-- `%`, which has the sign of what is divided, and throws at 0. -/
def mod (n d : ℤ) : Option ℤ := if d = 0 then none else some (n.tmod d)

/-- `seq-elem-index`: -1 is past the end, -2 the last. -/
def seqElemIndex (idx len : ℤ) : ℤ := if idx < 0 then idx + len + 1 else idx

/-- The place `elem-get` reads and `elem-set` writes, none where they throw. -/
def elemIndex (len : ℕ) (idx : ℤ) : Option ℕ :=
  let i := seqElemIndex idx len
  if i < 0 then none else if (len : ℤ) ≤ i then none else some i.toNat

theorem elemIndex_lt {len i : ℕ} {idx : ℤ} (h : elemIndex len idx = some i) : i < len := by
  rw [elemIndex] at h
  split at h
  · cases h
  · split at h
    · cases h
    · rw [Option.some_inj] at h
      omega

theorem elemIndex_of_lt {len i : ℕ} (h : i < len) : elemIndex len (i : ℤ) = some i := by
  have hi : seqElemIndex (i : ℤ) len = i := if_neg (by omega)
  rw [elemIndex, hi, if_neg (by omega), if_neg (by omega)]
  rfl

section Pmap

variable {O : Type}

/-- `(partition bucket 2)`, the pairs of a list of keys and values. -/
def partition : List O → List (O × O)
  | k :: v :: l => (k, v) :: partition l
  | _ => []

/-- The loop over a bucket: the first place whose key compares. -/
def scan (eq : O → O → Bool) (key : O) : List O → ℕ → Option ℕ
  | k :: _ :: l, i => if eq key k then some i else scan eq key l (i + 1)
  | _, _ => none

/-- The last known slot first, and then the bucket. -/
def search (eq : O → O → Bool) (hint : ℕ) (key : O) (l : List O) : Option ℕ :=
  match l[2 * hint]? with
  | some k => if eq key k then some hint else scan eq key l 0
  | none => scan eq key l 0

/-- `:pmap :erase2`: the last entry is swapped for the erased. -/
def erase2 (l : List O) (i : ℕ) : List O :=
  if l.length - 2 = 2 * i then l.take (l.length - 2)
  else
    match l[l.length - 2]?, l[l.length - 1]? with
    | some k, some v => ((l.set (2 * i) k).set (2 * i + 1) v).take (l.length - 2)
    | _, _ => l

variable [DecidableEq O] (L : Lisp O)

/-- `:pmap :pfind`: a symbol by its address, what is no symbol by `:eql`. -/
def pfind (hint : O → ℕ) (l : List O) (key : O) : Option ℕ :=
  match L.kind key with
  | .sym => search (fun a b => decide (a = b)) (hint key) key l
  | .str => search L.eql (hint key) key l
  | .other => scan L.eql key l 0

/-- `(pfind pmap key)`, with `:nil` for a key that is not there. -/
def pfindValue (hint : O → ℕ) (l : List O) (key : O) : O :=
  ((pfind L hint l key).bind (fun i => l[2 * i + 1]?)).getD L.nil

/-- `:pmap :pinsert`: a key that is there keeps its object. -/
def pinsert (hint : O → ℕ) (l : List O) (key val : O) : List O :=
  match pfind L hint l key with
  | some i => l.set (2 * i + 1) val
  | none => l ++ [key, val]

/-- `(perase pmap key)`. -/
def perase (hint : O → ℕ) (l : List O) (key : O) : List O :=
  match pfind L hint l key with
  | some i => erase2 l i
  | none => l

end Pmap

/-! ## A pmap is the list of its pairs -/

section Flat

variable {O : Type}

/-- Keys and values turn about. -/
def flat (b : List (O × O)) : List O := b.flatMap (fun p => [p.1, p.2])

@[simp] theorem flat_nil : flat ([] : List (O × O)) = [] := rfl

@[simp] theorem flat_cons (p : O × O) (b : List (O × O)) : flat (p :: b) = p.1 :: p.2 :: flat b :=
  rfl

theorem flat_append (b c : List (O × O)) : flat (b ++ c) = flat b ++ flat c :=
  List.flatMap_append

@[simp] theorem length_flat (b : List (O × O)) : (flat b).length = 2 * b.length := by
  induction b with
  | nil => rfl
  | cons p b ih => simp only [flat_cons, List.length_cons, ih, Nat.mul_add]

@[simp] theorem partition_flat (b : List (O × O)) : partition (flat b) = b := by
  induction b with
  | nil => rfl
  | cons p b ih => rw [flat_cons, partition, ih]

theorem flat_key (b : List (O × O)) (i : ℕ) : (flat b)[2 * i]? = b[i]?.map Prod.fst := by
  induction b generalizing i with
  | nil => rfl
  | cons p b ih =>
      cases i with
      | zero => rfl
      | succ i => exact ih i

theorem flat_val (b : List (O × O)) (i : ℕ) : (flat b)[2 * i + 1]? = b[i]?.map Prod.snd := by
  induction b generalizing i with
  | nil => rfl
  | cons p b ih =>
      cases i with
      | zero => rfl
      | succ i => exact ih i

theorem flat_set (b : List (O × O)) (i : ℕ) (q : O × O) :
    ((flat b).set (2 * i) q.1).set (2 * i + 1) q.2 = flat (b.set i q) := by
  induction b generalizing i with
  | nil => simp
  | cons p b ih =>
      cases i with
      | zero => rfl
      | succ i => exact congrArg (p.1 :: p.2 :: ·) (ih i)

theorem flat_set_val (b : List (O × O)) (i : ℕ) (v : O) :
    (flat b).set (2 * i + 1) v = flat (b.modify i (fun p => (p.1, v))) := by
  induction b generalizing i with
  | nil => simp
  | cons p b ih =>
      cases i with
      | zero => rfl
      | succ i => exact congrArg (p.1 :: p.2 :: ·) (ih i)

theorem flat_take (b : List (O × O)) (n : ℕ) : (flat b).take (2 * n) = flat (b.take n) := by
  induction b generalizing n with
  | nil => simp
  | cons p b ih =>
      cases n with
      | zero => rfl
      | succ n => exact congrArg (p.1 :: p.2 :: ·) (ih n)

theorem erase2_flat {b : List (O × O)} {i : ℕ} (hi : i < b.length) :
    erase2 (flat b) i = flat (swapOut b i) := by
  obtain ⟨c, q, rfl⟩ := List.eq_nil_or_concat b |>.resolve_left (by rintro rfl; simp at hi)
  rw [List.concat_eq_append] at *
  have hlen : (flat (c ++ [q])).length - 2 = 2 * c.length := by
    rw [length_flat, List.length_append, List.length_singleton]
    omega
  have hlast : (flat (c ++ [q])).length - 1 = 2 * c.length + 1 := by
    rw [length_flat, List.length_append, List.length_singleton]
    omega
  have hk : (flat (c ++ [q]))[2 * c.length]? = some q.1 := by
    rw [flat_key, List.getElem?_concat_length, Option.map_some]
  have hv : (flat (c ++ [q]))[2 * c.length + 1]? = some q.2 := by
    rw [flat_val, List.getElem?_concat_length, Option.map_some]
  rw [swapOut, List.getLast?_concat, Option.elim_some, erase2, hlen, hlast, hk, hv, flat_take]
  by_cases hic : 2 * c.length = 2 * i
  · have hci : c.length = i := by omega
    subst hci
    rw [if_pos hic, List.take_left, List.set_append_right _ _ le_rfl, Nat.sub_self,
      List.set_cons_zero, List.dropLast_concat]
  · have hic' : i < c.length := by
      rw [List.length_append, List.length_singleton] at hi
      omega
    rw [if_neg hic]
    show (((flat (c ++ [q])).set (2 * i) q.1).set (2 * i + 1) q.2).take (2 * c.length) = _
    rw [flat_set, flat_take, List.set_append_left _ _ hic', List.dropLast_concat,
      List.take_left' (by simp)]

/-! ## What a search finds -/

theorem scan_flat (eq : O → O → Bool) (key : O) (b : List (O × O)) (i : ℕ) :
    scan eq key (flat b) i = (b.findIdx? (fun p => eq key p.1)).map (· + i) := by
  induction b generalizing i with
  | nil => rfl
  | cons p b ih =>
      rw [flat_cons, scan, List.findIdx?_cons, ih]
      by_cases h : eq key p.1
      · rw [if_pos h, if_pos h, Option.map_some, Nat.zero_add]
      · rw [if_neg h, if_neg h, Option.map_map]
        congr 1
        funext j
        simp only [Function.comp_apply]
        omega

variable {same : O → O → Bool} {eq : O → O → Bool} {key : O} {b : List (O × O)}

theorem found_scan (h : ∀ a, eq key a = same a key) :
    Found same b key (scan eq key (flat b) 0) := by
  rw [scan_flat]
  simp only [Nat.add_zero, Option.map_id']
  exact found_findIdx? (fun p _ => h p.1)

/-- Whatever the hint is, a search finds the key or that it is not there. -/
theorem found_search (h : ∀ a, eq key a = same a key) (hint : ℕ) :
    Found same b key (search eq hint key (flat b)) := by
  rw [search, flat_key]
  cases hb : b[hint]? with
  | none => exact found_scan h
  | some p =>
      simp only [Option.map_some]
      by_cases hp : eq key p.1
      · rw [if_pos hp]
        exact ⟨p, hb, by rw [← h]; exact hp⟩
      · rw [if_neg hp]
        exact found_scan h

variable [DecidableEq O] {L : Lisp O}

theorem found_pfind (hL : L.Lawful) (hint : O → ℕ) (b : List (O × O)) (key : O) :
    Found L.eql b key (pfind L hint (flat b) key) := by
  have heql : ∀ a, L.eql key a = L.eql a key := fun a =>
    Bool.eq_iff_iff.2 ⟨hL.same.symm, hL.same.symm⟩
  unfold pfind
  split
  · next hsym =>
      refine found_search (fun a => ?_) _
      rw [← heql, Bool.eq_iff_iff, hL.sym key a hsym, decide_eq_true_iff]
  · exact found_search heql _
  · exact found_scan heql

theorem pfindValue_flat (hint : O → ℕ) : pfindValue L hint (flat b) key =
    (((pfind L hint (flat b) key).bind (fun i => b[i]?)).map Prod.snd).getD L.nil := by
  unfold pfindValue
  cases pfind L hint (flat b) key with
  | none => rfl
  | some i => rw [Option.bind_some, Option.bind_some, flat_val]

theorem pinsert_flat (hint : O → ℕ) (val : O) : pinsert L hint (flat b) key val =
    flat (putAt b key val (pfind L hint (flat b) key)) := by
  unfold pinsert
  cases pfind L hint (flat b) key with
  | none => rw [putAt, flat_append]; rfl
  | some i => exact flat_set_val b i val

theorem perase_flat (hL : L.Lawful) (hint : O → ℕ) : perase L hint (flat b) key =
    flat (dropAt b (pfind L hint (flat b) key)) := by
  have hfound := found_pfind hL hint b key
  unfold perase
  cases hr : pfind L hint (flat b) key with
  | none => rfl
  | some i =>
      rw [hr] at hfound
      exact erase2_flat (found_lt hfound)

end Flat

end ChrysaLisp.Collections
