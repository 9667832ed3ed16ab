import Mathlib.Data.List.Sort
import Mathlib.Data.List.Lex
import Mathlib.Data.Nat.Digits.Defs
import Mathlib.Order.Fin.Basic

set_option autoImplicit false

/-! # Strings

A `str` of ChrysaLisp is a run of bytes, and what is compared, sorted, hashed, cut and put
together is those bytes. A byte is `Fin 256` and a string a list of them, so `cmp`, which compares
byte by byte and then by length, is the order of lists Mathlib has.

The functions are those of `class/str` and `class/lisp/root.inc` the model uses, under their own
names. -/

namespace ChrysaLisp

/-- A `ubyte`. -/
abbrev Byte := Fin 256

/-- A `str`. -/
abbrev Str := List Byte

-- what the numerals of `Byte` and `∈` of strings are decided by, so that it is found at once
instance neZero_byte : NeZero 256 := ⟨by decide⟩

instance lawfulBEq_str : LawfulBEq Str := inferInstance

/-- A string of the source, as its bytes. -/
def asc (s : String) : Str := s.toList.map (fun c => Fin.ofNat 256 c.toNat)

/-- `(sort list)`, by the default `cmp`. -/
def sortStr (l : List Str) : List Str := l.insertionSort (· ≤ ·)

/-- `(join seqs seq)`. -/
def join : List Str → Str → Str
  | [], _ => []
  | [s], _ => s
  | s :: t :: rest, sep => s ++ sep ++ join (t :: rest) sep

/-- `(split str cls)` of a class of one character: the parts between, none of them empty. -/
def split (s : Str) (sep : Byte) : List Str := (s.splitOn sep).filter (fun part => decide (part ≠ []))

/-- A digit of hex, `"A"` on from 10. -/
def hexDigit (n : ℕ) : Byte := Fin.ofNat 256 (if 9 < n then n + 55 else n + 48)

/-- `(hex-encode str)`, two digits a byte. -/
def hexEncode : Str → Str
  | [] => []
  | b :: rest => hexDigit (b.val / 16) :: hexDigit (b.val % 16) :: hexEncode rest

/-- `(str num)` of a number that is not negative. -/
def strNum (n : ℕ) : Str :=
  if n = 0 then [48] else (Nat.digits 10 n).reverse.map (fun d => Fin.ofNat 256 (d + 48))

example : strNum 1046 = asc "1046" := by decide

example : split (asc "le//q") 47 = [asc "le", asc "q"] := by decide

example : hexEncode [0, 171] = asc "00AB" := by decide

/-! ## Sorting -/

theorem mem_sortStr {l : List Str} {s : Str} : s ∈ sortStr l ↔ s ∈ l :=
  List.mem_insertionSort (· ≤ ·)

theorem sortStr_perm (l : List Str) : (sortStr l).Perm l := List.perm_insertionSort _ l

theorem pairwise_sortStr (l : List Str) : (sortStr l).Pairwise (· ≤ ·) :=
  List.pairwise_insertionSort _ l

/-- Lists with the same strings, each as often, come to the one list when sorted. -/
theorem sortStr_eq_of_perm {l m : List Str} (h : l.Perm m) : sortStr l = sortStr m :=
  (((sortStr_perm l).trans h).trans (sortStr_perm m).symm).eq_of_pairwise
    (fun _ _ _ _ hab hba => le_antisymm hab hba) (pairwise_sortStr l) (pairwise_sortStr m)

theorem length_sortStr (l : List Str) : (sortStr l).length = l.length :=
  (sortStr_perm l).length_eq

theorem nodup_sortStr {l : List Str} : (sortStr l).Nodup ↔ l.Nodup := (sortStr_perm l).nodup_iff

end ChrysaLisp
