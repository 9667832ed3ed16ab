import ChrysaLisp.Library.Bounded
import ChrysaLisp.Lisp.Str
import Mathlib.Data.List.GetD
import Mathlib.Tactic.SplitIfs

set_option autoImplicit false

/-! # DER

The readers of DER of `lib/crypto/x509.inc`. What is read is what a server sends: each thing a tag, a
length, and what is in it, which may be more such things, and the lengths are whatever was sent. A string
is read a byte, a number or a slice at a time, each within what there is of it or not given (`Read`).

`derAt`, `derKids` and `derOid` always end: beside each is what it reads, worked out without reading
(`derThing`, `derThings`), and that it does (`derAt_eq`, `derKids_eq`). -/

namespace ChrysaLisp.Tls

open Bounded

/-! ## Bytes and numbers -/

/-- `(code data 1 at)`. -/
def code (data : Str) (at' : ℕ) : Read ℕ := do
  let c ← elem data at'
  return c.val

/-- So many bytes, the high first, onto a number. -/
def numOnto (data : Str) : (bytes at' acc : ℕ) → Read ℕ
  | 0, _, acc => return acc
  | bytes + 1, at', acc => do
      let c ← code data at'
      numOnto data bytes (at' + 1) (acc <<< 8 + c)

/-- `(tls-num data at bytes)`, and the length of DER. -/
def tlsNum (data : Str) (at' bytes : ℕ) : Read ℕ := numOnto data bytes at' 0

/-- The byte at a place. -/
def byteAt (data : Str) (at' : ℕ) : ℕ := (data.getD at' 0).val

/-- The number at a place. -/
def numAt (data : Str) (at' bytes : ℕ) : ℕ :=
  ((data.drop at').take bytes).foldl (fun acc c => acc <<< 8 + c.val) 0

theorem code_of_lt {data : Str} {at' : ℕ} (h : at' < data.length) :
    code data at' = .ok (byteAt data at') := by
  unfold code byteAt
  rw [elem_of_lt h, ok_bind, List.getD_eq_getElem data 0 h]
  rfl

theorem ends_code {data : Str} {at' : ℕ} : Ends (code data at') ↔ at' < data.length := by
  unfold code
  rw [ends_bind, ← ends_elem]
  simp [Ends]

theorem numOnto_of_le {data : Str} (bytes : ℕ) : ∀ (at' acc : ℕ), at' + bytes ≤ data.length →
    numOnto data bytes at' acc
      = .ok (((data.drop at').take bytes).foldl (fun acc c => acc <<< 8 + c.val) acc) := by
  induction bytes with
  | zero => exact fun at' acc _ => rfl
  | succ bytes ih =>
      intro at' acc h
      have hat : at' < data.length := by omega
      have hbyte : byteAt data at' = data[at'].val := by
        unfold byteAt
        rw [List.getD_eq_getElem data 0 hat]
      rw [numOnto, code_of_lt hat, ok_bind, ih _ _ (by omega), List.drop_eq_getElem_cons hat,
        List.take_succ_cons, List.foldl_cons, hbyte]

theorem tlsNum_of_le {data : Str} {at' bytes : ℕ} (h : at' + bytes ≤ data.length) :
    tlsNum data at' bytes = .ok (numAt data at' bytes) :=
  numOnto_of_le bytes at' 0 h

theorem ends_numOnto {data : Str} (bytes : ℕ) : ∀ at' acc : ℕ,
    Ends (numOnto data bytes at' acc) ↔ bytes = 0 ∨ at' + bytes ≤ data.length := by
  induction bytes with
  | zero => exact fun at' acc => by simp [numOnto]
  | succ bytes ih =>
      intro at' acc
      rw [numOnto]
      by_cases hat : at' < data.length
      · rw [code_of_lt hat, ok_bind, ih]
        omega
      · have hno : ¬ Ends (code data at') := by rwa [ends_code]
        rw [ends_bind]
        constructor
        · intro h
          obtain ⟨a, ha, -⟩ := h
          exact absurd ⟨a, ha⟩ hno
        · intro h
          omega

theorem ends_tlsNum {data : Str} {at' bytes : ℕ} :
    Ends (tlsNum data at' bytes) ↔ bytes = 0 ∨ at' + bytes ≤ data.length :=
  ends_numOnto bytes at' 0

/-- What goes on from a byte ends where the byte is there, and it ends from that. -/
theorem ends_code_bind {α : Type} {data : Str} {at' : ℕ} {f : ℕ → Read α} :
    Ends (code data at' >>= f) ↔ at' < data.length ∧ Ends (f (byteAt data at')) := by
  by_cases hat : at' < data.length
  · simp [code_of_lt hat, hat]
  · have hno : ¬ Ends (code data at') := by rwa [ends_code]
    simp only [hat, false_and, iff_false, ends_bind, not_exists, not_and]
    exact fun a ha => absurd ⟨a, ha⟩ hno

theorem ends_tlsNum_bind {α : Type} {data : Str} {at' bytes : ℕ} (hbytes : 0 < bytes) {f : ℕ → Read α} :
    Ends (tlsNum data at' bytes >>= f) ↔
      at' + bytes ≤ data.length ∧ Ends (f (numAt data at' bytes)) := by
  by_cases hat : at' + bytes ≤ data.length
  · simp [tlsNum_of_le hat, hat]
  · have hno : ¬ Ends (tlsNum data at' bytes) := by
      rw [ends_tlsNum]
      omega
    simp only [hat, false_and, iff_false, ends_bind, not_exists, not_and]
    exact fun a ha => absurd ⟨a, ha⟩ hno

/-- A number that is read is the one that is there. -/
theorem tlsNum_eq_numAt {data : Str} {at' bytes n : ℕ} (hbytes : 0 < bytes)
    (h : tlsNum data at' bytes = .ok n) : n = numAt data at' bytes := by
  have hin : at' + bytes ≤ data.length := (ends_tlsNum.mp ⟨n, h⟩).resolve_left (by omega)
  rw [tlsNum_of_le hin] at h
  exact (Except.ok.inj h).symm

/-! ## Things -/

/-- `(tag start end head)`, a thing of DER. -/
structure Item where
  tag : ℕ
  start : ℕ
  stop : ℕ
  head : ℕ
deriving DecidableEq

/-- `(der-at data at)`. A length in more than a byte is that of so many, where there are 1 to 4 of them,
and none there is -1 in the source. -/
def derAt (data : Str) (at' : ℕ) : Read (Option Item) :=
  if at' + 1 < data.length then do
    let tag ← code data at'
    let len ← code data (at' + 1)
    let start := at' + 2
    if 0x80 ≤ len then
      let n := len &&& 0x7f
      if 1 ≤ n ∧ n ≤ 4 ∧ start + n ≤ data.length then
        let len ← tlsNum data start n
        let start := start + n
        return if start + len ≤ data.length then some ⟨tag, start, start + len, at'⟩ else none
      else
        return none
    else
      return if start + len ≤ data.length then some ⟨tag, start, start + len, at'⟩ else none
  else
    return none

/-- The loop of `der-kids`, in so many turns. -/
def derKidsLoop (data : Str) (to' : ℕ) : (turns at' : ℕ) → Read (List Item)
  | 0, _ => .error .endless
  | turns + 1, at' =>
      if at' < to' then do
        match ← derAt data at' with
        | some item =>
            if item.stop ≤ to' then
              let rest ← derKidsLoop data to' turns item.stop
              return item :: rest
            else return []
        | none => return []
      else return []

/-- `(der-kids data from to)`. -/
def derKids (data : Str) (from' to' : ℕ) : Read (List Item) := derKidsLoop data to' (to' - from' + 1) from'

/-- `(der-in data item)`. -/
def derIn (data : Str) (item : Item) : Read (List Item) := derKids data item.start item.stop

/-- `(der-bytes data item)`. -/
def derBytes (data : Str) (item : Item) : Read Str := slice data item.start item.stop

/-- `(der-whole data item)`. -/
def derWhole (data : Str) (item : Item) : Read Str := slice data item.head item.stop

/-! ## What they read -/

/-- The thing at a place. -/
def derThing (data : Str) (at' : ℕ) : Option Item :=
  let len := byteAt data (at' + 1)
  let n := if 0x80 ≤ len then len &&& 0x7f else 0
  let size := if 0x80 ≤ len then numAt data (at' + 2) n else len
  let start := at' + 2 + n
  if at' + 1 < data.length ∧ (len < 0x80 ∨ 1 ≤ n ∧ n ≤ 4) ∧ start + size ≤ data.length then
    some ⟨byteAt data at', start, start + size, at'⟩
  else none

/-- The things one after the other, at most so many of them. -/
def derThingsFrom (data : Str) (to' : ℕ) : (most at' : ℕ) → List Item
  | 0, _ => []
  | most + 1, at' =>
      match derThing data at' with
      | some item => if item.stop ≤ to' then item :: derThingsFrom data to' most item.stop else []
      | none => []

/-- The things from one place to another. -/
def derThings (data : Str) (from' to' : ℕ) : List Item := derThingsFrom data to' (to' - from') from'

/-- The things in a thing. -/
def things (data : Str) (item : Item) : List Item := derThings data item.start item.stop

/-- A thing that is all there. -/
structure Item.In (item : Item) (data : Str) : Prop where
  head : item.head + 2 ≤ item.start
  start : item.start ≤ item.stop
  stop : item.stop ≤ data.length

theorem derThing_in {data : Str} {at' : ℕ} {item : Item} (h : derThing data at' = some item) :
    item.In data ∧ item.head = at' := by
  unfold derThing at h
  simp only [Option.ite_none_right_eq_some, Option.some.injEq] at h
  obtain ⟨⟨-, -, hin⟩, rfl⟩ := h
  exact ⟨⟨Nat.le_add_right _ _, Nat.le_add_right _ _, hin⟩, rfl⟩

theorem derAt_eq (data : Str) (at' : ℕ) : derAt data at' = .ok (derThing data at') := by
  unfold derAt derThing
  by_cases hat : at' + 1 < data.length
  · rw [if_pos hat, code_of_lt (by omega), ok_bind, code_of_lt hat, ok_bind]
    by_cases hlen : 0x80 ≤ byteAt data (at' + 1)
    · by_cases hn : 1 ≤ byteAt data (at' + 1) &&& 0x7f ∧ byteAt data (at' + 1) &&& 0x7f ≤ 4 ∧
          at' + 2 + (byteAt data (at' + 1) &&& 0x7f) ≤ data.length
      · simp only [hlen, hat, hn, if_true, tlsNum_of_le hn.2.2, ok_bind, true_and, and_self, or_true]
        rfl
      · have hno : ¬ ((byteAt data (at' + 1) < 0x80 ∨ 1 ≤ byteAt data (at' + 1) &&& 0x7f ∧
              byteAt data (at' + 1) &&& 0x7f ≤ 4) ∧ at' + 2 + (byteAt data (at' + 1) &&& 0x7f) +
              numAt data (at' + 2) (byteAt data (at' + 1) &&& 0x7f) ≤ data.length) := by
          intro h
          exact hn ⟨by omega, by omega, by omega⟩
        simp only [hlen, if_true, if_neg hn, hat, true_and, if_neg hno]
        rfl
    · have hlt : byteAt data (at' + 1) < 0x80 := by omega
      simp only [hlen, hlt, hat, if_false, true_and, true_or, Nat.add_zero]
      rfl
  · rw [if_neg hat]
    simp only [hat, false_and, if_false]
    rfl

theorem derKidsLoop_eq (data : Str) (to' : ℕ) (turns : ℕ) : ∀ at' : ℕ, to' - at' ≤ turns →
    derKidsLoop data to' (turns + 1) at' = .ok (derThingsFrom data to' turns at') := by
  induction turns with
  | zero =>
      intro at' h
      have hat : ¬ at' < to' := by omega
      rw [derKidsLoop, if_neg hat]
      rfl
  | succ turns ih =>
      intro at' h
      rw [derKidsLoop, derThingsFrom, derAt_eq, ok_bind]
      cases hitem : derThing data at' with
      | none => simp
      | some item =>
          obtain ⟨⟨hhead, hstart, -⟩, hat⟩ := derThing_in hitem
          have hrest := ih item.stop (by omega)
          by_cases hto : at' < to'
          · simp only [hto, if_true]
            split_ifs with hstop
            · rw [hrest]
              rfl
            · rfl
          · have hstop : ¬ item.stop ≤ to' := by omega
            simp only [hto, if_false, hstop]
            rfl

theorem derKids_eq (data : Str) (from' to' : ℕ) :
    derKids data from' to' = .ok (derThings data from' to') :=
  derKidsLoop_eq data to' _ from' le_rfl

theorem derIn_eq (data : Str) (item : Item) : derIn data item = .ok (things data item) :=
  derKids_eq data item.start item.stop

theorem derThingsFrom_in {data : Str} {to' : ℕ} (most : ℕ) : ∀ at' : ℕ,
    ∀ item ∈ derThingsFrom data to' most at', item.In data := by
  induction most with
  | zero => exact fun at' item h => absurd h List.not_mem_nil
  | succ most ih =>
      intro at' item h
      rw [derThingsFrom] at h
      cases hthing : derThing data at' with
      | none =>
          rw [hthing] at h
          exact absurd h List.not_mem_nil
      | some first =>
          simp only [hthing] at h
          by_cases hstop : first.stop ≤ to'
          · rw [if_pos hstop, List.mem_cons] at h
            cases h with
            | inl h => exact h ▸ (derThing_in hthing).1
            | inr h => exact ih _ item h
          · rw [if_neg hstop] at h
            exact absurd h List.not_mem_nil

theorem things_in {data : Str} {item kid : Item} (h : kid ∈ things data item) : kid.In data :=
  derThingsFrom_in _ _ kid h

/-- What is in a thing that is all there. -/
def bytesOf (data : Str) (item : Item) : Str := (data.take item.stop).drop item.start

theorem Item.In.derBytes_eq {data : Str} {item : Item} (h : item.In data) :
    derBytes data item = .ok (bytesOf data item) :=
  slice_of_le h.start h.stop

theorem Item.In.derWhole_eq {data : Str} {item : Item} (h : item.In data) :
    derWhole data item = .ok ((data.take item.stop).drop item.head) :=
  slice_of_le (by have := h.head; have := h.start; omega) h.stop

/-! ## Object identifiers -/

/-- `(str num)`. -/
def strInt (v : ℤ) : Str := if v < 0 then 45 :: strNum v.natAbs else strNum v.natAbs

/-- The parts after the first two of an object identifier, onto those: 7 bits of a byte at a time, and the
top bit of the last one clear. -/
def oidParts : Str → BitVec 64 → List Str → List Str
  | [], _, parts => parts
  | c :: rest, v, parts =>
      let v := v <<< 7 ||| BitVec.ofNat 64 (c.val &&& 0x7f)
      if c.val < 0x80 then oidParts rest 0 (parts ++ [strInt v.toInt]) else oidParts rest v parts

/-- `(der-oid bytes)`. -/
def derOid (bytes : Str) : Read Str :=
  if bytes = [] then return []
  else do
    let top ← code bytes 0
    let rest ← slice bytes 1 bytes.length
    return join (oidParts rest 0 [strNum (top / 40), strNum (top % 40)]) (asc ".")

example : derOid [0x2a, 0x86, 0x48, 0xce, 0x3d, 0x02, 0x01] = .ok (asc "1.2.840.10045.2.1") := by
  decide +kernel

theorem ends_derOid (bytes : Str) : Ends (derOid bytes) := by
  unfold derOid
  by_cases h : bytes = []
  · rw [if_pos h]
    exact ends_pure _
  · have hlen : 0 < bytes.length := List.length_pos_iff.mpr h
    rw [if_neg h, code_of_lt hlen, ok_bind, slice_of_le (by omega) le_rfl]
    exact ends_pure _

end ChrysaLisp.Tls
