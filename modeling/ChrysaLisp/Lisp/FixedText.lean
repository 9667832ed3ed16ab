import ChrysaLisp.Lisp.FormToken
import Mathlib.Data.BitVec

set_option autoImplicit false

/-! # A number with a point, printed and read

`:fixed :print` of `class/fixed/class.vp` writes five decimals of a fraction of 16 bits, and what is
after them is let go. `:sys_str :to_long`, which `read_num` and `str-to-num` both come to, divides
the digits by a power of ten, and what is left is let go as well. So a number is read as it was only
where its fraction is 32nds, and else as one 65536th nearer to 0 (`read_print`): printed and read on
and on, it goes down to its 32nds (`read_print_iterate`). -/

namespace ChrysaLisp.FixedText

open Forms

/-- A `:num`, or a `:fixed` by its 65536ths. -/
inductive Number
  | num (n : BitVec 64)
  | fixed (raw : BitVec 64)
deriving DecidableEq

/-! ## `:fixed :print` -/

/-- What is written of a number that is not below 0. -/
def printParts (value : BitVec 64) : Str :=
  let frac := printNum (((value &&& 0xffff) * 100000) >>> 16)
  printNum (value >>> 16) ++ [46] ++ ((List.replicate 5 48).take (5 - frac.length) ++ frac)

def printFixed (raw : BitVec 64) : Str :=
  if raw.msb then 45 :: printParts (-raw) else printParts raw

/-! ## `:sys_str :to_long` and `:to_num` -/

/-- The loop of `to_long`, over what is left of a C string. -/
def toLongLoop (base : BitVec 64) : Str → (num dot : BitVec 64) → BitVec 64 × BitVec 64
  | [], num, dot => (num, dot)
  | c :: s, num, dot =>
      if c = 0 then (num, dot)
      else
        let (num, dot) :=
          if c = 46 then (num, 1)
          else
            let c := c.val ||| 32
            let c := if 97 ≤ c then c - 39 else c
            (num * base + (BitVec.ofNat 64 c - 48), dot * base)
        if BitVec.sle 10000000 dot then (num, dot) else toLongLoop base s num dot

/-- The number and the power of ten of its point, 0 if it has none. -/
def toLong (base : BitVec 64) (s : Str) : BitVec 64 × BitVec 64 :=
  let (num, dot) := toLongLoop base s 0 0
  if dot ≠ 0 then ((num <<< 16) / dot, dot) else (num, dot)

/-- The last of `read_num` and of `str-to-num`: the sign, and the kind of the number. -/
def signed (minus : Bool) (parsed : BitVec 64 × BitVec 64) : Number :=
  let num := if minus then -parsed.1 else parsed.1
  if parsed.2 ≠ 0 then .fixed num else .num num

/-- `(str-to-num str)`. -/
def strToNum (s : Str) : Number :=
  let s := s.dropWhile fun c => decide (c ≤ 32 ∧ c ≠ 0)
  let minus := decide (s.head? = some 45)
  let s := if minus then s.tail else s
  signed minus (toLong (BitVec.ofNat 64 (numBase s).1) (numBase s).2)

/-! ## `read_num` -/

/-- What `read_num` gives: a number, or a symbol that begins with a minus. -/
inductive Item
  | number (n : Number)
  | sym (name : Str)
deriving DecidableEq

/-- The digits, and the point. Of none at all nothing is said: what is looked at for the base is then what was
    there before. -/
def readDigits (minus : Bool) (s : Str) : Option Item × Str :=
  let body := (s.take 72).takeWhile isNumChar
  (if body = [] then none
    else some (.number (signed minus (toLong (BitVec.ofNat 64 (numBase body).1) (numBase body).2))),
    s.drop body.length)

/-- The number that the next chars say, and what comes after it. -/
def readNum (s : Str) : Option Item × Str :=
  match s with
  | [] => (none, [])
  | first :: rest =>
      if first = 45 then
        match rest with
        | [] => (some (.sym [45]), [])
        | c :: _ =>
            if 48 ≤ c then readDigits true rest
            else if endsSym c then (some (.sym [45]), rest)
            else (some (.sym (45 :: (readSym rest).1)), (readSym rest).2)
      else readDigits false s

example : printFixed (BitVec.ofInt 64 (-81920)) = asc "-1.25000" := by decide

example : readNum (asc "0.00001)") = (some (.number (.fixed 0)), asc ")") := by decide

/-! ## The digits -/

theorem toNat_ofNat_of_lt {n : ℕ} (h : n < 2 ^ 64) : (BitVec.ofNat 64 n).toNat = n := by
  rw [BitVec.toNat_ofNat, Nat.mod_eq_of_lt h]

/-- A char of a digit. -/
abbrev digit (d : ℕ) : Byte := Fin.ofNat 256 (d + 48)

theorem not_sle {d : ℕ} (h : d < 10000000) : BitVec.sle 10000000 (BitVec.ofNat 64 d) = false := by
  have hd : (BitVec.ofNat 64 d).toInt = d := by
    rw [BitVec.toInt_eq_toNat_of_lt] <;> rw [toNat_ofNat_of_lt] <;> omega
  have hlimit : (10000000 : BitVec 64).toInt = 10000000 := by decide
  rw [BitVec.sle, hd, hlimit, decide_eq_false_iff_not]
  omega

theorem digit_spec : ∀ d, d < 10 → digit d ≠ 0 ∧ digit d ≠ 46 ∧ (digit d).val ||| 32 = d + 48 := by decide

/-- Digits before a point or after it, where these are not too many. -/
theorem toLongLoop_digits (ds : List ℕ) (hlt : ∀ d ∈ ds, d < 10) (s : Str) :
    ∀ {n p : ℕ}, p * 10 ^ ds.length < 10000000 →
    toLongLoop 10 (ds.map digit ++ s) (BitVec.ofNat 64 n) (BitVec.ofNat 64 p) =
      toLongLoop 10 s (BitVec.ofNat 64 (n * 10 ^ ds.length + Nat.ofDigits 10 ds.reverse))
        (BitVec.ofNat 64 (p * 10 ^ ds.length)) := by
  induction ds with
  | nil =>
      intro n p _
      simp
  | cons d ds ih =>
      intro n p hp
      have hd := hlt d List.mem_cons_self
      obtain ⟨hzero, hpoint, hval⟩ := digit_spec d hd
      have hletter : ¬ 97 ≤ d + 48 := by omega
      have hp' : p * 10 * 10 ^ ds.length < 10000000 := by
        rw [List.length_cons, pow_succ] at hp
        linarith
      have hsmall : p * 10 < 10000000 :=
        (Nat.le_mul_of_pos_right _ (Nat.pos_of_ne_zero (pow_ne_zero _ (by decide)))).trans_lt hp'
      have hnum : BitVec.ofNat 64 n * 10 + (BitVec.ofNat 64 (d + 48) - 48) =
        BitVec.ofNat 64 (n * 10 + d) := by
        rw [BitVec.ofNat_add, BitVec.ofNat_add, BitVec.ofNat_mul]
        exact congrArg (BitVec.ofNat 64 n * 10 + ·) (BitVec.add_sub_cancel _ _)
      have hdot : BitVec.ofNat 64 p * 10 = BitVec.ofNat 64 (p * 10) := (BitVec.ofNat_mul ..).symm
      have hstep := ih (fun e he => hlt e (List.mem_cons_of_mem _ he)) (n := n * 10 + d) hp'
      rw [List.map_cons, List.cons_append, toLongLoop, if_neg hzero, if_neg hpoint]
      dsimp only
      rw [hval, if_neg hletter, hnum, hdot, not_sle hsmall, if_neg Bool.false_ne_true, hstep,
        List.reverse_cons, Nat.ofDigits_append, Nat.ofDigits_singleton, List.length_reverse, List.length_cons]
      congr 2 <;> ring

/-- With the zeros before it a number below 100000 is five digits. -/
theorem five_digits {n : ℕ} (hn : n < 100000) : ∃ ds : List ℕ, ds.length = 5 ∧ (∀ d ∈ ds, d < 10) ∧
    Nat.ofDigits 10 ds.reverse = n ∧
    (List.replicate 5 (48 : Byte)).take (5 - (strNum n).length) ++ strNum n = ds.map digit := by
  obtain ⟨ds, -, hlt, hval, hstr⟩ := strNum_eq n
  have hlen : ds.length ≤ 5 := by
    have hdigits : (strNum n).length ≤ 5 := by
      unfold strNum
      split_ifs with hzero
      · decide
      · rw [List.length_map, List.length_reverse]
        exact (Nat.digits_length_le_iff (by decide) n).2 hn
    rwa [hstr, List.length_map] at hdigits
  refine ⟨List.replicate (5 - ds.length) 0 ++ ds, ?_, fun d hd => ?_, ?_, ?_⟩
  · rw [List.length_append, List.length_replicate]
    omega
  · rcases List.mem_append.mp hd with hd | hd
    · rw [List.eq_of_mem_replicate hd]
      decide
    · exact hlt d hd
  · rw [List.reverse_append, List.reverse_replicate, Nat.ofDigits_append_replicate_zero, hval]
  · rw [hstr, List.length_map, List.take_replicate, min_eq_left (Nat.sub_le 5 _), List.map_append,
      List.map_replicate]
    rfl

/-! ## Numbers that are not below 0 -/

/-- What is read of what is printed: the two roundings down take one 65536th off, or nothing. -/
def shaved (v : ℕ) : ℕ := if v % 2048 = 0 then v else v - 1

theorem rounded_twice (v : ℕ) :
    (v / 65536 * 100000 + v % 65536 * 100000 / 65536) * 65536 / 100000 = shaved v := by
  obtain ⟨k, hk⟩ : ∃ k, k = v / 65536 * 100000 + v % 65536 * 100000 / 65536 := ⟨_, rfl⟩
  have hdown : 2048 * k ≤ 3125 * v ∧ 3125 * v < 2048 * k + 2048 := by omega
  have hback : k * 65536 / 100000 = 2048 * k / 3125 := by omega
  rw [← hk, hback, shaved]
  split_ifs with h
  · obtain ⟨q, rfl⟩ := Nat.dvd_of_mod_eq_zero h
    omega
  · -- the first rounding has left something out, less than the second does
    have hless : 2048 * k ≠ 3125 * v := by omega
    omega

/-- Nothing goes above the 64 bits for the divide. -/
theorem shift_divide {k : ℕ} (hk : k * 65536 < 2 ^ 64) :
    BitVec.ofNat 64 k <<< 16 / 100000 = BitVec.ofNat 64 (k * 65536 / 100000) := by
  have hdivisor : (100000 : BitVec 64).toNat = 100000 := by decide
  have hshift : (BitVec.ofNat 64 k <<< 16).toNat = k * 65536 := by
    rw [BitVec.toNat_shiftLeft, toNat_ofNat_of_lt (by omega), Nat.shiftLeft_eq, Nat.mod_eq_of_lt hk]
  apply BitVec.eq_of_toNat_eq
  rw [BitVec.toNat_udiv, hshift, hdivisor, toNat_ofNat_of_lt ((Nat.div_le_self _ _).trans_lt hk)]

section Parts

variable {v : ℕ} (hv : v < 2 ^ 47)

include hv

omit hv in
theorem printNum_ofNat {n : ℕ} (hn : n < 2 ^ 63) : printNum (BitVec.ofNat 64 n) = strNum n := by
  have htoNat : (BitVec.ofNat 64 n).toNat = n := toNat_ofNat_of_lt (by omega)
  have hmsb : (BitVec.ofNat 64 n).msb = false := by
    rw [BitVec.msb_eq_decide, htoNat, decide_eq_false_iff_not]
    omega
  rw [printNum, hmsb, if_neg Bool.false_ne_true, htoNat]

theorem printParts_eq : ∃ ds : List ℕ, ds.length = 5 ∧ (∀ d ∈ ds, d < 10) ∧
    Nat.ofDigits 10 ds.reverse = v % 65536 * 100000 / 65536 ∧
    printParts (BitVec.ofNat 64 v) = strNum (v / 65536) ++ 46 :: ds.map digit := by
  have hvalue : (BitVec.ofNat 64 v).toNat = v := toNat_ofNat_of_lt (by omega)
  have hwhole : BitVec.ofNat 64 v >>> 16 = BitVec.ofNat 64 (v / 65536) := by
    apply BitVec.eq_of_toNat_eq
    rw [BitVec.toNat_ushiftRight, hvalue, toNat_ofNat_of_lt (by omega), Nat.shiftRight_eq_div_pow]
  have hlow : (BitVec.ofNat 64 v &&& 0xffff).toNat = v % 65536 := by
    rw [BitVec.toNat_and, hvalue]
    exact Nat.and_two_pow_sub_one_eq_mod v 16
  have hmul : ((BitVec.ofNat 64 v &&& 0xffff) * 100000).toNat = v % 65536 * 100000 := by
    have hfactor : (100000 : BitVec 64).toNat = 100000 := by decide
    rw [BitVec.toNat_mul, hlow, hfactor, Nat.mod_eq_of_lt]
    omega
  have hfrac : ((BitVec.ofNat 64 v &&& 0xffff) * 100000) >>> 16 =
    BitVec.ofNat 64 (v % 65536 * 100000 / 65536) := by
    apply BitVec.eq_of_toNat_eq
    rw [BitVec.toNat_ushiftRight, hmul, toNat_ofNat_of_lt (by omega), Nat.shiftRight_eq_div_pow]
  obtain ⟨ds, hlen, hlt, hval, hpad⟩ := five_digits (n := v % 65536 * 100000 / 65536) (by omega)
  refine ⟨ds, hlen, hlt, hval, ?_⟩
  rw [printParts, hwhole, hfrac, printNum_ofNat (by omega), printNum_ofNat (by omega), hpad,
    List.append_assoc, List.singleton_append]

theorem toLong_printParts :
    toLong 10 (printParts (BitVec.ofNat 64 v)) = (BitVec.ofNat 64 (shaved v), 100000) := by
  obtain ⟨ds, hlen, hlt, hval, hparts⟩ := printParts_eq hv
  obtain ⟨es, -, hes, hwhole, hstr⟩ := strNum_eq (v / 65536)
  have hbefore := toLongLoop_digits es hes (46 :: ds.map digit) (n := 0) (p := 0)
    (by rw [Nat.zero_mul]; decide)
  have hafter := toLongLoop_digits ds hlt [] (n := v / 65536) (p := 1) (by rw [hlen]; decide)
  rw [List.append_nil, hlen, hval] at hafter
  simp only [hwhole, Nat.zero_mul, Nat.zero_add] at hbefore
  have hpoint (num dot : BitVec 64) :
    toLongLoop 10 (46 :: ds.map digit) num dot = toLongLoop 10 (ds.map digit) num 1 := by
    rw [toLongLoop, if_neg (by decide), if_pos rfl]
    rfl
  have hloop : toLongLoop 10 (strNum (v / 65536) ++ 46 :: ds.map digit) 0 0 =
      (BitVec.ofNat 64 (v / 65536 * 100000 + v % 65536 * 100000 / 65536), 100000) := by
    rw [hstr]
    exact hbefore.trans ((hpoint _ _).trans hafter)
  have hdivide : BitVec.ofNat 64 (v / 65536 * 100000 + v % 65536 * 100000 / 65536) <<< 16 / 100000 =
      BitVec.ofNat 64 (shaved v) := by
    rw [shift_divide (by omega), rounded_twice]
  rw [toLong, hparts, hloop]
  dsimp only
  rw [if_pos (by decide), hdivide]

end Parts

/-! ## Read as printed -/

/-- The chars of a number with a point. -/
def isDecimal (c : Byte) : Bool := isDigit c || decide (c = 46)

theorem decimal_spec : ∀ c : Byte, isDecimal c = true → isNumChar c = true ∧ c.val ||| 32 < 98 := by
  decide +kernel

theorem digit_bounds {c : Byte} (hc : isDigit c = true) : 48 ≤ c ∧ c ≠ 45 := by
  revert c
  decide +kernel

theorem isDecimal_digit : ∀ d, d < 10 → isDecimal (digit d) = true := by decide

/-- They say no base. -/
theorem numBase_decimal {s : Str} (h : ∀ c ∈ s, isDecimal c = true) : numBase s = (10, s) := by
  match s with
  | [] => rfl
  | [_] => rfl
  | c :: b :: s =>
      have hb := (decimal_spec b (h b (List.mem_cons_of_mem _ List.mem_cons_self))).2
      rw [numBase, if_neg (by omega), if_neg (by omega), if_neg (by omega)]

theorem isDecimal_printParts {v : ℕ} (hv : v < 2 ^ 47) :
    ∀ c ∈ printParts (BitVec.ofNat 64 v), isDecimal c = true := by
  obtain ⟨ds, -, hlt, -, hparts⟩ := printParts_eq hv
  intro c hc
  rw [hparts, List.mem_append, List.mem_cons, List.mem_map] at hc
  rcases hc with hc | rfl | ⟨d, hd, rfl⟩
  · rw [isDecimal, isDigit_strNum _ c hc, Bool.true_or]
  · rfl
  · exact isDecimal_digit d (hlt d hd)

theorem length_printParts {v : ℕ} (hv : v < 2 ^ 47) : (printParts (BitVec.ofNat 64 v)).length ≤ 26 := by
  obtain ⟨ds, hlen, -, -, hparts⟩ := printParts_eq hv
  have hwhole := length_strNum (n := v / 65536) (by omega)
  rw [hparts, List.length_append, List.length_cons, List.length_map, hlen]
  omega

/-- It begins with a digit. -/
theorem head_printParts {v : ℕ} (hv : v < 2 ^ 47) :
    ∃ c s, printParts (BitVec.ofNat 64 v) = c :: s ∧ isDigit c = true := by
  obtain ⟨ds, -, -, -, hparts⟩ := printParts_eq hv
  obtain ⟨c, s, hs⟩ := List.exists_cons_of_ne_nil (strNum_ne_nil (v / 65536))
  refine ⟨c, s ++ 46 :: ds.map digit, by rw [hparts, hs, List.cons_append], ?_⟩
  exact isDigit_strNum _ c (hs ▸ List.mem_cons_self)

theorem readDigits_printParts {v : ℕ} (hv : v < 2 ^ 47) (minus : Bool) {rest : Str} (hrest : Ended rest) :
    readDigits minus (printParts (BitVec.ofNat 64 v) ++ rest) =
      (some (.number (signed minus (BitVec.ofNat 64 (shaved v), 100000))), rest) := by
  have hdecimal := isDecimal_printParts hv
  have hlen := length_printParts hv
  have hne : printParts (BitVec.ofNat 64 v) ≠ [] := by
    obtain ⟨c, s, hs, -⟩ := head_printParts hv
    rw [hs]
    exact List.cons_ne_nil c s
  have hbody : ((printParts (BitVec.ofNat 64 v) ++ rest).take 72).takeWhile isNumChar =
    printParts (BitVec.ofNat 64 v) := by
    rw [List.take_append, List.take_of_length_le (by omega)]
    refine (takeWhile_append_of (fun c hc => (decimal_spec c (hdecimal c hc)).1) fun c s hs => ?_).1
    cases rest with
    | nil =>
        rw [List.take_nil] at hs
        exact absurd hs.symm (List.cons_ne_nil c s)
    | cons d rest =>
      obtain ⟨k, hk⟩ : ∃ k, 72 - (printParts (BitVec.ofNat 64 v)).length = k + 1 :=
        ⟨71 - (printParts (BitVec.ofNat 64 v)).length, by omega⟩
      rw [hk, List.take_succ_cons] at hs
      obtain ⟨rfl, -⟩ := List.cons.inj hs
      exact isNumChar_of_endsSym (hrest d rest rfl)
  have hparsed : toLong (BitVec.ofNat 64 10) (printParts (BitVec.ofNat 64 v)) =
    (BitVec.ofNat 64 (shaved v), 100000) :=
    toLong_printParts hv
  rw [readDigits, hbody, numBase_decimal hdecimal, List.drop_left]
  dsimp only
  rw [if_neg hne, hparsed]

/-- One 65536th nearer to 0, where the fraction is not 32nds. -/
def nearer (raw : ℤ) : ℤ := if raw % 2048 = 0 then raw else if raw < 0 then raw + 1 else raw - 1

/-- A number as it is printed: a minus, and the parts of its size. -/
theorem printFixed_eq {raw : BitVec 64} (hraw : |raw.toInt| < 2 ^ 47) : ∃ v : ℕ, v < 2 ^ 47 ∧
    (printFixed raw = 45 :: printParts (BitVec.ofNat 64 v) ∧
      -BitVec.ofNat 64 (shaved v) = BitVec.ofInt 64 (nearer raw.toInt) ∨
    printFixed raw = printParts (BitVec.ofNat 64 v) ∧
      BitVec.ofNat 64 (shaved v) = BitVec.ofInt 64 (nearer raw.toInt)) := by
  obtain ⟨hlow, hhigh⟩ := abs_lt.mp hraw
  refine ⟨raw.toInt.natAbs, by omega, ?_⟩
  cases hmsb : raw.msb with
  | true =>
      have hneg : raw.toInt < 0 := BitVec.toInt_neg_of_msb_true hmsb
      have hsize : -raw = BitVec.ofNat 64 raw.toInt.natAbs := by
        rw [← BitVec.ofInt_natCast, Int.ofNat_natAbs_of_nonpos hneg.le, BitVec.ofInt_neg, BitVec.ofInt_toInt]
      have hshaved : (shaved raw.toInt.natAbs : ℤ) = -nearer raw.toInt := by
        simp only [shaved, nearer]
        split_ifs <;> omega
      left
      rw [printFixed, hmsb, if_pos rfl, hsize, ← BitVec.ofInt_natCast (n := shaved _), hshaved,
        BitVec.ofInt_neg, BitVec.neg_neg]
      exact ⟨rfl, rfl⟩
  | false =>
      have hpos : 0 ≤ raw.toInt := BitVec.toInt_nonneg_of_msb_false hmsb
      have hsize : raw = BitVec.ofNat 64 raw.toInt.natAbs := by
        rw [← BitVec.ofInt_natCast, Int.natAbs_of_nonneg hpos, BitVec.ofInt_toInt]
      have hshaved : (shaved raw.toInt.natAbs : ℤ) = nearer raw.toInt := by
        simp only [shaved, nearer]
        split_ifs <;> omega
      right
      rw [printFixed, hmsb, if_neg Bool.false_ne_true, ← hsize, ← hshaved, BitVec.ofInt_natCast]
      exact ⟨rfl, rfl⟩

theorem readNum_minus {c : Byte} (hc : 48 ≤ c) (s : Str) :
    readNum (45 :: c :: s) = readDigits true (c :: s) := by
  rw [readNum, if_pos rfl]
  exact if_pos hc

theorem readNum_digit {c : Byte} (hc : c ≠ 45) (s : Str) : readNum (c :: s) = readDigits false (c :: s) := by
  rw [readNum.eq_def]
  exact if_neg hc

theorem readNum_printFixed {raw : BitVec 64} (hraw : |raw.toInt| < 2 ^ 47) {rest : Str} (hrest : Ended rest) :
    readNum (printFixed raw ++ rest) =
      (some (.number (.fixed (BitVec.ofInt 64 (nearer raw.toInt)))), rest) := by
  obtain ⟨v, hv, ⟨hprint, hnearer⟩ | ⟨hprint, hnearer⟩⟩ := printFixed_eq hraw
  · have hread := readDigits_printParts hv true hrest
    obtain ⟨c, s, hs, hc⟩ := head_printParts hv
    rw [hs, List.cons_append] at hread
    rw [hprint, hs, List.cons_append, List.cons_append, readNum_minus (digit_bounds hc).1, hread, ← hnearer]
    rfl
  · have hread := readDigits_printParts hv false hrest
    obtain ⟨c, s, hs, hc⟩ := head_printParts hv
    rw [hs, List.cons_append] at hread
    rw [hprint, hs, List.cons_append, readNum_digit (digit_bounds hc).2, hread, ← hnearer]
    rfl

theorem strToNum_minus {s : Str} (hbase : numBase s = (10, s)) :
    strToNum (45 :: s) = signed true (toLong 10 s) := by
  have hskip : (45 :: s).dropWhile (fun c : Byte => decide (c ≤ 32 ∧ c ≠ 0)) = 45 :: s :=
    List.dropWhile_cons_of_neg (by decide)
  simp only [strToNum, hskip, List.head?_cons, decide_true, if_pos, List.tail_cons, hbase]
  rfl

theorem strToNum_digit {c : Byte} {s : Str} (hc : isDigit c = true)
    (hbase : numBase (c :: s) = (10, c :: s)) :
    strToNum (c :: s) = signed false (toLong 10 (c :: s)) := by
  obtain ⟨hlow, hminus⟩ := digit_bounds hc
  have hblank : ¬ decide (c ≤ 32 ∧ c ≠ 0) = true := fun h =>
    absurd (hlow.trans (of_decide_eq_true h).1) (by decide)
  have hskip : (c :: s).dropWhile (fun c => decide (c ≤ 32 ∧ c ≠ 0)) = c :: s :=
    List.dropWhile_cons_of_neg hblank
  have hsign : decide ((c :: s).head? = some 45) = false := by
    rw [List.head?_cons, decide_eq_false_iff_not, Option.some.injEq]
    exact hminus
  simp only [strToNum, hskip, hsign, Bool.false_eq_true, if_false, hbase]
  rfl

theorem strToNum_printFixed {raw : BitVec 64} (hraw : |raw.toInt| < 2 ^ 47) :
    strToNum (printFixed raw) = .fixed (BitVec.ofInt 64 (nearer raw.toInt)) := by
  obtain ⟨v, hv, ⟨hprint, hnearer⟩ | ⟨hprint, hnearer⟩⟩ := printFixed_eq hraw
  · rw [hprint, strToNum_minus (numBase_decimal (isDecimal_printParts hv)), toLong_printParts hv, ← hnearer]
    rfl
  · have hparsed := toLong_printParts hv
    have hbase := numBase_decimal (isDecimal_printParts hv)
    obtain ⟨c, s, hs, hc⟩ := head_printParts hv
    rw [hs] at hparsed hbase
    rw [hprint, hs, strToNum_digit hc hbase, hparsed, ← hnearer]
    rfl

/-! ## On and on -/

/-- A number printed and read. -/
def reread : Number → Number
  | .fixed raw => strToNum (printFixed raw)
  | .num n => .num n

theorem nearer_eq_self {raw : ℤ} : nearer raw = raw ↔ raw % 2048 = 0 := by
  simp only [nearer]
  split_ifs <;> omega

theorem nearer_neg (raw : ℤ) : nearer (-raw) = -nearer raw := by
  simp only [nearer]
  split_ifs <;> omega

/-- Down to the 32nds below, and no further. -/
theorem nearer_iterate (n : ℕ) {raw : ℤ} (h : 0 ≤ raw) :
    nearer^[n] raw = max (raw / 2048 * 2048) (raw - n) := by
  induction n with
  | zero =>
      rw [Function.iterate_zero, id_eq]
      omega
  | succ n ih =>
      rw [Function.iterate_succ_apply', ih, nearer]
      split_ifs <;> omega

theorem nearer_iterate_neg (n : ℕ) (raw : ℤ) : nearer^[n] (-raw) = -nearer^[n] raw := by
  induction n with
  | zero => rfl
  | succ n ih => rw [Function.iterate_succ_apply', Function.iterate_succ_apply', ih, nearer_neg]

theorem abs_nearer_le (raw : ℤ) : |nearer raw| ≤ |raw| := by
  simp only [nearer]
  split_ifs with hwhole hneg
  · exact le_rfl
  · rw [abs_of_neg hneg, abs_of_nonpos (by omega)]
    omega
  · rw [abs_of_nonneg (by omega), abs_of_nonneg (by omega)]
    omega

/-- Its size goes down, and its sign is kept. -/
theorem nearer_iterate_sign (n : ℕ) (raw : ℤ) :
    nearer^[n] raw = raw.sign * max (|raw| / 2048 * 2048) (|raw| - n) := by
  rcases lt_trichotomy raw 0 with hneg | rfl | hpos
  · have hsize := nearer_iterate n (Int.neg_nonneg_of_nonpos hneg.le)
    rw [nearer_iterate_neg] at hsize
    rw [Int.sign_eq_neg_one_of_neg hneg, abs_of_neg hneg, ← hsize]
    ring
  · rw [nearer_iterate n le_rfl, Int.sign_zero]
    omega
  · rw [nearer_iterate n hpos.le, Int.sign_eq_one_of_pos hpos, abs_of_pos hpos, one_mul]

theorem toInt_ofInt_of_abs {raw : ℤ} (h : |raw| < 2 ^ 47) : (BitVec.ofInt 64 raw).toInt = raw := by
  obtain ⟨hlow, hhigh⟩ := abs_lt.mp h
  rw [BitVec.toInt_ofInt]
  exact Int.bmod_eq_of_le (by omega) (by omega)

theorem reread_iterate (n : ℕ) {raw : BitVec 64} (hraw : |raw.toInt| < 2 ^ 47) :
    reread^[n] (.fixed raw) = .fixed (BitVec.ofInt 64 (nearer^[n] raw.toInt)) ∧
      |nearer^[n] raw.toInt| < 2 ^ 47 := by
  induction n with
  | zero =>
      refine ⟨?_, hraw⟩
      rw [Function.iterate_zero, Function.iterate_zero, id_eq, id_eq, BitVec.ofInt_toInt]
  | succ n ih =>
      obtain ⟨heq, hsize⟩ := ih
      have hint := toInt_ofInt_of_abs hsize
      rw [Function.iterate_succ_apply', Function.iterate_succ_apply', heq]
      refine ⟨?_, (abs_nearer_le _).trans_lt hsize⟩
      rw [reread, strToNum_printFixed (by rw [hint]; exact hsize), hint]

/-- A number printed is read, both ways, as itself where its fraction is 32nds, and else as one
    65536th nearer to 0; printed and read so many times it keeps its sign and its 32nds, and is that
    much nearer at most. -/
theorem fixed_text {raw : BitVec 64} (hraw : |raw.toInt| < 2 ^ 47) {rest : Str} (hrest : Ended rest) :
    readNum (printFixed raw ++ rest) = (some (.number (.fixed (BitVec.ofInt 64 (nearer raw.toInt)))), rest) ∧
    strToNum (printFixed raw) = .fixed (BitVec.ofInt 64 (nearer raw.toInt)) ∧
    (BitVec.ofInt 64 (nearer raw.toInt) = raw ↔ raw.toInt % 2048 = 0) ∧
    ∀ n : ℕ, reread^[n] (.fixed raw) =
      .fixed (BitVec.ofInt 64 (raw.toInt.sign * max (|raw.toInt| / 2048 * 2048) (|raw.toInt| - n))) := by
  refine ⟨readNum_printFixed hraw hrest, strToNum_printFixed hraw, ?_, fun n => ?_⟩
  · have hint := toInt_ofInt_of_abs ((abs_nearer_le raw.toInt).trans_lt hraw)
    rw [← nearer_eq_self, ← BitVec.toInt_inj, hint]
  · rw [(reread_iterate n hraw).1, nearer_iterate_sign]

/-- The smallest below 0, with a bracket after it. -/
theorem fixed_text_minus_one :
    readNum (printFixed (BitVec.ofInt 64 (-1)) ++ [41]) =
      (some (.number (.fixed (BitVec.ofInt 64 (nearer (BitVec.ofInt 64 (-1)).toInt)))), [41]) ∧
    strToNum (printFixed (BitVec.ofInt 64 (-1))) =
      .fixed (BitVec.ofInt 64 (nearer (BitVec.ofInt 64 (-1)).toInt)) :=
  let h := @fixed_text (BitVec.ofInt 64 (-1)) (by decide) [41] (ended_cons rfl [])
  ⟨h.1, h.2.1⟩

/-- One 65536th is printed as a hundred thousandth, and that is read as 0. -/
theorem one_reads_zero : printFixed 1 = asc "0.00001" ∧ readNum
    (printFixed 1) = (some (.number (.fixed 0)), []) ∧
    strToNum (printFixed 1) = .fixed 0 ∧ Number.fixed 0 ≠ .fixed 1 := by
  decide

end ChrysaLisp.FixedText
