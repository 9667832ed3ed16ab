import Mathlib.Tactic.IntervalCases
import ChrysaLisp.Trans.Emit

set_option autoImplicit false

/-! # x86-64

The instructions `lib/trans/x86_64.inc` makes constants with, what bytes are and what they do. A number in
the code has its low byte first. -/

namespace ChrysaLisp.Trans.X64

open Fields

def leBytes : ℕ → ℕ → List ℕ
  | 0, _ => []
  | n + 1, x => x % 256 :: leBytes n (x / 256)

def leNum : List ℕ → ℕ
  | [] => 0
  | b :: bs => b + 256 * leNum bs

@[simp] theorem length_leBytes (n x : ℕ) : (leBytes n x).length = n := by
  induction n generalizing x with
  | zero => rfl
  | succ n ih => rw [leBytes, List.length_cons, ih]

theorem leNum_leBytes (n x : ℕ) : leNum (leBytes n x) = x % 256 ^ n := by
  induction n generalizing x with
  | zero => rw [leBytes, leNum, pow_zero, Nat.mod_one]
  | succ n ih => rw [leBytes, leNum, ih, Nat.pow_succ', Nat.mod_mul]

inductive Instr
  | xor (w : ℕ) (reg rm : ℕ)
  | orImm (rm imm : ℕ)
  | mov (rd imm : ℕ)
  | movSigned (rd imm : ℕ)

/-- An instruction with its prefix, and what follows it. -/
def decodeAt (rex : ℕ) : List ℕ → Option (Instr × List ℕ)
  | [] => none
  | op :: bs =>
      let w := field rex 3 1
      let r := field rex 2 1 * 8
      let b := field rex 0 1 * 8
      if field op 3 5 = 0b10111 then
        let n := if w = 1 then 8 else 4
        some (.mov (b + field op 0 3) (leNum (bs.take n)), bs.drop n)
      else
        match bs with
        | [] => none
        | modrm :: bs =>
            let reg := field modrm 3 3
            let rm := b + field modrm 0 3
            if field modrm 6 2 ≠ 3 then none
            else if op = 0x31 then some (.xor w (r + reg) rm, bs)
            else if op = 0x83 ∧ w = 1 ∧ reg = 1 then some (.orImm rm (leNum (bs.take 1)), bs.drop 1)
            else if op = 0xc7 ∧ w = 1 ∧ reg = 0 then some (.movSigned rm (leNum (bs.take 4)), bs.drop 4)
            else none

def decode : List ℕ → Option (Instr × List ℕ)
  | [] => none
  | b :: bs => if field b 4 4 = 4 then decodeAt b bs else decodeAt 0 (b :: bs)

/-- Half a register written clears the other half. -/
def exec (regs : Regs) : Instr → Regs
  | .xor w reg rm =>
      let x := regs rm ^^^ regs reg
      Function.update regs rm (if w = 1 then x else BitVec.ofNat 64 (field x.toNat 0 32))
  | .orImm rm imm => Function.update regs rm (regs rm ||| BitVec.ofInt 64 (signed 8 imm))
  | .mov rd imm => Function.update regs rd (BitVec.ofNat 64 imm)
  | .movSigned rd imm => Function.update regs rd (BitVec.ofInt 64 (signed 32 imm))

def step (bs : List ℕ) (regs : Regs) : Option (Regs × List ℕ) :=
  (decode bs).map fun p => (exec regs p.1, p.2)

/-! ## What is emitted -/

def emitmByte (l : List Num) : List ℕ := l.map fun x => x.toNat % 256

def emitmInt (x : Num) : List ℕ := leBytes 4 x.toNat

def emitmLong (x : Num) : List ℕ := leBytes 8 x.toNat

/-- `x64-within` -/
def within (c : Num) (n : ℕ) : Prop := -2 ^ (n - 1) ≤ c.toInt ∧ c.toInt ≤ 2 ^ (n - 1) - 1

instance (c : Num) (n : ℕ) : Decidable (within c n) := inferInstanceAs (Decidable (_ ∧ _))

def x64Rex (w r x b : ℕ) : Num := BitVec.ofNat 64 (0x40 + (w <<< 3) + (r <<< 2) + (x <<< 1) + b)

def x64Modrm (mod reg rm : ℕ) : Num := BitVec.ofNat 64 ((mod <<< 6) + ((7 &&& reg) <<< 3) + (7 &&& rm))

def x64RR (o s d : ℕ) : List ℕ :=
  emitmByte [x64Rex 1 (s >>> 3) 0 (d >>> 3), BitVec.ofNat 64 o, x64Modrm 3 s d]

def x64AluCr (digit : ℕ) (c : Num) (r : ℕ) : Except (String × Num) (List ℕ) :=
  let rex := emitmByte [x64Rex 1 0 0 (r >>> 3)]
  if within c 8 then .ok (rex ++ emitmByte [0x83, x64Modrm 3 digit r, c])
  else if within c 32 then
    .ok (rex ++ (if r = 0 then emitmByte [BitVec.ofNat 64 ((digit <<< 3) + 5)]
      else emitmByte [0x81, x64Modrm 3 digit r]) ++ emitmInt c)
  else .error ("x64-alu-cr constant out of range !", c)

def emitOrCr (c : Num) (r : ℕ) : Except (String × Num) (List ℕ) :=
  if c = 0 then .ok [] else x64AluCr 1 c r

def emitXorRr (s d : ℕ) : List ℕ :=
  if s = d then (if 8 ≤ d then emitmByte [0x45] else []) ++ emitmByte [0x31, x64Modrm 3 d d]
  else x64RR 0x31 s d

def emitCpyCr (c : Num) (r : ℕ) : Except (String × Num) (List ℕ) :=
  if c = 0 then .ok (emitXorRr r r)
  else
    let rl := r &&& 7
    let rh := r >>> 3
    if -1 = c then emitOrCr (-1) r
    else if 0 ≤ c.toInt ∧ c.toInt ≤ 0xffffffff then
      .ok ((if 8 ≤ r then emitmByte [x64Rex 0 0 0 rh] else []) ++
        emitmByte [BitVec.ofNat 64 (0xb8 + rl)] ++ emitmInt c)
    else if within c 32 then
      .ok (emitmByte [x64Rex 1 0 0 rh, 0xc7, x64Modrm 3 0 r] ++ emitmInt c)
    else .ok (emitmByte [x64Rex 1 0 0 rh, BitVec.ofNat 64 (0xb8 + rl)] ++ emitmLong c)

def x64CmpCr (c : Num) (r : ℕ) : Except (String × Num) (List ℕ) :=
  if c = 0 then .ok (x64RR 0x85 r r) else x64AluCr 7 c r

/-- The bytes that are jumped over, by the constant. -/
def skip (c : Num) (d : ℕ) : ℕ :=
  if c = 0 then if 8 ≤ d then 3 else 2
  else if c = -1 then 4
  else if 0 ≤ c.toInt ∧ c.toInt ≤ 0xffffffff then if 8 ≤ d then 6 else 5
  else if within c 32 then 7
  else 10

/-- A compare, a jump over the copy and the copy. -/
def x64Bound (j : Num) (c : Num) (d : ℕ) : Except (String × Num) (List ℕ) := do
  let cmp ← x64CmpCr c d
  let cpy ← emitCpyCr c d
  return cmp ++ emitmByte [j, BitVec.ofNat 64 (skip c d)] ++ cpy

def emitMinCr (c : Num) (d : ℕ) : Except (String × Num) (List ℕ) := x64Bound 0x7e c d

def emitMaxCr (c : Num) (d : ℕ) : Except (String × Num) (List ℕ) := x64Bound 0x7d c d

/-! ## What the bytes are -/

section Bytes

variable {r : ℕ}

/-- The bytes with a register in them. -/
theorem bytes_of_reg : ∀ r < 16,
    (x64Rex 1 0 0 (r >>> 3)).toNat % 256 = 0x48 + r / 8 ∧
      (x64Rex 0 0 0 (r >>> 3)).toNat % 256 = 0x40 + r / 8 ∧
      (BitVec.ofNat 64 (0xb8 + (r &&& 7))).toNat % 256 = 0xb8 + r % 8 ∧
      (x64Modrm 3 0 r).toNat % 256 = 0xc0 + r % 8 ∧
      (x64Modrm 3 1 r).toNat % 256 = 0xc8 + r % 8 ∧
      (x64Modrm 3 r r).toNat % 256 = 0xc0 + 9 * (r % 8) := by
  decide

theorem decode_mov (hr : r < 16) (bs : List ℕ) :
    decode ([0x48 + r / 8, 0xb8 + r % 8] ++ bs) = some (.mov r (leNum (bs.take 8)), bs.drop 8) := by
  interval_cases r <;> rfl

theorem decode_mov_low (hr : r < 8) (bs : List ℕ) :
    decode ([0xb8 + r % 8] ++ bs) = some (.mov r (leNum (bs.take 4)), bs.drop 4) := by
  interval_cases r <;> rfl

theorem decode_mov_rex (hr : r < 16) (bs : List ℕ) :
    decode ([0x40 + r / 8, 0xb8 + r % 8] ++ bs) = some (.mov r (leNum (bs.take 4)), bs.drop 4) := by
  interval_cases r <;> rfl

theorem decode_movSigned (hr : r < 16) (bs : List ℕ) :
    decode ([0x48 + r / 8, 0xc7, 0xc0 + r % 8] ++ bs) =
      some (.movSigned r (leNum (bs.take 4)), bs.drop 4) := by
  interval_cases r <;> rfl

theorem decode_or (hr : r < 16) (bs : List ℕ) :
    decode ([0x48 + r / 8, 0x83, 0xc8 + r % 8] ++ bs) =
      some (.orImm r (leNum (bs.take 1)), bs.drop 1) := by
  interval_cases r <;> rfl

theorem decode_xor_low (hr : r < 8) (bs : List ℕ) :
    decode ([0x31, 0xc0 + 9 * (r % 8)] ++ bs) = some (.xor 0 r r, bs) := by
  interval_cases r <;> rfl

theorem decode_xor_high (hr : r < 16) (h8 : 8 ≤ r) (bs : List ℕ) :
    decode ([0x45, 0x31, 0xc0 + 9 * (r % 8)] ++ bs) = some (.xor 0 r r, bs) := by
  interval_cases r <;> rfl

theorem leNum_take (n x : ℕ) (bs : List ℕ) : leNum ((leBytes n x ++ bs).take n) = x % 256 ^ n := by
  rw [List.take_left' (length_leBytes n x), leNum_leBytes]

theorem drop_leBytes (n x : ℕ) (bs : List ℕ) : (leBytes n x ++ bs).drop n = bs :=
  List.drop_left' (length_leBytes n x)

end Bytes

/-- The register has the constant after, and no other is changed. -/
theorem step_emitCpyCr (c : Num) {r : ℕ} (hr : r < 16) (regs : Regs) (rest : List ℕ) :
    ∃ cpy, emitCpyCr c r = .ok cpy ∧ cpy.length = skip c r ∧
      step (cpy ++ rest) regs = some (Function.update regs r c, rest) := by
  obtain ⟨hrex, hrex0, hb8, hmod, hor, hxor⟩ := bytes_of_reg r hr
  have hlt := c.isLt
  have hsign := toInt_cases c
  rw [emitCpyCr, skip]
  by_cases h0 : c = 0
  · have hzero : exec regs (.xor 0 r r) = Function.update regs r c := by
      rw [exec, if_neg (by decide), h0, BitVec.xor_self]
      rfl
    rw [if_pos h0, if_pos h0, emitXorRr, if_pos rfl]
    refine ⟨_, rfl, ?_⟩
    by_cases h8 : 8 ≤ r
    · have hbytes : emitmByte [0x45] ++ emitmByte [0x31, x64Modrm 3 r r] =
          [0x45, 0x31, 0xc0 + 9 * (r % 8)] := by
        rw [emitmByte, emitmByte, List.map_singleton, List.map_cons, List.map_singleton, hxor]
        rfl
      rw [if_pos h8, if_pos h8, hbytes]
      exact ⟨rfl, by rw [step, decode_xor_high hr h8, Option.map_some, hzero]⟩
    · have hbytes : [] ++ emitmByte [0x31, x64Modrm 3 r r] = [0x31, 0xc0 + 9 * (r % 8)] := by
        rw [emitmByte, List.map_cons, List.map_singleton, hxor]
        rfl
      rw [if_neg h8, if_neg h8, hbytes]
      exact ⟨rfl, by rw [step, decode_xor_low (by omega), Option.map_some, hzero]⟩
  rw [if_neg h0, if_neg h0]
  dsimp only
  by_cases h1 : c = -1
  · have hbytes : emitmByte [x64Rex 1 0 0 (r >>> 3)] ++ emitmByte [0x83, x64Modrm 3 1 r, -1] =
        [0x48 + r / 8, 0x83, 0xc8 + r % 8] ++ [0xff] := by
      rw [emitmByte, emitmByte, List.map_singleton, List.map_cons, List.map_cons, List.map_singleton, hrex,
        hor]
      rfl
    have hall : exec regs (.orImm r 0xff) = Function.update regs r c := by
      have hff : BitVec.ofInt 64 (signed 8 0xff) = BitVec.allOnes 64 := rfl
      rw [exec, hff, BitVec.or_allOnes, h1]
      rfl
    rw [if_pos h1.symm, if_pos h1, emitOrCr, if_neg (by decide), x64AluCr, if_pos (by decide), hbytes]
    refine ⟨_, rfl, rfl, ?_⟩
    rw [List.append_assoc, step, decode_or hr, Option.map_some]
    exact congrArg (fun regs => some (regs, rest)) hall
  rw [if_neg (Ne.symm h1), if_neg h1]
  by_cases h32 : 0 ≤ c.toInt ∧ c.toInt ≤ 0xffffffff
  · have hc : BitVec.ofNat 64 (c.toNat % 256 ^ 4) = c := by
      rw [Nat.mod_eq_of_lt (by omega), BitVec.ofNat_toNat, BitVec.setWidth_eq]
    rw [if_pos h32, if_pos h32]
    refine ⟨_, rfl, ?_⟩
    by_cases h8 : 8 ≤ r
    · have hbytes : emitmByte [x64Rex 0 0 0 (r >>> 3)] ++ emitmByte [BitVec.ofNat 64 (0xb8 + (r &&& 7))] =
          [0x40 + r / 8, 0xb8 + r % 8] := by
        rw [emitmByte, emitmByte, List.map_singleton, List.map_singleton, hrex0, hb8]
        rfl
      rw [if_pos h8, if_pos h8, hbytes, emitmInt, List.length_append, length_leBytes]
      refine ⟨rfl, ?_⟩
      rw [List.append_assoc, step, decode_mov_rex hr, Option.map_some, leNum_take, drop_leBytes, exec, hc]
    · have hbytes : [] ++ emitmByte [BitVec.ofNat 64 (0xb8 + (r &&& 7))] = [0xb8 + r % 8] := by
        rw [emitmByte, List.map_singleton, hb8]
        rfl
      rw [if_neg h8, if_neg h8, hbytes, emitmInt, List.length_append, length_leBytes]
      refine ⟨rfl, ?_⟩
      rw [List.append_assoc, step, decode_mov_low (by omega), Option.map_some, leNum_take, drop_leBytes,
        exec, hc]
  rw [if_neg h32, if_neg h32]
  by_cases hs : within c 32
  · have hc : BitVec.ofInt 64 (signed 32 (c.toNat % 256 ^ 4)) = c := by
      obtain ⟨hle, hge⟩ := hs
      have hfield := signed_field (n := 32) (by decide) c (by omega) (by omega)
      rw [field, pow_zero, Nat.div_one] at hfield
      rw [show 256 ^ 4 = 2 ^ 32 from rfl, hfield, BitVec.ofInt_toInt]
    have hbytes : emitmByte [x64Rex 1 0 0 (r >>> 3), 0xc7, x64Modrm 3 0 r] =
        [0x48 + r / 8, 0xc7, 0xc0 + r % 8] := by
      rw [emitmByte, List.map_cons, List.map_cons, List.map_singleton, hrex, hmod]
      rfl
    rw [if_pos hs, if_pos hs, hbytes, emitmInt]
    refine ⟨_, rfl, ?_, ?_⟩
    · rw [List.length_append, length_leBytes]
      rfl
    · rw [List.append_assoc, step, decode_movSigned hr, Option.map_some, leNum_take, drop_leBytes, exec, hc]
  · have hc : BitVec.ofNat 64 (c.toNat % 256 ^ 8) = c := by
      rw [Nat.mod_eq_of_lt (by omega), BitVec.ofNat_toNat, BitVec.setWidth_eq]
    have hbytes : emitmByte [x64Rex 1 0 0 (r >>> 3), BitVec.ofNat 64 (0xb8 + (r &&& 7))] =
        [0x48 + r / 8, 0xb8 + r % 8] := by
      rw [emitmByte, List.map_cons, List.map_singleton, hrex, hb8]
    rw [if_neg hs, if_neg hs, hbytes, emitmLong]
    refine ⟨_, rfl, ?_, ?_⟩
    · rw [List.length_append, length_leBytes]
      rfl
    · rw [List.append_assoc, step, decode_mov hr, Option.map_some, leNum_take, drop_leBytes, exec, hc]

/-- What is jumped over is the copy. -/
theorem x64Bound_skip {j : Num} {c : Num} {d : ℕ} {bs : List ℕ} (hd : d < 16)
    (h : x64Bound j c d = .ok bs) :
    ∃ cmp cpy, x64CmpCr c d = .ok cmp ∧ emitCpyCr c d = .ok cpy ∧
      bs = cmp ++ [j.toNat % 256, cpy.length] ++ cpy := by
  obtain ⟨cpy, hcpy, hlen, -⟩ := step_emitCpyCr c hd (fun _ => 0) []
  have hskip : skip c d % 2 ^ 64 % 256 = skip c d := by
    unfold skip
    split_ifs <;> rfl
  rw [x64Bound, hcpy] at h
  cases hcmp : x64CmpCr c d with
  | error e =>
    rw [hcmp] at h
    change Except.error e = Except.ok bs at h
    exact absurd h (by simp)
  | ok cmp =>
    rw [hcmp] at h
    change Except.ok (cmp ++ emitmByte [j, BitVec.ofNat 64 (skip c d)] ++ cpy) = Except.ok bs at h
    refine ⟨cmp, cpy, rfl, hcpy, ?_⟩
    rw [emitmByte, List.map_cons, List.map_singleton, BitVec.toNat_ofNat, hskip, ← hlen] at h
    exact (Except.ok.inj h).symm

end ChrysaLisp.Trans.X64
