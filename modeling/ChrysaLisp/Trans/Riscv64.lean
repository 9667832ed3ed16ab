import ChrysaLisp.Trans.Emit

set_option autoImplicit false

/-! # RISC-V

The instructions `lib/trans/riscv64.inc` makes constants with, what a word is and what it does. Register
0 is 0. -/

namespace ChrysaLisp.Trans.Riscv64

open Fields

inductive Instr
  | addi (rd rs1 imm : ℕ)
  | addiw (rd rs1 imm : ℕ)
  | slli (rd rs1 shamt : ℕ)
  | lui (rd imm : ℕ)
  | add (rd rs1 rs2 : ℕ)

def decode (w : ℕ) : Option Instr :=
  let o := field w 0 7
  let rd := field w 7 5
  let f3 := field w 12 3
  let rs1 := field w 15 5
  if o = 0x13 ∧ f3 = 0 then some (.addi rd rs1 (field w 20 12))
  else if o = 0x13 ∧ f3 = 1 ∧ field w 26 6 = 0 then some (.slli rd rs1 (field w 20 6))
  else if o = 0x1b ∧ f3 = 0 then some (.addiw rd rs1 (field w 20 12))
  else if o = 0x37 then some (.lui rd (field w 12 20))
  else if o = 0x33 ∧ f3 = 0 ∧ field w 25 7 = 0 then some (.add rd rs1 (field w 20 5))
  else none

def get (regs : Regs) (r : ℕ) : Num := if r = 0 then 0 else regs r

def set (regs : Regs) (r : ℕ) (v : Num) : Regs := if r = 0 then regs else Function.update regs r v

def exec (regs : Regs) : Instr → Regs
  | .addi rd rs1 imm => set regs rd (get regs rs1 + BitVec.ofInt 64 (signed 12 imm))
  | .addiw rd rs1 imm =>
      let sum := get regs rs1 + BitVec.ofInt 64 (signed 12 imm)
      set regs rd (BitVec.ofInt 64 (signed 32 (field sum.toNat 0 32)))
  | .slli rd rs1 shamt => set regs rd (get regs rs1 <<< shamt)
  | .lui rd imm => set regs rd (BitVec.ofInt 64 (signed 32 (imm * 2 ^ 12)))
  | .add rd rs1 rs2 => set regs rd (get regs rs1 + get regs rs2)

def run : List ℕ → Regs → Option Regs
  | [], regs => some regs
  | w :: ws, regs => (decode w).bind fun i => run ws (exec regs i)

/-! ## What is emitted -/

def rzero : ℕ := 0

def rtmp2 : ℕ := 30

/-- `riscv64-within` -/
def within (c : Num) (n : ℕ) : Prop := -2 ^ (n - 1) ≤ c.toInt ∧ c.toInt ≤ 2 ^ (n - 1) - 1

instance (c : Num) (n : ℕ) : Decidable (within c n) := inferInstanceAs (Decidable (_ ∧ _))

/-- `riscv64-bf` -/
def bf (n : Num) (width lsb pos : ℕ) : Num := ((n >>> lsb) &&& BitVec.ofNat 64 (2 ^ width - 1)) <<< pos

def reg (r pos : ℕ) : Num := BitVec.ofNat 64 r <<< pos

def riscv64R (o rd rs1 rs2 f3 f7 : ℕ) : List ℕ :=
  emitmInt (BitVec.ofNat 64 o + reg rd 7 + reg rs1 15 + reg rs2 20 + reg f3 12 + reg f7 25)

def riscv64I (o rd rs1 f3 : ℕ) (imm12 : Num) : List ℕ :=
  emitmInt (BitVec.ofNat 64 o + reg rd 7 + reg rs1 15 + reg f3 12 + bf imm12 12 0 20)

def riscv64U (o rd : ℕ) (imm32 : Num) : List ℕ :=
  emitmInt (BitVec.ofNat 64 o + reg rd 7 + bf imm32 20 12 12)

def emitShlCr (c : Num) (r : ℕ) : List ℕ := riscv64I 0x13 r r 0x1 c

def emitAddRr (s d : ℕ) : List ℕ := riscv64R 0x33 d d s 0x0 0x0

def riscv64Cr (c : Num) (r : ℕ) : Except (String × Num) (List ℕ) :=
  if within c 12 then .ok (riscv64I 0x13 r rzero 0x0 c)
  else if within c 32 then
    let l := (c <<< 52).sshiftRight 52
    let u := c - l
    .ok (riscv64U 0x37 r u ++ if l ≠ 0 then riscv64I 0x1b r r 0x0 l else [])
  else .error ("riscv64-cr constant out of range !", c)

def emitCpyCr (c : Num) (r : ℕ) : Except (String × Num) (List ℕ) :=
  if within c 32 then riscv64Cr c r
  else
    let l := (c <<< 32).sshiftRight 32
    let u := c.sshiftRight 32
    let u := if l.toInt < 0 then ((u + 1) <<< 32).sshiftRight 32 else u
    if l = 0 then do
      let cr ← riscv64Cr u r
      return cr ++ emitShlCr 32 r
    else do
      let cr ← riscv64Cr u rtmp2
      let cr' ← riscv64Cr l r
      return cr ++ cr' ++ emitShlCr 32 rtmp2 ++ emitAddRr rtmp2 r

/-! ## Words -/

section Words

variable {o rd rs1 rs2 f3 f7 r : ℕ} {c : Num} {regs : Regs} {ws : List ℕ}

theorem toNat_bf (n : Num) {width lsb pos : ℕ} (h : width + pos ≤ 64) :
    (bf n width lsb pos).toNat = field n.toNat lsb width * 2 ^ pos := by
  have hlt := field_lt n.toNat lsb width
  have hpow : 2 ^ width * 2 ^ pos ≤ 2 ^ 64 := by
    rw [← Nat.pow_add]
    exact Nat.pow_le_pow_right (by decide) h
  have hwidth : 2 ^ width ≤ 2 ^ 64 := Nat.pow_le_pow_right (by decide) (by omega)
  have hpos := Nat.two_pow_pos width
  have hand : (n >>> lsb &&& BitVec.ofNat 64 (2 ^ width - 1)).toNat = field n.toNat lsb width := by
    rw [BitVec.toNat_and, BitVec.toNat_ushiftRight, BitVec.toNat_ofNat, Nat.mod_eq_of_lt (by omega),
      Nat.and_two_pow_sub_one_eq_mod, Nat.shiftRight_eq_div_pow, field]
  rw [bf, BitVec.toNat_shiftLeft, hand, Nat.shiftLeft_eq]
  exact Nat.mod_eq_of_lt (lt_of_lt_of_le (Nat.mul_lt_mul_of_pos_right hlt (Nat.two_pow_pos pos)) hpow)

theorem riscv64I_eq (ho : o < 2 ^ 7) (hrd : rd < 2 ^ 5) (hrs1 : rs1 < 2 ^ 5) (hf3 : f3 < 2 ^ 3) (c : Num) :
    riscv64I o rd rs1 f3 c =
      [o + rd * 2 ^ 7 + rs1 * 2 ^ 15 + f3 * 2 ^ 12 + field c.toNat 0 12 * 2 ^ 20] := by
  have hlt := field_lt c.toNat 0 12
  rw [riscv64I, emitmInt, reg, reg, reg, BitVec.toNat_add, BitVec.toNat_add, BitVec.toNat_add,
    BitVec.toNat_add, toNat_bf c (by decide)]
  simp only [BitVec.toNat_shiftLeft, BitVec.toNat_ofNat, Nat.shiftLeft_eq]
  congr 1
  omega

theorem field_I {imm : ℕ} (ho : o < 2 ^ 7) (hrd : rd < 2 ^ 5) (hrs1 : rs1 < 2 ^ 5) (hf3 : f3 < 2 ^ 3)
    (himm : imm < 2 ^ 12) {w : ℕ} (hw : w = o + rd * 2 ^ 7 + rs1 * 2 ^ 15 + f3 * 2 ^ 12 + imm * 2 ^ 20) :
    field w 0 7 = o ∧ field w 7 5 = rd ∧ field w 12 3 = f3 ∧ field w 15 5 = rs1 ∧ field w 20 12 = imm ∧
      field w 20 6 = imm % 2 ^ 6 ∧ field w 26 6 = imm / 2 ^ 6 := by
  unfold field
  omega

theorem run_addi (hrd : rd < 2 ^ 5) (hrs1 : rs1 < 2 ^ 5) (c : Num) :
    run (riscv64I 0x13 rd rs1 0 c ++ ws) regs =
      run ws (set regs rd (get regs rs1 + BitVec.ofInt 64 (signed 12 (field c.toNat 0 12)))) := by
  rw [riscv64I_eq (by decide) hrd hrs1 (by decide)]
  generalize hw : 0x13 + rd * 2 ^ 7 + rs1 * 2 ^ 15 + 0 * 2 ^ 12 + field c.toNat 0 12 * 2 ^ 20 = w
  obtain ⟨h0, h1, h2, h3, h4, -, -⟩ :=
    field_I (by decide : 0x13 < 2 ^ 7) hrd hrs1 (by decide : 0 < 2 ^ 3) (field_lt c.toNat 0 12) hw.symm
  have hd : decode w = some (.addi rd rs1 (field c.toNat 0 12)) := by
    simp only [decode, h0, h1, h2, h3, h4, and_self, if_true]
  rw [List.singleton_append, run, hd, Option.bind_some, exec]

theorem run_addiw (hrd : rd < 2 ^ 5) (hrs1 : rs1 < 2 ^ 5) (c : Num) :
    run (riscv64I 0x1b rd rs1 0 c ++ ws) regs =
      run ws (set regs rd (BitVec.ofInt 64 (signed 32
        (field (get regs rs1 + BitVec.ofInt 64 (signed 12 (field c.toNat 0 12))).toNat 0 32)))) := by
  rw [riscv64I_eq (by decide) hrd hrs1 (by decide)]
  generalize hw : 0x1b + rd * 2 ^ 7 + rs1 * 2 ^ 15 + 0 * 2 ^ 12 + field c.toNat 0 12 * 2 ^ 20 = w
  obtain ⟨h0, h1, h2, h3, h4, -, -⟩ :=
    field_I (by decide : 0x1b < 2 ^ 7) hrd hrs1 (by decide : 0 < 2 ^ 3) (field_lt c.toNat 0 12) hw.symm
  have hd : decode w = some (.addiw rd rs1 (field c.toNat 0 12)) := by
    simp [decode, h0, h1, h2, h3, h4]
  rw [List.singleton_append, run, hd, Option.bind_some, exec]

theorem run_slli (hr : r < 2 ^ 5) :
    run (emitShlCr 32 r ++ ws) regs = run ws (set regs r (get regs r <<< 32)) := by
  rw [emitShlCr, riscv64I_eq (by decide) hr hr (by decide)]
  generalize hw : 0x13 + r * 2 ^ 7 + r * 2 ^ 15 + 0x1 * 2 ^ 12 + field (32 : Num).toNat 0 12 * 2 ^ 20 = w
  obtain ⟨h0, h1, h2, h3, -, h5, h6⟩ :=
    field_I (by decide : 0x13 < 2 ^ 7) hr hr (by decide : 0x1 < 2 ^ 3) (field_lt (32 : Num).toNat 0 12)
      hw.symm
  have hd : decode w = some (.slli r r 32) := by
    have himm : field (32 : Num).toNat 0 12 = 32 := rfl
    rw [himm] at h5 h6
    simp [decode, h0, h1, h2, h3, h5, h6]
  rw [List.singleton_append, run, hd, Option.bind_some, exec]

theorem run_lui (hrd : rd < 2 ^ 5) (c : Num) :
    run (riscv64U 0x37 rd c ++ ws) regs =
      run ws (set regs rd (BitVec.ofInt 64 (signed 32 (field c.toNat 12 20 * 2 ^ 12)))) := by
  have hlt := field_lt c.toNat 12 20
  have heq : riscv64U 0x37 rd c = [0x37 + rd * 2 ^ 7 + field c.toNat 12 20 * 2 ^ 12] := by
    rw [riscv64U, emitmInt, reg, BitVec.toNat_add, BitVec.toNat_add, toNat_bf c (by decide)]
    simp only [BitVec.toNat_shiftLeft, BitVec.toNat_ofNat, Nat.shiftLeft_eq]
    congr 1
    omega
  rw [heq]
  generalize hw : 0x37 + rd * 2 ^ 7 + field c.toNat 12 20 * 2 ^ 12 = w
  have hf : field w 0 7 = 0x37 ∧ field w 7 5 = rd ∧ field w 12 20 = field c.toNat 12 20 := by
    generalize field c.toNat 12 20 = imm at hlt hw
    unfold field
    omega
  have hd : decode w = some (.lui rd (field c.toNat 12 20)) := by
    simp [decode, hf.1, hf.2.1, hf.2.2]
  rw [List.singleton_append, run, hd, Option.bind_some, exec]

theorem field_R (hrd : rd < 2 ^ 5) (hrs1 : rs1 < 2 ^ 5) (hrs2 : rs2 < 2 ^ 5) {w : ℕ}
    (hw : w = 0x33 + rd * 2 ^ 7 + rs1 * 2 ^ 15 + rs2 * 2 ^ 20) :
    field w 0 7 = 0x33 ∧ field w 7 5 = rd ∧ field w 12 3 = 0 ∧ field w 15 5 = rs1 ∧ field w 20 5 = rs2 ∧
      field w 25 7 = 0 := by
  unfold field
  omega

theorem run_add {s d : ℕ} (hs : s < 2 ^ 5) (hd : d < 2 ^ 5) :
    run (emitAddRr s d ++ ws) regs = run ws (set regs d (get regs d + get regs s)) := by
  have heq : emitAddRr s d = [0x33 + d * 2 ^ 7 + d * 2 ^ 15 + s * 2 ^ 20] := by
    rw [emitAddRr, riscv64R, emitmInt]
    simp only [reg, BitVec.toNat_add, BitVec.toNat_shiftLeft, BitVec.toNat_ofNat, Nat.shiftLeft_eq]
    congr 1
    omega
  rw [heq]
  generalize hw : 0x33 + d * 2 ^ 7 + d * 2 ^ 15 + s * 2 ^ 20 = w
  obtain ⟨h0, h1, h2, h3, h4, h5⟩ := field_R hd hd hs hw.symm
  have hdec : decode w = some (.add d d s) := by
    simp [decode, h0, h1, h2, h3, h4, h5]
  rw [List.singleton_append, run, hdec, Option.bind_some, exec]

end Words

/-! ## Constants -/

section Const

variable {c : Num} {r : ℕ} {regs : Regs} {ws : List ℕ}

theorem ofInt_signed_field {n : ℕ} (hn : n ≤ 64) (c : Num) (hle : -2 ^ n ≤ c.toInt * 2)
    (hlt : c.toInt * 2 < 2 ^ n) : BitVec.ofInt 64 (signed n (field c.toNat 0 n)) = c := by
  rw [signed_field hn c hle hlt, BitVec.ofInt_toInt]

theorem riscv64Cr_spec (hr : r < 2 ^ 5) (hr0 : r ≠ 0) (hc : within c 32) :
    ∃ cr, riscv64Cr c r = .ok cr ∧
      ∀ ws regs, run (cr ++ ws) regs = run ws (Function.update regs r c) := by
  have hset : ∀ regs v, set regs r v = Function.update regs r v := fun regs v => if_neg hr0
  have hget : ∀ regs v, get (Function.update regs r v) r = v := fun regs v =>
    (if_neg hr0).trans (Function.update_self ..)
  have hc32 : BitVec.ofInt 64 (signed 32 (field c.toNat 0 32)) = c := by
    obtain ⟨hle, hlt⟩ := hc
    exact ofInt_signed_field (by decide) c (by omega) (by omega)
  rw [riscv64Cr]
  by_cases h12 : within c 12
  · have hc12 : BitVec.ofInt 64 (signed 12 (field c.toNat 0 12)) = c := by
      obtain ⟨hle, hlt⟩ := h12
      exact ofInt_signed_field (by decide) c (by omega) (by omega)
    have hzero : ∀ regs, get regs rzero + c = c := fun regs => BitVec.zero_add c
    rw [if_pos h12]
    refine ⟨_, rfl, fun ws regs => ?_⟩
    rw [run_addi hr (by decide), hset, hc12, hzero]
  rw [if_neg h12, if_pos hc]
  have hlow := toNat_low_mod c (k := 52) (n := 12) rfl
  obtain ⟨hle, hlt⟩ := signed_bounds (n := 12) (field c.toNat 0 12)
  rw [← toInt_low c (k := 52) rfl] at hle hlt
  dsimp only
  generalize (c <<< 52).sshiftRight 52 = l at hlow hle hlt
  have hl12 := ofInt_signed_field (by decide) l hle hlt
  have hcl := c.isLt
  have hll := l.isLt
  have hu : field (c - l).toNat 12 20 * 2 ^ 12 = (c - l).toNat % 2 ^ 32 := by
    rw [BitVec.toNat_sub]
    unfold field
    omega
  have hv := toNat_ofInt_signed_mod (n := 32) (by decide) (field (c - l).toNat 12 20 * 2 ^ 12)
  by_cases hl : l ≠ 0
  · rw [if_pos hl]
    refine ⟨_, rfl, fun ws regs => ?_⟩
    rw [List.append_assoc, run_lui hr, hset, run_addiw hr hr, hset, hget, hl12, Function.update_idem]
    generalize BitVec.ofInt 64 (signed 32 (field (c - l).toNat 12 20 * 2 ^ 12)) = v at hv
    have hsum : field (v + l).toNat 0 32 = field c.toNat 0 32 := by
      rw [hu, BitVec.toNat_sub] at hv
      rw [BitVec.toNat_add]
      unfold field
      omega
    rw [hsum, hc32]
  · obtain rfl := not_not.1 hl
    rw [if_neg hl, List.append_nil]
    refine ⟨_, rfl, fun ws regs => ?_⟩
    have hc0 : c - 0 = c := BitVec.sub_zero c
    rw [hc0] at hu ⊢
    have hfield : c.toNat % 2 ^ 32 = field c.toNat 0 32 := by rw [field, pow_zero, Nat.div_one]
    rw [run_lui hr, hset, hu, hfield, hc32]

/-- The high half is one more where the low one is below 0. -/
def high (c : Num) : Num :=
  if ((c <<< 32).sshiftRight 32).toInt < 0 then ((c.sshiftRight 32 + 1) <<< 32).sshiftRight 32
  else c.sshiftRight 32

theorem within_high (c : Num) : within (high c) 32 := by
  rw [high]
  split_ifs with hneg
  · obtain ⟨hle, hlt⟩ := signed_bounds (n := 32) (field (c.sshiftRight 32 + 1).toNat 0 32)
    rw [← toInt_low (c.sshiftRight 32 + 1) (k := 32) rfl] at hle hlt
    exact ⟨by omega, by omega⟩
  · have hint : (c.sshiftRight 32).toInt = c.toInt / 2 ^ 32 := by
      rw [BitVec.toInt_sshiftRight, Int.shiftRight_eq_div_pow]
      rfl
    have hlt := c.isLt
    have hsign := toInt_cases c
    exact ⟨by omega, by omega⟩

/-- The two halves are the number. -/
theorem low_add_high (c : Num) : (c <<< 32).sshiftRight 32 + (high c <<< 32) = c := by
  have hlow := toNat_low_mod c (k := 32) (n := 32) rfl
  obtain ⟨hle, hlt⟩ := signed_bounds (n := 32) (field c.toNat 0 32)
  rw [← toInt_low c (k := 32) rfl] at hle hlt
  have hc := c.isLt
  have hsplit := toNat_sshiftRight_mod c (k := 32) (n := 32) rfl
  refine BitVec.eq_of_toNat_eq ?_
  rw [BitVec.toNat_add, BitVec.toNat_shiftLeft, Nat.shiftLeft_eq, high]
  generalize (c <<< 32).sshiftRight 32 = l at hlow hle hlt
  have hl := l.isLt
  have hsign := toInt_cases l
  split_ifs with hneg
  · have hinc := toNat_low_mod (c.sshiftRight 32 + 1) (k := 32) (n := 32) rfl
    rw [BitVec.toNat_add, show (1 : Num).toNat = 1 from rfl] at hinc
    omega
  · omega

theorem emitCpyCr_zero {cr : List ℕ} (h32 : ¬ within c 32) (hl : (c <<< 32).sshiftRight 32 = 0)
    (hcr : riscv64Cr (high c) r = .ok cr) : emitCpyCr c r = .ok (cr ++ emitShlCr 32 r) := by
  rw [high] at hcr
  rw [emitCpyCr, if_neg h32]
  dsimp only
  rw [if_pos hl, hcr]
  rfl

theorem emitCpyCr_add {cr cr' : List ℕ} (h32 : ¬ within c 32) (hl : (c <<< 32).sshiftRight 32 ≠ 0)
    (hcr : riscv64Cr (high c) rtmp2 = .ok cr) (hcr' : riscv64Cr ((c <<< 32).sshiftRight 32) r = .ok cr') :
    emitCpyCr c r = .ok (cr ++ cr' ++ emitShlCr 32 rtmp2 ++ emitAddRr rtmp2 r) := by
  rw [high] at hcr
  rw [emitCpyCr, if_neg h32]
  dsimp only
  rw [if_neg hl, hcr, hcr']
  rfl

/-- What it emits leaves the number in the register, and changes nothing else but the one that is for
    it. -/
theorem run_emitCpyCr (c : Num) (hr : r < 2 ^ 5) (hr0 : r ≠ 0) (hr2 : r ≠ rtmp2) (regs : Regs) :
    ∃ cr regs', emitCpyCr c r = .ok cr ∧ run cr regs = some regs' ∧ regs' r = c ∧
      ∀ x, x ≠ r → x ≠ rtmp2 → regs' x = regs x := by
  have hset : ∀ regs v, set regs r v = Function.update regs r v := fun regs v => if_neg hr0
  have hset2 : ∀ regs v, set regs rtmp2 v = Function.update regs rtmp2 v := fun regs v =>
    if_neg (by decide)
  have hget : ∀ regs, get regs r = regs r := fun regs => if_neg hr0
  have hget2 : ∀ regs, get regs rtmp2 = regs rtmp2 := fun regs => if_neg (by decide)
  have hsum := low_add_high c
  by_cases h32 : within c 32
  · obtain ⟨cr, hcr, hrun⟩ := riscv64Cr_spec hr hr0 h32
    have hnil := hrun [] regs
    rw [List.append_nil, run] at hnil
    exact ⟨cr, _, by rw [emitCpyCr, if_pos h32, hcr], hnil, Function.update_self ..,
      fun x hx _ => Function.update_of_ne hx ..⟩
  by_cases hl : (c <<< 32).sshiftRight 32 = 0
  · obtain ⟨cr, hcr, hrun⟩ := riscv64Cr_spec hr hr0 (within_high c)
    have hone := hrun (emitShlCr 32 r ++ []) regs
    rw [run_slli hr, run, hset, hget, Function.update_self, Function.update_idem, List.append_nil] at hone
    have hzero : (0 : Num) + (high c <<< 32) = high c <<< 32 := BitVec.zero_add _
    rw [hl] at hsum
    replace hsum := hzero.symm.trans hsum
    refine ⟨_, _, emitCpyCr_zero h32 hl hcr, hone, ?_, fun x hx _ => Function.update_of_ne hx ..⟩
    rw [Function.update_self, hsum]
  · obtain ⟨cr, hcr, hrun⟩ := riscv64Cr_spec (r := rtmp2) (by decide) (by decide) (within_high c)
    have hlow : within ((c <<< 32).sshiftRight 32) 32 := by
      obtain ⟨hle, hlt⟩ := signed_bounds (n := 32) (field c.toNat 0 32)
      rw [← toInt_low c (k := 32) rfl] at hle hlt
      exact ⟨by omega, by omega⟩
    obtain ⟨cr', hcr', hrun'⟩ := riscv64Cr_spec hr hr0 hlow
    have hboth := hrun (cr' ++ (emitShlCr 32 rtmp2 ++ (emitAddRr rtmp2 r ++ []))) regs
    rw [hrun', run_slli (by decide), run_add (by decide) hr, run, hset, hset2, hget, hget2, hget2] at hboth
    rw [← List.append_assoc, ← List.append_assoc, ← List.append_assoc, List.append_nil] at hboth
    refine ⟨_, _, emitCpyCr_add h32 hl hcr hcr', hboth, ?_, fun x hx hx2 => ?_⟩
    · rw [Function.update_self, Function.update_of_ne hr2, Function.update_self, Function.update_self,
        Function.update_of_ne hr2.symm, Function.update_self, hsum]
    · rw [Function.update_of_ne hx, Function.update_of_ne hx2, Function.update_of_ne hx,
        Function.update_of_ne hx2]

end Const

end ChrysaLisp.Trans.Riscv64
