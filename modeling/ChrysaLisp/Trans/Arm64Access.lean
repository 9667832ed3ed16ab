import Mathlib.Tactic.IntervalCases
import ChrysaLisp.Trans.Arm64Address

set_option autoImplicit false

/-! # Loads and stores on ARM64

What `arm64-ri` makes of an offset is decoded as it was asked for, or has another base. -/

namespace ChrysaLisp.Trans.Arm64

open Fields

namespace State

@[simp] theorem regs_set (st : State) (r : ℕ) (v : Num) : (st.set r v).regs r = v := Function.update_self ..

theorem regs_set_ne (st : State) {r x : ℕ} (h : x ≠ r) (v : Num) : (st.set r v).regs x = st.regs x :=
  Function.update_of_ne h ..

theorem set0_of_ne (st : State) {r : ℕ} (h : r ≠ 31) (v : Num) : st.set0 r v = st.set r v := if_neg h

theorem get0_of_ne (st : State) {r : ℕ} (h : r ≠ 31) : st.get0 r = st.regs r := if_neg h

end State

section Access

variable {size opc base reg i : ℕ} {o c : Num}

theorem decode_unscaled (hsize : size < 4) (hopc : opc < 4) (hi : i < 2 ^ 9) (hbase : base < 32)
    (hreg : reg < 32) :
    decode (size * 2 ^ 30 + 0b111000 * 2 ^ 24 + opc * 2 ^ 22 + i * 2 ^ 12 + base * 2 ^ 5 + reg) =
      some (.access size opc (signed 9 i) base reg) := by
  have hfields : ∀ w, w = size * 2 ^ 30 + 0b111000 * 2 ^ 24 + opc * 2 ^ 22 + i * 2 ^ 12 + base * 2 ^ 5 + reg →
      field w 23 9 = size * 2 ^ 7 + 0b111000 * 2 + opc / 2 ∧
      field w 21 11 = size * 2 ^ 9 + 0b111000 * 2 ^ 3 + opc * 2 ∧
      field w 22 10 = size * 2 ^ 8 + 0b111000 * 2 ^ 2 + opc ∧
      field w 24 6 = 0b111000 ∧ field w 21 1 = 0 ∧ field w 10 2 = 0 ∧ field w 30 2 = size ∧
      field w 22 2 = opc ∧ field w 12 9 = i ∧ field w 5 5 = base ∧ field w 0 5 = reg := by
    intro w hw
    unfold field
    omega
  obtain ⟨hop, hop', hop'', h24, h21, h10, h30, h22, h12, h5, h0⟩ := hfields _ rfl
  rw [decode, hop, hop', hop'', h24, h21, h10, h30, h22, h12, h5, h0]
  rw [if_neg (by omega), if_neg (by omega), if_neg (by omega), if_neg (by omega), if_neg (by omega),
    if_neg (by omega), if_neg (by omega), if_neg (by omega), if_neg (by omega), if_pos (by decide)]

theorem decode_scaled (hsize : size < 4) (hopc : opc < 4) (hi : i < 2 ^ 12) (hbase : base < 32)
    (hreg : reg < 32) :
    decode (size * 2 ^ 30 + 0b111001 * 2 ^ 24 + opc * 2 ^ 22 + i * 2 ^ 10 + base * 2 ^ 5 + reg) =
      some (.access size opc (i * 2 ^ size : ℕ) base reg) := by
  have hfields : ∀ w, w = size * 2 ^ 30 + 0b111001 * 2 ^ 24 + opc * 2 ^ 22 + i * 2 ^ 10 + base * 2 ^ 5 + reg →
      field w 23 9 = size * 2 ^ 7 + 0b111001 * 2 + opc / 2 ∧
      field w 21 11 = size * 2 ^ 9 + 0b111001 * 2 ^ 3 + opc * 2 + i / 2 ^ 11 ∧
      field w 22 10 = size * 2 ^ 8 + 0b111001 * 2 ^ 2 + opc ∧
      field w 24 6 = 0b111001 ∧ field w 30 2 = size ∧
      field w 22 2 = opc ∧ field w 10 12 = i ∧ field w 5 5 = base ∧ field w 0 5 = reg := by
    intro w hw
    unfold field
    omega
  obtain ⟨hop, hop', hop'', h24, h30, h22, h10, h5, h0⟩ := hfields _ rfl
  rw [decode, hop, hop', hop'', h24, h30, h22, h10, h5, h0]
  rw [if_neg (by omega), if_neg (by omega), if_neg (by omega), if_neg (by omega), if_neg (by omega),
    if_neg (by omega), if_neg (by omega), if_neg (by omega), if_neg (by omega), if_neg (by omega), if_pos rfl]

/-- A small offset, one that is refused, or a whole number of what is loaded or stored. -/
def InUnits (size : ℕ) (c : Num) : Prop :=
  c.toInt ≤ 0xff ∨ 0xfff * 2 ^ size < c.toInt ∨ 2 ^ size ∣ c.toInt

theorem toNat_word {f : Num} {k x n : ℕ} (ho : o.toNat = k) (hk : k < 2 ^ 32) (hf : f.toNat = x * 2 ^ n)
    (hx : x * 2 ^ n < 2 ^ 25) (hbase : base < 32) (hreg : reg < 32) :
    (o + f + (BitVec.ofNat 64 base <<< 5) + BitVec.ofNat 64 reg).toNat =
      k + x * 2 ^ n + base * 2 ^ 5 + reg := by
  rw [BitVec.toNat_add, BitVec.toNat_add, BitVec.toNat_add, BitVec.toNat_shiftLeft, BitVec.toNat_ofNat,
    BitVec.toNat_ofNat, Nat.shiftLeft_eq, ho, hf]
  omega

theorem arm64Ri_small (hsize : size < 4) (hopc : opc < 4) (hbase : base < 32) (hreg : reg < 32)
    (ho : o.toNat = size * 2 ^ 30 + 0b111000 * 2 ^ 24 + opc * 2 ^ 22) (hlo : -0x100 ≤ c.toInt)
    (hhi : c.toInt ≤ 0xff) :
    ∃ w, arm64Ri size o reg base c = .ok [w] ∧ decode w = some (.access size opc c.toInt base reg) := by
  have hmask : (c &&& 0x1ff).toNat = field c.toNat 0 9 * 2 ^ 0 := toNat_and_mask c 0 9 rfl
  have hlt := field_lt c.toNat 0 9
  have hf : ((c &&& 0x1ff) <<< 12).toNat = field c.toNat 0 9 * 2 ^ 12 := by
    rw [BitVec.toNat_shiftLeft, Nat.shiftLeft_eq, hmask]
    omega
  refine ⟨_, ?_, decode_unscaled hsize hopc hlt hbase hreg |>.trans ?_⟩
  · rw [arm64Ri, if_pos ⟨hlo, hhi⟩, emitmInt, toNat_word ho (by omega) hf (by omega) hbase hreg]
    congr 2
    omega
  · rw [signed_field (by decide) c (by omega) (by omega)]

theorem arm64Ri_large (hsize : size < 4) (hopc : opc < 4) (hbase : base < 32) (hreg : reg < 32)
    (ho : o.toNat = size * 2 ^ 30 + 0b111000 * 2 ^ 24 + opc * 2 ^ 22) (hlo : 0xff < c.toInt)
    (hhi : c.toInt ≤ 0xfff * 2 ^ size) :
    arm64Ri size o reg base c = .ok [size * 2 ^ 30 + 0b111001 * 2 ^ 24 + opc * 2 ^ 22 +
      c.toNat * 2 ^ (10 - size) + base * 2 ^ 5 + reg] := by
  have hc := toInt_cases c
  have hbound : c.toNat * 2 ^ (10 - size) ≤ 0xfff * 2 ^ 10 := by
    have hpow : 2 ^ 10 = 2 ^ size * 2 ^ (10 - size) := by rw [← Nat.pow_add, Nat.add_sub_cancel' (by omega)]
    have hle : c.toNat ≤ 0xfff * 2 ^ size := by
      rcases hc with ⟨-, hc⟩ | ⟨hc, hc'⟩
      · rw [hc] at hhi
        exact_mod_cast hhi
      · omega
    rw [hpow, ← Nat.mul_assoc]
    exact Nat.mul_le_mul_right _ hle
  have hf : (c <<< (10 - size)).toNat = c.toNat * 2 ^ (10 - size) := by
    rw [BitVec.toNat_shiftLeft, Nat.shiftLeft_eq, Nat.mod_eq_of_lt (by omega)]
  have ho' : (0x1000000 + o).toNat = size * 2 ^ 30 + 0b111001 * 2 ^ 24 + opc * 2 ^ 22 := by
    have hbit : (0x1000000 : Num).toNat = 2 ^ 24 := rfl
    rw [BitVec.toNat_add, ho, hbit]
    omega
  rw [arm64Ri, if_neg (by omega), if_pos ⟨by omega, hhi⟩, emitmInt,
    toNat_word ho' (by omega) hf (by omega) hbase hreg]
  congr 2
  omega

theorem arm64Ri_inUnits (hsize : size < 4) (hopc : opc < 4) (hbase : base < 32) (hreg : reg < 32)
    (ho : o.toNat = size * 2 ^ 30 + 0b111000 * 2 ^ 24 + opc * 2 ^ 22) (hunits : InUnits size c) {ws : List ℕ}
    (h : arm64Ri size o reg base c = .ok ws) :
    ∃ w, ws = [w] ∧ decode w = some (.access size opc c.toInt base reg) := by
  have hc := toInt_cases c
  by_cases hsmall : -0x100 ≤ c.toInt ∧ c.toInt ≤ 0xff
  · obtain ⟨w, hw, hdec⟩ := arm64Ri_small hsize hopc hbase hreg ho hsmall.1 hsmall.2
    exact ⟨w, Except.ok.inj (h.symm.trans hw), hdec⟩
  by_cases hlarge : 0 ≤ c.toInt ∧ c.toInt ≤ 0xfff * 2 ^ size
  · obtain ⟨q, hq⟩ : 2 ^ size ∣ c.toInt := by
      rcases hunits with hlow | hhigh | hdvd
      · exact absurd ⟨by omega, hlow⟩ hsmall
      · omega
      · exact hdvd
    have hpos : (0 : ℤ) < 2 ^ size := pow_pos (by decide) size
    have hq0 : 0 ≤ q := nonneg_of_mul_nonneg_right (hq ▸ hlarge.1) hpos
    have hqle : q ≤ 0xfff := by
      refine Int.le_of_mul_le_mul_left ?_ hpos
      rw [← hq, Int.mul_comm]
      exact hlarge.2
    obtain ⟨q, rfl⟩ := Int.eq_ofNat_of_zero_le hq0
    have hnat : c.toNat = 2 ^ size * q := by
      have heq : (c.toNat : ℤ) = ((2 ^ size * q : ℕ) : ℤ) := by
        push_cast
        omega
      exact_mod_cast heq
    have hword : c.toNat * 2 ^ (10 - size) = q * 2 ^ 10 := by
      have hpow : 2 ^ 10 = 2 ^ size * 2 ^ (10 - size) := by rw [← Nat.pow_add, Nat.add_sub_cancel' (by omega)]
      rw [hnat, hpow]
      ring
    have hok := arm64Ri_large hsize hopc hbase hreg ho (by omega) hlarge.2
    rw [hword] at hok
    refine ⟨_, Except.ok.inj (h.symm.trans hok), ?_⟩
    rw [decode_scaled hsize hopc (by omega) hbase hreg, hq]
    congr 2
    push_cast
    ring
  · rw [arm64Ri, if_neg hsmall, if_neg hlarge] at h
    exact absurd h (by simp)

/-- What is over is added to the base. -/
theorem arm64Ri_over (hsize : size < 4) (hopc : opc < 4) (hbase : base < 32) (hreg : reg < 32)
    (ho : o.toNat = size * 2 ^ 30 + 0b111000 * 2 ^ 24 + opc * 2 ^ 22) (hunits : ¬ InUnits size c) :
    ∃ w offset base', arm64Ri size o reg base c = .ok [w] ∧
      decode w = some (.access size opc offset base' reg) ∧ base' ≠ base := by
  have hc := toInt_cases c
  rw [InUnits, not_or, not_or] at hunits
  obtain ⟨hlo, hhi, hdvd⟩ := hunits
  have hok := arm64Ri_large hsize hopc hbase hreg ho (not_le.1 hlo) (not_lt.1 hhi)
  -- the bits that are over, the base they are added to, and what is carried on to the offset
  obtain ⟨i, b, hi, hb, hne, hsum⟩ : ∃ i b, i < 2 ^ 12 ∧ b < 32 ∧ b ≠ base ∧
      c.toNat * 2 ^ (10 - size) + base * 2 ^ 5 = i * 2 ^ 10 + b * 2 ^ 5 := by
    refine ⟨(c.toNat * 2 ^ (10 - size) + base * 2 ^ 5) / 2 ^ 10,
      (c.toNat * 2 ^ (10 - size) + base * 2 ^ 5) / 2 ^ 5 % 32, ?_⟩
    interval_cases size <;> omega
  refine ⟨_, (i * 2 ^ size : ℕ), b, hok, ?_, hne⟩
  rw [show ∀ k, k + c.toNat * 2 ^ (10 - size) + base * 2 ^ 5 + reg =
    k + i * 2 ^ 10 + b * 2 ^ 5 + reg by omega]
  exact decode_scaled hsize hopc hi hb hreg

/-! ## Registers cleared before and masked after -/

theorem emit_rrr (op : ℕ) {m n d : ℕ} (hop : op < 2 ^ 11) (ho : o.toNat = op * 2 ^ 21) (hm : m < 32)
    (hn : n < 32)
    (hd : d < 32) : arm64Rrr o m n d = [op * 2 ^ 21 + m * 2 ^ 16 + n * 2 ^ 5 + d] := by
  rw [arm64Rrr, emitmInt, BitVec.toNat_add, BitVec.toNat_add, BitVec.toNat_add, BitVec.toNat_shiftLeft,
    BitVec.toNat_shiftLeft, BitVec.toNat_ofNat, BitVec.toNat_ofNat, BitVec.toNat_ofNat, Nat.shiftLeft_eq,
    Nat.shiftLeft_eq, ho]
  congr 1
  omega

theorem field_rrr (op : ℕ) {m n d : ℕ} (hop : op < 2 ^ 11) (hm : m < 32) (hn : n < 32) (hd : d < 32) :
    field (op * 2 ^ 21 + m * 2 ^ 16 + n * 2 ^ 5 + d) 23 9 = op / 4 ∧
      field (op * 2 ^ 21 + m * 2 ^ 16 + n * 2 ^ 5 + d) 21 11 = op ∧
      field (op * 2 ^ 21 + m * 2 ^ 16 + n * 2 ^ 5 + d) 10 6 = 0 ∧
      field (op * 2 ^ 21 + m * 2 ^ 16 + n * 2 ^ 5 + d) 16 5 = m ∧
      field (op * 2 ^ 21 + m * 2 ^ 16 + n * 2 ^ 5 + d) 5 5 = n ∧
      field (op * 2 ^ 21 + m * 2 ^ 16 + n * 2 ^ 5 + d) 0 5 = d := by
  unfold field
  omega

theorem decode_eor {d : ℕ} (hd : d < 32) : ∃ w, emitXorRr d d = [w] ∧ decode w = some (.eorReg d d d) := by
  obtain ⟨hop, hop', hz, hm, hn, hrd⟩ := field_rrr 0b11001010000 (by decide) hd hd hd
  refine ⟨_, emit_rrr 0b11001010000 (by decide) rfl hd hd hd, ?_⟩
  rw [decode, hop, hop', hz, hm, hn, hrd]
  rfl

theorem decode_add {m n d : ℕ} (hm : m < 32) (hn : n < 32) (hd : d < 32) :
    ∃ w, arm64Rrr 0x8b000000 m n d = [w] ∧ decode w = some (.addReg m n d) := by
  obtain ⟨hop, hop', hz, hm', hn', hrd⟩ := field_rrr 0b10001011000 (by decide) hm hn hd
  refine ⟨_, emit_rrr 0b10001011000 (by decide) rfl hm hn hd, ?_⟩
  rw [decode, hop, hop', hz, hm', hn', hrd]
  rfl

theorem field_imm (op : ℕ) {s x n d : ℕ} (hop : op < 2 ^ 9) (hs : s < 2) (hx : x < 2 ^ 12) (hn : n < 32)
    (hd : d < 32) :
    field (op * 2 ^ 23 + s * 2 ^ 22 + x * 2 ^ 10 + n * 2 ^ 5 + d) 23 9 = op ∧
      field (op * 2 ^ 23 + s * 2 ^ 22 + x * 2 ^ 10 + n * 2 ^ 5 + d) 22 1 = s ∧
      field (op * 2 ^ 23 + s * 2 ^ 22 + x * 2 ^ 10 + n * 2 ^ 5 + d) 10 12 = x ∧
      field (op * 2 ^ 23 + s * 2 ^ 22 + x * 2 ^ 10 + n * 2 ^ 5 + d) 5 5 = n ∧
      field (op * 2 ^ 23 + s * 2 ^ 22 + x * 2 ^ 10 + n * 2 ^ 5 + d) 0 5 = d := by
  unfold field
  omega

theorem field_ux {x n d : ℕ} (hx : x < 64) (hn : n < 32) (hd : d < 32) :
    field (0xd3400000 + x * 2 ^ 10 + n * 2 ^ 5 + d) 23 9 = 0b110100110 ∧
      field (0xd3400000 + x * 2 ^ 10 + n * 2 ^ 5 + d) 21 11 = 0b11010011010 ∧
      field (0xd3400000 + x * 2 ^ 10 + n * 2 ^ 5 + d) 22 10 = 0b1101001101 ∧
      field (0xd3400000 + x * 2 ^ 10 + n * 2 ^ 5 + d) 16 6 = 0 ∧
      field (0xd3400000 + x * 2 ^ 10 + n * 2 ^ 5 + d) 10 6 = x ∧
      field (0xd3400000 + x * 2 ^ 10 + n * 2 ^ 5 + d) 5 5 = n ∧
      field (0xd3400000 + x * 2 ^ 10 + n * 2 ^ 5 + d) 0 5 = d := by
  unfold field
  omega

theorem decode_ux {x d : ℕ} (hx : x < 64) (hd : d < 32) :
    ∃ w, arm64Ux x d d = [w] ∧ decode w = some (.ubfm 0 x d d) := by
  have hword : arm64Ux x d d = [0xd3400000 + x * 2 ^ 10 + d * 2 ^ 5 + d] := by
    have hop : (0xd3400000 : Num).toNat = 0xd3400000 := rfl
    rw [arm64Ux, emitmInt, BitVec.toNat_add, BitVec.toNat_add, BitVec.toNat_add, BitVec.toNat_shiftLeft,
      BitVec.toNat_shiftLeft, BitVec.toNat_ofNat, BitVec.toNat_ofNat, Nat.shiftLeft_eq, Nat.shiftLeft_eq, hop]
    congr 1
    omega
  obtain ⟨hop, hop', hop'', hz, hs, hn, hrd⟩ := field_ux hx hd hd
  refine ⟨_, hword, ?_⟩
  rw [decode, hop, hop', hop'', hz, hs, hn, hrd]
  rfl

theorem set0_set0 (st : State) (r : ℕ) (v v' : Num) : (st.set0 r v).set0 r v' = st.set0 r v' := by
  by_cases hr : r = 31
  · simp only [State.set0, if_pos hr]
  · simp only [State.set0, if_neg hr, set_set]

theorem run_cons {w : ℕ} {i : Instr} (h : decode w = some i) (ws : List ℕ) (st : State) :
    run (w :: ws) st = (exec st i).bind (run ws) := by
  rw [run, h, Option.bind_some]

theorem run_append (ws ws' : List ℕ) (st : State) : run (ws ++ ws') st = (run ws st).bind (run ws') := by
  induction ws generalizing st with
  | nil => rfl
  | cons w ws ih =>
    rw [List.cons_append, run, run]
    cases (decode w).bind (exec st) with
    | none => rfl
    | some st' => exact ih st'

theorem run_single {w : ℕ} {i : Instr} (h : decode w = some i) (st : State) : run [w] st = exec st i := by
  rw [run_cons h]
  cases exec st i <;> rfl

theorem exec_eor (st : State) (d : ℕ) : exec st (.eorReg d d d) = some (st.set0 d 0) := by
  rw [exec, BitVec.xor_self]
  rfl

/-- A register with no more than what the mask leaves is not changed by it. -/
theorem exec_ux (st : State) (d : ℕ) {x : ℕ} {v : Num} (hv : v.toNat < 2 ^ (x + 1)) :
    exec (st.set0 d v) (.ubfm 0 x d d) = some (st.set0 d v) := by
  rw [exec, if_pos rfl, set0_set0]
  by_cases hd : d = 31
  · simp only [State.set0, if_pos hd]
  · have hget : (st.set0 d v).get0 d = v := by
      simp only [State.set0, if_neg hd, State.get0, State.set]
      exact State.regs_set ..
    rw [hget, field, pow_zero, Nat.div_one, Nat.mod_eq_of_lt hv, BitVec.ofNat_toNat, BitVec.setWidth_eq]

/-! ## One load or store -/

theorem run_nil : run [] = some := funext fun _ => rfl

/-- What is emitted around it is no load or store of its own. -/
theorem accesses_around {p q : Prop} [Decidable p] [Decidable q] (hreg : reg < 32) {x w : ℕ} (hx : x < 64) :
    accesses ((if p then emitXorRr reg reg else []) ++ [w] ++ if q then arm64Ux x reg reg else []) =
      accesses [w] := by
  obtain ⟨weor, heor, hdec⟩ := decode_eor hreg
  obtain ⟨wux, hux, hdec'⟩ := decode_ux hx hreg
  have hpre : accesses (if p then [weor] else []) = [] := by
    split_ifs
    · rw [accesses, List.filterMap_cons_some hdec]
      rfl
    · rfl
  have hpost : accesses (if q then [wux] else []) = [] := by
    split_ifs
    · rw [accesses, List.filterMap_cons_some hdec']
      rfl
    · rfl
  rw [heor, hux, accesses, List.filterMap_append, List.filterMap_append, List.filter_append,
    List.filter_append]
  rw [accesses] at hpre hpost
  rw [hpre, hpost, List.nil_append, List.append_nil]
  rfl

theorem accesses_single {w : ℕ} {offset : ℤ} (h : decode w = some (.access size opc offset base reg)) :
    accesses [w] = [.access size opc offset base reg] := by
  rw [accesses, List.filterMap_cons_some h]
  rfl

theorem Reaches.single {w : ℕ} (h : decode w = some (.access size opc c.toInt base reg)) :
    Reaches size opc base c reg [w] :=
  ⟨accesses_single h, fun st => by rw [run_single h, exec, BitVec.ofInt_toInt]⟩

theorem load_lt (st : State) (size : ℕ) (a : Num) : st.load size a < 256 ^ 2 ^ size := by
  have hlt := Memory.numOf_lt (Memory.load st.mem a.toNat (2 ^ size))
  rwa [Memory.length_load] at hlt

theorem Reaches.around {w : ℕ} (hsize : size < 2) (hreg : reg < 32)
    (h : decode w = some (.access size 1 c.toInt base reg)) :
    Reaches size 1 base c reg ((if base ≠ reg then emitXorRr reg reg else []) ++ [w] ++
      if base = reg then arm64Ux ([7, 15, 31].getD size 0) reg reg else []) := by
  have hx : [7, 15, 31].getD size 0 < 64 ∧ 256 ^ 2 ^ size = 2 ^ ([7, 15, 31].getD size 0 + 1) := by
    interval_cases size <;> decide
  refine ⟨(accesses_around hreg hx.1).trans (accesses_single h), fun st => ?_⟩
  obtain ⟨weor, heor, hdec⟩ := decode_eor hreg
  obtain ⟨wux, hux, hdec'⟩ := decode_ux hx.1 hreg
  rw [heor, hux]
  by_cases hbase : base = reg
  · -- the register that was loaded has no more bits than were loaded
    rw [if_neg (not_not.2 hbase), if_pos hbase, List.nil_append, List.singleton_append, run_cons h, exec,
      BitVec.ofInt_toInt, State.access, Option.bind_some, run_single hdec', exec_ux]
    rw [← hx.2, BitVec.toNat_ofNat]
    exact lt_of_le_of_lt (Nat.mod_le ..) (load_lt ..)
  · -- the base is not the register that was cleared, and memory is as it was
    have hget : (st.set0 reg 0).regs base = st.regs base ∧ (st.set0 reg 0).mem = st.mem := by
      rw [State.set0]
      split_ifs
      · exact ⟨rfl, rfl⟩
      · exact ⟨st.regs_set_ne hbase 0, rfl⟩
    rw [if_pos hbase, if_neg hbase, List.append_nil, List.singleton_append, run_cons hdec, exec_eor,
      Option.bind_some, run_single h, exec, hget.1, BitVec.ofInt_toInt, State.access, State.access, set0_set0,
      State.load, hget.2]
    rfl

/-! ## Each of them -/

theorem Access.size_lt (a : Access) : a.size < 4 ∧ a.opc < 4 := by
  cases a <;> decide

/-- Every load and store emits the word `arm64-ri` makes of its width, and what of it is not asked for is
    done by no other. -/
theorem Access.emit_spec (a : Access) (base reg : ℕ) (c : Num) :
    ∃ o : Num, o.toNat = a.size * 2 ^ 30 + 0b111000 * 2 ^ 24 + a.opc * 2 ^ 22 ∧
      (a.emit base c reg = arm64Ri a.size o reg base c ∨
        a.size < 2 ∧ a.opc = 1 ∧ a.emit base c reg = (arm64Ri a.size o reg base c).map fun ws =>
          (if base ≠ reg then emitXorRr reg reg else []) ++ ws ++
            if base = reg then arm64Ux ([7, 15, 31].getD a.size 0) reg reg else []) := by
  cases a
  case ir => exact ⟨_, rfl, Or.inl rfl⟩
  case irB => exact ⟨_, rfl, Or.inl rfl⟩
  case irS => exact ⟨_, rfl, Or.inl rfl⟩
  case irI => exact ⟨_, rfl, Or.inl rfl⟩
  case irUb => exact ⟨_, rfl, Or.inr ⟨by decide, rfl, rfl⟩⟩
  case irUs => exact ⟨_, rfl, Or.inr ⟨by decide, rfl, rfl⟩⟩
  case irUi => exact ⟨_, rfl, Or.inl rfl⟩
  case ri => exact ⟨_, rfl, Or.inl rfl⟩
  case riB => exact ⟨_, rfl, Or.inl rfl⟩
  case riS => exact ⟨_, rfl, Or.inl rfl⟩
  case riI => exact ⟨_, rfl, Or.inl rfl⟩

theorem Access.emit_reaches (a : Access) (hbase : base < 32) (hreg : reg < 32) (c : Num) :
    (∀ ws, a.emit base c reg = .ok ws → Reaches a.size a.opc base c reg ws) ↔ InUnits a.size c := by
  obtain ⟨hsize, hopc⟩ := a.size_lt
  obtain ⟨o, ho, hemit⟩ := a.emit_spec base reg c
  constructor
  · intro h
    by_contra hunits
    obtain ⟨w, offset, base', hok, hdec, hne⟩ := arm64Ri_over hsize hopc hbase hreg ho hunits
    have hother : ∀ ws, accesses ws = accesses [w] → ¬ Reaches a.size a.opc base c reg ws := by
      intro ws hws hreach
      have heq := hreach.1
      rw [hws, accesses_single hdec] at heq
      exact hne (Instr.access.inj (List.cons.inj heq).1).2.2.2.1
    rcases hemit with hplain | ⟨hlt, -, haround⟩
    · exact hother [w] rfl (h _ (hplain.trans hok))
    · rw [hok, Except.map] at haround
      have hx : [7, 15, 31].getD a.size 0 < 64 := by
        generalize a.size = size at hlt
        interval_cases size <;> decide
      exact hother _ (accesses_around hreg hx) (h _ haround)
  · intro hunits ws hws
    rcases hemit with hplain | ⟨hlt, hone, haround⟩
    · obtain ⟨w, rfl, hdec⟩ := arm64Ri_inUnits hsize hopc hbase hreg ho hunits (hplain.symm.trans hws)
      exact Reaches.single hdec
    · cases hri : arm64Ri a.size o reg base c with
      | error e =>
        rw [haround, hri, Except.map] at hws
        exact absurd hws (by simp)
      | ok ws' =>
        obtain ⟨w, rfl, hdec⟩ := arm64Ri_inUnits hsize hopc hbase hreg ho hunits hri
        rw [haround, hri, Except.map] at hws
        obtain rfl := Except.ok.inj hws
        rw [hone] at hdec ⊢
        exact Reaches.around hlt hreg hdec

end Access

end ChrysaLisp.Trans.Arm64
