import ChrysaLisp.Trans.Arm64Access

set_option autoImplicit false

/-! # Sums and addresses on ARM64

What is added to a register and what is not, and for which offsets each of the loads, the stores, `lea`,
`add` and `sub` is exact. -/

namespace ChrysaLisp.Trans.Arm64

open Fields

/-! ## Sums -/

section Sums

variable {n d r x s op : ℕ} {c : Num} {st : State} {ws : List ℕ}

/-- What the instructions of an immediate with an opcode are, and what they do to a register. -/
structure Immediate (op : ℕ) (mk : ℕ → ℕ → ℕ → ℕ → Instr) (g : Num → Num → Num) : Prop where
  op_lt : op < 2 ^ 9
  decode : ∀ {s x n d : ℕ}, s < 2 → x < 2 ^ 12 → n < 32 → d < 32 →
    decode (op * 2 ^ 23 + s * 2 ^ 22 + x * 2 ^ 10 + n * 2 ^ 5 + d) = some (mk s x n d)
  exec : ∀ (st : State) (s x n d : ℕ),
    exec st (mk s x n d) = some (st.set d (g (st.regs n) (BitVec.ofNat 64 (x * 2 ^ (12 * s)))))
  zero : ∀ v, g v 0#64 = v
  add : ∀ v a b, g (g v a) b = g v (a + b)

theorem immediate_add : Immediate 0b100100010 .addImm (· + ·) where
  op_lt := by decide
  decode {s x n d} hs hx hn hd := by
    obtain ⟨hop, hshift, hval, hrn, hrd⟩ := field_imm 0b100100010 (by decide) hs hx hn hd
    rw [Arm64.decode, hop, hshift, hval, hrn, hrd]
    rfl
  exec _ _ _ _ _ := rfl
  zero := BitVec.add_zero
  add := BitVec.add_assoc

theorem immediate_sub : Immediate 0b110100010 .subImm (· - ·) where
  op_lt := by decide
  decode {s x n d} hs hx hn hd := by
    obtain ⟨hop, hshift, hval, hrn, hrd⟩ := field_imm 0b110100010 (by decide) hs hx hn hd
    rw [Arm64.decode, hop, hshift, hval, hrn, hrd]
    rfl
  exec _ _ _ _ _ := rfl
  zero := BitVec.sub_zero
  add v a b := BitVec.sub_sub v a b

variable {mk : ℕ → ℕ → ℕ → ℕ → Instr} {g : Num → Num → Num}

theorem emit_imm {o f : Num} (hop : op < 2 ^ 9) (hs : s < 2) (hx : x < 2 ^ 12) (hn : n < 32) (hd : d < 32)
    (ho : o.toNat = op * 2 ^ 23 + s * 2 ^ 22) (hf : f.toNat = x * 2 ^ 10) :
    emitmInt (o + f + (BitVec.ofNat 64 n <<< 5) + BitVec.ofNat 64 d) =
      [op * 2 ^ 23 + s * 2 ^ 22 + x * 2 ^ 10 + n * 2 ^ 5 + d] := by
  rw [emitmInt, toNat_word ho (by omega) hf (by omega) hn hd]
  congr 1
  omega

theorem toNat_low_part (c : Num) : ((c &&& 0xfff) <<< 10).toNat = field c.toNat 0 12 * 2 ^ 10 := by
  have hmask : (c &&& 0xfff).toNat = field c.toNat 0 12 * 2 ^ 0 := toNat_and_mask c 0 12 rfl
  have hlt := field_lt c.toNat 0 12
  rw [BitVec.toNat_shiftLeft, Nat.shiftLeft_eq, hmask]
  omega

theorem toNat_high_part (c : Num) : ((c &&& 0xfff000) >>> 2).toNat = field c.toNat 12 12 * 2 ^ 10 := by
  have hmask : (c &&& 0xfff000).toNat = field c.toNat 12 12 * 2 ^ 12 := toNat_and_mask c 12 12 rfl
  rw [BitVec.toNat_ushiftRight, hmask, Nat.shiftRight_eq_div_pow]
  omega

theorem set_self (st : State) (r : ℕ) : st.set r (st.regs r) = st := by
  rw [State.set, Function.update_eq_self]

theorem Immediate.run_single (h : Immediate op mk g) {o f : Num} (hs : s < 2) (hx : x < 2 ^ 12) (hn : n < 32)
    (hd : d < 32) (ho : o.toNat = op * 2 ^ 23 + s * 2 ^ 22) (hf : f.toNat = x * 2 ^ 10) (ws : List ℕ)
    (st : State) :
    run (emitmInt (o + f + (BitVec.ofNat 64 n <<< 5) + BitVec.ofNat 64 d) ++ ws) st =
      run ws (st.set d (g (st.regs n) (BitVec.ofNat 64 (x * 2 ^ (12 * s))))) := by
  rw [emit_imm h.op_lt hs hx hn hd ho hf, List.singleton_append, run_cons (h.decode hs hx hn hd), h.exec,
    Option.bind_some]

/-- A part that is 0 is neither added nor subtracted. -/
theorem Immediate.run_unless (h : Immediate op mk g) {p : Prop} [Decidable p] {o f : Num} (hs : s < 2)
    (hx : x < 2 ^ 12) (hr : r < 32) (ho : o.toNat = op * 2 ^ 23 + s * 2 ^ 22) (hf : f.toNat = x * 2 ^ 10)
    (hp : ¬ p → x = 0) (ws : List ℕ) (st : State) :
    run ((if p then emitmInt (o + f + (BitVec.ofNat 64 r <<< 5) + BitVec.ofNat 64 r) else []) ++ ws) st =
      run ws (st.set r (g (st.regs r) (BitVec.ofNat 64 (x * 2 ^ (12 * s))))) := by
  by_cases hcond : p
  · rw [if_pos hcond]
    exact h.run_single hs hx hr hr ho hf ws st
  · rw [if_neg hcond, hp hcond, Nat.zero_mul, h.zero, set_self]
    rfl

theorem Immediate.run_arm64Split (h : Immediate op mk g) {lo hi : Num} (hlo : lo.toNat = op * 2 ^ 23)
    (hhi : hi.toNat = op * 2 ^ 23 + 2 ^ 22) (hr : r < 32) (hc : c.toNat < 2 ^ 24) (st : State) :
    run (arm64Split lo hi c r) st = some (st.set r (g (st.regs r) c)) := by
  have hmask : (c &&& 0xfff).toNat = field c.toNat 0 12 * 2 ^ 0 := toNat_and_mask c 0 12 rfl
  have hmask' : (c &&& 0xfff000).toNat = field c.toNat 12 12 * 2 ^ 12 := toNat_and_mask c 12 12 rfl
  have hlow : ¬ c &&& 0xfff ≠ 0 → field c.toNat 0 12 = 0 := fun hz => by
    rw [not_not.1 hz, show (0 : Num).toNat = 0 from rfl] at hmask
    omega
  have hhigh : ¬ c &&& 0xfff000 ≠ 0 → field c.toNat 12 12 = 0 := fun hz => by
    rw [not_not.1 hz, show (0 : Num).toNat = 0 from rfl] at hmask'
    omega
  have hsum : BitVec.ofNat 64 (field c.toNat 0 12 * 2 ^ (12 * 0)) +
      BitVec.ofNat 64 (field c.toNat 12 12 * 2 ^ (12 * 1)) = c := by
    refine BitVec.eq_of_toNat_eq ?_
    rw [BitVec.toNat_add, BitVec.toNat_ofNat, BitVec.toNat_ofNat]
    unfold field
    omega
  rw [arm64Split, ← List.append_nil (if c &&& 0xfff000 ≠ 0 then _ else _),
    h.run_unless (s := 0) (by decide) (field_lt ..) hr (by rw [hlo]; omega) (toNat_low_part c) hlow,
    h.run_unless (s := 1) (by decide) (field_lt ..) hr (by rw [hhi, Nat.one_mul])
      (toNat_high_part c) hhigh, run,
    set_set]
  rw [State.regs_set, h.add, hsum]

/-- Either way round a constant is added or subtracted, or it is too large. The least number is its own
    negative, and nothing is done for it. -/
theorem Immediate.run_signed {op' : ℕ} {mk' : ℕ → ℕ → ℕ → ℕ → Instr} {g' : Num → Num → Num}
    (h : Immediate op mk g) (h' : Immediate op' mk' g') (hneg : ∀ v a, g' v (-a) = g v a)
    (hleast : ∀ v, g v (BitVec.intMin 64) ≠ v) {lo hi lo' hi' : Num} (hlo : lo.toNat = op * 2 ^ 23)
    (hhi : hi.toNat = op * 2 ^ 23 + 2 ^ 22) (hlo' : lo'.toNat = op' * 2 ^ 23)
    (hhi' : hi'.toNat = op' * 2 ^ 23 + 2 ^ 22) (hr : r < 32) (e e' : String × Num) :
    (∀ ws, (if c = 0 then .ok []
      else if c.toInt < 0 then
        if (-c).toInt ≤ 0xffffff then .ok (arm64Split lo' hi' (-c) r) else .error e
      else if c.toInt ≤ 0xffffff then .ok (arm64Split lo hi c r) else .error e' : Emitted) = .ok ws →
        ∀ st, run ws st = some (st.set r (g (st.regs r) c))) ↔ c.toInt ≠ -2 ^ 63 := by
  have hc := toInt_cases c
  have hmin : c.toInt = -2 ^ 63 ↔ c = BitVec.intMin 64 :=
    ⟨fun heq => BitVec.eq_of_toInt_eq (heq.trans (by decide)), fun heq => by rw [heq]; decide⟩
  constructor
  · intro hall heq
    rw [hmin] at heq
    subst heq
    rw [if_neg (by decide), if_pos (by decide), if_pos (by decide)] at hall
    have hrun := hall _ rfl ⟨fun _ => 0, fun _ => 0⟩
    rw [show -BitVec.intMin 64 = BitVec.intMin 64 by decide] at hrun
    have hnone : arm64Split lo' hi' (BitVec.intMin 64) r = [] := by
      rw [arm64Split, if_neg (by decide), if_neg (by decide)]
      rfl
    rw [hnone, run] at hrun
    have hreg := congrArg (fun st => st.regs r) (Option.some.inj hrun)
    exact hleast _ (hreg.trans (State.regs_set ..)).symm
  · intro hne ws hws st
    by_cases hzero : c = 0
    · rw [if_pos hzero] at hws
      obtain rfl := Except.ok.inj hws
      rw [hzero, run, show (0 : Num) = 0#64 from rfl, h.zero, set_self]
    rw [if_neg hzero] at hws
    by_cases hlt : c.toInt < 0
    · have hneg' : (-c).toInt = -c.toInt := BitVec.toInt_neg_of_ne_intMin fun heq => hne (hmin.2 heq)
      have hn := toInt_cases (-c)
      rw [if_pos hlt] at hws
      split_ifs at hws with hle
      · obtain rfl := Except.ok.inj hws
        rw [h'.run_arm64Split hlo' hhi' hr (by omega), hneg]
    · rw [if_neg hlt] at hws
      split_ifs at hws with hle
      · obtain rfl := Except.ok.inj hws
        exact h.run_arm64Split hlo hhi hr (by omega) st

theorem emitAddCr_adds (hr : r < 32) (c : Num) :
    (∀ ws, emitAddCr c r = .ok ws → Adds r c r ws) ↔ c.toInt ≠ -2 ^ 63 :=
  immediate_add.run_signed immediate_sub (fun v a => BitVec.sub_neg ..) (fun v h => by
    exact absurd (BitVec.self_eq_add_right.1 h.symm) (by decide)) rfl rfl rfl rfl hr _ _

theorem emitSubCr_adds (hr : r < 32) (c : Num) :
    (∀ ws, emitSubCr c r = .ok ws → Adds r (-c) r ws) ↔ c.toInt ≠ -2 ^ 63 := by
  have h : (∀ ws, emitSubCr c r = .ok ws → ∀ st, run ws st = some (st.set r (st.regs r - c))) ↔
      c.toInt ≠ -2 ^ 63 :=
    immediate_sub.run_signed immediate_add (fun v a => BitVec.add_neg_eq_sub) (fun v h => by
      rw [← BitVec.add_neg_eq_sub] at h
      exact absurd (BitVec.self_eq_add_right.1 h.symm) (by decide)) rfl rfl rfl rfl hr _ _
  rw [← h]
  simp only [Adds, BitVec.add_neg_eq_sub]

/-! ## Addresses -/

/-- An offset that has an immediate, or a base and a destination that are neither the scratch register nor the
    stack pointer's number. -/
def LeaExact (s : ℕ) (c : Num) (d : ℕ) : Prop :=
  c.toInt ≠ -0x1000 ∧ (-0x1000 ≤ c.toInt ∧ c.toInt ≤ 0xfff ∨ s ≠ rtmp ∧ s ≠ 31 ∧ d ≠ 31)

theorem run_lea_large (hn : n < 32) (hd : d < 32) (c : Num) (st : State) :
    run (emitCpyCr c rtmp ++ arm64Rrr 0x8b000000 n rtmp d) st =
      some ((st.set rtmp c).set0 d (c + (st.set rtmp c).get0 n)) := by
  obtain ⟨w, hw, hdec⟩ := decode_add hn (by decide : rtmp < 32) hd
  have hget : (st.set rtmp c).get0 rtmp = c := by
    rw [State.get0, if_neg (by decide : ¬ rtmp = 31)]
    exact st.regs_set rtmp c
  rw [hw, run_append, run_emitCpyCr c (r := rtmp) (by decide), Option.bind_some, run_single hdec, exec, hget]

theorem emitLeaI_small (hn : n < 32) (hd : d < 32) (hlo : -0x1000 ≤ c.toInt) (hhi : c.toInt ≤ 0xfff)
    (hne : c.toInt ≠ -0x1000) : Adds n c d (emitLeaI n c d) := by
  intro st
  have hc := toInt_cases c
  rw [emitLeaI]
  by_cases hnone : c = 0 ∧ n = d
  · rw [if_pos hnone, hnone.1, hnone.2, run, show (0 : Num) = 0#64 from rfl, BitVec.add_zero, set_self]
  rw [if_neg hnone, if_pos ⟨hlo, hhi⟩]
  by_cases hsign : 0 ≤ c.toInt
  · have hval : BitVec.ofNat 64 (field c.toNat 0 12 * 2 ^ (12 * 0)) = c := by
      refine BitVec.eq_of_toNat_eq ?_
      rw [BitVec.toNat_ofNat]
      unfold field
      omega
    rw [if_pos hsign, ← List.append_nil (emitmInt _), immediate_add.run_single (s := 0) (by decide)
      (field_lt ..) hn hd rfl (toNat_low_part c), run, hval]
  · have hval : BitVec.ofNat 64 (field (-c).toNat 0 12 * 2 ^ (12 * 0)) = -c := by
      have hneg := BitVec.toNat_neg c
      refine BitVec.eq_of_toNat_eq ?_
      rw [BitVec.toNat_ofNat]
      unfold field
      omega
    rw [if_neg hsign, ← List.append_nil (emitmInt _), immediate_sub.run_single (s := 0) (by decide)
      (field_lt ..) hn hd rfl (toNat_low_part (-c)), run, hval, BitVec.sub_neg]

theorem Adds.addsUp {base reg : ℕ} (h : Adds base c reg ws) : AddsUp base c reg ws := fun st =>
  ⟨_, h st, st.regs_set .., fun _ hx _ => st.regs_set_ne hx _, rfl⟩

theorem emitLeaI_addsUp (hn : n < 32) (hd : d < 32) (c : Num) :
    AddsUp n c d (emitLeaI n c d) ↔ LeaExact n c d := by
  by_cases hrange : -0x1000 ≤ c.toInt ∧ c.toInt ≤ 0xfff
  · refine ⟨fun h => ⟨fun heq => ?_, Or.inl hrange⟩,
      fun h => (emitLeaI_small hn hd hrange.1 hrange.2 h.1).addsUp⟩
    -- what is subtracted is cut to its low 12 bits, and they are 0
    have hc : c = -0x1000 := BitVec.eq_of_toInt_eq (heq.trans (by decide))
    obtain ⟨st', hrun, hsum, -⟩ := h ⟨fun _ => 0, fun _ => 0⟩
    rw [hc, emitLeaI, if_neg (fun h => absurd h.1 (by decide)), if_pos (by decide), if_neg (by decide),
      ← List.append_nil (emitmInt _), immediate_sub.run_single (s := 0) (x := 0) (by decide) (by decide) hn hd
      rfl (by decide), run] at hrun
    rw [← Option.some.inj hrun, hc] at hsum
    exact absurd ((State.regs_set ..).symm.trans hsum) (show ¬ (0 : Num) - 0#64 = 0 + -0x1000 by decide)
  have hne : c ≠ 0 := fun heq => hrange (by rw [heq]; decide)
  have hrun := run_lea_large hn hd c
  rw [LeaExact, emitLeaI, if_neg (fun h => hne h.1), if_neg hrange]
  have hother : c.toInt ≠ -0x1000 := fun heq => hrange (by rw [heq]; decide)
  constructor
  · intro h
    -- the same number in every register
    have hall : ∀ v : Num, (((⟨fun _ => v, fun _ => 0⟩ : State).set rtmp c).set0 d
        (c + ((⟨fun _ => v, fun _ => 0⟩ : State).set rtmp c).get0 n)).regs d = v + c := fun v => by
      obtain ⟨st', hst', hsum, -⟩ := h ⟨fun _ => v, fun _ => 0⟩
      rw [hrun] at hst'
      rw [Option.some.inj hst', hsum]
    have hd31 : d ≠ 31 := fun hd31 => by
      have heq := hall 0
      rw [State.set0, if_pos hd31, hd31, State.regs_set_ne _ (by decide)] at heq
      exact hne ((BitVec.zero_add c).symm.trans heq.symm)
    have hset : ∀ v : Num, c + ((⟨fun _ => v, fun _ => 0⟩ : State).set rtmp c).get0 n = v + c := fun v => by
      have heq := hall v
      rwa [State.set0_of_ne _ hd31, State.regs_set] at heq
    refine ⟨hother, Or.inr ⟨fun hn => ?_, fun hn => ?_, hd31⟩⟩
    · have heq := hset (c + 1)
      rw [hn, State.get0_of_ne _ (by decide), State.regs_set, BitVec.add_assoc, BitVec.add_comm 1,
        ← BitVec.add_assoc] at heq
      exact absurd (BitVec.self_eq_add_right.1 heq) (by decide)
    · have heq := hset 1
      rw [hn, State.get0, if_pos rfl, BitVec.add_comm 1] at heq
      exact absurd ((BitVec.add_right_inj c).1 heq) (by decide)
  · rintro ⟨-, hin | ⟨hs, hs31, hd31⟩⟩ st
    · exact absurd hin hrange
    · refine ⟨_, hrun st, ?_, fun x hx hxt => ?_, ?_⟩
      · rw [State.set0_of_ne _ hd31, State.regs_set, State.get0_of_ne _ hs31, State.regs_set_ne _ hs,
          BitVec.add_comm]
      · rw [State.set0_of_ne _ hd31, State.regs_set_ne _ hx, State.regs_set_ne _ hxt]
      · rw [State.set0_of_ne _ hd31]
        rfl

end Sums
/-! ## All of them -/

/-- Each load, store, `lea`, `add` and `sub` of a constant throws or is exact just when its condition on the
    constant and the registers holds. -/
theorem addresses_exact {base reg : ℕ} (hbase : base < 32) (hreg : reg < 32) (c : Num) :
    (∀ a : Access, (∀ ws, a.emit base c reg = .ok ws → Reaches a.size a.opc base c reg ws) ↔
      InUnits a.size c) ∧
      (AddsUp base c reg (emitLeaI base c reg) ↔ LeaExact base c reg) ∧
      ((∀ ws, emitAddCr c reg = .ok ws → Adds reg c reg ws) ↔ c.toInt ≠ -2 ^ 63) ∧
      ((∀ ws, emitSubCr c reg = .ok ws → Adds reg (-c) reg ws) ↔ c.toInt ≠ -2 ^ 63) :=
  ⟨fun a => a.emit_reaches hbase hreg c, emitLeaI_addsUp hbase hreg c, emitAddCr_adds hreg c,
    emitSubCr_adds hreg c⟩

/-- A load of 8 bytes at 257 past `:r0` is one at 256 past `:r4`. -/
theorem addresses_other_base :
    ¬ ∀ ws, emitCpyIr 0 0x101 1 = .ok ws → Reaches 3 1 0 0x101 1 ws := by
  intro h
  have hreach := h [0xf9408081] (by decide)
  exact absurd hreach.1 (by decide)

theorem addresses_exact_thirty_two :
    (∀ a : Access, (∀ ws, a.emit 2 32 7 = .ok ws → Reaches a.size a.opc 2 32 7 ws) ↔ InUnits a.size 32) ∧
      (AddsUp 2 32 7 (emitLeaI 2 32 7) ↔ LeaExact 2 32 7) ∧
      ((∀ ws, emitAddCr 32 7 = .ok ws → Adds 7 32 7 ws) ↔ (32 : Num).toInt ≠ -2 ^ 63) ∧
      ((∀ ws, emitSubCr 32 7 = .ok ws → Adds 7 (-32) 7 ws) ↔ (32 : Num).toInt ≠ -2 ^ 63) :=
  addresses_exact (by decide) (by decide) 32

end ChrysaLisp.Trans.Arm64
