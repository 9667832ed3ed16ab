import ChrysaLisp.Trans.Arm64

set_option autoImplicit false

/-! # Halfwords moved to a register

`arm64-mov-cr`: a number is four halfwords, and those that are what the first move leaves are not
moved. -/

namespace ChrysaLisp.Trans.Arm64

open Fields

variable {r k imm : ℕ} {c v : Num} {st : State} {ws : List ℕ}

/-! ## A wide move -/

theorem emitmInt_add {o f : Num} (ho : o.toNat = k * 2 ^ 21) (hk : k < 2 ^ 11) (hf : f.toNat = imm * 2 ^ 5)
    (himm : imm < 2 ^ 16) (hr : r < 31) :
    emitmInt (o + f + BitVec.ofNat 64 r) = [k * 2 ^ 21 + imm * 2 ^ 5 + r] := by
  rw [emitmInt, BitVec.toNat_add, BitVec.toNat_add, BitVec.toNat_ofNat, ho, hf]
  congr 1
  omega

theorem field_wide (hk : k < 2 ^ 11) (himm : imm < 2 ^ 16) (hr : r < 31) :
    field (k * 2 ^ 21 + imm * 2 ^ 5 + r) 23 9 = k / 4 ∧ field (k * 2 ^ 21 + imm * 2 ^ 5 + r) 21 2 = k % 4 ∧
      field (k * 2 ^ 21 + imm * 2 ^ 5 + r) 5 16 = imm ∧ field (k * 2 ^ 21 + imm * 2 ^ 5 + r) 0 5 = r := by
  unfold field
  omega

theorem toNat_shiftLeft_five (hc : c.toNat < 2 ^ 16) : (c <<< 5).toNat = c.toNat * 2 ^ 5 := by
  rw [BitVec.toNat_shiftLeft, Nat.shiftLeft_eq]
  omega

theorem toNat_mask_shift (c : Num) {mask : Num} (n : ℕ) (h : mask.toNat = (2 ^ 16 - 1) * 2 ^ (n + 5)) :
    ((c &&& mask) >>> n).toNat = field c.toNat (n + 5) 16 * 2 ^ 5 := by
  rw [BitVec.toNat_ushiftRight, toNat_and_mask c (n + 5) 16 h, Nat.shiftRight_eq_div_pow, Nat.pow_add]
  rw [show field c.toNat (n + 5) 16 * (2 ^ n * 2 ^ 5) = field c.toNat (n + 5) 16 * 2 ^ 5 * 2 ^ n by ring]
  exact Nat.mul_div_cancel _ (Nat.two_pow_pos n)

/-- A word of a wide move of one of the halfwords. -/
def wide (op hw imm r : ℕ) : ℕ := (op * 4 + hw) * 2 ^ 21 + imm * 2 ^ 5 + r

theorem run_movn {hw : ℕ} (hhw : hw < 4) (himm : imm < 2 ^ 16) (hr : r < 31) :
    run (wide 0b100100101 hw imm r :: ws) st =
      run ws (st.set r (~~~BitVec.ofNat 64 (imm * 2 ^ (16 * hw)))) := by
  obtain ⟨hop, hfield, hval, hreg⟩ := field_wide (k := 0b100100101 * 4 + hw) (by omega) himm hr
  rw [show (0b100100101 * 4 + hw) / 4 = 0b100100101 by omega] at hop
  rw [show (0b100100101 * 4 + hw) % 4 = hw by omega] at hfield
  have hdec : decode (wide 0b100100101 hw imm r) = some (.movn hw imm r) := by
    simp only [decode, wide, hop, hfield, hval, hreg, if_true]
  rw [run, hdec, Option.bind_some, exec, State.set0, if_neg (by omega), Option.bind_some]

theorem run_movz {hw : ℕ} (hhw : hw < 4) (himm : imm < 2 ^ 16) (hr : r < 31) :
    run (wide 0b110100101 hw imm r :: ws) st =
      run ws (st.set r (BitVec.ofNat 64 (imm * 2 ^ (16 * hw)))) := by
  obtain ⟨hop, hfield, hval, hreg⟩ := field_wide (k := 0b110100101 * 4 + hw) (by omega) himm hr
  rw [show (0b110100101 * 4 + hw) / 4 = 0b110100101 by omega] at hop
  rw [show (0b110100101 * 4 + hw) % 4 = hw by omega] at hfield
  have hdec : decode (wide 0b110100101 hw imm r) = some (.movz hw imm r) := by
    simp only [decode, wide, hop, hfield, hval, hreg, Nat.reduceEqDiff, if_true, if_false]
  rw [run, hdec, Option.bind_some, exec, State.set0, if_neg (by omega), Option.bind_some]

theorem set_set (st : State) (r : ℕ) (v v' : Num) : (st.set r v).set r v' = st.set r v' := by
  rw [State.set, State.set, State.set]
  dsimp only
  rw [Function.update_idem]

theorem run_movk {hw : ℕ} (hhw : hw < 4) (himm : imm < 2 ^ 16) (hr : r < 31) :
    run (wide 0b111100101 hw imm r :: ws) (st.set r v) = run ws (st.set r (insert v hw imm)) := by
  obtain ⟨hop, hfield, hval, hreg⟩ := field_wide (k := 0b111100101 * 4 + hw) (by omega) himm hr
  rw [show (0b111100101 * 4 + hw) / 4 = 0b111100101 by omega] at hop
  rw [show (0b111100101 * 4 + hw) % 4 = hw by omega] at hfield
  have hget : (st.set r v).get0 r = v := by
    rw [State.get0, if_neg (by omega)]
    exact Function.update_self ..
  have hdec : decode (wide 0b111100101 hw imm r) = some (.movk hw imm r) := by
    simp only [decode, wide, hop, hfield, hval, hreg, Nat.reduceEqDiff, if_true, if_false]
  rw [run, hdec, Option.bind_some, exec, State.set0, if_neg (by omega), Option.bind_some, hget, set_set]

/-- A halfword that is as it should be already need not be moved. -/
theorem run_movk_unless {hw : ℕ} {p : Prop} [Decidable p] (hhw : hw < 4) (himm : imm < 2 ^ 16)
    (hr : r < 31) (hp : ¬ p → insert v hw imm = v) :
    run ((if p then [wide 0b111100101 hw imm r] else []) ++ ws) (st.set r v) =
      run ws (st.set r (insert v hw imm)) := by
  by_cases h : p
  · rw [if_pos h]
    exact run_movk hhw himm hr
  · rw [if_neg h, hp h]
    rfl

theorem emit_z (hr : r < 31) :
    emitmInt (0xf2800000 + ((c &&& 0xffff) <<< 5) + BitVec.ofNat 64 r) =
      [wide 0b111100101 0 (field c.toNat 0 16) r] := by
  have hz : (c &&& 0xffff).toNat = field c.toNat 0 16 * 2 ^ 0 := toNat_and_mask c 0 16 rfl
  have hlt := field_lt c.toNat 0 16
  exact emitmInt_add rfl (by decide) (by rw [toNat_shiftLeft_five (by omega)]; omega) hlt hr

theorem emit_mask {o mask : Num} {n : ℕ} (op hw lo : ℕ) (hop : op < 512) (hhw : hw < 4) (hn : n + 5 = lo)
    (hr : r < 31) (ho : o.toNat = (op * 4 + hw) * 2 ^ 21) (hmask : mask.toNat = (2 ^ 16 - 1) * 2 ^ lo) :
    emitmInt (o + ((c &&& mask) >>> n) + BitVec.ofNat 64 r) = [wide op hw (field c.toNat lo 16) r] := by
  subst hn
  exact emitmInt_add ho (by omega) (toNat_mask_shift c n hmask) (field_lt ..) hr

/-- A number of one halfword. -/
theorem emit_half {o f : Num} (op : ℕ) (hop : op < 512) (hr : r < 31) (ho : o.toNat = op * 4 * 2 ^ 21)
    (hf : f.toNat < 2 ^ 16) :
    emitmInt (o + (f <<< 5) + BitVec.ofNat 64 r) = [wide op 0 (field f.toNat 0 16) r] := by
  have hfield : field f.toNat 0 16 = f.toNat := by
    unfold field
    omega
  rw [hfield]
  exact emitmInt_add ho (by omega) (toNat_shiftLeft_five hf) hf hr

/-- A number by its halfwords. -/
def ofHalves (h0 h1 h2 h3 : ℕ) : Num := BitVec.ofNat 64 (h0 + h1 * 2 ^ 16 + h2 * 2 ^ 32 + h3 * 2 ^ 48)

theorem ofHalves_field (c : Num) :
    ofHalves (field c.toNat 0 16) (field c.toNat 16 16) (field c.toNat 32 16) (field c.toNat 48 16) = c := by
  have hlt := c.isLt
  refine BitVec.eq_of_toNat_eq ?_
  rw [ofHalves, BitVec.toNat_ofNat]
  unfold field
  omega

theorem insert_zero {h0 h : ℕ} (h1 h2 h3 : ℕ) (g0 : h0 < 2 ^ 16) (g : h < 2 ^ 16) :
    insert (ofHalves h0 h1 h2 h3) 0 h = ofHalves h h1 h2 h3 := by
  refine BitVec.eq_of_toNat_eq ?_
  rw [insert, ofHalves, ofHalves, BitVec.toNat_ofNat, BitVec.toNat_ofNat, BitVec.toNat_ofNat]
  unfold field
  omega

theorem insert_one {h0 h1 : ℕ} (h2 h3 h : ℕ) (g0 : h0 < 2 ^ 16) (g1 : h1 < 2 ^ 16) :
    insert (ofHalves h0 h1 h2 h3) 1 h = ofHalves h0 h h2 h3 := by
  refine BitVec.eq_of_toNat_eq ?_
  rw [insert, ofHalves, ofHalves, BitVec.toNat_ofNat, BitVec.toNat_ofNat, BitVec.toNat_ofNat]
  unfold field
  omega

theorem insert_two {h0 h1 h2 : ℕ} (h3 h : ℕ) (g0 : h0 < 2 ^ 16) (g1 : h1 < 2 ^ 16) (g2 : h2 < 2 ^ 16) :
    insert (ofHalves h0 h1 h2 h3) 2 h = ofHalves h0 h1 h h3 := by
  refine BitVec.eq_of_toNat_eq ?_
  rw [insert, ofHalves, ofHalves, BitVec.toNat_ofNat, BitVec.toNat_ofNat, BitVec.toNat_ofNat]
  unfold field
  omega

/-! ## What is left of a number to move -/

section Rest

variable {f h1 h2 h3 : ℕ} {fx fy fz : Num}

/-- The halfword of a mask is the one it is compared with. -/
theorem field_of_and {mask m : Num} (lo : ℕ) (hmask : mask.toNat = (2 ^ 16 - 1) * 2 ^ lo)
    (hm : m.toNat = f * 2 ^ lo) (h : ¬ c &&& mask ≠ m) : field c.toNat lo 16 = f := by
  have heq := congrArg BitVec.toNat (not_not.1 h)
  rw [toNat_and_mask c lo 16 hmask, hm] at heq
  exact Nat.eq_of_mul_eq_mul_right (Nat.two_pow_pos lo) heq

theorem run_z (hr : r < 31) (hf : f < 2 ^ 16) (hz : fz.toNat = f) :
    run (if c &&& 0xffff ≠ fz then emitmInt (0xf2800000 + ((c &&& 0xffff) <<< 5) + BitVec.ofNat 64 r) else [])
        (st.set r (ofHalves f h1 h2 h3)) =
      some (st.set r (ofHalves (field c.toNat 0 16) h1 h2 h3)) := by
  have hinsert := insert_zero h1 h2 h3 hf (field_lt c.toNat 0 16)
  rw [emit_z hr, ← List.append_nil (ite _ _ _), run_movk_unless (by decide) (field_lt ..) hr, hinsert, run]
  intro h
  rw [hinsert, field_of_and 0 rfl (by rw [hz, pow_zero, Nat.mul_one]) h]

theorem run_yz (hr : r < 31) (hf : f < 2 ^ 16) (hy : fy.toNat = f * 2 ^ 16) (hz : fz.toNat = f) :
    run ((if c &&& 0xffff0000 ≠ fy then
        emitmInt (0xf2a00000 + ((c &&& 0xffff0000) >>> 11) + BitVec.ofNat 64 r) else []) ++
      if c &&& 0xffff ≠ fz then emitmInt (0xf2800000 + ((c &&& 0xffff) <<< 5) + BitVec.ofNat 64 r) else [])
        (st.set r (ofHalves f f h2 h3)) =
      some (st.set r (ofHalves (field c.toNat 0 16) (field c.toNat 16 16) h2 h3)) := by
  have hinsert := insert_one h2 h3 (field c.toNat 16 16) hf hf
  rw [emit_mask 0b111100101 1 16 (by decide) (by decide) rfl hr rfl rfl,
    run_movk_unless (by decide) (field_lt ..) hr, hinsert, run_z hr hf hz]
  intro h
  rw [hinsert, field_of_and 16 rfl hy h]

theorem run_xyz (hr : r < 31) (hf : f < 2 ^ 16) (hx : fx.toNat = f * 2 ^ 32) (hy : fy.toNat = f * 2 ^ 16)
    (hz : fz.toNat = f) :
    run ((if c &&& 0xffff00000000 ≠ fx then
        emitmInt (0xf2c00000 + ((c &&& 0xffff00000000) >>> 27) + BitVec.ofNat 64 r) else []) ++
      ((if c &&& 0xffff0000 ≠ fy then
        emitmInt (0xf2a00000 + ((c &&& 0xffff0000) >>> 11) + BitVec.ofNat 64 r) else []) ++
      if c &&& 0xffff ≠ fz then emitmInt (0xf2800000 + ((c &&& 0xffff) <<< 5) + BitVec.ofNat 64 r) else []))
        (st.set r (ofHalves f f f h3)) =
      some (st.set r (ofHalves (field c.toNat 0 16) (field c.toNat 16 16) (field c.toNat 32 16) h3)) := by
  have hinsert := insert_two h3 (field c.toNat 32 16) hf hf hf
  rw [emit_mask 0b111100101 2 32 (by decide) (by decide) rfl hr rfl rfl,
    run_movk_unless (by decide) (field_lt ..) hr, hinsert, run_yz hr hf hy hz]
  intro h
  rw [hinsert, field_of_and 32 rfl hx h]

end Rest

theorem field_not (c : Num) :
    field (~~~c).toNat 0 16 = 0xffff - field c.toNat 0 16 ∧
      field (~~~c).toNat 16 16 = 0xffff - field c.toNat 16 16 ∧
      field (~~~c).toNat 32 16 = 0xffff - field c.toNat 32 16 ∧
      field (~~~c).toNat 48 16 = 0xffff - field c.toNat 48 16 := by
  have hlt := c.isLt
  rw [BitVec.toNat_not]
  unfold field
  omega

/-- What the move of one halfword leaves. -/
theorem ofNat_halves (imm : ℕ) :
    BitVec.ofNat 64 (imm * 2 ^ (16 * 0)) = ofHalves imm 0 0 0 ∧
      BitVec.ofNat 64 (imm * 2 ^ (16 * 1)) = ofHalves 0 imm 0 0 ∧
      BitVec.ofNat 64 (imm * 2 ^ (16 * 2)) = ofHalves 0 0 imm 0 ∧
      BitVec.ofNat 64 (imm * 2 ^ (16 * 3)) = ofHalves 0 0 0 imm := by
  refine ⟨?_, ?_, ?_, ?_⟩
  all_goals
    refine BitVec.eq_of_toNat_eq ?_
    rw [ofHalves, BitVec.toNat_ofNat, BitVec.toNat_ofNat]
    omega

theorem not_halves {imm : ℕ} (h : imm < 2 ^ 16) :
    ~~~BitVec.ofNat 64 ((0xffff - imm) * 2 ^ (16 * 0)) = ofHalves imm 0xffff 0xffff 0xffff ∧
      ~~~BitVec.ofNat 64 ((0xffff - imm) * 2 ^ (16 * 1)) = ofHalves 0xffff imm 0xffff 0xffff ∧
      ~~~BitVec.ofNat 64 ((0xffff - imm) * 2 ^ (16 * 2)) = ofHalves 0xffff 0xffff imm 0xffff ∧
      ~~~BitVec.ofNat 64 ((0xffff - imm) * 2 ^ (16 * 3)) = ofHalves 0xffff 0xffff 0xffff imm := by
  refine ⟨?_, ?_, ?_, ?_⟩
  all_goals
    refine BitVec.eq_of_toNat_eq ?_
    rw [BitVec.toNat_not, ofHalves, BitVec.toNat_ofNat, BitVec.toNat_ofNat]
    omega

/-! ## All of it -/

theorem arm64MovCr_neg (hr : r < 31) (hneg : c.toInt < 0) :
    run (arm64MovCr c r) st = some (st.set r c) := by
  have hhalves := ofHalves_field c
  have hsign := toInt_cases c
  obtain ⟨n0, n1, n2, n3⟩ := field_not c
  obtain ⟨f0, -, -, -⟩ := not_halves (field_lt c.toNat 0 16)
  obtain ⟨-, f1, -, -⟩ := not_halves (field_lt c.toNat 16 16)
  obtain ⟨-, -, f2, -⟩ := not_halves (field_lt c.toNat 32 16)
  obtain ⟨-, -, -, f3⟩ := not_halves (field_lt c.toNat 48 16)
  rw [arm64MovCr, if_pos hneg]
  by_cases h0 : -0x10000 ≤ c.toInt
  · have hhigh : field c.toNat 16 16 = 0xffff ∧ field c.toNat 32 16 = 0xffff ∧
        field c.toNat 48 16 = 0xffff := by
      unfold field
      omega
    have hnot : (~~~c).toNat < 2 ^ 16 := by
      rw [BitVec.toNat_not]
      omega
    rw [hhigh.1, hhigh.2.1, hhigh.2.2] at hhalves
    rw [if_pos h0, emit_half 0b100100101 (by decide) hr rfl hnot, run_movn (by decide) (field_lt ..) hr, n0,
      f0, hhalves, run]
  rw [if_neg h0]
  by_cases h1 : -0x100000000 ≤ c.toInt
  · have hhigh : field c.toNat 32 16 = 0xffff ∧ field c.toNat 48 16 = 0xffff := by
      unfold field
      omega
    rw [hhigh.1, hhigh.2] at hhalves
    rw [if_pos h1, emit_mask 0b100100101 1 16 (by decide) (by decide) rfl hr rfl rfl, List.singleton_append,
      run_movn (by decide) (field_lt ..) hr, n1, f1, run_z (f := 0xffff) hr (by decide) rfl, hhalves]
  rw [if_neg h1]
  by_cases h2 : -0x1000000000000 ≤ c.toInt
  · have hhigh : field c.toNat 48 16 = 0xffff := by
      unfold field
      omega
    rw [hhigh] at hhalves
    rw [if_pos h2, emit_mask 0b100100101 2 32 (by decide) (by decide) rfl hr rfl rfl, List.append_assoc,
      List.singleton_append, run_movn (by decide) (field_lt ..) hr, n2, f2,
      run_yz (f := 0xffff) hr (by decide) rfl rfl, hhalves]
  rw [if_neg h2, emit_mask 0b100100101 3 48 (by decide) (by decide) rfl hr rfl rfl, List.append_assoc,
    List.append_assoc, List.singleton_append, run_movn (by decide) (field_lt ..) hr, n3, f3,
    run_xyz (f := 0xffff) hr (by decide) rfl rfl rfl, hhalves]

theorem arm64MovCr_nonneg (hr : r < 31) (hneg : ¬ c.toInt < 0) :
    run (arm64MovCr c r) st = some (st.set r c) := by
  have hhalves := ofHalves_field c
  have hsign := toInt_cases c
  obtain ⟨z0, -, -, -⟩ := ofNat_halves (field c.toNat 0 16)
  obtain ⟨-, z1, -, -⟩ := ofNat_halves (field c.toNat 16 16)
  obtain ⟨-, -, z2, -⟩ := ofNat_halves (field c.toNat 32 16)
  obtain ⟨-, -, -, z3⟩ := ofNat_halves (field c.toNat 48 16)
  rw [arm64MovCr, if_neg hneg]
  by_cases h0 : c.toInt ≤ 0xffff
  · have hhigh : field c.toNat 16 16 = 0 ∧ field c.toNat 32 16 = 0 ∧ field c.toNat 48 16 = 0 := by
      unfold field
      omega
    rw [hhigh.1, hhigh.2.1, hhigh.2.2] at hhalves
    rw [if_pos h0, emit_half 0b110100101 (by decide) hr rfl (by omega), run_movz (by decide) (field_lt ..) hr,
      z0, hhalves, run]
  rw [if_neg h0]
  by_cases h1 : c.toInt ≤ 0xffffffff
  · have hhigh : field c.toNat 32 16 = 0 ∧ field c.toNat 48 16 = 0 := by
      unfold field
      omega
    rw [hhigh.1, hhigh.2] at hhalves
    rw [if_pos h1, emit_mask 0b110100101 1 16 (by decide) (by decide) rfl hr rfl rfl, List.singleton_append,
      run_movz (by decide) (field_lt ..) hr, z1, run_z (f := 0) hr (by decide) rfl, hhalves]
  rw [if_neg h1]
  by_cases h2 : c.toInt ≤ 0xffffffffffff
  · have hhigh : field c.toNat 48 16 = 0 := by
      unfold field
      omega
    rw [hhigh] at hhalves
    rw [if_pos h2, emit_mask 0b110100101 2 32 (by decide) (by decide) rfl hr rfl rfl, List.append_assoc,
      List.singleton_append, run_movz (by decide) (field_lt ..) hr, z2,
      run_yz (f := 0) hr (by decide) (by simp) rfl, hhalves]
  rw [if_neg h2, emit_mask 0b110100101 3 48 (by decide) (by decide) rfl hr rfl rfl, List.append_assoc,
    List.append_assoc, List.singleton_append, run_movz (by decide) (field_lt ..) hr, z3,
    run_xyz (f := 0) hr (by decide) (by simp) (by simp) rfl, hhalves]

/-- Any number is left exactly in any register. -/
theorem run_arm64MovCr (c : Num) (hr : r < 31) : run (arm64MovCr c r) st = some (st.set r c) := by
  by_cases hneg : c.toInt < 0
  · exact arm64MovCr_neg hr hneg
  · exact arm64MovCr_nonneg hr hneg

end ChrysaLisp.Trans.Arm64
