import ChrysaLisp.Trans.Vp64Code

set_option autoImplicit false

/-! # What is taken is what was emitted

The opcodes are counted alike, and each field of a short is read back as it was put there. A constant that is
not checked is read back as its low bits with their sign, which is what it was just where it fits. -/

namespace ChrysaLisp.Trans.Vp64

open Fields

/-! ## Opcodes -/

/-- The form of an opcode by its number. -/
def Opcode.nth (k : ℕ) : Opcode → Opcode
  | .cr o _ => .cr o k
  | .scr o _ => .scr o k
  | .branch float o _ => .branch float o k
  | .jump o _ => .jump o k
  | o => o

/-- How many forms there are of it. -/
def Opcode.forms : Opcode → ℕ
  | .cr _ _ => 4
  | .scr _ _ => 3
  | .branch _ _ _ => 2
  | .jump _ _ => 2
  | _ => 1

/-- Each is counted, with its forms. -/
theorem mem_counted (o : Opcode) : (o.nth 0, o.forms) ∈ counted := by
  cases o with
  | cr o form =>
      change (Opcode.cr o 0, 4) ∈ counted
      cases o <;> decide
  | scr o form =>
      change (Opcode.scr o 0, 3) ∈ counted
      cases o <;> decide
  | rr o => cases o <;> decide
  | shift o => cases o <;> decide
  | div o => cases o <;> decide
  | ir o => cases o <;> decide
  | ri o => cases o <;> decide
  | rd o => cases o <;> decide
  | dr o => cases o <;> decide
  | fd => decide
  | branch float o form =>
      change (Opcode.branch float o 0, 2) ∈ counted
      cases float <;> cases o <;> decide
  | jump o form =>
      change (Opcode.jump o 0, 2) ∈ counted
      cases o <;> decide
  | viaR o => cases o <;> decide
  | viaI o => cases o <;> decide
  | pr o => cases o <;> decide
  | callAbi => decide
  | ret => decide
  | sync => decide
  | brk => decide

/-- Both count alike, and there is a byte for each. -/
theorem counted_spec : opcodes.length ≤ 256 ∧ ∀ p ∈ counted, nextOpcode p.1 + 3 < 256 ∧
    ∀ k < p.2, opcodes[nextOpcode p.1 + k]? = some (p.1.nth k) := by decide +kernel

theorem opcode_form (o : Opcode) :
    ∀ k < o.forms, opcodes[nextOpcode (o.nth 0) + k]? = some ((o.nth 0).nth k) :=
  (counted_spec.2 _ (mem_counted o)).2

theorem opcode_cr (o : Cr) : ∀ k < 4, opcodes[nextOpcode (.cr o 0) + k]? = some (.cr o k) :=
    opcode_form (.cr o 0)

theorem opcode_scr (o : Scr) : ∀ k < 3, opcodes[nextOpcode (.scr o 0) + k]? = some (.scr o k) :=
  opcode_form (.scr o 0)

theorem opcode_branch (float : Bool) (o : Cond) :
    ∀ k < 2, opcodes[nextOpcode (.branch float o 0) + k]? = some (.branch float o k) :=
  opcode_form (.branch float o 0)

theorem opcode_jump (o : Jump) : ∀ k < 2, opcodes[nextOpcode (.jump o 0) + k]? = some (.jump o k) :=
  opcode_form (.jump o 0)

/-- The one of an opcode of one form. -/
theorem opcode_one (o : Opcode) (h : 0 < o.forms) : opcodes[nextOpcode (o.nth 0)]? = some ((o.nth 0).nth 0) :=
  opcode_form o 0 h

theorem opcode_rr (o : Rr) : opcodes[nextOpcode (.rr o)]? = some (.rr o) := opcode_one (.rr o) Nat.one_pos

theorem opcode_shift (o : Shift) : opcodes[nextOpcode (.shift o)]? = some (.shift o) :=
    opcode_one (.shift o) Nat.one_pos

theorem opcode_div (o : Div) : opcodes[nextOpcode (.div o)]? = some (.div o) :=
    opcode_one (.div o) Nat.one_pos

theorem opcode_ir (o : Ir) : opcodes[nextOpcode (.ir o)]? = some (.ir o) := opcode_one (.ir o) Nat.one_pos

theorem opcode_ri (o : Ri) : opcodes[nextOpcode (.ri o)]? = some (.ri o) := opcode_one (.ri o) Nat.one_pos

theorem opcode_rd (o : Rd) : opcodes[nextOpcode (.rd o)]? = some (.rd o) := opcode_one (.rd o) Nat.one_pos

theorem opcode_dr (o : Dr) : opcodes[nextOpcode (.dr o)]? = some (.dr o) := opcode_one (.dr o) Nat.one_pos

theorem opcode_viaR (o : Via) : opcodes[nextOpcode (.viaR o)]? = some (.viaR o) :=
    opcode_one (.viaR o) Nat.one_pos

theorem opcode_viaI (o : Via) : opcodes[nextOpcode (.viaI o)]? = some (.viaI o) :=
    opcode_one (.viaI o) Nat.one_pos

theorem opcode_pr (o : Pr) : opcodes[nextOpcode (.pr o)]? = some (.pr o) := opcode_one (.pr o) Nat.one_pos

theorem opcode_fd : opcodes[nextOpcode .fd]? = some .fd := opcode_one .fd Nat.one_pos

theorem opcode_callAbi : opcodes[nextOpcode .callAbi]? = some .callAbi := opcode_one .callAbi Nat.one_pos

theorem opcode_ret : opcodes[nextOpcode .ret]? = some .ret := opcode_one .ret Nat.one_pos

theorem opcode_sync : opcodes[nextOpcode .sync]? = some .sync := opcode_one .sync Nat.one_pos

theorem opcode_brk : opcodes[nextOpcode .brk]? = some .brk := opcode_one .brk Nat.one_pos

theorem lt_of_opcode {k : ℕ} {o : Opcode} (h : opcodes[k]? = some o) : k < 256 :=
  (List.getElem?_eq_some_iff.mp h).1.trans_le counted_spec.1

/-! ## Shorts -/

section Shorts

variable {o : ℕ} {c : Num} {d s : Reg}

theorem toNat_num (s : Reg) : (num s).toNat = s.val := by
  have hs := s.isLt
  rw [num, BitVec.toNat_ofNat]
  omega

theorem word_spec (ho : o < 256) (d : Reg) (c : Num) :
    (word o (num d) c).toNat % 2 ^ 16 % 256 = o ∧ dr ((word o (num d) c).toNat % 2 ^ 16) = d.val ∧
      sr ((word o (num d) c).toNat % 2 ^ 16) = field c.toNat 0 4 := by
  obtain ⟨hop, hdr, hsr, -⟩ := first_short (o := o) ho d.isLt c
    (toNat_first (p := BitVec.ofNat 64 o) (BitVec.toNat_ofNat .. |>.trans (by omega)) c)
  exact ⟨hop, hdr, hsr⟩

theorem field_num (s : Reg) : field (num s).toNat 0 4 = s.val := by
  have hs := s.isLt
  rw [toNat_num, field]
  omega

theorem num_mod (s : Reg) : (num s).toNat % 2 ^ 16 = s.val := by
  have hs := s.isLt
  rw [toNat_num]
  omega

theorem far_spec (ho : o < 256) (c : Num) :
    (far o c).toNat % 2 ^ 16 % 256 = o ∧ field ((far o c).toNat % 2 ^ 16) 8 8 = c.toNat % 2 ^ 8 := by
  have hfar : (far o c).toNat = (o + c.toNat * 2 ^ 8) % 2 ^ 64 := by
    rw [far, BitVec.toNat_add, BitVec.toNat_shiftLeft, BitVec.toNat_ofNat, Nat.shiftLeft_eq]
    omega
  rw [hfar]
  unfold field
  omega

/-- The low bits of a constant, with their sign, are it just where it fits. -/
theorem ofInt_signed_eq_iff {n : ℕ} (hn : n = 8 ∨ n = 16) :
    BitVec.ofInt 64 (signed n (c.toNat % 2 ^ n)) = c ↔ within c n := by
  have hfield : field c.toNat 0 n = c.toNat % 2 ^ n := by rw [field, pow_zero, Nat.div_one]
  have hbounds := signed_bounds (n := n) (c.toNat % 2 ^ n)
  have hint : (BitVec.ofInt 64 (signed n (c.toNat % 2 ^ n))).toInt = signed n (c.toNat % 2 ^ n) := by
    rw [BitVec.toInt_ofInt]
    rcases hn with rfl | rfl <;> exact Int.bmod_eq_of_le_mul_two (by omega) (by omega)
  constructor
  · intro heq
    have hc : c.toInt = signed n (c.toNat % 2 ^ n) := by
      rw [← hint, heq]
    rcases hn with rfl | rfl <;> exact ⟨by rw [hc]; omega, by rw [hc]; omega⟩
  · intro hwithin
    obtain ⟨hle, hge⟩ := hwithin
    refine BitVec.eq_of_toInt_eq ?_
    rw [hint, ← hfield]
    rcases hn with rfl | rfl <;> exact signed_field (by decide) c (by omega) (by omega)

theorem sx_eq_iff : sx (c.toNat % 2 ^ 16) = c ↔ within c 16 := ofInt_signed_eq_iff (Or.inr rfl)

theorem sc_eq_iff : sc (c.toNat % 2 ^ 16) = c ↔ c.toNat < 2 ^ 16 := by
  constructor
  · intro heq
    rw [← heq, toNat_sc]
    exact Nat.mod_lt _ (by decide)
  · intro hlt
    refine BitVec.eq_of_toNat_eq ?_
    rw [toNat_sc, Nat.mod_eq_of_lt hlt]

theorem o0_eq_iff (ho : o < 256) : o0 ((far o c).toNat % 2 ^ 16) = c ↔ within c 8 := by
  rw [o0, (far_spec ho c).2]
  exact ofInt_signed_eq_iff (Or.inl rfl)

theorem low_add_signed (low h : ℕ) :
    BitVec.ofNat 64 low + (sx h <<< 8) = BitVec.ofInt 64 (low + signed 16 h * 2 ^ 8) := by
  refine BitVec.eq_of_toNat_eq ?_
  rw [sx, BitVec.toNat_add, BitVec.toNat_shiftLeft, BitVec.toNat_ofNat, BitVec.toNat_ofInt,
    BitVec.toNat_ofInt, Nat.shiftLeft_eq]
  omega

theorem o1_eq_iff (ho : o < 256) :
    o1 ((far o c).toNat % 2 ^ 16) ((c.sshiftRight 8).toNat % 2 ^ 16) = c ↔ within c 24 := by
  rw [o1, (far_spec ho c).2]
  constructor
  · intro heq
    have hbounds := signed_bounds (n := 16) ((c.sshiftRight 8).toNat % 2 ^ 16)
    have hint : c.toInt = (c.toNat % 2 ^ 8 : ℕ) + signed 16 ((c.sshiftRight 8).toNat % 2 ^ 16) * 2 ^ 8 := by
      have hread := congrArg BitVec.toInt heq
      rw [low_add_signed, BitVec.toInt_ofInt] at hread
      rw [← hread]
      exact Int.bmod_eq_of_le_mul_two (by omega) (by omega)
    exact ⟨by omega, by omega⟩
  · intro hwithin
    obtain ⟨hle, hge⟩ := hwithin
    have hhigh : sx ((c.sshiftRight 8).toNat % 2 ^ 16) = c.sshiftRight 8 := by
      refine sx_spec ?_ ?_
      all_goals
        rw [toInt_sshiftRight_eq]
        omega
    have hmod := toNat_sshiftRight_mod c (k := 8) (n := 56) rfl
    have hlt := c.isLt
    refine BitVec.eq_of_toNat_eq ?_
    rw [hhigh, BitVec.toNat_add, BitVec.toNat_shiftLeft, BitVec.toNat_ofNat, Nat.shiftLeft_eq]
    omega

end Shorts

/-! ## A turn of the loop -/

section Turn

variable {pc : Num} {w : ℕ} {rest shorts : List ℕ} {o : Opcode} {i : Instr}

theorem decode_cons {k : ℕ} (hop : w % 256 = k) (ho : opcodes[k]? = some o) :
    decode pc (w :: rest) = decodeAt pc w rest o := by
  rw [decode, hop, ho]

theorem decodes_one : decodes 1 pc shorts = (decode pc shorts).map fun p => ([p.1], p.2) := by
  unfold decodes
  cases decode pc shorts <;> rfl

/-- One turn after another. -/
theorem decodes_two (h : decode pc shorts = some (i, rest)) :
    decodes 2 pc shorts =
      (decode (pc + BitVec.ofNat 64 (2 * (shorts.length - rest.length))) rest).map
        fun p => ([i, p.1], p.2) := by
  rw [decodes, h]
  simp only [decodes_one, Option.map_map]
  rfl

end Turn

/-! ## The emit functions -/

/-- What is emitted is taken as the instructions it is to be, and all of it. -/
def Decodes (pass : ℕ) (pc : Num) (e : Emit) : Prop :=
  ∀ shorts, emit pass pc e = .ok shorts →
    ∀ rest, decodes e.means.length pc (shorts ++ rest) = some (e.means, rest)

/-- A distance fits the form that is chosen by the farthest there was. -/
def BranchFits (pass : ℕ) (m l : Num) : Prop :=
  if within (farthest pass m l - 2) 8 then within (l - 2) 8
  else within (farthest pass m l - 4) 24 → within (l - 4) 24

/-- What is not checked fits all the same: the offset of a float, the distance of a branch, the number of
    arguments of a call by the ABI, and what is given to a sync or a brk. -/
def Emit.Fits (pass : ℕ) (pc : Num) : Emit → Prop
  | .ir .f _ c _ => within c 16
  | .ri .f _ _ c => within c 16
  | .branchCr _ c d l m =>
      BranchFits pass m (l - past pc (vp64Cr (nextOpcode (.cr .cmp 0)) c d))
  | .branchRr _ _ _ l m => BranchFits pass m (l - (pc + 2))
  | .branchFf _ _ _ l m => BranchFits pass m (l - (pc + 2))
  | .callAbi _ c n => 0 ≤ c.toInt ∧ c.toInt ≤ 0x10000 - 8 → n.toNat < 16
  | .sync n => within n 8
  | .brk n => n.toNat < 256
  | _ => True

section Emit

variable {pass : ℕ} {pc : Num}

/-- Where the shorts are taken as one instruction, it is the one it is to be or not. -/
theorem decodes_iff {e : Emit} {i j : Instr} {shorts : List ℕ} (hemit : emit pass pc e = .ok shorts)
    (hmeans : e.means = [j]) (hdecode : ∀ rest, decode pc (shorts ++ rest) = some (i, rest)) :
    Decodes pass pc e ↔ i = j := by
  have hall : ∀ rest, decodes e.means.length pc (shorts ++ rest) = some ([i], rest) := by
    intro rest
    rw [hmeans, List.length_singleton, decodes_one, hdecode]
    rfl
  constructor
  · intro h
    have hthere := h shorts hemit []
    rw [hall, hmeans] at hthere
    exact (List.cons.inj (Prod.mk.inj (Option.some.inj hthere)).1).1
  · rintro rfl shorts' hemit' rest
    obtain rfl := Except.ok.inj (hemit.symm.trans hemit')
    rw [hall, hmeans]

/-- Nothing is emitted of what leaves everything as it is. -/
theorem decodes_idle {e : Emit} (hemit : emit pass pc e = .ok []) (hmeans : e.means = []) :
    Decodes pass pc e := by
  intro shorts h rest
  obtain rfl := Except.ok.inj (hemit.symm.trans h)
  rw [hmeans]
  rfl

theorem decodes_throws {e : Emit} {t : Thrown} (hemit : emit pass pc e = .error t) : Decodes pass pc e := by
  intro shorts h
  rw [hemit] at h
  exact absurd h (by simp)

theorem decodes_cr (o : Cr) (c : Num) (r : Reg) : Decodes pass pc (.cr o c r) := by
  by_cases hidle : o.idle = some c
  · exact decodes_idle (by rw [emit, if_pos hidle]) (by rw [Emit.means, if_pos hidle])
  · obtain ⟨form, w, rest, hw, hform, -, hop, hdr, hc⟩ :=
      vp64Cr_spec (o := nextOpcode (.cr o 0)) (lt_of_opcode (opcode_cr o 3 (by decide))) c r.isLt
    refine (decodes_iff (i := .cr o c r) (by rw [emit, if_neg hidle]) (by rw [Emit.means, if_neg hidle])
      fun more => ?_).mpr rfl
    rw [hw, List.cons_append, decode_cons hop (opcode_cr o form hform), decodeAt, hc, Option.map_some, hdr]

theorem word_add (o k : ℕ) (d c : Num) :
    word (o + k) d c = BitVec.ofNat 64 o + BitVec.ofNat 64 k + (d <<< 8) + (c <<< 12) := by
  rw [word, BitVec.ofNat_add]

/-- The set operations write as the others do, what they write. -/
theorem vp64Scr_eq (o : ℕ) (c : Num) (d : Reg) :
    vp64Scr o c d = if within c 36 then .ok (vp64Cr o c d) else .error .scr := by
  by_cases h36 : within c 36
  · rw [if_pos h36]
    unfold vp64Scr vp64Cr
    by_cases h20 : within c 20
    · by_cases h4 : within c 4
      · rw [if_pos h4, if_pos h4]
        rfl
      · rw [if_neg h4, if_neg h4, if_pos h20, if_pos h20, word_add]
        rfl
    · have h4 : ¬ within c 4 := fun h => h20 ⟨by have := h.1; omega, by have := h.2; omega⟩
      rw [if_neg h4, if_neg h4, if_neg h20, if_neg h20, if_pos h36, if_pos h36, word_add]
      rfl
  · have h20 : ¬ within c 20 := fun h => h36 ⟨by have := h.1; omega, by have := h.2; omega⟩
    have h4 : ¬ within c 4 := fun h => h36 ⟨by have := h.1; omega, by have := h.2; omega⟩
    rw [vp64Scr, if_neg h4, if_neg h20, if_neg h36, if_neg h36]

theorem decodes_scr (o : Scr) (c : Num) (d : Reg) : Decodes pass pc (.scr o c d) := by
  have hemit : emit pass pc (.scr o c d) = _ := vp64Scr_eq (nextOpcode (.scr o 0)) c d
  by_cases h36 : within c 36
  · rw [if_pos h36] at hemit
    obtain ⟨form, w, rest, hw, -, hform, hop, hdr, hc⟩ :=
      vp64Cr_spec (o := nextOpcode (.scr o 0)) (counted_spec.2 _ (mem_counted (.scr o 0))).1 c d.isLt
    refine (decodes_iff (i := .scr o c d) hemit rfl fun more => ?_).mpr rfl
    rw [hw, List.cons_append, decode_cons hop (opcode_scr o form (hform h36)), decodeAt, hc, Option.map_some,
      hdr]
  · rw [if_neg h36] at hemit
    exact decodes_throws hemit

theorem decodes_rr (o : Rr) (s d : Reg) : Decodes pass pc (.rr o s d) := by
  by_cases hidle : o.idle = true ∧ s = d
  · exact decodes_idle (by rw [emit, if_pos hidle]) (by rw [Emit.means, if_pos hidle])
  · obtain ⟨hop, hdr, hsr⟩ := word_spec (lt_of_opcode (opcode_rr o)) d (num s)
    refine (decodes_iff (i := .rr o s d) (by rw [emit, if_neg hidle]) (by rw [Emit.means, if_neg hidle])
      fun more => ?_).mpr rfl
    rw [emitmShort, List.map_singleton, List.singleton_append, decode_cons hop (opcode_rr o), decodeAt, hdr,
      hsr, field_num]

/-- An opcode with two registers, and one short after it. -/
theorem decode_word {o : ℕ} {op : Opcode} (ho : opcodes[o]? = some op) (d : Reg) (s c : Num)
    (rest : List ℕ) : decode pc (emitmShort [word o (num d) s, c] ++ rest) =
      decodeAt pc ((word o (num d) s).toNat % 2 ^ 16) (c.toNat % 2 ^ 16 :: rest) op :=
  decode_cons (word_spec (lt_of_opcode ho) d s).1 ho

theorem decodes_shift (o : Shift) (c : Num) (r : Reg) : Decodes pass pc (.shift o c r) := by
  by_cases hzero : c = 0
  · exact decodes_idle (by rw [emit, vp64ShiftCr, if_pos hzero]) (by rw [Emit.means, if_pos hzero])
  · by_cases hrange : 1 ≤ c.toInt ∧ c.toInt ≤ 63
    · have hc : sc (c.toNat % 2 ^ 16) = c := sc_eq_iff.mpr (by have := toInt_cases c; omega)
      refine (decodes_iff (i := .shift o c r) (by rw [emit, vp64ShiftCr, if_neg hzero, if_pos hrange])
        (by rw [Emit.means, if_neg hzero]) fun more => ?_).mpr rfl
      rw [decode_word (opcode_shift o), decodeAt, nextShort, Option.map_some, hc,
        (word_spec (lt_of_opcode (opcode_shift o)) r 0).2.1]
    · exact decodes_throws (t := .shiftCr) (by rw [emit, vp64ShiftCr, if_neg hzero, if_neg hrange])

theorem decodes_div (o : Div) (s d2 d1 : Reg) : Decodes pass pc (.div o s d2 d1) := by
  refine (decodes_iff (i := .div o s d2 d1) rfl rfl fun more => ?_).mpr rfl
  obtain ⟨-, hdr, hsr⟩ := word_spec (lt_of_opcode (opcode_div o)) d1 (num d2)
  rw [decode_word (opcode_div o), decodeAt, nextShort, Option.map_some, hdr, hsr, field_num, num_mod]

/-- From memory at an offset, which is read back with its sign. -/
theorem decode_ir (o : Ir) (s : Reg) (c : Num) (d : Reg) (rest : List ℕ) :
    decode pc (emitmShort [word (nextOpcode (.ir o)) (num d) (num s), c] ++ rest) =
      some (.ir o s (sx (c.toNat % 2 ^ 16)) d, rest) := by
  obtain ⟨-, hdr, hsr⟩ := word_spec (lt_of_opcode (opcode_ir o)) d (num s)
  rw [decode_word (opcode_ir o), decodeAt, nextShort, Option.map_some, hdr, hsr, field_num]

theorem decode_ri (o : Ri) (s d : Reg) (c : Num) (rest : List ℕ) :
    decode pc (emitmShort [word (nextOpcode (.ri o)) (num d) (num s), c] ++ rest) =
      some (.ri o s d (sx (c.toNat % 2 ^ 16)), rest) := by
  obtain ⟨-, hdr, hsr⟩ := word_spec (lt_of_opcode (opcode_ri o)) d (num s)
  rw [decode_word (opcode_ri o), decodeAt, nextShort, Option.map_some, hdr, hsr, field_num]

theorem decodes_ir (o : Ir) (s : Reg) (c : Num) (d : Reg) :
    Decodes pass pc (.ir o s c d) ↔ (Emit.ir o s c d).Fits pass pc := by
  by_cases hfloat : o = .f
  · subst hfloat
    rw [decodes_iff (e := .ir .f s c d) rfl rfl (decode_ir .f s c d)]
    refine Iff.trans ⟨fun h => ?_, fun h => ?_⟩ sx_eq_iff
    · exact (Instr.ir.inj h).2.2.1
    · rw [h]
  · have hemit : emit pass pc (.ir o s c d) = vp64Ir (nextOpcode (.ir o)) s c d := by
      cases o <;> first | exact absurd rfl hfloat | rfl
    have hfits : (Emit.ir o s c d).Fits pass pc := by
      cases o <;> trivial
    refine iff_of_true ?_ hfits
    by_cases h16 : within c 16
    · refine (decodes_iff (hemit.trans (if_pos h16)) rfl (decode_ir o s c d)).mpr ?_
      rw [sx_eq_iff.mpr h16]
    · exact decodes_throws (hemit.trans (if_neg h16))

theorem decodes_ri (o : Ri) (s d : Reg) (c : Num) :
    Decodes pass pc (.ri o s d c) ↔ (Emit.ri o s d c).Fits pass pc := by
  by_cases hfloat : o = .f
  · subst hfloat
    rw [decodes_iff (e := .ri .f s d c) rfl rfl (decode_ri .f s d c)]
    refine Iff.trans ⟨fun h => ?_, fun h => ?_⟩ sx_eq_iff
    · exact (Instr.ri.inj h).2.2.2
    · rw [h]
  · have hemit : emit pass pc (.ri o s d c) = vp64Ri (nextOpcode (.ri o)) s d c := by
      cases o <;> first | exact absurd rfl hfloat | rfl
    have hfits : (Emit.ri o s d c).Fits pass pc := by
      cases o <;> trivial
    refine iff_of_true ?_ hfits
    by_cases h16 : within c 16
    · refine (decodes_iff (hemit.trans (if_pos h16)) rfl (decode_ri o s d c)).mpr ?_
      rw [sx_eq_iff.mpr h16]
    · exact decodes_throws (hemit.trans (if_neg h16))

theorem decodes_rd (o : Rd) (s b i : Reg) : Decodes pass pc (.rd o s b i) := by
  have hread : ∀ d1 d2 : Reg, ∀ rest, decode pc (vp64Rd (nextOpcode (.rd o)) s d1 d2 ++ rest) =
      some (.rd o s s(d1.val, d2.val), rest) := by
    intro d1 d2 rest
    obtain ⟨-, hdr, hsr⟩ := word_spec (lt_of_opcode (opcode_rd o)) d1 (num d2)
    rw [vp64Rd, decode_word (opcode_rd o), decodeAt, nextShort, Option.map_some, hdr, hsr, field_num, num_mod]
  by_cases hlong : o = .l
  · subst hlong
    exact (decodes_iff rfl rfl (hread b i)).mpr rfl
  · have hemit : emit pass pc (.rd o s b i) = .ok (vp64Rd (nextOpcode (.rd o)) s i b) := by
      cases o <;> first | exact absurd rfl hlong | rfl
    refine (decodes_iff hemit rfl (hread i b)).mpr ?_
    rw [Sym2.eq_swap]

theorem decodes_dr (o : Dr) (b i d : Reg) : Decodes pass pc (.dr o b i d) := by
  refine (decodes_iff (i := .dr o s(b.val, i.val) d) rfl rfl fun more => ?_).mpr rfl
  obtain ⟨-, hdr, hsr⟩ := word_spec (lt_of_opcode (opcode_dr o)) d (num b)
  rw [vp64Dr, decode_word (opcode_dr o), decodeAt, nextShort, Option.map_some, hdr, hsr, field_num, num_mod]

theorem decodes_fd (s b i : Reg) : Decodes pass pc (.fd s b i) := by
  refine (decodes_iff (i := .fd s s(b.val, i.val)) rfl rfl fun more => ?_).mpr rfl
  obtain ⟨-, hdr, hsr⟩ := word_spec (lt_of_opcode opcode_fd) s (num b)
  rw [vp64Dr, decode_word opcode_fd, decodeAt, nextShort, Option.map_some, hdr, hsr, field_num, num_mod]

/-- A distance from after an instruction of so many bytes is that to a place just where the place is there. -/
theorem target_eq_iff {l n d : Num} : pc + n + d = l ↔ d = l - pc - n := by
  constructor <;> intro h <;> bv_omega

/-- A distance in the short of its opcode. -/
theorem decode_near {o : ℕ} {op : Opcode} (ho : opcodes[o]? = some op) (c : Num) (rest : List ℕ) :
    decode pc (emitmShort [far o c] ++ rest) = decodeAt pc ((far o c).toNat % 2 ^ 16) rest op :=
  decode_cons (far_spec (lt_of_opcode ho) c).1 ho

/-- A distance that goes on in the next short. -/
theorem decode_far {o : ℕ} {op : Opcode} (ho : opcodes[o]? = some op) (c h : Num) (rest : List ℕ) :
    decode pc (emitmShort [far o c, h] ++ rest) =
      decodeAt pc ((far o c).toNat % 2 ^ 16) (h.toNat % 2 ^ 16 :: rest) op :=
  decode_cons (far_spec (lt_of_opcode ho) c).1 ho

section Label

variable {ir i : ℕ} {rest : List ℕ}

theorem decodeAt_branch_near (float : Bool) (o : Cond) :
    decodeAt pc ir rest (.branch float o 0) = some (.branch float o (pc + 2 + o0 ir), rest) := rfl

theorem decodeAt_branch_far (float : Bool) (o : Cond) :
    decodeAt pc ir (i :: rest) (.branch float o 1) = some (.branch float o (pc + 4 + o1 ir i), rest) := rfl

theorem decodeAt_jump_near (o : Jump) :
    decodeAt pc ir rest (.jump o 0) = some (.jump o (pc + 2 + o0 ir), rest) := rfl

theorem decodeAt_jump_far (o : Jump) :
    decodeAt pc ir (i :: rest) (.jump o 1) = some (.jump o (pc + 4 + o1 ir i), rest) := rfl

end Label

/-- A branch is taken as one, and to its label just where the distance fits. -/
theorem vp64Branch_spec (float : Bool) (o : Cond) (m l : Num) {shorts : List ℕ}
    (h : vp64Branch (nextOpcode (.branch float o 0)) pass m pc l = .ok shorts) :
    ∃ target, (∀ rest, decode pc (shorts ++ rest) = some (.branch float o target, rest)) ∧
      (target = l ↔ BranchFits pass m (l - pc)) := by
  have hnear := opcode_branch float o 0 (by decide)
  have hfar := opcode_branch float o 1 (by decide)
  rw [Nat.add_zero] at hnear
  generalize nextOpcode (.branch float o 0) = first at h hnear hfar
  unfold vp64Branch at h
  simp only at h
  unfold BranchFits
  by_cases h8 : within (farthest pass m (l - pc) - 2) 8
  · rw [if_pos h8] at h
    obtain rfl := Except.ok.inj h
    refine ⟨_, fun rest => (decode_near hnear _ rest).trans (decodeAt_branch_near float o), ?_⟩
    rw [if_pos h8, target_eq_iff, o0_eq_iff (lt_of_opcode hnear)]
  · rw [if_neg h8] at h
    split_ifs at h with h24
    obtain rfl := Except.ok.inj h
    refine ⟨_, fun rest => (decode_far hfar _ _ rest).trans (decodeAt_branch_far float o), ?_⟩
    rw [if_neg h8, target_eq_iff, o1_eq_iff (lt_of_opcode hfar)]
    exact ⟨fun h _ => h, fun h => h h24⟩

theorem branchFits_of_throws {o : ℕ} {m l : Num} {t : Thrown} (h : vp64Branch o pass m pc l = .error t) :
    BranchFits pass m (l - pc) := by
  unfold vp64Branch at h
  simp only at h
  unfold BranchFits
  split_ifs at h with h8 h24
  rw [if_neg h8]
  exact fun h => absurd h h24

/-- A compare and a branch. -/
theorem decodes_branch {e : Emit} {float : Bool} {o : Cond} {m l : Num} {cmp : List ℕ} {i : Instr}
    (hcmp : ∀ rest, decode pc (cmp ++ rest) = some (i, rest))
    (hemit : emit pass pc e = emitBranch float o pass m pc l cmp)
    (hmeans : e.means = [i, .branch float o l]) :
    Decodes pass pc e ↔ BranchFits pass m (l - past pc cmp) := by
  unfold emitBranch at hemit
  cases hbranch : vp64Branch (nextOpcode (.branch float o 0)) pass m (past pc cmp) l with
  | error t =>
      rw [hbranch] at hemit
      exact iff_of_true (decodes_throws hemit) (branchFits_of_throws hbranch)
  | ok shorts =>
      rw [hbranch] at hemit
      obtain ⟨target, hdecode, hfits⟩ := vp64Branch_spec float o m l hbranch
      have hall : ∀ rest, decodes e.means.length pc ((cmp ++ shorts) ++ rest) =
          some ([i, .branch float o target], rest) := by
        intro rest
        have hlen : (cmp ++ (shorts ++ rest)).length - (shorts ++ rest).length = cmp.length := by
          rw [List.length_append]
          omega
        rw [hmeans, List.length_cons, List.length_singleton, List.append_assoc, decodes_two (hcmp _), hlen]
        exact congrArg _ (hdecode rest)
      rw [← hfits]
      constructor
      · intro h
        have hthere := h (cmp ++ shorts) hemit []
        rw [hall, hmeans] at hthere
        have hlist := (Prod.mk.inj (Option.some.inj hthere)).1
        exact (Instr.branch.inj (List.cons.inj (List.cons.inj hlist).2).1).2.2
      · rintro rfl shorts' hemit' rest
        obtain rfl := Except.ok.inj (hemit.symm.trans hemit')
        rw [hall, hmeans]

theorem decode_cmpCr (c : Num) (d : Reg) (rest : List ℕ) :
    decode pc (vp64Cr (nextOpcode (.cr .cmp 0)) c d ++ rest) = some (.cr .cmp c d, rest) := by
  obtain ⟨form, w, more, hw, hform, -, hop, hdr, hc⟩ :=
    vp64Cr_spec (o := nextOpcode (.cr .cmp 0)) (lt_of_opcode (opcode_cr .cmp 3 (by decide))) c d.isLt
  rw [hw, List.cons_append, decode_cons hop (opcode_cr .cmp form hform), decodeAt, hc, Option.map_some, hdr]

theorem decode_rr (o : Rr) (s d : Reg) (rest : List ℕ) :
    decode pc (emitmShort [word (nextOpcode (.rr o)) (num d) (num s)] ++ rest) = some (.rr o s d, rest) := by
  obtain ⟨hop, hdr, hsr⟩ := word_spec (lt_of_opcode (opcode_rr o)) d (num s)
  rw [emitmShort, List.map_singleton, List.singleton_append, decode_cons hop (opcode_rr o),
    decodeAt, hdr, hsr, field_num]

theorem past_one (pc c : Num) : past pc (emitmShort [c]) = pc + 2 := rfl

theorem decodes_branchRr (o : Cond) (s d : Reg) (l m : Num) :
    Decodes pass pc (.branchRr o s d l m) ↔ BranchFits pass m (l - (pc + 2)) := by
  rw [← past_one pc (word (nextOpcode (.rr .cmp)) (num d) (num s))]
  exact decodes_branch (decode_rr .cmp s d) (by rw [emit]) (by rw [Emit.means])

theorem decodes_branchFf (o : Cond) (s d : Reg) (l m : Num) :
    Decodes pass pc (.branchFf o s d l m) ↔ BranchFits pass m (l - (pc + 2)) := by
  rw [← past_one pc (word (nextOpcode (.rr .cmpF)) (num d) (num s))]
  exact decodes_branch (decode_rr .cmpF s d) (by rw [emit]) (by rw [Emit.means])

theorem decodes_jump (o : Jump) (l : Num) : Decodes pass pc (.jump o l) := by
  have hnear := opcode_jump o 0 (by decide)
  have hfar := opcode_jump o 1 (by decide)
  have hemit : emit pass pc (.jump o l) = vp64CallJmpP (nextOpcode (.jump o 0)) pc l := by rw [emit]
  rw [Nat.add_zero] at hnear
  generalize nextOpcode (.jump o 0) = first at hemit hnear hfar
  unfold vp64CallJmpP at hemit
  by_cases h8 : within (l - pc - 2) 8
  · rw [if_pos h8] at hemit
    refine (decodes_iff hemit rfl fun rest =>
      (decode_near hnear _ rest).trans (decodeAt_jump_near o)).mpr ?_
    rw [target_eq_iff.mpr ((o0_eq_iff (lt_of_opcode hnear)).mpr h8)]
  · rw [if_neg h8] at hemit
    by_cases h24 : within (l - pc - 4) 24
    · rw [if_pos h24] at hemit
      refine (decodes_iff hemit rfl fun rest =>
        (decode_far hfar _ _ rest).trans (decodeAt_jump_far o)).mpr ?_
      rw [target_eq_iff.mpr ((o1_eq_iff (lt_of_opcode hfar)).mpr h24)]
    · exact decodes_throws (hemit.trans (if_neg h24))

theorem decodes_viaR (o : Via) (r : Reg) : Decodes pass pc (.viaR o r) := by
  obtain ⟨hop, hdr, -⟩ := word_spec (lt_of_opcode (opcode_viaR o)) r 0
  refine (decodes_iff (i := .viaR o r) rfl rfl fun rest => ?_).mpr rfl
  rw [emitmShort, List.map_singleton, List.singleton_append, decode_cons hop (opcode_viaR o), decodeAt, hdr]

/-- A constant that goes on in the next short. -/
theorem c1_word {o : ℕ} {r : Reg} {c : Num} (ho : o < 256) (h20 : within c 20) :
    c1 ((word o (num r) c).toNat % 2 ^ 16) ((c.sshiftRight 4).toNat % 2 ^ 16) = c :=
  c1_spec h20 (word_spec ho r c).2.2

theorem decodes_viaI (o : Via) (r : Reg) (c : Num) : Decodes pass pc (.viaI o r c) := by
  by_cases h20 : within c 20
  · refine (decodes_iff (e := .viaI o r c) (i := .viaI o r c) (if_pos h20) rfl fun rest => ?_).mpr rfl
    rw [decode_word (opcode_viaI o), decodeAt, nextShort, Option.map_some,
      c1_word (lt_of_opcode (opcode_viaI o)) h20, (word_spec (lt_of_opcode (opcode_viaI o)) r c).2.1]
  · exact decodes_throws (t := .callJmpI) (if_neg h20)

theorem decodes_pr (o : Pr) (l : Num) (r : Reg) : Decodes pass pc (.pr o l r) := by
  by_cases h20 : within (l - pc - 4) 20
  · refine (decodes_iff (e := .pr o l r) (i := .pr o l r) (if_pos h20) rfl fun rest => ?_).mpr rfl
    rw [decode_word (opcode_pr o), decodeAt, nextShort, Option.map_some,
      c1_word (lt_of_opcode (opcode_pr o)) h20, (word_spec (lt_of_opcode (opcode_pr o)) r _).2.1,
      target_eq_iff.mpr rfl]
  · exact decodes_throws (t := .p) (if_neg h20)

theorem decodes_callAbi (b : Reg) (c n : Num) :
    Decodes pass pc (.callAbi b c n) ↔ (Emit.callAbi b c n).Fits pass pc := by
  by_cases hrange : 0 ≤ c.toInt ∧ c.toInt ≤ 0x10000 - 8
  · have hc : sc (c.toNat % 2 ^ 16) = c := sc_eq_iff.mpr (by have := toInt_cases c; omega)
    have hdecode : ∀ rest, decode pc (emitmShort [word (nextOpcode .callAbi) (num b) n, c] ++ rest) =
        some (.callAbi (field n.toNat 0 4) b c, rest) := by
      intro rest
      obtain ⟨-, hdr, hsr⟩ := word_spec (lt_of_opcode opcode_callAbi) b n
      rw [decode_word opcode_callAbi, decodeAt, nextShort, Option.map_some, hdr, hsr, hc]
    rw [decodes_iff (e := .callAbi b c n) (if_pos hrange) rfl hdecode]
    refine ⟨fun h _ => ?_, fun h => ?_⟩
    · rw [← (Instr.callAbi.inj h).1]
      exact field_lt ..
    · rw [field, pow_zero, Nat.div_one, Nat.mod_eq_of_lt (show n.toNat < 2 ^ 4 from h hrange)]
  · exact iff_of_true (decodes_throws (t := .callAbi) (if_neg hrange)) fun h => absurd h hrange

theorem decodes_ret : Decodes pass pc .ret := by
  refine (decodes_iff (i := .ret) rfl rfl fun rest => ?_).mpr rfl
  have hlt := lt_of_opcode opcode_ret
  refine decode_cons (k := nextOpcode .ret) ?_ opcode_ret
  generalize nextOpcode .ret = k at hlt ⊢
  simp only [BitVec.toNat_ofNat]
  omega

theorem decodes_sync (n : Num) : Decodes pass pc (.sync n) ↔ within n 8 := by
  rw [decodes_iff (e := .sync n) rfl rfl (decode_near opcode_sync n), ←
    ofInt_signed_eq_iff (n := 8) (Or.inl rfl), ← (far_spec (lt_of_opcode opcode_sync) n).2]
  exact ⟨fun h => Instr.sync.inj h, fun h => congrArg Instr.sync h⟩

theorem decodes_brk (n : Num) : Decodes pass pc (.brk n) ↔ n.toNat < 256 := by
  rw [decodes_iff (e := .brk n) rfl rfl (decode_near opcode_brk n)]
  refine ⟨fun h => ?_, fun h => ?_⟩
  · rw [← Instr.brk.inj h, (far_spec (lt_of_opcode opcode_brk) n).2, BitVec.toNat_ofNat]
    omega
  · refine congrArg Instr.brk (BitVec.eq_of_toNat_eq ?_)
    rw [(far_spec (lt_of_opcode opcode_brk) n).2, BitVec.toNat_ofNat]
    omega

/-- What is emitted is taken as it is to be just where what is not checked fits. -/
theorem decodes_iff_fits (pass : ℕ) (pc : Num) (e : Emit) : Decodes pass pc e ↔ e.Fits pass pc := by
  cases e with
  | cr o c r => exact iff_of_true (decodes_cr o c r) trivial
  | scr o c d => exact iff_of_true (decodes_scr o c d) trivial
  | rr o s d => exact iff_of_true (decodes_rr o s d) trivial
  | shift o c r => exact iff_of_true (decodes_shift o c r) trivial
  | div o s d2 d1 => exact iff_of_true (decodes_div o s d2 d1) trivial
  | ir o s c d => exact decodes_ir o s c d
  | ri o s d c => exact decodes_ri o s d c
  | rd o s b i => exact iff_of_true (decodes_rd o s b i) trivial
  | dr o b i d => exact iff_of_true (decodes_dr o b i d) trivial
  | fd s b i => exact iff_of_true (decodes_fd s b i) trivial
  | branchCr o c d l m => exact decodes_branch (decode_cmpCr c d) (by rw [emit]) (by rw [Emit.means])
  | branchRr o s d l m => exact decodes_branchRr o s d l m
  | branchFf o s d l m => exact decodes_branchFf o s d l m
  | jump o l => exact iff_of_true (decodes_jump o l) trivial
  | viaR o r => exact iff_of_true (decodes_viaR o r) trivial
  | viaI o r c => exact iff_of_true (decodes_viaI o r c) trivial
  | pr o l r => exact iff_of_true (decodes_pr o l r) trivial
  | callAbi b c n => exact decodes_callAbi b c n
  | ret => exact iff_of_true decodes_ret trivial
  | sync n => exact decodes_sync n
  | brk n => exact decodes_brk n

end Emit

/-- A float from 40000 bytes on is taken as one from 25536 bytes before. -/
theorem cpyIf_wraps : ¬ Decodes 1 0 (.ir .f 1 40000 2) := by
  intro h
  have hthere := h (emitmShort [word (nextOpcode (.ir .f)) (num 2) (num 1), 40000]) rfl []
  exact absurd hthere (by decide +kernel)

end ChrysaLisp.Trans.Vp64
