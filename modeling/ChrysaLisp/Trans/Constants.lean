import ChrysaLisp.Trans.Limm
import ChrysaLisp.Trans.Riscv64
import ChrysaLisp.Trans.Vp64
import ChrysaLisp.Trans.X64

set_option autoImplicit false

/-! # Constants on every CPU

The registers of the VP, which of its own each CPU has for them (`+emit_native_regs`), and the copy of a
constant to them. -/

namespace ChrysaLisp.Trans

inductive Reg
  | r0 | r1 | r2 | r3 | r4 | r5 | r6 | r7 | r8 | r9 | r10 | r11 | r12 | r13 | r14 | rsp
  deriving DecidableEq

namespace Reg

def arm64 : Reg → ℕ
  | r0 => 0 | r1 => 1 | r2 => 2 | r3 => 3 | r4 => 4 | r5 => 5 | r6 => 6 | r7 => 7
  | r8 => 19 | r9 => 20 | r10 => 21 | r11 => 22 | r12 => 23 | r13 => 24 | r14 => 25
  | rsp => 28

def x64 : Reg → ℕ
  | r0 => 0 | r1 => 1 | r2 => 2 | r3 => 3 | rsp => 4 | r4 => 5 | r5 => 6 | r6 => 7
  | r7 => 8 | r8 => 9 | r9 => 10 | r10 => 11 | r11 => 12 | r12 => 13 | r13 => 14 | r14 => 15

def riscv64 : Reg → ℕ
  | rsp => 2
  | r0 => 10 | r1 => 11 | r2 => 12 | r3 => 13 | r4 => 14 | r5 => 15 | r6 => 16 | r7 => 17
  | r8 => 18 | r9 => 19 | r10 => 20 | r11 => 21 | r12 => 22 | r13 => 23 | r14 => 24

def vp64 : Reg → ℕ
  | r0 => 0 | r1 => 1 | r2 => 2 | r3 => 3 | r4 => 4 | r5 => 5 | r6 => 6 | r7 => 7
  | r8 => 8 | r9 => 9 | r10 => 10 | r11 => 11 | r12 => 12 | r13 => 13 | r14 => 14 | rsp => 15

/-- No register of the VP is one a CPU keeps for itself. -/
theorem native_spec (r : Reg) :
    r.arm64 < 31 ∧ r.x64 < 16 ∧ (r.riscv64 < 2 ^ 5 ∧ r.riscv64 ≠ 0 ∧ r.riscv64 ≠ Riscv64.rtmp2) ∧
      r.vp64 < 16 := by
  cases r <;> decide

end Reg

/-- A constant is in the register after, whatever it is, and the bytes a minimum or a maximum jumps over
    are those of the copy. -/
theorem constants_exact (c : Num) (r : Reg) :
    (∀ st, Arm64.run (Arm64.emitCpyCr c r.arm64) st = some (st.set r.arm64 c)) ∧
      (∀ regs rest, ∃ bs, X64.emitCpyCr c r.x64 = .ok bs ∧
        X64.step (bs ++ rest) regs = some (Function.update regs r.x64 c, rest)) ∧
      (∀ regs, ∃ ws regs', Riscv64.emitCpyCr c r.riscv64 = .ok ws ∧ Riscv64.run ws regs = some regs' ∧
        regs' r.riscv64 = c ∧ ∀ x, x ≠ r.riscv64 → x ≠ Riscv64.rtmp2 → regs' x = regs x) ∧
      (∀ regs pc, Vp64.step (Vp64.emitCpyCr c r.vp64 ++ pc) regs =
        some (Function.update regs r.vp64 c, pc)) ∧
      (Arm64.arm64Limm c = -1 ∨
        Arm64.decodeBitMask (Fields.field (Arm64.arm64Limm c).toNat 12 1)
          (Fields.field (Arm64.arm64Limm c).toNat 6 6) (Fields.field (Arm64.arm64Limm c).toNat 0 6) =
            some c) ∧
      (∀ bs, X64.emitMinCr c r.x64 = .ok bs → ∃ cmp cpy, X64.x64CmpCr c r.x64 = .ok cmp ∧
        X64.emitCpyCr c r.x64 = .ok cpy ∧ bs = cmp ++ [0x7e, cpy.length] ++ cpy) ∧
      (∀ bs, X64.emitMaxCr c r.x64 = .ok bs → ∃ cmp cpy, X64.x64CmpCr c r.x64 = .ok cmp ∧
        X64.emitCpyCr c r.x64 = .ok cpy ∧ bs = cmp ++ [0x7d, cpy.length] ++ cpy) := by
  obtain ⟨harm, hx64, ⟨hr, hr0, hr2⟩, hvp⟩ := r.native_spec
  refine ⟨fun st => Arm64.run_emitCpyCr c harm st, fun regs rest => ?_,
    fun regs => Riscv64.run_emitCpyCr c hr hr0 hr2 regs, fun regs pc => Vp64.step_emitCpyCr c hvp regs pc, ?_,
    fun bs h => X64.x64Bound_skip hx64 h, fun bs h => X64.x64Bound_skip hx64 h⟩
  · obtain ⟨bs, hbs, -, hstep⟩ := X64.step_emitCpyCr c hx64 regs rest
    exact ⟨bs, hbs, hstep⟩
  · by_cases h : Arm64.arm64Limm c = -1
    · exact Or.inl h
    · exact Or.inr (Arm64.arm64Limm_spec c h).2

end ChrysaLisp.Trans
