import ChrysaLisp.Trans.Emit

set_option autoImplicit false

/-! # VP64

The instructions `lib/trans/vp64.inc` copies a constant with, and what `src/host/vp64.cpp` does with them.
There are four, by how many shorts the constant takes. -/

namespace ChrysaLisp.Trans.Vp64

open Fields

/-- `vd_c0`: what is above the register. -/
def c0 (ir : ℕ) : Num := (BitVec.ofInt 64 (signed 16 ir)).sshiftRight 12

def sr (ir : ℕ) : ℕ := field ir 12 4

def dr (ir : ℕ) : ℕ := field ir 8 4

/-- `vd_sc` -/
def sc (i : ℕ) : Num := BitVec.ofNat 64 i

/-- `vd_i` -/
def sx (i : ℕ) : Num := BitVec.ofInt 64 (signed 16 i)

def c1 (ir i : ℕ) : Num := BitVec.ofNat 64 (sr ir) ||| (sx i <<< 4)

def c2 (ir o i : ℕ) : Num := BitVec.ofNat 64 (sr ir) ||| (sc o <<< 4) ||| (sx i <<< 20)

def c3 (o0 o1 o2 i : ℕ) : Num := sc o0 ||| (sc o1 <<< 16) ||| (sc o2 <<< 32) ||| (sx i <<< 48)

/-- The constant that comes with an opcode, and what follows it. -/
def fetch (ir : ℕ) (pc : List ℕ) : Option (Num × List ℕ) :=
  match ir % 256, pc with
  | 0, pc => some (c0 ir, pc)
  | 1, i :: pc => some (c1 ir i, pc)
  | 2, o :: i :: pc => some (c2 ir o i, pc)
  | 3, o0 :: o1 :: o2 :: i :: pc => some (c3 o0 o1 o2 i, pc)
  | _, _ => none

/-- One turn of the loop of `vp64`, at the copy of a constant. -/
def step : List ℕ → Regs → Option (Regs × List ℕ)
  | [], _ => none
  | ir :: pc, regs => (fetch ir pc).map fun p => (Function.update regs (dr ir) p.1, p.2)

/-! ## What is emitted -/

/-- `vp64-within` -/
def within (c : Num) (n : ℕ) : Prop := -2 ^ (n - 1) ≤ c.toInt ∧ c.toInt ≤ 2 ^ (n - 1) - 1

instance (c : Num) (n : ℕ) : Decidable (within c n) := inferInstanceAs (Decidable (_ ∧ _))

def vp64Cr (o : ℕ) (c : Num) (r : ℕ) : List ℕ :=
  let o' := BitVec.ofNat 64 o
  let r := BitVec.ofNat 64 r
  if within c 4 then emitmShort [o' + (r <<< 8) + (c <<< 12)]
  else if within c 20 then emitmShort [o' + 1 + (r <<< 8) + (c <<< 12), c.sshiftRight 4]
  else if within c 36 then
    emitmShort [o' + 2 + (r <<< 8) + (c <<< 12), c.sshiftRight 4, c.sshiftRight 20]
  else
    emitmShort [o' + 3 + (r <<< 8), c, c.sshiftRight 16, c.sshiftRight 32, c.sshiftRight 48]

/-- `emit-cpy-cr`, of the first four opcodes. -/
def emitCpyCr (c : Num) (r : ℕ) : List ℕ := vp64Cr 0 c r

/-! ## Shorts -/

section Shorts

variable {c : Num} {o r : ℕ}

/-- The first short: the opcode, the register and the low bits of the constant. -/
theorem first_short (ho : o < 256) (hr : r < 16) (c : Num) {x : Num}
    (hx : x.toNat = (o + r * 2 ^ 8 + c.toNat * 2 ^ 12) % 2 ^ 64) :
    x.toNat % 2 ^ 16 % 256 = o ∧ dr (x.toNat % 2 ^ 16) = r ∧
      sr (x.toNat % 2 ^ 16) = field c.toNat 0 4 ∧
      x.toNat % 2 ^ 16 = o + r * 2 ^ 8 + field c.toNat 0 4 * 2 ^ 12 := by
  rw [hx]
  unfold dr sr field
  omega

theorem toNat_opcode {p : Num} (hp : p.toNat = o) :
    (p + (BitVec.ofNat 64 r <<< 8)).toNat = (o + r * 2 ^ 8) % 2 ^ 64 := by
  rw [BitVec.toNat_add, BitVec.toNat_shiftLeft, hp, BitVec.toNat_ofNat, Nat.shiftLeft_eq]
  omega

theorem toNat_first {p : Num} (hp : p.toNat = o) (c : Num) :
    (p + (BitVec.ofNat 64 r <<< 8) + (c <<< 12)).toNat = (o + r * 2 ^ 8 + c.toNat * 2 ^ 12) % 2 ^ 64 := by
  rw [BitVec.toNat_add, toNat_opcode hp, BitVec.toNat_shiftLeft, Nat.shiftLeft_eq]
  omega

/-- A short that is the last is what is left of a constant that fits. -/
theorem sx_spec {k : ℕ} (hle : -2 ^ 16 ≤ (c.sshiftRight k).toInt * 2)
    (hlt : (c.sshiftRight k).toInt * 2 < 2 ^ 16) :
    sx ((c.sshiftRight k).toNat % 2 ^ 16) = c.sshiftRight k := by
  have hfield := signed_field (by decide) (c.sshiftRight k) hle hlt
  rw [field, pow_zero, Nat.div_one] at hfield
  rw [sx, hfield, BitVec.ofInt_toInt]

theorem toInt_sshiftRight_eq (c : Num) (k : ℕ) : (c.sshiftRight k).toInt = c.toInt / 2 ^ k := by
  rw [BitVec.toInt_sshiftRight, Int.shiftRight_eq_div_pow]
  rfl

/-- The bits of a constant below some and those from there on. -/
theorem low_add_mul (n k : ℕ) : field n 0 k + n / 2 ^ k * 2 ^ k = n := by
  rw [field, pow_zero, Nat.div_one]
  exact Nat.mod_add_div' n (2 ^ k)

/-- What is above the register of a short, of a constant that fits there. -/
theorem c0_spec {w : ℕ} (h : within c 4) (ho : o < 256) (hr : r < 16)
    (hw : w = o + r * 2 ^ 8 + field c.toNat 0 4 * 2 ^ 12) : c0 w = c := by
  obtain ⟨hle, hge⟩ := h
  have hlow := field_lt c.toNat 0 4
  have hlt : w < 2 ^ 16 := by omega
  have hint : (BitVec.ofInt 64 (signed 16 w)).toInt = signed 16 w := by
    have hbounds := signed_bounds (n := 16) w
    rw [BitVec.toInt_ofInt]
    exact Int.bmod_eq_of_le_mul_two (by omega) (by omega)
  have hc4 : signed 4 (field c.toNat 0 4) = c.toInt := signed_field (by decide) c (by omega) (by omega)
  have hs4 := signed_cases hlow
  have hs16 := signed_cases hlt
  refine BitVec.eq_of_toInt_eq ?_
  rw [c0, toInt_sshiftRight_eq, hint, ← hc4]
  generalize field c.toNat 0 4 = f at *
  clear hint hc4 hle hge
  omega

theorem toNat_low (c : Num) : (BitVec.ofNat 64 (field c.toNat 0 4)).toNat = field c.toNat 0 4 := by
  have hlow := field_lt c.toNat 0 4
  rw [BitVec.toNat_ofNat]
  omega

theorem toNat_sc (n : ℕ) : (sc (n % 2 ^ 16)).toNat = n % 2 ^ 16 := by
  rw [sc, BitVec.toNat_ofNat]
  omega

theorem sx_of_within {k : ℕ} (h : within c (k + 16)) (hk : k = 4 ∨ k = 20) :
    sx ((c.sshiftRight k).toNat % 2 ^ 16) = c.sshiftRight k := by
  obtain ⟨hle, hge⟩ := h
  refine sx_spec ?_ ?_
  all_goals
    rw [toInt_sshiftRight_eq]
    rcases hk with rfl | rfl <;> omega

theorem c1_spec {w : ℕ} (h : within c 20) (hw : sr w = field c.toNat 0 4) :
    c1 w ((c.sshiftRight 4).toNat % 2 ^ 16) = c := by
  have hlow := field_lt c.toNat 0 4
  have hnat := toNat_low c
  refine BitVec.eq_of_toNat_eq ?_
  rw [c1, sx_of_within (k := 4) h (Or.inl rfl), hw, toNat_or_shiftLeft (n := 60) rfl (by omega), hnat,
    toNat_sshiftRight_mod c rfl]
  exact low_add_mul c.toNat 4

theorem c2_spec {w : ℕ} (h : within c 36) (hw : sr w = field c.toNat 0 4) :
    c2 w ((c.sshiftRight 4).toNat % 2 ^ 16) ((c.sshiftRight 20).toNat % 2 ^ 16) = c := by
  have hlow := field_lt c.toNat 0 4
  have hnat := toNat_low c
  have hmid := toNat_sshiftRight_mod c (k := 4) (n := 60) rfl
  have hor : (BitVec.ofNat 64 (field c.toNat 0 4) ||| sc ((c.sshiftRight 4).toNat % 2 ^ 16) <<< 4).toNat =
      c.toNat % 2 ^ 20 := by
    rw [toNat_or_shiftLeft (n := 60) rfl (by omega), hnat, toNat_sc]
    unfold field
    omega
  refine BitVec.eq_of_toNat_eq ?_
  rw [c2, sx_of_within (k := 20) h (Or.inr rfl), hw, toNat_or_shiftLeft (n := 44) rfl (by omega), hor,
    toNat_sshiftRight_mod c rfl]
  exact Nat.mod_add_div' ..

theorem c3_spec (c : Num) : c3 (c.toNat % 2 ^ 16) ((c.sshiftRight 16).toNat % 2 ^ 16)
    ((c.sshiftRight 32).toNat % 2 ^ 16) ((c.sshiftRight 48).toNat % 2 ^ 16) = c := by
  have hlt := c.isLt
  have h16 := toNat_sshiftRight_mod c (k := 16) (n := 48) rfl
  have h32 := toNat_sshiftRight_mod c (k := 32) (n := 32) rfl
  have h48 := toNat_sshiftRight_mod c (k := 48) (n := 16) rfl
  have hsx := toNat_ofInt_signed_mod (n := 16) (by decide) ((c.sshiftRight 48).toNat % 2 ^ 16)
  have h1 : (sc (c.toNat % 2 ^ 16) ||| sc ((c.sshiftRight 16).toNat % 2 ^ 16) <<< 16).toNat =
      c.toNat % 2 ^ 32 := by
    rw [toNat_or_shiftLeft (n := 48) rfl (by rw [toNat_sc]; omega), toNat_sc, toNat_sc]
    omega
  have h2 : (sc (c.toNat % 2 ^ 16) ||| sc ((c.sshiftRight 16).toNat % 2 ^ 16) <<< 16 |||
      sc ((c.sshiftRight 32).toNat % 2 ^ 16) <<< 32).toNat = c.toNat % 2 ^ 48 := by
    rw [toNat_or_shiftLeft (n := 32) rfl (by omega), h1, toNat_sc]
    omega
  refine BitVec.eq_of_toNat_eq ?_
  rw [c3, toNat_or_shiftLeft (n := 16) rfl (by omega), h2, sx, hsx]
  omega

end Shorts

/-- The constant of a form, what is in its first short and those that follow. -/
def constant : ℕ → ℕ → List ℕ → Option (Num × List ℕ)
  | 0, ir, pc => some (c0 ir, pc)
  | 1, ir, i :: pc => some (c1 ir i, pc)
  | 2, ir, o :: i :: pc => some (c2 ir o i, pc)
  | 3, _, o0 :: o1 :: o2 :: i :: pc => some (c3 o0 o1 o2 i, pc)
  | _, _, _ => none

theorem fetch_eq (ir : ℕ) (pc : List ℕ) : fetch ir pc = constant (ir % 256) ir pc := by
  unfold fetch constant
  generalize ir % 256 = n
  rcases n with _ | _ | _ | _ | n <;>
    rcases pc with _ | ⟨a, _ | ⟨b, _ | ⟨c, _ | ⟨d, pc⟩⟩⟩⟩ <;> rfl

theorem toNat_add_form (o k : ℕ) (h : o + k < 256) :
    (BitVec.ofNat 64 o + BitVec.ofNat 64 k).toNat = o + k := by
  rw [BitVec.toNat_add, BitVec.toNat_ofNat, BitVec.toNat_ofNat]
  omega

/-- What `vp64-cr` writes has the opcode of one of its forms, the register and the constant. -/
theorem vp64Cr_spec {o : ℕ} (ho : o + 3 < 256) (c : Num) {r : ℕ} (hr : r < 16) :
    ∃ form w rest, vp64Cr o c r = w :: rest ∧ form < 4 ∧ (within c 36 → form < 3) ∧ w % 256 = o + form ∧
      dr w = r ∧ ∀ pc, constant form w (rest ++ pc) = some (c, pc) := by
  rw [vp64Cr]
  by_cases h4 : within c 4
  · obtain ⟨hop, hdr, -, hval⟩ := first_short (o := o) (by omega) hr c
      (toNat_first (p := BitVec.ofNat 64 o) (BitVec.toNat_ofNat .. |>.trans (by omega)) c)
    rw [if_pos h4]
    exact ⟨0, _, [], rfl, by decide, fun _ => by decide, hop, hdr,
      fun pc => congrArg (fun c => some (c, pc)) (c0_spec h4 (by omega) hr hval)⟩
  rw [if_neg h4]
  by_cases h20 : within c 20
  · obtain ⟨hop, hdr, hsr, -⟩ := first_short (o := o + 1) (by omega) hr c
      (toNat_first (p := BitVec.ofNat 64 o + 1) (toNat_add_form o 1 (by omega)) c)
    rw [if_pos h20]
    exact ⟨1, _, [_], rfl, by decide, fun _ => by decide, hop, hdr,
      fun pc => congrArg (fun c => some (c, pc)) (c1_spec h20 hsr)⟩
  rw [if_neg h20]
  by_cases h36 : within c 36
  · obtain ⟨hop, hdr, hsr, -⟩ := first_short (o := o + 2) (by omega) hr c
      (toNat_first (p := BitVec.ofNat 64 o + 2) (toNat_add_form o 2 (by omega)) c)
    rw [if_pos h36]
    exact ⟨2, _, [_, _], rfl, by decide, fun _ => by decide, hop, hdr,
      fun pc => congrArg (fun c => some (c, pc)) (c2_spec h36 hsr)⟩
  rw [if_neg h36]
  have hfirst : ∀ p : Num, p.toNat = o + 3 →
      (p + (BitVec.ofNat 64 r <<< 8)).toNat % 2 ^ 16 = o + 3 + r * 2 ^ 8 := by
    intro p hp
    rw [toNat_opcode hp]
    omega
  refine ⟨3, o + 3 + r * 2 ^ 8, [_, _, _, _], ?_, by decide, fun h => absurd h h36, by omega, ?_,
    fun pc => congrArg (fun c => some (c, pc)) (c3_spec c)⟩
  · exact congrArg₂ List.cons (hfirst _ (toNat_add_form o 3 (by omega))) rfl
  · unfold dr field
    omega

/-- The register has the constant after, and no other is changed. -/
theorem step_emitCpyCr (c : Num) {r : ℕ} (hr : r < 16) (regs : Regs) (pc : List ℕ) :
    step (emitCpyCr c r ++ pc) regs = some (Function.update regs r c, pc) := by
  obtain ⟨form, w, rest, hw, -, -, hop, hdr, hc⟩ := vp64Cr_spec (o := 0) (by decide) c hr
  rw [emitCpyCr, hw, List.cons_append, step, fetch_eq, hop, Nat.zero_add, hc, Option.map_some, hdr]

end ChrysaLisp.Trans.Vp64
