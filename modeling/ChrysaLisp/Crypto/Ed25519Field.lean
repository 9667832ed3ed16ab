import ChrysaLisp.Library.Radix
import ChrysaLisp.Math.BignumLimbs
import ChrysaLisp.Crypto.Ed25519
import Mathlib.Data.Int.ModEq

set_option autoImplicit false

/-! # The field of 2 to the 255 less 19

What 16 parts stand for (`fval`), and that a product is one of the numbers they stand for. -/

namespace ChrysaLisp.Ed25519

open Bignum Radix

/-- 2 to the 255 less 19. -/
def prime : ℤ := 2 ^ 255 - 19

/-- What parts of 16 bits stand for. -/
def fval (a : Nums) : ℤ := value 65536 a

/-- 16 parts no more than that, either way. -/
structure Within (M : ℤ) (a : Nums) : Prop where
  length : a.length = 16
  bound : ∀ d ∈ a, -M ≤ d ∧ d ≤ M

/-- Parts of 16 bits, but that the first may be so much more or less. -/
structure Carried (K : ℤ) (a : Nums) : Prop where
  length : a.length = 16
  first : -K ≤ a.headD 0 ∧ a.headD 0 < 65536 + K
  digits : Digits 65536 a.tail

/-! ## Carries -/

theorem carLoop_eq {l : Nums} (hl : ∀ d ∈ l, -2 ^ 62 ≤ d ∧ d ≤ 2 ^ 62) : ∀ {c : ℤ}, -2 ^ 47 ≤ c → c ≤ 2 ^ 47 →
    carLoop c l = some (carry 65536 c l) ∧ -2 ^ 47 ≤ (carry 65536 c l).2 ∧ (carry 65536 c l).2 ≤ 2 ^ 47 := by
  induction l with
  | nil => exact fun hlo hhi => ⟨rfl, hlo, hhi⟩
  | cons d l ih =>
      intro c hlo hhi
      obtain ⟨hdlo, hdhi⟩ := hl d List.mem_cons_self
      have hrest : ∀ d ∈ l, -2 ^ 62 ≤ d ∧ d ≤ 2 ^ 62 := fun d hd => hl d (List.mem_cons_of_mem _ hd)
      have hover : (d + c + 65536) / 65536 = (d + c) / 65536 + 1 := by omega
      obtain ⟨hloop, hnext⟩ := ih hrest (c := (d + c) / 65536) (by omega) (by omega)
      refine ⟨?_, hnext⟩
      have hlow : d + c + 65536 - ((d + c) / 65536 + 1) * 65536 = (d + c) % 65536 := by omega
      rw [carLoop, word_eq (by omega) (by omega), Option.bind_eq_bind, Option.bind_some,
        word_eq (by omega) (by omega), Option.bind_some]
      dsimp only
      rw [hover, word_eq (by omega) (by omega), Option.bind_some, hlow, word_eq (by omega) (by omega),
        Option.bind_some, add_sub_cancel_right, hloop]
      rfl

/-- What `ed-car` leaves: digits, but for what is over the top, which is in the first 38 times. -/
theorem edCar_spec {o : Nums} (ho : Within (2 ^ 62) o) :
    ∃ e l c, edCar o = some ((e + 38 * c) :: l) ∧ l.length = 15 ∧ Digits 65536 (e :: l) ∧
      fval (e :: l) + 2 ^ 256 * c = fval o ∧ -2 ^ 47 ≤ c ∧ c ≤ 2 ^ 47 := by
  obtain ⟨hloop, hlo, hhi⟩ := carLoop_eq ho.bound (c := 0) (by norm_num) (by norm_num)
  have hdigits := digits_carry (by norm_num : (0 : ℤ) < 65536) 0 o
  have hvalue := value_carry (b := 65536) 0 o
  have hlen := length_carry (b := 65536) 0 o
  have htake : o.take 16 = o := List.take_of_length_le ho.length.le
  have hdrop : o.drop 16 = [] := List.drop_of_length_le ho.length.le
  rw [edCar, if_neg (by rw [ho.length]; decide), htake, hloop, hdrop]
  generalize carry 65536 0 o = r at *
  obtain ⟨out, c⟩ := r
  dsimp only at *
  rw [ho.length] at hlen
  match out, hlen with
  | e :: l, hlen =>
    obtain ⟨he, hl⟩ := digits_cons.mp hdigits
    refine ⟨e, l, c, ?_, Nat.succ.inj hlen, hdigits, ?_, hlo, hhi⟩
    · rw [Option.bind_eq_bind, Option.bind_some]
      dsimp only
      rw [word_eq (by omega) (by omega), Option.bind_eq_bind, Option.bind_some, List.getD_cons_zero,
        word_eq (by omega) (by omega), Option.bind_some, List.set_cons_zero, List.append_nil]
      rfl
    · rw [ho.length, add_zero] at hvalue
      rw [fval, fval, ← hvalue]
      norm_num

theorem modEq_of_over {e c : ℤ} {l o : Nums} (h : fval (e :: l) + 2 ^ 256 * c = fval o) :
    fval ((e + 38 * c) :: l) ≡ fval o [ZMOD prime] := by
  refine (Int.modEq_iff_dvd).mpr ⟨2 * c, ?_⟩
  have hmore : fval ((e + 38 * c) :: l) = fval (e :: l) + 38 * c := by
    rw [fval, fval, value_cons, value_cons]
    ring
  rw [hmore, ← h, prime]
  ring

theorem fval_lt {e : ℤ} {l : Nums} (hl : l.length = 15) (hd : Digits 65536 (e :: l)) :
    0 ≤ fval (e :: l) ∧ fval (e :: l) < 2 ^ 256 := by
  have hlt := hd.value_lt (by norm_num)
  rw [List.length_cons, hl] at hlt
  exact ⟨hd.value_nonneg (by norm_num), by rw [fval]; norm_num at hlt ⊢; exact hlt⟩

/-- Once: the first is over by no more than what the top has over. -/
theorem edCar_once {o : Nums} (ho : Within (2 ^ 62) o) :
    ∃ r, edCar o = some r ∧ Carried (2 ^ 53) r ∧ fval r ≡ fval o [ZMOD prime] := by
  obtain ⟨e, l, c, hcar, hlen, hdigits, hval, hlo, hhi⟩ := edCar_spec ho
  obtain ⟨⟨he0, he1⟩, hl⟩ := digits_cons.mp hdigits
  refine ⟨_, hcar, ⟨by rw [List.length_cons, hlen], ?_, hl⟩, modEq_of_over hval⟩
  rw [List.headD_cons]
  omega

theorem Carried.within {K : ℤ} (hK : 0 ≤ K) {a : Nums} (ha : Carried K a) : Within (65536 + K) a := by
  refine ⟨ha.length, fun d hd => ?_⟩
  match a, ha, hd with
  | e :: l, ha, hd =>
    obtain ⟨hlo, hhi⟩ := ha.first
    rw [List.headD_cons] at hlo hhi
    rcases List.mem_cons.mp hd with rfl | hd
    · omega
    · obtain ⟨h0, h1⟩ := ha.digits d hd
      omega

/-- What is over the top is 1 at the most where only the first is not a digit. -/
theorem edCar_carried {K : ℤ} (hK : 0 ≤ K) (hle : K ≤ 2 ^ 60) {o : Nums} (ho : Carried K o) :
    ∃ e l c, edCar o = some ((e + 38 * c) :: l) ∧ l.length = 15 ∧ Digits 65536 (e :: l) ∧
      fval (e :: l) + 2 ^ 256 * c = fval o ∧ -1 ≤ c ∧ c ≤ 1 ∧ -K ≤ fval o ∧ fval o < 2 ^ 256 + K := by
  have hwithin := ho.within hK
  obtain ⟨e, l, c, hcar, hlen, hdigits, hval, -⟩ :=
    edCar_spec ⟨ho.length, fun d hd => ⟨by have := (hwithin.bound d hd).1; omega,
      by have := (hwithin.bound d hd).2; omega⟩⟩
  obtain ⟨h0, h1⟩ := fval_lt hlen hdigits
  have hbounds : -K ≤ fval o ∧ fval o < 2 ^ 256 + K := by
    match o, ho with
    | d :: rest, ho =>
      obtain ⟨hlo, hhi⟩ := ho.first
      have hlt := ho.digits.value_lt (by norm_num)
      have hnonneg := ho.digits.value_nonneg (by norm_num)
      have hrest : rest.length = 15 := Nat.succ.inj ho.length
      rw [List.headD_cons] at hlo hhi
      rw [List.tail_cons] at hlt hnonneg
      rw [hrest] at hlt
      norm_num at hlt
      rw [fval, value_cons]
      omega
  refine ⟨e, l, c, hcar, hlen, hdigits, hval, ?_, ?_, hbounds⟩
  · omega
  · omega

/-- Twice: the first is over or under by no more than 38. -/
theorem edCar_twice {K : ℤ} (hK : 0 ≤ K) (hle : K ≤ 2 ^ 60) {o : Nums} (ho : Carried K o) :
    ∃ r, edCar o = some r ∧ Carried 38 r ∧ fval r ≡ fval o [ZMOD prime] := by
  obtain ⟨e, l, c, hcar, hlen, hdigits, hval, hlo, hhi, -⟩ := edCar_carried hK hle ho
  obtain ⟨⟨he0, he1⟩, hl⟩ := digits_cons.mp hdigits
  refine ⟨_, hcar, ⟨by rw [List.length_cons, hlen], ?_, hl⟩, modEq_of_over hval⟩
  rw [List.headD_cons]
  omega

/-- And the third time each part is of 16 bits: what goes out at the top leaves next to nothing, and what
comes in from it has next to everything left. -/
theorem edCar_thrice {o : Nums} (ho : Carried 38 o) :
    ∃ r, edCar o = some r ∧ r.length = 16 ∧ Digits 65536 r ∧ fval r ≡ fval o [ZMOD prime] := by
  obtain ⟨e, l, c, hcar, hlen, hdigits, hval, hlo, hhi, hmin, hmax⟩ :=
    edCar_carried (by norm_num) (by norm_num) ho
  obtain ⟨⟨he0, he1⟩, hl⟩ := digits_cons.mp hdigits
  refine ⟨_, hcar, by rw [List.length_cons, hlen], digits_cons.mpr ⟨?_, hl⟩, modEq_of_over hval⟩
  have hlt := hl.value_lt (by norm_num)
  have hnonneg := hl.value_nonneg (by norm_num)
  rw [hlen] at hlt
  norm_num at hlt
  have hfirst : fval (e :: l) = e + 65536 * value 65536 l := by rw [fval, value_cons]
  omega

end ChrysaLisp.Ed25519
