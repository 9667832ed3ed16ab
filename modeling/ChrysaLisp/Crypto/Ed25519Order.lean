import ChrysaLisp.Library.Bytes
import ChrysaLisp.Crypto.Ed25519Field

set_option autoImplicit false

/-! # Less than the order

`ed-mod-l` takes 16 times the number at the top, of the order, off the numbers from 32 under it, which leaves
0 at the top. What is carried past the 20 numbers this is done to is 1 at the most, as all but the lowest of
them are of 8 bits with a sign from the turn before (`Reduced`); so what is left in the end is less than the
order either way, once the order has gone as often as the top of it says. -/

namespace ChrysaLisp.Ed25519

open Bignum Radix Bytes

/-- The order of the base point. -/
def order : ℤ := 2 ^ 252 + 27742317777372353535851937790883648493

/-- What numbers of 8 bits stand for. -/
def bval (x : Nums) : ℤ := value 256 x

theorem bval_cons (d : ℤ) (l : Nums) : bval (d :: l) = d + 256 * bval l := rfl

theorem bval_edL : bval edL = order := by decide +kernel

theorem bval_edL_take : bval (edL.take 20) = order - 2 ^ 252 := by decide +kernel

theorem edL_byte {l : ℤ} (h : l ∈ edL) : 0 ≤ l ∧ l ≤ 255 := by
  revert l
  decide +kernel

/-- As much of a sum as a number of 8 bits with its sign has. -/
theorem bval_bound {lo hi : ℤ} {x : Nums} (hx : ∀ d ∈ x, lo ≤ d ∧ d ≤ hi) :
    lo * (256 ^ x.length - 1) ≤ 255 * bval x ∧ 255 * bval x ≤ hi * (256 ^ x.length - 1) := by
  induction x with
  | nil => exact ⟨by simp [bval], by simp [bval]⟩
  | cons d x ih =>
    obtain ⟨hlo, hhi⟩ := hx d List.mem_cons_self
    obtain ⟨h0, h1⟩ := ih fun d hd => hx d (List.mem_cons_of_mem _ hd)
    rw [bval_cons, List.length_cons, pow_succ']
    exact ⟨by linarith, by linarith⟩

/-! ## A turn -/

theorem offTop_spec {M xi : ℤ} (hM1 : 1 ≤ M) (hM : M ≤ 2 ^ 40) (hxi : -M ≤ xi ∧ xi ≤ M) :
    ∀ {xs ls : Nums} {c : ℤ},
    (∀ d ∈ xs, -M ≤ d ∧ d ≤ M) → (∀ l ∈ ls, 0 ≤ l ∧ l ≤ 255) → xs.length ≤ ls.length →
      -(32 * M) ≤ c → c ≤ 32 * M →
    ∃ out c', offTop xi c (xs.zip ls) = some (out, c') ∧ out.length = xs.length ∧
      (∀ d ∈ out, -128 ≤ d ∧ d ≤ 127) ∧ -(32 * M) ≤ c' ∧ c' ≤ 32 * M ∧
      bval out + 256 ^ xs.length * c' = c + bval xs - 16 * xi * bval (ls.take xs.length)
  | [], ls, c, _, _, _, hlo, hhi =>
      ⟨[], c, by rw [List.zip_nil_left]; rfl, rfl, fun d hd => absurd hd List.not_mem_nil, hlo, hhi,
        by simp [bval]⟩
  | x :: xs, l :: ls, c, hxs, hls, hlen, hlo, hhi => by
      obtain ⟨hx, hxs⟩ := List.forall_mem_cons.mp hxs
      obtain ⟨hl, hls⟩ := List.forall_mem_cons.mp hls
      have hprod : -(255 * M) ≤ xi * l ∧ xi * l ≤ 255 * M := by
        constructor
        · have hmul : -M * l ≤ xi * l := mul_le_mul_of_nonneg_right hxi.1 hl.1
          have hle : M * l ≤ M * 255 := mul_le_mul_of_nonneg_left hl.2 (by omega)
          linarith
        · have hmul : xi * l ≤ M * l := mul_le_mul_of_nonneg_right hxi.2 hl.1
          have hle : M * l ≤ M * 255 := mul_le_mul_of_nonneg_left hl.2 (by omega)
          linarith
      have hassoc : 16 * xi * l = 16 * (xi * l) := mul_assoc _ _ _
      generalize hv : x + (c - 16 * xi * l) = v
      obtain ⟨out, c', hloop, hlenOut, hout, hlo', hhi', hval⟩ :=
        offTop_spec hM1 hM hxi (c := (v + 128) / 256) hxs hls
        (Nat.le_of_succ_le_succ hlen) (by omega) (by omega)
      refine ⟨(v - (v + 128) / 256 * 256) :: out, c', ?_, by rw [List.length_cons, hlenOut, List.length_cons],
        List.forall_mem_cons.mpr ⟨⟨by omega, by omega⟩, hout⟩, hlo', hhi', ?_⟩
      · rw [List.zip_cons_cons, offTop, word_eq (by omega) (by omega), Option.bind_eq_bind, Option.bind_some,
          word_eq (by omega) (by omega), Option.bind_some, word_eq (by omega) (by omega),
            Option.bind_some, hv,
          word_eq (by omega) (by omega), Option.bind_some, word_eq (by omega) (by omega), Option.bind_some]
        dsimp only
        rw [word_eq (by omega) (by omega), Option.bind_some, word_eq (by omega) (by omega),
          Option.bind_some, hloop]
        rfl
      · rw [bval_cons, bval_cons, List.length_cons, List.take_succ_cons, bval_cons, pow_succ', ← hv]
        rw [← hv] at hval
        linear_combination 256 * hval

/-- So much of the numbers, from a place up to another, is between two bounds. -/
def Between (lo hi : ℤ) (x : Nums) (s e : ℕ) : Prop := ∀ k, s ≤ k → k < e → lo ≤ x.getD k 0 ∧ x.getD k 0 ≤ hi

theorem Between.slice {lo hi : ℤ} {x : Nums} {s n : ℕ} (h : Between lo hi x s (s + n)) :
    ∀ d ∈ (x.drop s).take n, lo ≤ d ∧ d ≤ hi := by
  intro d hd
  obtain ⟨j, hj, rfl⟩ := List.mem_iff_getElem.mp hd
  rw [List.length_take, List.length_drop] at hj
  have hk := h (s + j) (by omega) (by omega)
  rw [List.getD_eq_getElem x 0 (by omega)] at hk
  rwa [List.getElem_take, List.getElem_drop]

/-- The numbers with those of the window, the one past it and the one at the top changed. -/
def changed (x low : Nums) (t : ℤ) (n : ℕ) : Nums := (x.take n ++ low ++ t :: x.drop (n + 21)).set (n + 32) 0

theorem getD_changed {x low : Nums} {t : ℤ} {n : ℕ} (hlen : x.length = 64) (hn : n < 32)
    (hlow : low.length = 20)
    (k : ℕ) : (changed x low t n).getD k 0 = if k = n + 32 then 0 else if k < n then x.getD k 0
      else if k < n + 20 then low.getD (k - n) 0 else if k = n + 20 then t else x.getD k 0 := by
  have htake : (x.take n).length = n := by rw [List.length_take, hlen]; omega
  rw [changed, List.getD_eq_getElem?_getD]
  by_cases htop : k = n + 32
  · rw [if_pos htop, htop, List.getElem?_set_self]
    · rfl
    · rw [List.length_append, List.length_append, htake, hlow, List.length_cons, List.length_drop, hlen]
      omega
  rw [if_neg htop, List.getElem?_set_ne (Ne.symm htop), List.append_assoc]
  split_ifs with hless hin hpast
  · rw [List.getElem?_append_left (by omega), List.getElem?_take_of_lt hless, List.getD_eq_getElem?_getD]
  · rw [List.getElem?_append_right (by omega), List.getElem?_append_left (by omega), htake,
      List.getD_eq_getElem?_getD]
  · rw [List.getElem?_append_right (by omega), List.getElem?_append_right (by omega), htake, hlow, hpast,
      show n + 20 - n - 20 = 0 by omega]
    rfl
  · rw [List.getElem?_append_right (by omega), List.getElem?_append_right (by omega), htake, hlow,
      show k - n - 20 = (k - n - 21) + 1 by omega, List.getElem?_cons_succ, List.getElem?_drop,
      show n + 21 + (k - n - 21) = k by omega, List.getD_eq_getElem?_getD]

theorem length_changed {x low : Nums} {t : ℤ} {n : ℕ} (hlen : x.length = 64) (hn : n < 32)
    (hlow : low.length = 20) :
    (changed x low t n).length = 64 := by
  rw [changed, List.length_set, List.length_append, List.length_append, List.length_cons, List.length_take,
    List.length_drop, hlow, hlen]
  omega

/-- What the changed numbers stand for. -/
theorem bval_changed {x low : Nums} {t : ℤ} {n : ℕ} (hlen : x.length = 64) (hn : n < 32)
    (hlow : low.length = 20) :
    bval (changed x low t n) = bval x + 256 ^ n * (bval low - bval ((x.drop n).take 20) +
      256 ^ 20 * (t - x.getD (n + 20) 0) - 256 ^ 32 * x.getD (n + 32) 0) := by
  have htake : (x.take n).length = n := by rw [List.length_take, hlen]; omega
  have hwindow : ((x.drop n).take 20).length = 20 := by rw [List.length_take, List.length_drop, hlen]; omega
  have hpast : (x.drop n).drop 20 = x.getD (n + 20) 0 :: x.drop (n + 21) := by
    rw [List.drop_drop, List.drop_eq_getElem_cons (by omega), List.getD_eq_getElem x 0 (by omega)]
  have hsplit : bval x = bval (x.take n) + 256 ^ n * (bval ((x.drop n).take 20) +
      256 ^ 20 * (x.getD (n + 20) 0 + 256 * bval (x.drop (n + 21)))) := by
    have houter := value_append (b := 256) (x.take n) (x.drop n)
    have hinner := value_append (b := 256) ((x.drop n).take 20) ((x.drop n).drop 20)
    rw [List.take_append_drop, htake] at houter
    rw [List.take_append_drop, hwindow, hpast] at hinner
    rw [hinner] at houter
    exact houter
  have hbefore : bval (x.take n ++ low ++ t :: x.drop (n + 21)) =
      bval (x.take n) + 256 ^ n * (bval low + 256 ^ 20 * (t + 256 * bval (x.drop (n + 21)))) := by
    rw [List.append_assoc, bval, value_append, value_append, htake, hlow]
    rfl
  have htop : (x.take n ++ low ++ t :: x.drop (n + 21)).getD (n + 32) 0 = x.getD (n + 32) 0 := by
    rw [List.append_assoc, List.getD_append_right _ _ _ _ (by omega),
      List.getD_append_right _ _ _ _ (by omega), htake, hlow, show n + 32 - n - 20 =
        11 + 1 by omega, List.getD_cons_succ, List.getD_eq_getElem?_getD, List.getElem?_drop,
      List.getD_eq_getElem?_getD]
  rw [changed, bval, value_set _ _ (by
    rw [List.length_append, List.length_append, List.length_cons, List.length_take,
      List.length_drop, hlow, hlen]
    omega), ← bval, htop, hbefore, hsplit, pow_add]
  ring

theorem modStep_spec {M : ℤ} (hM1 : 1 ≤ M) (hM : M ≤ 2 ^ 40) {x : Nums} (hlen : x.length = 64)
    (hx : Between (-M) M x 0 64) {n : ℕ} (hn : n < 32) :
    ∃ low c, modStep x (32 + n) = some (changed x low (x.getD (n + 20) 0 + c) n) ∧ low.length = 20 ∧
      (∀ d ∈ low, -128 ≤ d ∧ d ≤ 127) ∧ -(32 * M) ≤ c ∧ c ≤ 32 * M ∧
      bval low + 256 ^ 20 * c = bval ((x.drop n).take 20) - 16 * x.getD (n + 32) 0 * (order - 2 ^ 252) := by
  have hwindow : ((x.drop n).take 20).length = 20 := by rw [List.length_take, List.length_drop, hlen]; omega
  have hslice := Between.slice (s := n) (n := 20) (fun k hk hk' => hx k (Nat.zero_le _) (by omega))
  obtain ⟨low, c, hloop, hlenLow, hlow, hlo, hhi, hval⟩ := offTop_spec hM1 hM
    (hx (n + 32) (Nat.zero_le _) (by omega)) (c := 0) hslice (fun l hl => edL_byte hl)
      (by rw [hwindow]; decide)
    (by omega) (by omega)
  rw [hwindow] at hlenLow hval
  rw [bval_edL_take, zero_add] at hval
  have hat := hx (n + 20) (Nat.zero_le _) (by omega)
  refine ⟨low, c, ?_, hlenLow, hlow, hlo, hhi, hval⟩
  rw [modStep, show 32 + n - 32 = n by omega, show 32 + n - 12 = n + 20 by omega,
    show 32 + n - 11 = n + 21 by omega, Nat.add_comm 32 n, hloop, Option.bind_eq_bind,
    Option.bind_some]
  dsimp only
  rw [word_eq (by omega) (by omega)]
  rfl

/-- A turn takes so many times the order off. -/
theorem bval_step {x low : Nums} {c : ℤ} {n : ℕ} (hlen : x.length = 64) (hn : n < 32) (hlow : low.length = 20)
    (hval : bval low + 256 ^ 20 * c =
      bval ((x.drop n).take 20) - 16 * x.getD (n + 32) 0 * (order - 2 ^ 252)) :
    bval (changed x low (x.getD (n + 20) 0 + c) n) ≡ bval x [ZMOD order] := by
  refine (Int.modEq_iff_dvd).mpr ⟨256 ^ n * (16 * x.getD (n + 32) 0), ?_⟩
  rw [bval_changed hlen hn hlow]
  linear_combination (-(256 ^ n)) * hval

/-- What is left after the turns down to a place: nothing from there on, 20 numbers of 8 bits with a
    sign below the last 12, and these, where they are not of the first turn, 1 over or under that.
    -/
structure Reduced (n : ℕ) (x : Nums) : Prop where
  length : x.length = 64
  all : Between (-2 ^ 27) (2 ^ 27) x 0 64
  window : Between (-128) 127 x n (n + 20)
  upper : Between (-129) 128 x n 51
  top : Between 0 0 x (n + 32) 64

theorem reduced_changed {x low : Nums} {c : ℤ} {n : ℕ} (hlen : x.length = 64) (hn : n < 32)
    (hlow : low.length = 20)
    (hbytes : ∀ d ∈ low, -128 ≤ d ∧ d ≤ 127) (hall : Between (-2 ^ 27) (2 ^ 27) x 0 64)
    (hat : -2 ^ 27 ≤ x.getD (n + 20) 0 + c ∧ x.getD (n + 20) 0 + c ≤ 2 ^ 27)
    (hat' : n + 20 < 51 → -129 ≤ x.getD (n + 20) 0 + c ∧ x.getD (n + 20) 0 + c ≤ 128)
    (hupper : Between (-129) 128 x (n + 21) 51) (htop : Between 0 0 x (n + 33) 64) :
    Reduced n (changed x low (x.getD (n + 20) 0 + c) n) := by
  have hin (k : ℕ) (h1 : n ≤ k) (h2 : k < n + 20) : -128 ≤ low.getD (k - n) 0 ∧ low.getD (k - n) 0 ≤ 127 := by
    rw [List.getD_eq_getElem low 0 (by omega)]
    exact hbytes _ (List.getElem_mem _)
  refine ⟨length_changed hlen hn hlow, ?_, ?_, ?_, ?_⟩
  · intro k hk hk'
    rw [getD_changed hlen hn hlow]
    split_ifs with h1 h2 h3 h4
    · omega
    · exact hall k hk hk'
    · have := hin k (by omega) h3
      omega
    · exact hat
    · exact hall k hk hk'
  · intro k hk hk'
    rw [getD_changed hlen hn hlow, if_neg (by omega), if_neg (by omega), if_pos hk']
    exact hin k hk hk'
  · intro k hk hk'
    rw [getD_changed hlen hn hlow]
    split_ifs with h1 h2 h3 h4
    · omega
    · omega
    · have := hin k hk h3
      omega
    · exact hat' (by omega)
    · exact hupper k (by omega) hk'
  · intro k hk hk'
    rw [getD_changed hlen hn hlow]
    split_ifs with h1 h2 h3 h4
    · exact ⟨le_rfl, le_rfl⟩
    · omega
    · omega
    · omega
    · exact htop k (by omega) hk'

/-- The first turn. -/
theorem modStep_first {x : Nums} (hlen : x.length = 64) (hx : Between (-2 ^ 21) (2 ^ 21) x 0 64) :
    ∃ r, modStep x 63 = some r ∧ Reduced 31 r ∧ bval r ≡ bval x [ZMOD order] := by
  obtain ⟨low, c, hstep, hlow, hbytes, hlo, hhi, hval⟩ := modStep_spec (by norm_num) (by norm_num) hlen hx
    (n := 31) (by norm_num)
  have hat := hx (31 + 20) (by norm_num) (by norm_num)
  refine ⟨_, hstep, reduced_changed hlen (by norm_num) hlow hbytes ?_ ?_ ?_ ?_ ?_,
    bval_step hlen (by norm_num) hlow hval⟩
  · intro k hk hk'
    have := hx k hk hk'
    omega
  · omega
  · omega
  · intro k hk hk'
    omega
  · intro k hk hk'
    omega

/-- What is carried past a window of which all but the lowest are of 8 bits. -/
theorem carry_past {a rest low xi c : ℤ}
    (hval : low + 256 ^ 20 * c = a + 256 * rest - 16 * xi * (order - 2 ^ 252)) (ha : -2 ^ 27 ≤ a ∧ a ≤ 2 ^ 27)
    (hxi : -2 ^ 27 ≤ xi ∧ xi ≤ 2 ^ 27)
    (hrest : -128 * (256 ^ 19 - 1) ≤ 255 * rest ∧ 255 * rest ≤ 127 * (256 ^ 19 - 1))
    (hlow : -128 * (256 ^ 20 - 1) ≤ 255 * low ∧ 255 * low ≤ 127 * (256 ^ 20 - 1)) : -1 ≤ c ∧ c ≤ 1 := by
  rw [order, add_sub_cancel_left] at hval
  norm_num at hval hrest hlow
  omega

/-- A turn after that: what is carried past the window is 1 at the most. -/
theorem modStep_reduced {n : ℕ} (hn : n < 31) {x : Nums} (hx : Reduced (n + 1) x) :
    ∃ r, modStep x (32 + n) = some r ∧ Reduced n r ∧ bval r ≡ bval x [ZMOD order] := by
  obtain ⟨low, c, hstep, hlow, hbytes, hlo, hhi, hval⟩ :=
    modStep_spec (by norm_num) (by norm_num) hx.length hx.all
    (n := n) (by omega)
  have hlen := hx.length
  have hfirst := hx.all n (Nat.zero_le _) (by omega)
  have htopmost := hx.all (n + 32) (Nat.zero_le _) (by omega)
  have hwindow : (x.drop n).take 20 = x.getD n 0 :: (x.drop (n + 1)).take 19 := by
    rw [List.drop_eq_getElem_cons (by omega), List.take_succ_cons, List.getD_eq_getElem x 0 (by omega)]
  have hrest := bval_bound (Between.slice (s := n + 1) (n := 19) fun k hk hk' => hx.window k hk (by omega))
  have hleft := bval_bound hbytes
  rw [List.length_take, List.length_drop, hlen, show min 19 (64 - (n + 1)) = 19 by omega] at hrest
  rw [hlow] at hleft
  have hsum := hval
  rw [hwindow, bval_cons] at hsum
  have hcarry := carry_past hsum hfirst htopmost hrest hleft
  have hat := hx.window (n + 20) (by omega) (by omega)
  refine ⟨_, hstep, reduced_changed hlen (by omega) hlow hbytes hx.all (by omega) (fun _ => by omega) ?_ ?_,
    bval_step hlen (by omega) hlow hval⟩
  · exact fun k hk hk' => hx.upper k (by omega) hk'
  · exact fun k hk hk' => hx.top k (by omega) hk'

/-- The turns that are left, down to the 32. -/
theorem modLoop_spec (n : ℕ) : n ≤ 31 → ∀ {x : Nums}, Reduced n x →
    ∃ r, modLoop n x = some r ∧ Reduced 0 r ∧ bval r ≡ bval x [ZMOD order] := by
  induction n with
  | zero => exact fun _ x hx => ⟨x, rfl, hx, rfl⟩
  | succ n ih =>
    intro hn x hx
    obtain ⟨y, hy, hred, hval⟩ := modStep_reduced (by omega) hx
    obtain ⟨r, hr, hredr, hvalr⟩ := ih (by omega) hred
    refine ⟨r, ?_, hredr, hvalr.trans hval⟩
    rw [modLoop, hy, Option.bind_eq_bind, Option.bind_some, hr]

/-! ## The last of it -/

theorem offBytes_spec {q : ℤ} (hq : -2 ^ 8 ≤ q ∧ q ≤ 2 ^ 8) : ∀ {xs ls : Nums} {c : ℤ},
    (∀ d ∈ xs, -2 ^ 8 ≤ d ∧ d ≤ 2 ^ 8) → (∀ l ∈ ls, 0 ≤ l ∧ l ≤ 255) → xs.length = ls.length →
      -2 ^ 16 ≤ c → c ≤ 2 ^ 16 →
    ∃ out c', offBytes q c (xs.zip ls) = some (out, c') ∧ out.length = xs.length ∧ Digits 256 out ∧
      bval out + 256 ^ xs.length * c' = c + bval xs - q * bval ls
  | [], [], c, _, _, _, _, _ => ⟨[], c, rfl, rfl, digits_nil, by simp [bval]⟩
  | x :: xs, l :: ls, c, hxs, hls, hlen, hlo, hhi => by
      obtain ⟨hx, hxs⟩ := List.forall_mem_cons.mp hxs
      obtain ⟨hl, hls⟩ := List.forall_mem_cons.mp hls
      have hprod : -(2 ^ 8 * 255) ≤ q * l ∧ q * l ≤ 2 ^ 8 * 255 := by
        constructor
        · have hmul : -2 ^ 8 * l ≤ q * l := mul_le_mul_of_nonneg_right hq.1 hl.1
          omega
        · have hmul : q * l ≤ 2 ^ 8 * l := mul_le_mul_of_nonneg_right hq.2 hl.1
          omega
      generalize hv : x + (c - q * l) = v
      obtain ⟨out, c', hloop, hlenOut, hout, hval⟩ := offBytes_spec hq (c := v / 256) hxs hls
        (Nat.succ.inj hlen) (by omega) (by omega)
      refine ⟨v % 256 :: out, c', ?_, by rw [List.length_cons, hlenOut, List.length_cons],
        digits_cons.mpr ⟨⟨by omega, by omega⟩, hout⟩, ?_⟩
      · rw [List.zip_cons_cons, offBytes, word_eq (by omega) (by omega), Option.bind_eq_bind,
          Option.bind_some, word_eq (by omega) (by omega), Option.bind_some, hv,
            word_eq (by omega) (by omega), Option.bind_some, hloop]
        rfl
      · have hdiv := Int.emod_add_mul_ediv v 256
        rw [bval_cons, bval_cons, List.length_cons, bval_cons, pow_succ']
        linear_combination 256 * hval + hdiv - hv

theorem lessTimes_spec {c : ℤ} (hc : -1 ≤ c ∧ c ≤ 1) : ∀ {xs ls : Nums}, Digits 256 xs →
    (∀ l ∈ ls, 0 ≤ l ∧ l ≤ 255) → xs.length = ls.length →
    ∃ out, (xs.zip ls).mapM (lessTimes c) = some out ∧ out.length = xs.length ∧
      (∀ d ∈ out, -2 ^ 10 ≤ d ∧ d ≤ 2 ^ 10) ∧
      bval out = bval xs - c * bval ls
  | [], [], _, _, _ => ⟨[], rfl, rfl, fun d hd => absurd hd List.not_mem_nil, by simp [bval]⟩
  | x :: xs, l :: ls, hxs, hls, hlen => by
      obtain ⟨hx, hxs⟩ := digits_cons.mp hxs
      obtain ⟨hl, hls⟩ := List.forall_mem_cons.mp hls
      have hprod : -255 ≤ c * l ∧ c * l ≤ 255 := by
        obtain h | h | h : c = -1 ∨ c = 0 ∨ c = 1 := by omega
        all_goals
          rw [h]
          omega
      obtain ⟨out, hmap, hlenOut, hout, hval⟩ := lessTimes_spec hc hxs hls (Nat.succ.inj hlen)
      refine ⟨(x - c * l) :: out, ?_, by rw [List.length_cons, hlenOut, List.length_cons],
        List.forall_mem_cons.mpr ⟨⟨by omega, by omega⟩, hout⟩, ?_⟩
      · have hless : lessTimes c (x, l) = some (x - c * l) := by
          rw [lessTimes]
          dsimp only
          rw [word_eq (by omega) (by omega), Option.bind_eq_bind, Option.bind_some,
            word_eq (by omega) (by omega)]
        rw [List.zip_cons_cons, List.mapM_cons, hless, Option.bind_eq_bind, Option.bind_some, hmap]
        rfl
      · rw [bval_cons, bval_cons, bval_cons, hval]
        ring

theorem outBytes_spec {l : Nums} (hl : ∀ d ∈ l, -2 ^ 10 ≤ d ∧ d ≤ 2 ^ 10) :
    ∀ {c : ℤ}, -2 ^ 10 ≤ c → c ≤ 2 ^ 10 →
    ∃ s c', outBytes c l = some s ∧ s.length = l.length ∧
      (ofBytes s : ℤ) + 256 ^ l.length * c' = c + bval l := by
  induction l with
  | nil => exact fun {c} _ _ => ⟨[], c, rfl, rfl, by simp [bval]⟩
  | cons d l ih =>
    intro c hlo hhi
    obtain ⟨hd, hl⟩ := List.forall_mem_cons.mp hl
    obtain ⟨s, c', hs, hlen, hval⟩ := ih hl (c := (d + c) / 256) (by omega) (by omega)
    refine ⟨Fin.ofNat 256 ((d + c) % 256).toNat :: s, c', ?_,
      by rw [List.length_cons, hlen, List.length_cons], ?_⟩
    · rw [outBytes, word_eq (by omega) (by omega), Option.bind_eq_bind, Option.bind_some, hs]
      rfl
    · have hbyte : ((Fin.ofNat 256 ((d + c) % 256).toNat).val : ℤ) = (d + c) % 256 := by
        rw [Fin.val_ofNat]
        omega
      have hdiv := Int.emod_add_mul_ediv (d + c) 256
      rw [ofBytes_cons, bval_cons, List.length_cons, pow_succ']
      push_cast
      rw [hbyte]
      linear_combination 256 * hval + hdiv

/-- What is left once the turns are over is 32 numbers of 8 bits with a sign, or 1 past that, and so many
times the order as the top 4 bits of the last say leave less than the order either way. -/
theorem Reduced.near {z : Nums} (hz : Reduced 0 z) :
    (∀ d ∈ z.take 32, -129 ≤ d ∧ d ≤ 128) ∧ bval
      (z.take 32) = bval z ∧ (-9 ≤ z.getD 31 0 / 16 ∧ z.getD 31 0 / 16 ≤ 8) ∧
      -order < bval z - z.getD 31 0 / 16 * order ∧ bval z - z.getD 31 0 / 16 * order < order := by
  have hlen := hz.length
  have hrest : bval (z.drop 32) = 0 := by
    have hzero := bval_bound (Between.slice (s := 32) (n := 32) hz.top)
    rw [List.take_of_length_le (by rw [List.length_drop, hlen])] at hzero
    omega
  have hfirst : bval (z.take 32) = bval z := by
    have happ := value_append (b := 256) (z.take 32) (z.drop 32)
    rw [List.take_append_drop] at happ
    rw [bval, bval, happ, ← bval, ← bval, hrest, mul_zero, add_zero]
  have htop : z.take 32 = z.take 31 ++ [z.getD 31 0] := by
    rw [List.take_succ_eq_append_getElem (by omega), List.getD_eq_getElem z 0 (by omega)]
  have hupper : Between (-129) 128 z 0 (0 + 32) := fun k hk hk' => hz.upper k hk (by omega)
  have h31 := hupper 31 (by norm_num) (by norm_num)
  have hbytes : ∀ d ∈ z.take 32, -129 ≤ d ∧ d ≤ 128 := by
    have hslice := Between.slice hupper
    rwa [List.drop_zero] at hslice
  have hlow := bval_bound fun d hd => hbytes d (by rw [htop]; exact List.mem_append_left _ hd)
  have hsplit : bval (z.take 32) = bval (z.take 31) + 256 ^ 31 * z.getD 31 0 := by
    rw [htop, bval, value_top, List.length_take, hlen]
    rfl
  rw [List.length_take, hlen, show min 31 64 = 31 from rfl] at hlow
  generalize z.getD 31 0 = d at *
  refine ⟨hbytes, hfirst, by omega, ?_⟩
  rw [← hfirst, hsplit, order]
  omega

/-- **`ed-mod-l` gives the value below the order**, of numbers that are sums of 32 products of two bytes. -/
theorem edModL_spec {x : Nums} (hlen : x.length = 64) (hx : ∀ d ∈ x, -2 ^ 21 ≤ d ∧ d ≤ 2 ^ 21) :
    ∃ s, edModL x = some s ∧ s.length = 32 ∧ (ofBytes s : ℤ) = bval x % order := by
  have hbetween : Between (-2 ^ 21) (2 ^ 21) x 0 64 := by
    intro k _ hk
    rw [List.getD_eq_getElem x 0 (by omega)]
    exact hx _ (List.getElem_mem _)
  obtain ⟨y, hy, hred, hvaly⟩ := modStep_first hlen hbetween
  obtain ⟨z, hz, hlast, hvalz⟩ := modLoop_spec 31 le_rfl hred
  obtain ⟨hbytes, hfirst, hq, hlo, hhi⟩ := hlast.near
  have htake : (z.take 32).length = 32 := by rw [List.length_take, hlast.length]; rfl
  generalize hquot : z.getD 31 0 / 16 = q at *
  obtain ⟨low, c, hoff, hlenLow, hdigits, hval⟩ := offBytes_spec (q := q) (c := 0) (by omega)
    (fun d hd => by have := hbytes d hd; omega) (fun l hl => edL_byte hl) (by rw [htake]; rfl)
      (by norm_num) (by norm_num)
  rw [htake] at hlenLow hval
  have hnonneg : 0 ≤ bval low := hdigits.value_nonneg (by norm_num)
  have hlt : bval low < 256 ^ 32 := by
    have hlt := hdigits.value_lt (by norm_num)
    rwa [hlenLow] at hlt
  rw [hfirst, bval_edL, zero_add] at hval
  have hc : -1 ≤ c ∧ c ≤ 0 := by
    unfold order at hval hlo hhi
    omega
  obtain ⟨out, hless, hlenOut, hout, hvalOut⟩ :=
    lessTimes_spec ⟨hc.1, by omega⟩ hdigits (fun l hl => edL_byte hl)
    (by rw [hlenLow]; rfl)
  obtain ⟨s, c', hs, hlenS, hvalS⟩ := outBytes_spec hout (c := 0) (by norm_num) (by norm_num)
  have hbytesLt := ofBytes_lt s
  rw [hlenOut, hlenLow] at hlenS hvalS
  rw [hlenS] at hbytesLt
  rw [bval_edL] at hvalOut
  have hresult : (ofBytes s : ℤ) = bval z - q * order - c * order ∧ (0 : ℤ) ≤ ofBytes s ∧
    (ofBytes s : ℤ) < order := by
    obtain rfl | rfl : c = -1 ∨ c = 0 := by omega
    all_goals
      unfold order at *
      omega
  refine ⟨s, ?_, hlenS, ?_⟩
  · have hloop : modLoop 32 x = some z := by rw [modLoop, hy, Option.bind_eq_bind, Option.bind_some, hz]
    rw [edModL, if_neg (by rw [hlen]; decide), hloop, Option.bind_eq_bind, Option.bind_some, hquot, hoff]
    simp only [Option.bind_eq_bind, Option.bind_some, hless, hs]
  · have hmod : bval z % order = bval x % order := hvalz.trans hvaly
    rw [← hmod, ← Int.emod_eq_of_lt hresult.2.1 hresult.2.2, hresult.1, sub_sub, ← add_mul, mul_comm,
      Int.sub_mul_emod_self_left]

end ChrysaLisp.Ed25519
