import ChrysaLisp.Library.Bytes
import ChrysaLisp.Math.BignumArith

set_option autoImplicit false

/-! # Big numbers and bytes

`bn-from-bytes` is the number the bytes are, the top one first (`bnFromBytes_spec`), and `bn-bytes` is so
many bytes of a number (`bnBytes_spec`). Each moves bits from the one width to the other through what is
left over, less than a limb or a byte, and what there is so far with that is all that has been read. -/

namespace ChrysaLisp.Bignum

open Radix Bytes

/-- Bits put above others. -/
theorem or_shiftLeft {acc bits : ℕ} (h : acc < 2 ^ bits) (c : ℕ) :
    acc ||| c <<< bits = acc + 2 ^ bits * c := by
  rw [Nat.or_comm, ← Nat.shiftLeft_add_eq_or_of_lt h, Nat.shiftLeft_eq, Nat.mul_comm, Nat.add_comm]

/-! ## From bytes -/

/-- What is so far, with what is left over, is what the bytes so far come to. -/
theorem fromBytesLoop_spec (rest : List Byte) : ∀ (acc bits : ℕ) (out : Nums), acc < 2 ^ bits → bits < 26 →
    Digits base out → ∃ out' acc' bits', fromBytesLoop rest acc bits out = (out', acc', bits') ∧
      acc' < 2 ^ bits' ∧ bits' < 26 ∧ Digits base out' ∧
      val out' + base ^ out'.length * (acc' : ℕ)
        = val out + base ^ out.length * ((acc : ℤ) + 2 ^ bits * (ofBytes rest : ℕ)) := by
  induction rest with
  | nil =>
      intro acc bits out hacc hbits hout
      refine ⟨out, acc, bits, rfl, hacc, hbits, hout, ?_⟩
      rw [ofBytes_nil, Nat.cast_zero, mul_zero, add_zero]
  | cons c rest ih =>
      intro acc bits out hacc hbits hout
      have hc := c.isLt
      have hnext : acc + 2 ^ bits * c.val < 2 ^ (bits + 8) := by
        have hle : 2 ^ bits * (c.val + 1) ≤ 2 ^ bits * 2 ^ 8 := Nat.mul_le_mul_left _ hc
        rw [pow_add]
        linarith
      rw [fromBytesLoop, or_shiftLeft hacc, ofBytes_cons]
      generalize hv : acc + 2 ^ bits * c.val = v at hnext
      have hvz : (v : ℤ) = acc + 2 ^ bits * (c.val : ℕ) := by
        rw [← hv]
        push_cast
        ring
      by_cases hfull : 26 ≤ bits + 8
      · have hmask : v &&& 0x3ffffff = v % 2 ^ 26 := Nat.and_two_pow_sub_one_eq_mod v 26
        have hshift : v >>> 26 = v / 2 ^ 26 := Nat.shiftRight_eq_div_pow v 26
        have hsplit : (2 : ℤ) ^ (bits + 8) = base * 2 ^ (bits + 8 - 26) := by
          have hbase : base = 2 ^ 26 := rfl
          rw [hbase, ← pow_add, Nat.add_sub_cancel' hfull]
        have hdivmod : (v : ℤ) = (v % 2 ^ 26 : ℕ) + base * (v / 2 ^ 26 : ℕ) := by
          have h := Nat.mod_add_div v (2 ^ 26)
          unfold base
          exact_mod_cast h.symm
        have hlimb : Digits base (out ++ [((v % 2 ^ 26 : ℕ) : ℤ)]) := by
          rw [digits_append, digits_cons]
          refine ⟨hout, ⟨by omega, ?_⟩, digits_nil⟩
          have h := Nat.mod_lt v (show 0 < 2 ^ 26 by decide)
          unfold base
          omega
        have hover : v / 2 ^ 26 < 2 ^ (bits + 8 - 26) := by
          apply Nat.div_lt_of_lt_mul
          rw [← pow_add, Nat.add_sub_cancel' hfull]
          exact hnext
        obtain ⟨out', acc', bits', hloop, hacc', hbits', hout', hval⟩ :=
          ih (v / 2 ^ 26) (bits + 8 - 26) _ hover (by omega) hlimb
        refine ⟨out', acc', bits', ?_, hacc', hbits', hout', ?_⟩
        · rw [if_pos hfull, hmask, hshift, hloop]
        · rw [hval, val_append, List.length_append, List.length_singleton, pow_succ base]
          have hone : val [((v % 2 ^ 26 : ℕ) : ℤ)] = (v % 2 ^ 26 : ℕ) := by simp [val]
          rw [hone]
          generalize bits + 8 - 26 = left at hsplit
          push_cast at hdivmod hvz ⊢
          linear_combination base ^ out.length * (hvz - hdivmod) -
            base ^ out.length * (ofBytes rest : ℤ) * hsplit + base ^ out.length *
              (ofBytes rest : ℤ) * pow_add (2 : ℤ) bits 8
      · obtain ⟨out', acc', bits', hloop, hacc', hbits', hout', hval⟩ :=
          ih v (bits + 8) out hnext (by omega) hout
        refine ⟨out', acc', bits', ?_, hacc', hbits', hout', ?_⟩
        · rw [if_neg hfull, hloop]
        · rw [hval]
          push_cast at hvz ⊢
          linear_combination base ^ out.length * hvz + base ^ out.length * (ofBytes rest : ℤ) *
            pow_add (2 : ℤ) bits 8

/-- **`bn-from-bytes` is the number the bytes are.** -/
theorem bnFromBytes_spec (data : Str) : Num (bnFromBytes data) ∧ Trimmed (bnFromBytes data) ∧
    val (bnFromBytes data) = (ofBytes data.reverse : ℕ) := by
  obtain ⟨out, acc, bits, hloop, hacc, hbits, hout, hval⟩ :=
    fromBytesLoop_spec data.reverse 0 0 [] (by decide) (by decide) digits_nil
  have hval' : val out + base ^ out.length * (acc : ℕ) = (ofBytes data.reverse : ℕ) := by
    rw [hval]
    simp [val]
  unfold bnFromBytes
  rw [hloop]
  dsimp only
  by_cases hmore : 0 < bits ∨ out = []
  · have hlimb : acc < 2 ^ 26 := lt_of_lt_of_le hacc (Nat.pow_le_pow_right (by decide) hbits.le)
    have hnum : Num (out ++ [(acc : ℤ)]) := by
      refine ⟨by simp, digits_append.mpr ⟨hout, digits_cons.mpr ⟨⟨by omega, ?_⟩, digits_nil⟩⟩⟩
      unfold base
      omega
    obtain ⟨hn, hv, ht, -⟩ := bnTrim_spec hnum
    rw [if_pos hmore]
    refine ⟨hn, ht, ?_⟩
    rw [hv, val_append, ← hval']
    simp [val]
  · have hne : out ≠ [] := fun h => hmore (.inr h)
    have hb0 : bits = 0 := by
      by_contra h
      exact hmore (.inl (Nat.pos_of_ne_zero h))
    have ha0 : acc = 0 := by
      rw [hb0, pow_zero] at hacc
      omega
    obtain ⟨hn, hv, ht, -⟩ := bnTrim_spec ⟨hne, hout⟩
    rw [if_neg hmore]
    refine ⟨hn, ht, ?_⟩
    rw [hv, ← hval', ha0, Nat.cast_zero, mul_zero, add_zero]

/-! ## To bytes -/

/-- As many bytes as there are in so many bits. -/
theorem bytesLoop_spec (turns : ℕ) : ∀ (acc bits : ℕ) (out : List ℕ), bits / 8 ≤ turns →
    bytesLoop (turns + 1) acc bits out
      = some (out ++ (toBytes (bits / 8) acc).map Fin.val, acc / 256 ^ (bits / 8), bits % 8) := by
  induction turns with
  | zero =>
      intro acc bits out h
      have hlt : bits < 8 := by omega
      rw [bytesLoop, if_neg (by omega), Nat.div_eq_of_lt hlt, Nat.mod_eq_of_lt hlt]
      simp [toBytes]
  | succ turns ih =>
      intro acc bits out h
      rw [bytesLoop]
      by_cases hmore : 8 ≤ bits
      · have hmask : acc &&& 0xff = acc % 256 := Nat.and_two_pow_sub_one_eq_mod acc 8
        have hshift : acc >>> 8 = acc / 256 := Nat.shiftRight_eq_div_pow acc 8
        have hcount : bits / 8 = (bits - 8) / 8 + 1 := by omega
        have hleft : (bits - 8) % 8 = bits % 8 := by omega
        rw [if_pos hmore, ih _ _ _ (by omega), hmask, hshift, hcount, hleft, toBytes, List.map_cons,
          List.append_assoc, List.singleton_append, Nat.div_div_eq_div_mul, ← Nat.pow_succ']
        rfl
      · have hlt : bits < 8 := by omega
        rw [if_neg hmore, Nat.div_eq_of_lt hlt, Nat.mod_eq_of_lt hlt]
        simp [toBytes]

/-- The limbs' bits, one limb after the other, are those of the number. -/
theorem limbsLoop_spec (a : Nums) :
    ∀ (acc bits V : ℕ) (out : List ℕ), Digits base a → acc < 2 ^ bits → bits < 8 →
    (V : ℤ) = acc + 2 ^ bits * val a →
    limbsLoop a acc bits out = some (out ++ (toBytes ((bits + 26 * a.length) / 8) V).map Fin.val,
      V / 256 ^ ((bits + 26 * a.length) / 8), (bits + 26 * a.length) % 8) := by
  induction a with
  | nil =>
      intro acc bits V out _ hacc hbits hV
      have hVacc : V = acc := by
        have hzero : val [] = 0 := rfl
        rw [hzero, mul_zero, add_zero] at hV
        exact_mod_cast hV
      rw [limbsLoop, hVacc, List.length_nil, Nat.mul_zero, Nat.add_zero, Nat.div_eq_of_lt hbits,
        Nat.mod_eq_of_lt hbits]
      simp [toBytes]
  | cons d l ih =>
      intro acc bits V out hdig hacc hbits hV
      rw [digits_cons] at hdig
      obtain ⟨n, rfl⟩ := Int.eq_ofNat_of_zero_le hdig.1.1
      have hn : n < 2 ^ 26 := by
        have h := hdig.1.2
        unfold base at h
        exact_mod_cast h
      -- what the limb comes to above what was left over
      have hacc1 : acc + 2 ^ bits * n < 2 ^ (bits + 26) := by
        have hle : 2 ^ bits * (n + 1) ≤ 2 ^ bits * 2 ^ 26 := Nat.mul_le_mul_left _ hn
        rw [pow_add]
        linarith
      have hl0 : 0 ≤ val l := hdig.2.value_nonneg base_pos
      obtain ⟨L, hL⟩ := Int.eq_ofNat_of_zero_le hl0
      have hVnat : V = acc + 2 ^ bits * n + 2 ^ (bits + 26) * L := by
        have hcons : val ((n : ℤ) :: l) = n + base * val l := rfl
        have hbase : base = 2 ^ 26 := rfl
        rw [hcons, hL, hbase] at hV
        rw [pow_add]
        push_cast at hV
        have hVz : (V : ℤ) = ((acc + 2 ^ bits * n + 2 ^ bits * 2 ^ 26 * L : ℕ) : ℤ) := by
          push_cast
          linear_combination hV
        exact_mod_cast hVz
      generalize hA : acc + 2 ^ bits * n = A at hacc1 hVnat
      generalize hk : (bits + 26) / 8 = k
      have hkbits : bits + 26 = 8 * k + (bits + 26) % 8 := by omega
      have hpow : 2 ^ (bits + 26) = 256 ^ k * 2 ^ ((bits + 26) % 8) := by
        rw [show (256 : ℕ) = 2 ^ 8 by norm_num, ← pow_mul, ← pow_add, ← hkbits]
      have hlow : toBytes k A = toBytes k V := by
        rw [← toBytes_mod k V, hVnat, hpow, mul_assoc, Nat.add_mul_mod_self_left, toBytes_mod]
      have hhigh : V / 256 ^ k = A / 256 ^ k + 2 ^ ((bits + 26) % 8) * L := by
        rw [hVnat, hpow, mul_assoc, Nat.add_mul_div_left _ _ (by positivity)]
      have hover : A / 256 ^ k < 2 ^ ((bits + 26) % 8) := by
        apply Nat.div_lt_of_lt_mul
        rw [← hpow]
        exact hacc1
      have hrest := ih (A / 256 ^ k) ((bits + 26) % 8) (V / 256 ^ k)
        (out ++ (toBytes k A).map Fin.val) hdig.2 hover
        (Nat.mod_lt _ (by decide)) (by rw [hhigh, hL]; push_cast; rfl)
      have hcount : (bits + 26 * (l.length + 1)) / 8 = k + ((bits + 26) % 8 + 26 * l.length) / 8 := by omega
      have hleft : (bits + 26 * (l.length + 1)) % 8 = ((bits + 26) % 8 + 26 * l.length) % 8 := by omega
      rw [limbsLoop, Int.toNat_natCast, or_shiftLeft hacc, hA, bytesLoop_spec 7 _ _ _ (by omega),
        Option.bind_eq_bind, Option.bind_some, hk]
      dsimp only
      rw [hrest, hlow, List.length_cons, hcount, hleft, ← toBytes_append, List.map_append,
        ← List.append_assoc, Nat.div_div_eq_div_mul, ← pow_add]

/-- **`bn-bytes` is so many bytes of the number.** -/
theorem bnBytes_spec {a : Nums} (ha : Num a) (len : ℕ) :
    bnBytes a len = some (toBytes len (val a).toNat).reverse := by
  have hV : (((val a).toNat : ℕ) : ℤ) = (0 : ℕ) + 2 ^ 0 * val a := by
    rw [Int.toNat_of_nonneg ha.val_nonneg]
    ring
  have hloop := limbsLoop_spec a 0 0 (val a).toNat [] ha.digits (by decide) (by decide) hV
  have hlt : (val a).toNat < 2 ^ (26 * a.length) := by
    have hbase : base = 2 ^ 26 := rfl
    have h := ha.val_lt
    rw [hbase, ← pow_mul] at h
    rw [Int.toNat_lt ha.val_nonneg]
    exact_mod_cast h
  generalize (val a).toNat = V at hloop hlt
  generalize hbits : 26 * a.length = B at *
  unfold bnBytes
  rw [Nat.zero_add] at hloop
  rw [hloop, Option.bind_eq_bind, Option.bind_some, List.nil_append]
  dsimp only
  -- all the bytes there are, the last of them not whole
  have hall : ∃ K, V < 256 ^ K ∧
      (if 0 < B % 8 then (toBytes (B / 8) V).map Fin.val ++ [V / 256 ^ (B / 8)]
        else (toBytes (B / 8) V).map Fin.val)
        = (toBytes K V).map Fin.val := by
    have hB : B = 8 * (B / 8) + B % 8 := by omega
    have hpow : 2 ^ B = 256 ^ (B / 8) * 2 ^ (B % 8) := by
      rw [show (256 : ℕ) = 2 ^ 8 by norm_num, ← pow_mul, ← pow_add, ← hB]
    by_cases hmore : 0 < B % 8
    · have htop : V / 256 ^ (B / 8) < 2 ^ (B % 8) := by
        apply Nat.div_lt_of_lt_mul
        rw [← hpow]
        exact hlt
      have hle : 2 ^ (B % 8) ≤ 2 ^ 8 := Nat.pow_le_pow_right (by decide) (by omega)
      have hbyte : V / 256 ^ (B / 8) < 256 := by omega
      refine ⟨B / 8 + 1, ?_, ?_⟩
      · rw [pow_succ]
        rwa [Nat.div_lt_iff_lt_mul (by positivity), mul_comm] at hbyte
      · have hone : (toBytes 1 (V / 256 ^ (B / 8))).map Fin.val = [V / 256 ^ (B / 8)] := by
          show [V / 256 ^ (B / 8) % 256] = _
          rw [Nat.mod_eq_of_lt hbyte]
        rw [if_pos hmore, ← toBytes_append, List.map_append, hone]
    · have h0 : B % 8 = 0 := by omega
      refine ⟨B / 8, ?_, by rw [if_neg hmore]⟩
      rwa [hpow, h0, pow_zero, mul_one] at hlt
  obtain ⟨K, hK, hout⟩ := hall
  rw [hout, List.length_map, length_toBytes]
  have hzeros : (List.replicate (len - K) 0 : List ℕ) = (toBytes (len - K) (V / 256 ^ K)).map Fin.val := by
    rw [Nat.div_eq_of_lt hK, toBytes_zero, List.map_replicate]
    rfl
  have hback : ∀ l : List Byte, (l.map Fin.val).map (Fin.ofNat 256) = l := by
    intro l
    rw [List.map_map]
    exact (List.map_congr_left fun b _ => Fin.ofNat_val_eq_self b).trans (List.map_id l)
  rw [hzeros, ← List.map_append, toBytes_append, ← List.map_take, ← List.map_reverse, hback,
    take_toBytes (by omega)]
  rfl

end ChrysaLisp.Bignum
