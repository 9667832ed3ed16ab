import ChrysaLisp.Crypto.Ed25519Mul
import ChrysaLisp.Crypto.Ed25519Pack
import ChrysaLisp.Crypto.Ed25519Order

set_option autoImplicit false

/-! # Exact

Numbers of the field that are put together of products by sums and differences, as the callers of the multiply
do, are of parts of 26 bits up to a thousand of them; of any such numbers the products are exact and again
products, and what is packed is the value below the prime. -/

namespace ChrysaLisp.Ed25519

open Bignum Radix Bytes

/-- Put together by `nums-add` and `nums-sub` of so many products, or numbers that have been unpacked. -/
inductive Made : ℕ → Nums → Prop
  | product {a : Nums} : Carried 38 a → Made 1 a
  | add {m n : ℕ} {a b c : Nums} : Made m a → Made n b → numsAdd a b = some c → Made (m + n) c
  | sub {m n : ℕ} {a b c : Nums} : Made m a → Made n b → numsSub a b = some c → Made (m + n) c

theorem eq_of_mapM_word {l r : Nums} (h : l.mapM word = some r) : r = l := by
  induction l generalizing r with
  | nil => exact (Option.some.inj h).symm
  | cons d l ih =>
    rw [List.mapM_cons, Option.bind_eq_bind, Option.bind_eq_some_iff] at h
    obtain ⟨e, he, h⟩ := h
    rw [Option.bind_eq_bind, Option.bind_eq_some_iff] at h
    obtain ⟨s, hs, h⟩ := h
    rw [word] at he
    split_ifs at he
    rw [← Option.some.inj h, ← Option.some.inj he, ih hs]

/-- What a sum or a difference has for parts. -/
theorem within_zipWith {f : ℤ → ℤ → ℤ} {K L : ℤ} {a b c : Nums} (ha : Within K a) (hb : Within L b)
    (hf : ∀ x y, -K ≤ x ∧ x ≤ K → -L ≤ y ∧ y ≤ L → -(K + L) ≤ f x y ∧ f x y ≤ K + L)
    (hc : (List.zipWith f a b).mapM word = some c) : Within (K + L) c := by
  rw [eq_of_mapM_word hc]
  refine ⟨by rw [List.length_zipWith, ha.length, hb.length]; rfl, fun d hd => ?_⟩
  obtain ⟨i, hi, rfl⟩ := List.mem_iff_getElem.mp hd
  rw [List.getElem_zipWith]
  exact hf _ _ (ha.bound _ (List.getElem_mem _)) (hb.bound _ (List.getElem_mem _))

theorem Made.within {n : ℕ} {a : Nums} (h : Made n a) : Within (n * 65574) a := by
  induction h with
  | product ha =>
    have hwithin := ha.within (by norm_num)
    rw [Nat.cast_one, one_mul]
    exact hwithin
  | add ha hb hc iha ihb =>
    rw [numsAdd] at hc
    split_ifs at hc
    rw [Nat.cast_add, add_mul]
    exact within_zipWith iha ihb (fun x y hx hy => ⟨by omega, by omega⟩) hc
  | sub ha hb hc iha ihb =>
    rw [numsSub] at hc
    split_ifs at hc
    rw [Nat.cast_add, add_mul]
    exact within_zipWith iha ihb (fun x y hx hy => ⟨by omega, by omega⟩) hc

theorem Within.mono {K L : ℤ} (hKL : K ≤ L) {a : Nums} (ha : Within K a) : Within L a :=
  ⟨ha.length, fun d hd => ⟨by have := (ha.bound d hd).1; omega, (ha.bound d hd).2.trans hKL⟩⟩

/-- The bytes of a hash. -/
theorem edReduce_spec {hash : Str} (hlen : hash.length = 64) :
    ∃ s, edReduce hash = some s ∧ s.length = 32 ∧ (ofBytes s : ℤ) = ofBytes hash % order := by
  have hval (l : Str) : bval (l.map fun b => (b.val : ℤ)) = ofBytes l := by
    induction l with
    | nil => rfl
    | cons b l ih =>
      rw [List.map_cons, bval_cons, ih, ofBytes_cons]
      push_cast
      rfl
  obtain ⟨s, hs, hlenS, hvalS⟩ :=
    edModL_spec (x := hash.map fun b => (b.val : ℤ)) (by rw [List.length_map, hlen])
    fun d hd => by
      obtain ⟨b, -, rfl⟩ := List.mem_map.mp hd
      omega
  exact ⟨s, hs, hlenS, by rw [hvalS, hval]⟩

/-- **The arithmetic is exact**: the two ways of multiplying give a product, and the same, whichever of their
inputs they put it in, packing gives the value below the prime, and the reductions the one below the order. -/
theorem arithmetic_exact {h : Store} {o a b : ℕ} (ho : (h o).length = 16) (ha : Within (2 ^ 26) (h a))
    (hb : Within (2 ^ 26) (h b)) {x : Nums} (hlen : x.length = 64) (hx : ∀ d ∈ x, -2 ^ 21 ≤ d ∧ d ≤ 2 ^ 21)
    {hash : Str} (hhash : hash.length = 64) :
    (∃ r, edMul o a b h = some (Function.update h o r) ∧ edMulRef o a b h = some (Function.update h o r) ∧
      Carried 38 r ∧ fval r ≡ fval (h a) * fval (h b) [ZMOD prime]) ∧
    (∃ s, edPack (h a) = some s ∧ s.length = 32 ∧ (ofBytes s : ℤ) = fval (h a) % prime) ∧
    (∃ s, edModL x = some s ∧ s.length = 32 ∧ (ofBytes s : ℤ) = bval x % order) ∧
    (∃ s, edReduce hash = some s ∧ s.length = 32 ∧ (ofBytes s : ℤ) = ofBytes hash % order) ∧
    ∀ n c, n ≤ 1000 → Made n c → Within (2 ^ 26) c := by
  refine ⟨edMul_spec ho ha hb, edPack_spec ha, edModL_spec hlen hx, edReduce_spec hhash, ?_⟩
  intro n c hn hc
  exact hc.within.mono (by norm_num; omega)

/-- A number that is less than 0, squared in its place; a hash of ones. -/
theorem arithmetic_exact_ones :
    (∃ r, edMul 0 0 0 (fun _ => List.replicate 16 (-65536)) =
        some (Function.update (fun _ => List.replicate 16 (-65536)) 0 r) ∧
      fval r ≡ fval (List.replicate 16 (-65536)) * fval (List.replicate 16 (-65536)) [ZMOD prime]) ∧
    ∃ s, edReduce (List.replicate 64 255) = some s ∧
      (ofBytes s : ℤ) = ofBytes (List.replicate 64 255) % order := by
  have hwithin : Within (2 ^ 26) (List.replicate 16 (-65536)) :=
    ⟨rfl, fun d hd => by rw [List.eq_of_mem_replicate hd]; norm_num⟩
  obtain ⟨⟨r, hr, -, -, hval⟩, -, -, ⟨s, hs, -, hvalS⟩, -⟩ :=
    arithmetic_exact (h := fun _ => List.replicate 16 (-65536))
    (o := 0) (a := 0) (b := 0) rfl hwithin hwithin (x := List.replicate 64 255) rfl
    (fun d hd => by rw [List.eq_of_mem_replicate hd]; norm_num)
      (rfl : (List.replicate 64 255 : Str).length = 64)
  exact ⟨⟨r, hr, hval⟩, s, hs, hvalS⟩

end ChrysaLisp.Ed25519
