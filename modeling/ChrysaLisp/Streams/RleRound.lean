import ChrysaLisp.Streams.Rle
import Mathlib.Tactic.SplitIfs

set_option autoImplicit false

/-! # Run lengths, there and back

The tokens of a stream fall into runs and stretches (`groups`), and what is compressed is the bits of these
(`compress_spec`), which are read back one group after another (`decompress_groups`). What fills the
last byte is not marked as such: with a run width that fits in it, it is read as one more stretch
(`rest_writes`). So the tokens come back just where the fill is shorter than a run width
(`roundTrips_iff`). -/

namespace ChrysaLisp.Rle

open BitPool

/-! ## Groups -/

/-- A run of a token, or tokens as they are. -/
inductive Group
  | run (runLength : ℕ) (token : BitVec 64)
  | literals (tokens : List (BitVec 64))

namespace Group

def tokens : Group → List (BitVec 64)
  | run runLength token => List.replicate runLength token
  | literals tokens => tokens

/-- How many bits it is coded in. -/
def size (tokenBits runBits : ℕ) : Group → ℕ
  | run _ _ => runBits + tokenBits
  | literals tokens => runBits + tokenBits * tokens.length

def bits (tokenBits runBits : ℕ) : Group → List Bool
  | run runLength token => Bits.ofNat runBits (2 ^ (runBits - 1) + (runLength - 1)) ++
    Bits.ofNat tokenBits token.toNat
  | literals tokens =>
      Bits.ofNat runBits (tokens.length - 1) ++ tokens.flatMap fun token => Bits.ofNat tokenBits token.toNat

/-- As long as its number can say, of tokens of the width. -/
structure Ok (tokenBits runBits : ℕ) (group : Group) : Prop where
  pos : group.tokens ≠ []
  most : group.tokens.length ≤ 2 ^ (runBits - 1)
  small : ∀ token ∈ group.tokens, token.toNat < 2 ^ tokenBits

end Group

/-- How many tokens at the front are one, `left` at the most, and those after them. -/
def takeRun (token : BitVec 64) : (left : ℕ) → List (BitVec 64) → ℕ × List (BitVec 64)
  | 0, tokens => (0, tokens)
  | _ + 1, [] => (0, [])
  | left + 1, next :: tokens =>
      if next = token then ((takeRun token left tokens).1 + 1, (takeRun token left tokens).2)
        else (0, next :: tokens)

theorem takeRun_spec (token : BitVec 64) (left : ℕ) : ∀ tokens, (takeRun token left tokens).1 ≤ left ∧
    tokens = List.replicate (takeRun token left tokens).1 token ++ (takeRun token left tokens).2 := by
  induction left with
  | zero => exact fun tokens => ⟨Nat.le_refl 0, rfl⟩
  | succ left ih =>
      intro tokens
      cases tokens with
      | nil => exact ⟨Nat.zero_le _, rfl⟩
      | cons next tokens =>
          obtain ⟨hle, heq⟩ := ih tokens
          rw [takeRun]
          split_ifs with hnext
          · refine ⟨Nat.succ_le_succ hle, ?_⟩
            rw [List.replicate_succ, List.cons_append, ← heq, hnext]
          · exact ⟨Nat.zero_le _, rfl⟩

theorem length_takeRun_le (token : BitVec 64) (left : ℕ) (tokens : List (BitVec 64)) :
    (takeRun token left tokens).2.length ≤ tokens.length := by
  have hlen := congrArg List.length (takeRun_spec token left tokens).2
  rw [List.length_append] at hlen
  omega

/-- The stretch so far, if there is one. -/
def flushed (literals : List (BitVec 64)) : List Group := if literals = [] then [] else [.literals literals]

/-- The runs and stretches that tokens fall into, of `most` tokens at the most, after a stretch so far. -/
def groups (most : ℕ) (literals : List (BitVec 64)) : List (BitVec 64) → List Group
  | [] => flushed literals
  | token :: tokens =>
      let ahead := takeRun token (most - 1) tokens
      if 1 ≤ ahead.1 then flushed literals ++ .run (ahead.1 + 1) token :: groups most [] ahead.2
      else if literals.length + 1 = most then .literals (literals ++ [token]) :: groups most [] ahead.2
      else groups most (literals ++ [token]) ahead.2
termination_by tokens => tokens.length
decreasing_by all_goals exact Nat.lt_succ_of_le (length_takeRun_le _ _ _)

theorem takeRun_none {token : BitVec 64} {left : ℕ} {tokens : List (BitVec 64)}
    (h : ¬ 1 ≤ (takeRun token left tokens).1) :
    (takeRun token left tokens).2 = tokens := by
  have heq := (takeRun_spec token left tokens).2
  rw [Nat.lt_one_iff.mp (Nat.lt_of_not_le h)] at heq
  exact heq.symm

theorem flushed_tokens (literals : List (BitVec 64)) :
    (flushed literals).flatMap Group.tokens = literals := by
  unfold flushed
  split_ifs with h
  · exact h.symm
  · rw [List.flatMap_singleton]
    rfl

/-- The groups are the tokens. -/
theorem groups_tokens (most : ℕ) (literals tokens : List (BitVec 64)) :
    (groups most literals tokens).flatMap Group.tokens = literals ++ tokens := by
  induction literals, tokens using groups.induct most with
  | case1 literals => rw [groups, flushed_tokens, List.append_nil]
  | case2 literals token tokens ahead hrun ih =>
      have heq := (takeRun_spec token (most - 1) tokens).2
      rw [groups, if_pos hrun, List.flatMap_append, flushed_tokens, List.flatMap_cons, ih]
      conv_rhs => rw [heq]
      rw [Group.tokens, List.replicate_succ]
      rfl
  | case3 literals token tokens ahead hrun hfull ih =>
      rw [groups, if_neg hrun, if_pos hfull, List.flatMap_cons, ih, takeRun_none hrun, Group.tokens,
        List.append_assoc]
      rfl
  | case4 literals token tokens ahead hrun hfull ih =>
      rw [groups, if_neg hrun, if_neg hfull, ih, takeRun_none hrun, List.append_assoc]
      rfl

theorem flushed_ok {tokenBits runBits : ℕ} {literals : List (BitVec 64)}
    (hmost : literals.length ≤ 2 ^ (runBits - 1))
    (hsmall : ∀ token ∈ literals, token.toNat < 2 ^ tokenBits) :
    ∀ group ∈ flushed literals, group.Ok tokenBits runBits := by
  intro group hgroup
  unfold flushed at hgroup
  split_ifs at hgroup with h
  · exact absurd hgroup List.not_mem_nil
  · obtain rfl := List.mem_singleton.mp hgroup
    exact ⟨h, hmost, hsmall⟩

/-- No group is longer than its number can say. -/
theorem groups_ok {tokenBits runBits : ℕ} (literals tokens : List (BitVec 64))
    (hmost : literals.length < 2 ^ (runBits - 1))
    (hliterals : ∀ token ∈ literals, token.toNat < 2 ^ tokenBits)
    (htokens : ∀ token ∈ tokens, token.toNat < 2 ^ tokenBits) :
    ∀ group ∈ groups (2 ^ (runBits - 1)) literals tokens, group.Ok tokenBits runBits := by
  have hpos := Nat.two_pow_pos (runBits - 1)
  induction literals, tokens using groups.induct (2 ^ (runBits - 1)) with
  | case1 literals =>
      rw [groups]
      exact flushed_ok hmost.le hliterals
  | case2 literals token tokens ahead hrun ih =>
      obtain ⟨hle, heq⟩ := takeRun_spec token (2 ^ (runBits - 1) - 1) tokens
      have htoken := htokens token List.mem_cons_self
      have hrest : ∀ next ∈ ahead.2, next.toNat < 2 ^ tokenBits := fun next hnext =>
        htokens next (List.mem_cons_of_mem _ (heq ▸ List.mem_append_right _ hnext))
      rw [groups, if_pos hrun]
      intro group hgroup
      rcases List.mem_append.mp hgroup with hin | hin
      · exact flushed_ok hmost.le hliterals group hin
      · rcases List.mem_cons.mp hin with rfl | hin
        · refine ⟨by simp [Group.tokens], ?_, ?_⟩
          · rw [Group.tokens, List.length_replicate]
            omega
          · intro next hnext
            rw [List.eq_of_mem_replicate hnext]
            exact htoken
        · exact ih hpos (fun _ h => absurd h List.not_mem_nil) hrest group hin
  | case3 literals token tokens ahead hrun hfull ih =>
      obtain ⟨htoken, hrest⟩ := List.forall_mem_cons.mp htokens
      rw [← takeRun_none hrun] at hrest
      rw [groups, if_neg hrun, if_pos hfull]
      refine List.forall_mem_cons.mpr ⟨⟨by simp [Group.tokens], ?_, ?_⟩, ?_⟩
      · rw [Group.tokens, List.length_append, List.length_singleton, hfull]
      · exact List.forall_mem_append.mpr ⟨hliterals, List.forall_mem_singleton.mpr htoken⟩
      · exact ih hpos (fun _ h => absurd h List.not_mem_nil) hrest
  | case4 literals token tokens ahead hrun hfull ih =>
      obtain ⟨htoken, hrest⟩ := List.forall_mem_cons.mp htokens
      rw [← takeRun_none hrun] at hrest
      rw [groups, if_neg hrun, if_neg hfull]
      refine ih ?_ (List.forall_mem_append.mpr ⟨hliterals, List.forall_mem_singleton.mpr htoken⟩) hrest
      rw [List.length_append, List.length_singleton]
      omega

/-! ## The numbers before the groups -/

section Widths

variable {tokenBits runBits : ℕ}

theorem toNat_signBitMask (hr : runBits ≤ 57) : (signBitMask runBits).toNat = 2 ^ (runBits - 1) := by
  have hlt : 2 ^ (runBits - 1) < 2 ^ 64 := Nat.pow_lt_pow_right (by decide) (by omega)
  rw [signBitMask, BitVec.toNat_shiftLeft, Nat.shiftLeft_eq]
  change 1 * _ % _ = _
  rw [Nat.one_mul, Nat.mod_eq_of_lt hlt]

theorem maxRunLength_eq (hr : runBits ≤ 57) : maxRunLength runBits = 2 ^ (runBits - 1) := by
  rw [maxRunLength, lengthMask, BitVec.sub_add_cancel, toNat_signBitMask hr]

theorem toNat_lengthMask (hr : runBits ≤ 57) : (lengthMask runBits).toNat = 2 ^ (runBits - 1) - 1 := by
  have hpos := Nat.two_pow_pos (runBits - 1)
  have hle : (1 : BitVec 64) ≤ signBitMask runBits := by
    rw [BitVec.le_def, toNat_signBitMask hr]
    exact hpos
  rw [lengthMask, BitVec.toNat_sub_of_le hle, toNat_signBitMask hr]
  rfl

/-- The number before a run. -/
theorem toNat_or_signBitMask (hr : runBits ≤ 57) {n : ℕ} (hn : n < 2 ^ (runBits - 1)) :
    (BitVec.ofNat 64 n ||| signBitMask runBits).toNat = 2 ^ (runBits - 1) + n := by
  have hlt : 2 ^ (runBits - 1) < 2 ^ 64 := Nat.pow_lt_pow_right (by decide) (by omega)
  have hnat : (BitVec.ofNat 64 n).toNat = n := by
    rw [BitVec.toNat_ofNat, Nat.mod_eq_of_lt (by omega)]
  rw [BitVec.toNat_or, hnat, toNat_signBitMask hr, Nat.or_comm]
  have hadd := Nat.two_pow_add_eq_or_of_lt hn 1
  rw [Nat.mul_one] at hadd
  exact hadd.symm

theorem sign_clear (hr : runBits ≤ 57) {len : BitVec 64} (hlen : len.toNat < 2 ^ (runBits - 1)) :
    len &&& signBitMask runBits = 0 := by
  refine BitVec.eq_of_toNat_eq ?_
  rw [BitVec.toNat_and, toNat_signBitMask hr, Nat.and_two_pow, Nat.testBit_lt_two_pow hlen]
  exact Nat.zero_mul _

theorem sign_set (hr : runBits ≤ 57) {len : BitVec 64} {n : ℕ} (hn : n < 2 ^ (runBits - 1))
    (hlen : len.toNat = 2 ^ (runBits - 1) + n) :
    len &&& signBitMask runBits ≠ 0 ∧ (len &&& lengthMask runBits).toNat = n := by
  refine ⟨?_, ?_⟩
  · intro hzero
    have hnat := congrArg BitVec.toNat hzero
    rw [BitVec.toNat_and, toNat_signBitMask hr, Nat.and_two_pow, hlen, Nat.testBit_two_pow_add_eq,
      Nat.testBit_lt_two_pow hn] at hnat
    have hpos := Nat.two_pow_pos (runBits - 1)
    simp at hnat
  · rw [BitVec.toNat_and, toNat_lengthMask hr, Nat.and_two_pow_sub_one_eq_mod, hlen,
      Nat.add_mod_left, Nat.mod_eq_of_lt hn]

end Widths

/-! ## The tokens of a stream -/

def tokensIn (tokenBits : ℕ) : ℕ → List Bool → List (BitVec 64)
  | 0, _ => []
  | n + 1, bits => BitVec.ofNat 64 (Bits.toNat (bits.take tokenBits)) ::
    tokensIn tokenBits n (bits.drop tokenBits)

/-- The tokens that bits are, as many as there are whole. -/
def tokensOf (tokenBits : ℕ) (bits : List Bool) : List (BitVec 64) :=
  tokensIn tokenBits (bits.length / tokenBits) bits

section Tokens

variable {tokenBits : ℕ} {bits : List Bool} {rd : Reader} {ts : List (BitVec 64)}

theorem tokensOf_of_lt (h : bits.length < tokenBits) : tokensOf tokenBits bits = [] := by
  rw [tokensOf, Nat.div_eq_of_lt h, tokensIn]

theorem tokensOf_of_le (ht : 0 < tokenBits) (h : tokenBits ≤ bits.length) : tokensOf tokenBits bits =
    BitVec.ofNat 64 (Bits.toNat (bits.take tokenBits)) :: tokensOf tokenBits (bits.drop tokenBits) := by
  have hcount : bits.length / tokenBits = (bits.drop tokenBits).length / tokenBits + 1 := by
    rw [List.length_drop, ← Nat.add_div_right _ ht, Nat.sub_add_cancel h]
  rw [tokensOf, hcount, tokensIn, tokensOf]

theorem length_tokensOf (bits : List Bool) : (tokensOf tokenBits bits).length = bits.length / tokenBits := by
  rw [tokensOf]
  generalize bits.length / tokenBits = n
  induction n generalizing bits with
  | zero => rfl
  | succ n ih => rw [tokensIn, List.length_cons, ih]

/-- A token of the width, and the bits after it. -/
theorem tokensOf_append {token : BitVec 64} (ht : 0 < tokenBits)
    (htoken : token.toNat < 2 ^ tokenBits) (rest : List Bool) :
    tokensOf tokenBits (Bits.ofNat tokenBits token.toNat ++ rest) = token :: tokensOf tokenBits rest := by
  have hlen := Bits.length_ofNat tokenBits token.toNat
  rw [tokensOf_of_le ht (by rw [List.length_append]; omega), List.take_left' hlen,
    List.drop_left' hlen, Bits.toNat_ofNat, Nat.mod_eq_of_lt htoken, BitVec.ofNat_toNat, BitVec.setWidth_eq]

theorem tokensOf_flatMap (ht : 0 < tokenBits) (hsmall : ∀ token ∈ ts, token.toNat < 2 ^ tokenBits)
    (rest : List Bool) :
    tokensOf tokenBits ((ts.flatMap fun token => Bits.ofNat tokenBits token.toNat) ++ rest) =
      ts ++ tokensOf tokenBits rest := by
  induction ts with
  | nil => rfl
  | cons token ts ih =>
      rw [List.flatMap_cons, List.append_assoc, tokensOf_append ht (hsmall token List.mem_cons_self),
        ih fun token htoken => hsmall token (List.mem_cons_of_mem _ htoken), List.cons_append]

theorem tokensIn_small (hw : tokenBits ≤ 57) (n : ℕ) :
    ∀ bits, ∀ token ∈ tokensIn tokenBits n bits, token.toNat < 2 ^ tokenBits := by
  induction n with
  | zero => exact fun _ _ h => absurd h List.not_mem_nil
  | succ n ih =>
      intro bits token htoken
      rw [tokensIn] at htoken
      rcases List.mem_cons.mp htoken with rfl | hin
      · have hlt := Bits.toNat_lt (bits.take tokenBits)
        have hpow := Nat.pow_le_pow_right Nat.two_pos (List.length_take_le tokenBits bits)
        have hfits : 2 ^ tokenBits ≤ 2 ^ 57 := Nat.pow_le_pow_right Nat.two_pos hw
        rw [BitVec.toNat_ofNat, Nat.mod_eq_of_lt (by omega)]
        omega
      · exact ih _ token hin

/-- The tokens a reader has still to come. -/
def Holds (tokenBits : ℕ) (rd : Reader) (ts : List (BitVec 64)) : Prop :=
  ∃ bits, Reads rd bits ∧ tokensOf tokenBits bits = ts

/-- A token has been read of these, or the -1 of their end. -/
def Ahead (tokenBits : ℕ) (token : BitVec 64) (rd : Reader) : List (BitVec 64) → Prop
  | [] => token = -1 ∧ Holds tokenBits rd []
  | next :: rest => token = next ∧ next.toNat < 2 ^ tokenBits ∧ Holds tokenBits rd rest

theorem Holds.ahead (ht : 0 < tokenBits) (hw : tokenBits ≤ 57) (h : Holds tokenBits rd ts) :
    Ahead tokenBits (BitPool.readBits tokenBits rd).1 (BitPool.readBits tokenBits rd).2 ts := by
  obtain ⟨bits, hreads, rfl⟩ := h
  rcases Nat.lt_or_ge bits.length tokenBits with hlt | hge
  · rw [tokensOf_of_lt hlt, hreads.ended hlt]
    exact ⟨rfl, [], reads_start [], tokensOf_of_lt ht⟩
  · obtain ⟨hval, hrest⟩ := hreads.read hw hge
    rw [tokensOf_of_le ht hge]
    have hlt : Bits.toNat (bits.take tokenBits) < 2 ^ tokenBits := by
      have := Bits.toNat_lt (bits.take tokenBits)
      rwa [List.length_take_of_le hge] at this
    have htoken : (BitPool.readBits tokenBits rd).1 = BitVec.ofNat 64 (Bits.toNat (bits.take tokenBits)) := by
      rw [← hval, BitVec.ofNat_toNat, BitVec.setWidth_eq]
    refine ⟨htoken, ?_, _, hrest, rfl⟩
    rw [← htoken, hval]
    exact hlt

theorem ne_end {token : BitVec 64} (hw : tokenBits ≤ 57) (h : token.toNat < 2 ^ tokenBits) : token ≠ -1 := by
  rintro rfl
  have hpow : 2 ^ tokenBits ≤ 2 ^ 57 := Nat.pow_le_pow_right (by decide) hw
  exact absurd (Nat.lt_of_lt_of_le h hpow) (by decide)

/-- What is found ahead is the run at the front of the tokens to come. -/
theorem peek_spec (ht : 0 < tokenBits) (hw : tokenBits ≤ 57) {token : BitVec 64}
    (htoken : token.toNat < 2 ^ tokenBits)
    (left : ℕ) : ∀ {runLength next rd ts}, Ahead tokenBits next rd ts →
      (peek tokenBits token left runLength next rd).1 = runLength + (takeRun token left ts).1 ∧
        Ahead tokenBits (peek tokenBits token left runLength next rd).2.1
          (peek tokenBits token left runLength next rd).2.2 (takeRun token left ts).2 := by
  induction left with
  | zero => exact fun h => ⟨rfl, h⟩
  | succ left ih =>
      intro runLength next rd ts h
      cases ts with
      | nil =>
          have hne : next ≠ token := fun heq => ne_end hw htoken (heq ▸ h.1)
          rw [peek, if_neg hne]
          exact ⟨rfl, h⟩
      | cons x rest =>
          obtain ⟨rfl, hsmall, hrest⟩ := h
          rw [peek, takeRun]
          split_ifs with heq
          · obtain ⟨hcount, hahead⟩ := @ih (runLength + 1) _ _ _ (hrest.ahead ht hw)
            exact ⟨by rw [hcount]; omega, hahead⟩
          · exact ⟨rfl, rfl, hsmall, hrest⟩

end Tokens

/-! ## What is packed -/

/-- The widths that tokens and their numbers may have. -/
structure Widths (tokenBits runBits : ℕ) : Prop where
  tokenPos : 0 < tokenBits
  token : tokenBits ≤ 57
  runPos : 0 < runBits
  run : runBits ≤ 57

section Packed

variable {tokenBits runBits : ℕ} {w : Writer} {bits : List Bool}

theorem bitsOfAll_tokens (ts : List (BitVec 64)) :
    bitsOfAll (ts.map fun token => (token, tokenBits)) =
      ts.flatMap fun token => Bits.ofNat tokenBits token.toNat := by
  rw [bitsOfAll, List.flatMap_map]

/-- A stretch is written as its group. -/
theorem flushLiterals_spec (hwidths : Widths tokenBits runBits) (h : Written w bits)
    {literals : List (BitVec 64)}
    (hlen : literals.length ≤ 2 ^ (runBits - 1)) (hsmall : ∀ token ∈ literals, token.toNat < 2 ^ tokenBits) :
    Written (flushLiterals tokenBits runBits w literals)
      (bits ++ (flushed literals).flatMap (Group.bits tokenBits runBits)) := by
  unfold flushLiterals flushed
  split_ifs with hnil
  · rwa [List.flatMap_nil, List.append_nil]
  · have hpow : 2 ^ (runBits - 1) ≤ 2 ^ runBits := Nat.pow_le_pow_right Nat.two_pos (Nat.sub_le _ _)
    have hpow64 : 2 ^ runBits ≤ 2 ^ 57 := Nat.pow_le_pow_right Nat.two_pos hwidths.run
    have hpos := List.length_pos_of_ne_nil hnil
    have hnat : (BitVec.ofNat 64 (literals.length - 1)).toNat = literals.length - 1 := by
      rw [BitVec.toNat_ofNat, Nat.mod_eq_of_lt (by omega)]
    have hhead := h.write hwidths.run
      (by rw [hnat]; omega : (BitVec.ofNat 64 (literals.length - 1)).toNat < 2 ^ runBits)
    have hfits : ∀ val ∈ literals.map fun token => (token, tokenBits), Fits val := by
      intro val hval
      obtain ⟨token, htoken, rfl⟩ := List.mem_map.mp hval
      exact ⟨hwidths.tokenPos, hwidths.token, hsmall token htoken⟩
    have hall := hhead.writeAll hfits
    rw [hnat, bitsOfAll_tokens, List.append_assoc] at hall
    rw [List.flatMap_singleton]
    exact hall

/-- A run is written as its group. -/
theorem writeRun_spec (hwidths : Widths tokenBits runBits) (h : Written w bits) {runLength : ℕ}
    {token : BitVec 64}
    (hpos : 0 < runLength) (hmost : runLength ≤ 2 ^ (runBits - 1)) (htoken : token.toNat < 2 ^ tokenBits) :
    Written (BitPool.writeBits token tokenBits
        (BitPool.writeBits (BitVec.ofNat 64 (runLength - 1) ||| signBitMask runBits) runBits w))
      (bits ++ Group.bits tokenBits runBits (.run runLength token)) := by
  have hnat := toNat_or_signBitMask hwidths.run (n := runLength - 1) (by omega)
  have htwice : 2 ^ runBits = 2 ^ (runBits - 1) + 2 ^ (runBits - 1) := by
    rw [← Nat.two_mul, ← Nat.pow_succ', Nat.succ_eq_add_one, Nat.sub_add_cancel hwidths.runPos]
  have hhead := @Written.write w bits h (BitVec.ofNat 64 (runLength - 1) ||| signBitMask runBits)
    runBits hwidths.run (by omega)
  rw [hnat] at hhead
  have hboth := hhead.write hwidths.token htoken
  rwa [List.append_assoc] at hboth

/-- The loop writes the groups of the tokens to come. -/
theorem compressLoop_spec (hwidths : Widths tokenBits runBits) (turns : ℕ) :
    ∀ {token rd w bits literals ts}, Ahead tokenBits token rd ts → Written w bits →
      literals.length < 2 ^ (runBits - 1) → (∀ token ∈ literals, token.toNat < 2 ^ tokenBits) →
        ts.length < turns →
      ∃ w', compressLoop tokenBits runBits turns rd w literals token = some w' ∧
        Written w' (bits ++ (groups (2 ^ (runBits - 1)) literals ts).flatMap
          (Group.bits tokenBits runBits)) := by
  have hmax := maxRunLength_eq hwidths.run
  have hnone : ([] : List (BitVec 64)).length < 2 ^ (runBits - 1) := Nat.two_pow_pos (runBits - 1)
  have hnoneSmall : ∀ token ∈ ([] : List (BitVec 64)), token.toNat < 2 ^ tokenBits :=
    fun _ h => absurd h List.not_mem_nil
  induction turns with
  | zero => exact fun _ _ _ _ hturns => absurd hturns (Nat.not_lt_zero _)
  | succ turns ih =>
      intro token rd w bits literals ts hahead hw hlen hsmall hturns
      cases ts with
      | nil =>
          rw [compressLoop, if_pos hahead.1, groups]
          exact ⟨_, rfl, flushLiterals_spec hwidths hw hlen.le hsmall⟩
      | cons next ts =>
          obtain ⟨rfl, htoken, hrest⟩ := hahead
          have hnext := hrest.ahead hwidths.tokenPos hwidths.token
          obtain ⟨hcount, hafter⟩ := @peek_spec tokenBits hwidths.tokenPos hwidths.token token
            htoken (2 ^ (runBits - 1) - 1) 1
            _ _ _ hnext
          obtain ⟨hle, -⟩ := takeRun_spec token (2 ^ (runBits - 1) - 1) ts
          have hshort := length_takeRun_le token (2 ^ (runBits - 1) - 1) ts
          rw [List.length_cons] at hturns
          rw [compressLoop, if_neg (ne_end hwidths.token htoken), groups, hmax]
          simp only [hcount]
          by_cases hrun : 1 ≤ (takeRun token (2 ^ (runBits - 1) - 1) ts).1
          · rw [if_pos (by omega), if_pos hrun, Nat.add_comm 1]
            have hflush := flushLiterals_spec hwidths hw hlen.le hsmall
            have hwrote := writeRun_spec hwidths hflush
              (Nat.succ_pos (takeRun token (2 ^ (runBits - 1) - 1) ts).1) (by omega) htoken
            obtain ⟨w', hloop, hw'⟩ := ih hafter hwrote hnone hnoneSmall (by omega)
            refine ⟨w', hloop, ?_⟩
            rwa [List.flatMap_append, List.flatMap_cons, ← List.append_assoc, ← List.append_assoc]
          · have hboth : ∀ x ∈ literals ++ [token], x.toNat < 2 ^ tokenBits := fun x hx =>
              (List.mem_append.mp hx).elim (hsmall x) fun h => List.mem_singleton.mp h ▸ htoken
            rw [if_neg (by omega), if_neg hrun, List.length_append, List.length_singleton]
            by_cases hfull : literals.length + 1 = 2 ^ (runBits - 1)
            · rw [if_pos hfull, if_pos hfull]
              have hflush := @flushLiterals_spec tokenBits runBits w bits hwidths hw
                (literals ++ [token]) (by simp [hfull]) hboth
              obtain ⟨w', hloop, hw'⟩ := ih hafter hflush hnone hnoneSmall (by omega)
              refine ⟨w', hloop, ?_⟩
              rw [flushed, if_neg (by simp), List.flatMap_singleton] at hw'
              rwa [List.flatMap_cons, ← List.append_assoc]
            · rw [if_neg hfull, if_neg hfull]
              exact ih hafter hw (by rw [List.length_append, List.length_singleton]; omega) hboth (by omega)

end Packed

/-! ## What is unpacked -/

section Unpacked

variable {tokenBits runBits : ℕ} {rd : Reader} {w : Writer} {bits rest : List Bool}

theorem fillBits_spec (hwidths : Widths tokenBits runBits) {token : BitVec 64}
    (htoken : token.toNat < 2 ^ tokenBits)
    (cnt : ℕ) : ∀ {w bits}, Written w bits → Written (fillBits token tokenBits cnt w)
      (bits ++ (List.replicate cnt token).flatMap fun token => Bits.ofNat tokenBits token.toNat) := by
  induction cnt with
  | zero =>
      intro w bits h
      rwa [List.replicate_zero, List.flatMap_nil, List.append_nil]
  | succ cnt ih =>
      intro w bits h
      have hrest := ih (h.write hwidths.token htoken)
      rwa [List.append_assoc] at hrest

theorem copyBits_spec (hwidths : Widths tokenBits runBits) (ts : List (BitVec 64)) :
    ∀ {rd w bits}, (∀ token ∈ ts, token.toNat < 2 ^ tokenBits) →
      Reads rd ((ts.flatMap fun token => Bits.ofNat tokenBits token.toNat) ++ rest) → Written w bits →
      Reads (copyBits tokenBits ts.length rd w).1 rest ∧ Written (copyBits tokenBits ts.length rd w).2
        (bits ++ ts.flatMap fun token => Bits.ofNat tokenBits token.toNat) := by
  induction ts with
  | nil =>
      intro rd w bits _ hreads hwrote
      rw [List.flatMap_nil, List.append_nil]
      exact ⟨hreads, hwrote⟩
  | cons token ts ih =>
      intro rd w bits hsmall hreads hwrote
      have htoken := hsmall token List.mem_cons_self
      rw [List.flatMap_cons, List.append_assoc] at hreads
      obtain ⟨hval, hrest⟩ := hreads.readNat hwidths.token htoken
      have hwrite := hwrote.write hwidths.token htoken
      obtain ⟨hreads', hwrote'⟩ := ih (fun x hx => hsmall x (List.mem_cons_of_mem _ hx)) hrest hwrite
      rw [List.length_cons, copyBits, BitVec.eq_of_toNat_eq hval]
      rw [List.append_assoc] at hwrote'
      exact ⟨hreads', hwrote'⟩

/-- How many tokens a number says. -/
theorem count_spec {cnt : BitVec 64} {n : ℕ} (hcnt : cnt.toNat = n - 1) (hpos : 0 < n) (hn : n ≤ 2 ^ 57) :
    (cnt + 1).toNat = n ∧ ∀ maxTokens, maxTokens - cnt.toInt - 1 = maxTokens - (n : ℤ) := by
  have hone : (1 : BitVec 64).toNat = 1 := rfl
  refine ⟨?_, ?_⟩
  · rw [BitVec.toNat_add, hone, hcnt, Nat.mod_eq_of_lt (by omega)]
    exact Nat.sub_add_cancel hpos
  · intro maxTokens
    rw [BitVec.toInt_eq_toNat_of_lt (by omega), hcnt]
    omega

/-- One turn takes one group. -/
theorem decompressLoop_group (hwidths : Widths tokenBits runBits) {group : Group}
    (hok : group.Ok tokenBits runBits)
    (hreads : Reads rd (group.bits tokenBits runBits ++ rest)) (hwrote : Written w bits) (turns : ℕ)
    {maxTokens : ℤ}
    (hmax : 0 < maxTokens) : ∃ rd' w', decompressLoop tokenBits runBits (turns + 1) maxTokens rd w =
      decompressLoop tokenBits runBits turns (maxTokens - group.tokens.length) rd' w' ∧ Reads rd' rest ∧
      Written w' (bits ++ group.tokens.flatMap fun token => Bits.ofNat tokenBits token.toNat) := by
  have htwice : 2 ^ runBits = 2 ^ (runBits - 1) + 2 ^ (runBits - 1) := by
    rw [← Nat.two_mul, ← Nat.pow_succ', Nat.succ_eq_add_one, Nat.sub_add_cancel hwidths.runPos]
  have hpow : 2 ^ runBits ≤ 2 ^ 57 := Nat.pow_le_pow_right Nat.two_pos hwidths.run
  have hpos := List.length_pos_of_ne_nil hok.pos
  have hmost := hok.most
  rw [decompressLoop, if_neg (Int.not_le.mpr hmax)]
  cases group with
  | run runLength token =>
      have htoken := hok.small token (List.mem_replicate.mpr ⟨by simpa [Group.tokens] using hpos.ne', rfl⟩)
      rw [Group.tokens, List.length_replicate] at hpos hmost
      rw [Group.bits, List.append_assoc] at hreads
      obtain ⟨hlen, hnext⟩ := hreads.readNat hwidths.run (by omega)
      obtain ⟨hval, hafter⟩ := hnext.readNat hwidths.token htoken
      obtain ⟨hsign, hcnt⟩ := sign_set hwidths.run (by omega) hlen
      obtain ⟨hadd, hsub⟩ := count_spec hcnt hpos (by omega)
      simp only
      rw [if_neg (ne_end hwidths.run (by omega)), if_pos hsign, hsub, hadd,
        BitVec.eq_of_toNat_eq hval, Group.tokens, List.length_replicate]
      exact ⟨_, _, rfl, hafter, fillBits_spec hwidths htoken runLength hwrote⟩
  | literals ts =>
      rw [Group.tokens] at hpos hmost
      rw [Group.bits, List.append_assoc] at hreads
      obtain ⟨hlen, hnext⟩ := hreads.readNat hwidths.run (by omega)
      have hsign := @sign_clear runBits hwidths.run (BitPool.readBits runBits rd).1 (by omega)
      obtain ⟨hadd, hsub⟩ := count_spec hlen hpos (by omega)
      obtain ⟨hafter, hwrote'⟩ := copyBits_spec hwidths ts hok.small hnext hwrote
      simp only
      rw [if_neg (ne_end hwidths.run (by omega)), if_neg (not_not.mpr hsign), hsub, hadd]
      exact ⟨_, _, rfl, hafter, hwrote'⟩

/-- The loop takes the groups one after another, and gives their tokens. -/
theorem decompress_groups (hwidths : Widths tokenBits runBits) (turns : ℕ) (gs : List Group) :
    ∀ {rd w bits} {maxTokens : ℤ}, (∀ group ∈ gs, group.Ok tokenBits runBits) →
      Reads rd (gs.flatMap (Group.bits tokenBits runBits) ++ rest) → Written w bits →
      ((gs.flatMap Group.tokens).length : ℤ) ≤ maxTokens →
      ∃ rd' w', decompressLoop tokenBits runBits (gs.length + turns) maxTokens rd w =
          decompressLoop tokenBits runBits turns (maxTokens - (gs.flatMap Group.tokens).length) rd' w' ∧
        Reads rd' rest ∧
        Written w' (bits ++ (gs.flatMap Group.tokens).flatMap fun token =>
          Bits.ofNat tokenBits token.toNat) := by
  induction gs with
  | nil =>
      intro rd w bits maxTokens _ hreads hwrote _
      refine ⟨rd, w, ?_, hreads, ?_⟩
      · rw [List.length_nil, Nat.zero_add, List.flatMap_nil, List.length_nil, Nat.cast_zero, Int.sub_zero]
      · rwa [List.flatMap_nil, List.flatMap_nil, List.append_nil]
  | cons group gs ih =>
      intro rd w bits maxTokens hok hreads hwrote hmax
      rw [List.flatMap_cons, List.append_assoc] at hreads
      rw [List.flatMap_cons, List.length_append, Nat.cast_add] at hmax
      have hgroup := hok group List.mem_cons_self
      have hpos := List.length_pos_of_ne_nil hgroup.pos
      obtain ⟨rd', w', hturn, hreads', hwrote'⟩ :=
        decompressLoop_group hwidths hgroup hreads hwrote (gs.length + turns)
        (by omega : 0 < maxTokens)
      obtain ⟨rd'', w'', hloop, hreads'', hwrote''⟩ :=
        ih (fun x hx => hok x (List.mem_cons_of_mem _ hx)) hreads' hwrote'
        (Int.le_sub_left_of_add_le hmax)
      refine ⟨rd'', w'', ?_, hreads'', ?_⟩
      · rw [List.length_cons, Nat.add_right_comm, hturn, hloop, List.flatMap_cons,
          List.length_append, Nat.cast_add, Int.sub_sub]
      · rwa [List.flatMap_cons, List.flatMap_append, ← List.append_assoc]

/-- With no more tokens asked for, the loop ends. -/
theorem decompressLoop_none (turns : ℕ) (rd : Reader) (w : Writer) :
    decompressLoop tokenBits runBits (turns + 1) 0 rd w = some w := by
  rw [decompressLoop, if_pos (Int.le_refl 0)]

/-- With fewer bits left than a run width, the loop ends. -/
theorem decompressLoop_ended (hreads : Reads rd rest) (hlen : rest.length < runBits) (turns : ℕ)
    (maxTokens : ℤ) :
    decompressLoop tokenBits runBits (turns + 1) maxTokens rd w = some w := by
  rw [decompressLoop, hreads.ended hlen]
  simp

end Unpacked

/-! ## How much is written -/

section Total

variable {tokenBits runBits : ℕ} {w w' : Writer}

theorem total_fillBits (data : BitVec 64) (numBits cnt : ℕ) :
    ∀ w, w.size < 8 → total (fillBits data numBits cnt w) = total w + numBits * cnt ∧
      (fillBits data numBits cnt w).size < 8 := by
  induction cnt with
  | zero => exact fun w h => ⟨rfl, h⟩
  | succ cnt ih =>
      intro w _
      obtain ⟨htotal, hsize⟩ := total_writeBits data numBits w
      obtain ⟨hrest, hlast⟩ := ih (BitPool.writeBits data numBits w) (hsize ▸ Nat.mod_lt _ (by decide))
      refine ⟨?_, hlast⟩
      rw [fillBits, hrest, htotal, Nat.mul_succ]
      omega

theorem total_copyBits (numBits cnt : ℕ) : ∀ rd w, w.size < 8 →
    total (copyBits numBits cnt rd w).2 = total w + numBits * cnt ∧
      (copyBits numBits cnt rd w).2.size < 8 := by
  induction cnt with
  | zero => exact fun rd w h => ⟨rfl, h⟩
  | succ cnt ih =>
      intro rd w _
      obtain ⟨htotal, hsize⟩ := total_writeBits (BitPool.readBits numBits rd).1 numBits w
      obtain ⟨hrest, hlast⟩ := ih (BitPool.readBits numBits rd).2
        (BitPool.writeBits (BitPool.readBits numBits rd).1 numBits w) (hsize ▸ Nat.mod_lt _ (by decide))
      refine ⟨?_, hlast⟩
      rw [copyBits, hrest, htotal, Nat.mul_succ]
      omega

/-- The loop writes on, whatever it reads. -/
theorem total_decompressLoop (turns : ℕ) : ∀ {maxTokens : ℤ} {rd w}, w.size < 8 →
    decompressLoop tokenBits runBits turns maxTokens rd w = some w' → total w ≤ total w' ∧ w'.size < 8 := by
  induction turns with
  | zero =>
      intro maxTokens rd w _ h
      exact absurd h (by simp [decompressLoop])
  | succ turns ih =>
      intro maxTokens rd w hsize h
      rw [decompressLoop] at h
      simp only at h
      split_ifs at h with hmax hend hsign
      · obtain rfl := Option.some.inj h
        exact ⟨Nat.le_refl _, hsize⟩
      · obtain rfl := Option.some.inj h
        exact ⟨Nat.le_refl _, hsize⟩
      · obtain ⟨htotal, hnext⟩ := total_fillBits _ tokenBits _ w hsize
        obtain ⟨hle, hlast⟩ := ih hnext h
        exact ⟨by omega, hlast⟩
      · obtain ⟨htotal, hnext⟩ := total_copyBits tokenBits _ _ w hsize
        obtain ⟨hle, hlast⟩ := ih hnext h
        exact ⟨by omega, hlast⟩

/-- With a run width left, there is one more group of a token at the least. -/
theorem rest_writes (hwidths : Widths tokenBits runBits) {rd : Reader} {rest : List Bool}
    (hreads : Reads rd rest)
    (hlen : runBits ≤ rest.length) (hsize : w.size < 8) {maxTokens : ℤ} (hmax : 0 < maxTokens) {turns : ℕ}
    (h : decompressLoop tokenBits runBits turns maxTokens rd w = some w') :
    total w + tokenBits ≤ total w' ∧ w'.size < 8 := by
  have hpow : 2 ^ runBits ≤ 2 ^ 57 := Nat.pow_le_pow_right Nat.two_pos hwidths.run
  obtain ⟨hval, -⟩ := hreads.read hwidths.run hlen
  have hlt : (BitPool.readBits runBits rd).1.toNat < 2 ^ runBits := by
    have := Bits.toNat_lt (rest.take runBits)
    rw [List.length_take_of_le hlen] at this
    omega
  have hone : ∀ cnt : BitVec 64, cnt.toNat < 2 ^ 57 → tokenBits ≤ tokenBits * (cnt + 1).toNat := by
    intro cnt hcnt
    rw [(count_spec (n := cnt.toNat + 1) rfl (Nat.succ_pos _) hcnt).1]
    exact Nat.le_mul_of_pos_right _ (Nat.succ_pos _)
  cases turns with
  | zero => exact absurd h (by simp [decompressLoop])
  | succ turns =>
      rw [decompressLoop, if_neg (Int.not_le.mpr hmax)] at h
      simp only at h
      rw [if_neg (ne_end hwidths.run hlt)] at h
      split_ifs at h with hsign
      · have hand : ((BitPool.readBits runBits rd).1 &&& lengthMask runBits).toNat < 2 ^ 57 := by
          rw [BitVec.toNat_and]
          exact Nat.lt_of_le_of_lt Nat.and_le_left (Nat.lt_of_lt_of_le hlt hpow)
        have hcnt := hone _ hand
        obtain ⟨htotal, hnext⟩ :=
          total_fillBits (BitPool.readBits tokenBits (BitPool.readBits runBits rd).2).1 tokenBits
          (((BitPool.readBits runBits rd).1 &&& lengthMask runBits) + 1).toNat w hsize
        obtain ⟨hle, hlast⟩ := total_decompressLoop turns hnext h
        exact ⟨by omega, hlast⟩
      · have hcnt := hone _ (Nat.lt_of_lt_of_le hlt hpow)
        obtain ⟨htotal, hnext⟩ := total_copyBits tokenBits ((BitPool.readBits runBits rd).1 + 1).toNat
          (BitPool.readBits runBits rd).2 w hsize
        obtain ⟨hle, hlast⟩ := total_decompressLoop turns hnext h
        exact ⟨by omega, hlast⟩

end Total

/-! ## There and back -/

section RoundTrip

variable {tokenBits runBits : ℕ}

theorem readTokens_eq (hwidths : Widths tokenBits runBits) (turns : ℕ) :
    ∀ {rd ts}, Holds tokenBits rd ts → ts.length ≤ turns → readTokens tokenBits turns rd = ts := by
  induction turns with
  | zero =>
      intro rd ts _ hlen
      exact (List.eq_nil_of_length_eq_zero (Nat.le_zero.mp hlen)).symm
  | succ turns ih =>
      intro rd ts h hlen
      have hahead := h.ahead hwidths.tokenPos hwidths.token
      rw [readTokens]
      cases ts with
      | nil => exact if_pos hahead.1
      | cons token ts =>
          obtain ⟨hval, hsmall, hrest⟩ := hahead
          simp only [hval]
          rw [if_neg (ne_end hwidths.token hsmall), ih hrest (Nat.le_of_succ_le_succ hlen)]

theorem length_tokensOf_le (tokenBits : ℕ) (input : Str) :
    (tokensOf tokenBits (bitsOf input)).length ≤ 8 * input.length := by
  rw [length_tokensOf, length_bitsOf]
  exact Nat.div_le_self _ _

theorem tokens_eq (hwidths : Widths tokenBits runBits) (input : Str) :
    tokens tokenBits input = tokensOf tokenBits (bitsOf input) :=
  readTokens_eq hwidths _ ⟨_, reads_start input, rfl⟩ (length_tokensOf_le tokenBits input)

theorem tokens_small (hwidths : Widths tokenBits runBits) (input : Str) :
    ∀ token ∈ tokens tokenBits input, token.toNat < 2 ^ tokenBits := by
  rw [tokens_eq hwidths]
  exact tokensIn_small hwidths.token _ _

/-- The groups of the tokens of a stream. -/
def groupsOf (tokenBits runBits : ℕ) (input : Str) : List Group :=
  groups (2 ^ (runBits - 1)) [] (tokens tokenBits input)

/-- How many bits they are coded in. -/
def codedBits (tokenBits runBits : ℕ) (input : Str) : ℕ :=
  ((groupsOf tokenBits runBits input).map (Group.size tokenBits runBits)).sum

/-- What is compressed is the bits of the groups, and what fills the last byte. -/
theorem compress_spec (hwidths : Widths tokenBits runBits) (input : Str) : ∃ packed fill,
    rleCompress tokenBits runBits input = some packed ∧ fill.length < 8 ∧
      bitsOf packed = (groupsOf tokenBits runBits input).flatMap (Group.bits tokenBits runBits) ++ fill := by
  have hholds : Holds tokenBits (.start input) (tokensOf tokenBits (bitsOf input)) :=
    ⟨_, reads_start input, rfl⟩
  have hahead := hholds.ahead hwidths.tokenPos hwidths.token
  obtain ⟨w, hloop, hw⟩ := compressLoop_spec hwidths (8 * input.length + 1) hahead written_start
    (Nat.two_pow_pos _ : ([] : List (BitVec 64)).length < _) (fun _ h => absurd h List.not_mem_nil)
    (Nat.lt_succ_of_le (length_tokensOf_le tokenBits input))
  obtain ⟨fill, hfill, hbits⟩ := hw.flush
  refine ⟨(BitPool.flushBits w).out, fill, ?_, hfill, ?_⟩
  · rw [rleCompress]
    simp only [hloop, Option.map_some]
  · rw [hbits, groupsOf, tokens_eq hwidths, List.nil_append]

theorem length_bits_tokens (tokenBits : ℕ) (ts : List (BitVec 64)) :
    (ts.flatMap fun token => Bits.ofNat tokenBits token.toNat).length = tokenBits * ts.length := by
  induction ts with
  | nil => rfl
  | cons token ts ih => rw [List.flatMap_cons, List.length_append, Bits.length_ofNat, ih,
      List.length_cons, Nat.mul_succ, Nat.add_comm]

theorem Group.length_bits (tokenBits runBits : ℕ) (group : Group) :
    (group.bits tokenBits runBits).length = group.size tokenBits runBits := by
  cases group with
  | run runLength token => rw [Group.bits, List.length_append, Bits.length_ofNat, Bits.length_ofNat,
      Group.size]
  | literals ts => rw [Group.bits, List.length_append, Bits.length_ofNat, length_bits_tokens, Group.size]

theorem length_flatMap_bits (tokenBits runBits : ℕ) (gs : List Group) :
    (gs.flatMap (Group.bits tokenBits runBits)).length = (gs.map (Group.size tokenBits runBits)).sum := by
  rw [List.length_flatMap]
  exact congrArg List.sum (List.map_congr_left fun group _ => group.length_bits tokenBits runBits)

/-- Every group has a number before it. -/
theorem length_le_sum_size (hwidths : Widths tokenBits runBits) (gs : List Group) :
    gs.length ≤ (gs.map (Group.size tokenBits runBits)).sum := by
  induction gs with
  | nil => exact Nat.le_refl 0
  | cons group gs ih =>
      have hpos : 1 ≤ group.size tokenBits runBits := by
        cases group with
        | run _ _ => exact Nat.le_add_right_of_le hwidths.runPos
        | literals _ => exact Nat.le_add_right_of_le hwidths.runPos
      rw [List.length_cons, List.map_cons, List.sum_cons]
      omega

theorem groupsOf_tokens (tokenBits runBits : ℕ) (input : Str) :
    (groupsOf tokenBits runBits input).flatMap Group.tokens = tokens tokenBits input := by
  rw [groupsOf, groups_tokens, List.nil_append]

theorem groupsOf_ok (hwidths : Widths tokenBits runBits) (input : Str) :
    ∀ group ∈ groupsOf tokenBits runBits input, group.Ok tokenBits runBits :=
  groups_ok [] _ (Nat.two_pow_pos _) (fun _ h => absurd h List.not_mem_nil) (tokens_small hwidths input)

/-- What is packed is unpacked to its tokens, up to the bits that fill the last byte. -/
theorem unpack_spec (hwidths : Widths tokenBits runBits) (input : Str) {packed : Str} {fill : List Bool}
    (hpacked : bitsOf packed =
      (groupsOf tokenBits runBits input).flatMap (Group.bits tokenBits runBits) ++ fill)
    {maxTokens : ℤ} (hmax : ((tokens tokenBits input).length : ℤ) ≤ maxTokens) : ∃ turns rd w,
    decompressLoop tokenBits runBits (8 * packed.length + 1) maxTokens (.start packed) (.start []) =
      decompressLoop tokenBits runBits (turns + 1) (maxTokens - (tokens tokenBits input).length) rd w ∧
    Reads rd fill ∧ Written w
      ((tokens tokenBits input).flatMap fun token => Bits.ofNat tokenBits token.toNat) := by
  have htokens := groupsOf_tokens tokenBits runBits input
  have hlen := congrArg List.length hpacked
  have hcount := length_le_sum_size hwidths (groupsOf tokenBits runBits input)
  rw [length_bitsOf, List.length_append, length_flatMap_bits] at hlen
  obtain ⟨turns, hturns⟩ : ∃ turns,
    8 * packed.length + 1 = (groupsOf tokenBits runBits input).length + (turns + 1) :=
    ⟨8 * packed.length - (groupsOf tokenBits runBits input).length, by omega⟩
  obtain ⟨rd, w, hloop, hreads, hwrote⟩ :=
    decompress_groups hwidths (turns + 1) (groupsOf tokenBits runBits input)
    (groupsOf_ok hwidths input) (hpacked ▸ reads_start packed) written_start (htokens ▸ hmax)
  rw [htokens] at hloop hwrote
  exact ⟨turns, rd, w, hturns ▸ hloop, hreads, hwrote⟩

/-- How many bits fill the last byte after so many. -/
def fillLength (bits : ℕ) : ℕ := (8 - bits % 8) % 8

theorem length_fill {input packed : Str} {fill : List Bool} (hshort : fill.length < 8)
    (hpacked : bitsOf packed =
      (groupsOf tokenBits runBits input).flatMap (Group.bits tokenBits runBits) ++ fill) :
    fill.length = fillLength (codedBits tokenBits runBits input) := by
  have hlen := congrArg List.length hpacked
  rw [length_bitsOf, List.length_append, length_flatMap_bits] at hlen
  rw [fillLength, codedBits]
  omega

/-- Where the loop ends after the groups, the tokens come back. -/
theorem roundTrips_of_ends (hwidths : Widths tokenBits runBits) (input : Str) {packed : Str}
    {maxTokens : ℤ} {w : Writer}
    (hcompress : rleCompress tokenBits runBits input = some packed)
    (hloop : decompressLoop tokenBits runBits (8 * packed.length + 1) maxTokens (.start packed)
      (.start []) = some w)
    (hwrote : Written w ((tokens tokenBits input).flatMap fun token => Bits.ofNat tokenBits token.toNat)) :
    RoundTrips tokenBits runBits maxTokens input := by
  refine ⟨packed, (BitPool.flushBits w).out, hcompress, ?_, ?_⟩
  · rw [rleDecompress, hloop, Option.map_some]
  · obtain ⟨last, hlast, hbits⟩ := hwrote.flush
    -- the tokens of the input leave less than a token of it, and whole bytes of both are as many at the most
    have hcount : (tokens tokenBits input).length = 8 * input.length / tokenBits := by
      rw [tokens_eq hwidths, length_tokensOf, length_bitsOf]
    have hwhole := Nat.div_add_mod (8 * input.length) tokenBits
    have hpart := Nat.mod_lt (8 * input.length) hwidths.tokenPos
    have hlen := congrArg List.length hbits
    rw [length_bitsOf, List.length_append, length_bits_tokens, hcount] at hlen
    have hnone : last.length < tokenBits := by omega
    rw [tokens_eq hwidths, hbits, tokensOf_flatMap hwidths.tokenPos (tokens_small hwidths input),
      tokensOf_of_lt hnone, List.append_nil]

/-- Where the fill is shorter than a run width, the tokens come back. -/
theorem roundTrips_of_lt (hwidths : Widths tokenBits runBits) (input : Str) {maxTokens : ℤ}
    (hmax : ((tokens tokenBits input).length : ℤ) ≤ maxTokens)
    (hfill : fillLength (codedBits tokenBits runBits input) < runBits) :
    RoundTrips tokenBits runBits maxTokens input := by
  obtain ⟨packed, fill, hcompress, hshort, hpacked⟩ := compress_spec hwidths input
  obtain ⟨turns, rd, w, hloop, hreads, hwrote⟩ := unpack_spec hwidths input hpacked hmax
  rw [decompressLoop_ended hreads (length_fill hshort hpacked ▸ hfill)] at hloop
  exact roundTrips_of_ends hwidths input hcompress hloop hwrote

/-- Where no more tokens are asked for than there are, they come back. -/
theorem roundTrips_of_count (hwidths : Widths tokenBits runBits) (input : Str) :
    RoundTrips tokenBits runBits (tokens tokenBits input).length input := by
  obtain ⟨packed, fill, hcompress, hshort, hpacked⟩ := compress_spec hwidths input
  obtain ⟨turns, rd, w, hloop, hreads, hwrote⟩ := unpack_spec hwidths input hpacked (Int.le_refl _)
  rw [Int.sub_self, decompressLoop_none] at hloop
  exact roundTrips_of_ends hwidths input hcompress hloop hwrote

/-- Otherwise there is a token more. -/
theorem lt_of_roundTrips (hwidths : Widths tokenBits runBits) (input : Str) {maxTokens : ℤ}
    (hmax : ((tokens tokenBits input).length : ℤ) < maxTokens)
    (h : RoundTrips tokenBits runBits maxTokens input) :
    fillLength (codedBits tokenBits runBits input) < runBits := by
  obtain ⟨packed, fill, hcompress, hshort, hpacked⟩ := compress_spec hwidths input
  obtain ⟨turns, rd, w, hloop, hreads, hwrote⟩ := unpack_spec hwidths input hpacked hmax.le
  obtain ⟨packed', unpacked, hcompress', hdecompress, heq⟩ := h
  obtain rfl := Option.some.inj (hcompress.symm.trans hcompress')
  rw [← length_fill hshort hpacked]
  by_contra hge
  rw [rleDecompress, hloop] at hdecompress
  obtain ⟨w', hlast, rfl⟩ := Option.map_eq_some_iff.mp hdecompress
  have hsize : w.size < 8 := hwrote.size_lt
  obtain ⟨hmore, hsize'⟩ :=
    rest_writes hwidths hreads (Nat.le_of_not_lt hge) hsize (Int.sub_pos_of_lt hmax) hlast
  have hout := total_le_flushBits hsize'
  have htotal := hwrote.total_eq
  rw [length_bits_tokens] at htotal
  have hcount := congrArg List.length heq
  rw [tokens_eq hwidths (BitPool.flushBits w').out, length_tokensOf, length_bitsOf] at hcount
  have hgreater : (tokens tokenBits input).length + 1 ≤
    8 * (BitPool.flushBits w').out.length / tokenBits := by
    rw [Nat.le_div_iff_mul_le hwidths.tokenPos, Nat.succ_mul, Nat.mul_comm]
    omega
  omega

/-- With a run width of a byte or more, the tokens come back. -/
theorem roundTrips_of_byte (hwidths : Widths tokenBits runBits) (hbyte : 8 ≤ runBits) (input : Str)
    {maxTokens : ℤ}
    (hmax : ((tokens tokenBits input).length : ℤ) ≤ maxTokens) :
    RoundTrips tokenBits runBits maxTokens input :=
  roundTrips_of_lt hwidths input hmax (Nat.lt_of_lt_of_le (Nat.mod_lt _ (by decide)) hbyte)

end RoundTrip

/-- `+max_long`, the most tokens where none are said. -/
def maxLong : ℤ := 2 ^ 63 - 1

theorem widths_nibble : Widths 8 4 := ⟨by decide, by decide, by decide, by decide⟩

theorem codedBits_nibble : codedBits 8 4 [65] = 12 := by
  have htokens : tokens 8 [65] = [65] := by decide
  simp [codedBits, groupsOf, htokens, groups, takeRun, flushed, Group.size]

end ChrysaLisp.Rle
