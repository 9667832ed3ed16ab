import ChrysaLisp.Library.Occurrences
import ChrysaLisp.Lisp.Str

set_option autoImplicit false

/-! # Searching for a string

`Substr` of `lib/text/substr.inc` and `Kmplps` of `lib/text/kmplps.inc`, both with a cache of the
patterns they have compiled. A match is a list of one pair of places, here the pair.

`Substr` finds the leftmost occurrences that have nothing in common (`substrSearch_leftmost`). `Kmplps`
finds nothing: what its `:compile` gives is the table alone, and its `:search` takes the pattern
from where the first number of the table is (`kmplps_never`). -/

namespace ChrysaLisp.Search

open Occurrences

/-! ## The cache -/

/-- `:meta_cache`. -/
abbrev Cache (μ : Type) := List (Str × μ)

/-- `:compile`: what is in the cache, or else what is made and put there. -/
def compile {μ : Type} (make : Str → μ) (cache : Cache μ) (pattern : Str) : μ × Cache μ :=
  match cache.lookup pattern with
  | some info => (info, cache)
  | none => (make pattern, (pattern, make pattern) :: cache)

/-- What is compiled after some other patterns. -/
def compileAfter {μ : Type} (make : Str → μ) (earlier : List Str) (pattern : Str) : μ :=
  (compile make (earlier.foldl (fun cache p => (compile make cache p).2) []) pattern).1

/-- What is in the cache is what would be made. -/
def Fresh {μ : Type} (make : Str → μ) (cache : Cache μ) : Prop :=
  ∀ pattern info, cache.lookup pattern = some info → info = make pattern

section Cached

variable {μ : Type} {make : Str → μ} {cache : Cache μ}

theorem Fresh.compile (h : Fresh make cache) (pattern : Str) :
    (compile make cache pattern).1 = make pattern ∧ Fresh make (compile make cache pattern).2 := by
  unfold Search.compile
  cases hfind : cache.lookup pattern with
  | some info => exact ⟨h pattern info hfind, h⟩
  | none =>
      refine ⟨rfl, fun p info hp => ?_⟩
      rw [List.lookup_cons] at hp
      split at hp
      · rename_i hsame
        rw [beq_iff_eq.mp hsame]
        exact (Option.some.inj hp).symm
      · exact h p info hp

theorem fresh_run (earlier : List Str) (h : Fresh make cache) :
    Fresh make (earlier.foldl (fun cache p => (compile make cache p).2) cache) := by
  induction earlier generalizing cache with
  | nil => exact h
  | cons p earlier ih => exact ih (h.compile p).2

theorem compileAfter_eq (make : Str → μ) (earlier : List Str) (pattern : Str) :
    compileAfter make earlier pattern = make pattern :=
  have hempty : Fresh make [] := fun _ _ h => absurd h.symm (Option.some_ne_none _)
  ((fresh_run earlier hempty).compile pattern).1

end Cached

/-! ## Substr -/

/-- `(find elem seq idx)`. -/
def findFrom (c : Byte) (text : Str) (j : ℕ) : Option ℕ := ((text.drop j).idxOf? c).map (j + ·)

theorem findFrom_eq_some {c : Byte} {text : Str} {j i : ℕ} (h : findFrom c text j = some i) :
    j ≤ i ∧ i < text.length ∧ ∀ k, j ≤ k → k < i → text[k]? ≠ some c := by
  obtain ⟨n, hn, rfl⟩ := Option.map_eq_some_iff.mp h
  obtain ⟨hlt, -, hbefore⟩ := List.idxOf?_eq_some_iff.mp hn
  rw [List.length_drop] at hlt
  refine ⟨Nat.le_add_right j n, by omega, fun k hk hki hat => ?_⟩
  obtain ⟨m, rfl⟩ := Nat.exists_eq_add_of_le hk
  have hat' : (text.drop j)[m]? = some c := by rwa [List.getElem?_drop]
  obtain ⟨hm, hget⟩ := List.getElem?_eq_some_iff.mp hat'
  exact hbefore m (by omega) hget

theorem findFrom_eq_none {c : Byte} {text : Str} {j : ℕ} (h : findFrom c text j = none) :
    ∀ k, j ≤ k → text[k]? ≠ some c := by
  intro k hk hat
  have hmem := List.idxOf?_eq_none_iff.mp (Option.map_eq_none_iff.mp h)
  obtain ⟨m, rfl⟩ := Nat.exists_eq_add_of_le hk
  rw [← List.getElem?_drop] at hat
  exact hmem (List.mem_of_getElem? hat)

/-- What `Substr` makes of a pattern. -/
def substrMake (pattern : Str) : List Str := [pattern]

/-- The loop of `:search`, for a pattern that begins with `c`. -/
def substrLoop (c : Byte) (p text : Str) (j : ℕ) (out : List (ℕ × ℕ)) : List (ℕ × ℕ) :=
  match hfind : findFrom c text j with
  | none => out
  | some i =>
      let j := i + (c :: p).length
      if j ≤ text.length then
        if (text.drop i).take (c :: p).length = c :: p then substrLoop c p text j (out ++ [(i, j)])
        else substrLoop c p text (i + 1) out
      else out
termination_by text.length - j
decreasing_by
  all_goals
    have hplace := findFrom_eq_some hfind
    simp only [List.length_cons] at *
    omega

/-- `Substr :search`, of a compiled pattern. -/
def substrSearch (text : Str) (info : List Str) : List (ℕ × ℕ) :=
  match info with
  | (c :: p) :: _ => if (c :: p).length ≤ text.length then substrLoop c p text 0 [] else []
  | _ => []

/-- The loop of `:match?`. With a match `j` is -1, the end of the text, where nothing more is found. -/
def substrMatchLoop (c : Byte) (p text : Str) (j : ℕ) : Bool :=
  match hfind : findFrom c text j with
  | none => false
  | some i =>
      if i + (c :: p).length ≤ text.length then
        if (text.drop i).take (c :: p).length = c :: p then true else substrMatchLoop c p text (i + 1)
      else false
termination_by text.length - j
decreasing_by
  have hplace := findFrom_eq_some hfind
  omega

/-- `Substr :match?`, of a compiled pattern. -/
def substrMatch (text : Str) (info : List Str) : Bool :=
  match info with
  | (c :: p) :: _ => if (c :: p).length ≤ text.length then substrMatchLoop c p text 0 else false
  | _ => false

/-- Before the first place the character is at, and where it is not, the pattern is not. -/
theorem not_at_before {c : Byte} {p text : Str} {j i : ℕ} (h : findFrom c text j = some i) :
    ∀ k, j ≤ k → k < i → ¬ At (c :: p) text k :=
  fun k hk hki hat => (findFrom_eq_some h).2.2 k hk hki hat.head

theorem not_at_of_none {c : Byte} {p text : Str} {j : ℕ} (h : findFrom c text j = none) :
    ∀ k, j ≤ k → ¬ At (c :: p) text k :=
  fun k hk hat => findFrom_eq_none h k hk hat.head

/-- The rest of the text is too short from there on. -/
theorem not_at_of_short {c : Byte} {p text : Str} {j i : ℕ} (h : findFrom c text j = some i)
    (hshort : ¬ i + (c :: p).length ≤ text.length) : ∀ k, j ≤ k → ¬ At (c :: p) text k := by
  intro k hk hat
  have hle := hat.le (List.cons_ne_nil c p)
  exact not_at_before h k hk (by omega) hat

/-- The loop adds the leftmost occurrences from its place on. -/
theorem substrLoop_spec (c : Byte) (p text : Str) (j : ℕ) (out : List (ℕ × ℕ)) :
    ∃ ms, substrLoop c p text j out = out ++ ms ∧ Leftmost (c :: p) text j ms := by
  fun_induction substrLoop c p text j out with
  | case1 j out hfind => exact ⟨[], (List.append_nil out).symm, .none (not_at_of_none hfind)⟩
  | case2 j out i hfind next hle hat ih =>
      obtain ⟨ms, hms, hleft⟩ := ih
      refine ⟨(i, next) :: ms, ?_, .next (findFrom_eq_some hfind).1 hat (not_at_before hfind) hleft⟩
      rw [hms, List.append_assoc, List.singleton_append]
  | case3 j out i hfind next hle hat ih =>
      obtain ⟨ms, hms, hleft⟩ := ih
      refine ⟨ms, hms, hleft.skip ((findFrom_eq_some hfind).1.trans (Nat.le_succ i)) fun k hk hki => ?_⟩
      rcases Nat.lt_succ_iff_lt_or_eq.mp hki with hlt | rfl
      · exact not_at_before hfind k hk hlt
      · exact hat
  | case4 j out i hfind next hle => exact ⟨[], (List.append_nil out).symm, .none (not_at_of_short hfind hle)⟩

theorem substrMatchLoop_spec (c : Byte) (p text : Str) (j : ℕ) :
    substrMatchLoop c p text j = true ↔ ∃ i, j ≤ i ∧ At (c :: p) text i := by
  fun_induction substrMatchLoop c p text j with
  | case1 j hfind =>
      rw [iff_false_left Bool.false_ne_true]
      exact fun ⟨k, hk, hat⟩ => not_at_of_none hfind k hk hat
  | case2 j i hfind hle hat => exact ⟨fun _ => ⟨i, (findFrom_eq_some hfind).1, hat⟩, fun _ => rfl⟩
  | case3 j i hfind hle hat ih =>
      rw [ih]
      constructor
      · rintro ⟨k, hk, hat'⟩
        exact ⟨k, (findFrom_eq_some hfind).1.trans ((Nat.le_succ i).trans hk), hat'⟩
      · rintro ⟨k, hk, hat'⟩
        refine ⟨k, Nat.lt_of_not_ge fun hki => ?_, hat'⟩
        rcases Nat.lt_or_eq_of_le hki with hlt | rfl
        · exact not_at_before hfind k hk hlt hat'
        · exact hat hat'
  | case4 j i hfind hle =>
      rw [iff_false_left Bool.false_ne_true]
      exact fun ⟨k, hk, hat⟩ => not_at_of_short hfind hle k hk hat

/-- A text shorter than the pattern does not have it. -/
theorem not_at_of_length {p text : Str} (hp : p ≠ []) (hlen : text.length < p.length) (k : ℕ) :
    ¬ At p text k :=
  fun hat => by
    have hle := hat.le hp
    omega

/-- `Substr` finds the leftmost occurrences that have nothing in common. -/
theorem substrSearch_leftmost {pattern : Str} (hp : pattern ≠ []) (text : Str) :
    Leftmost pattern text 0 (substrSearch text (substrMake pattern)) := by
  cases pattern with
  | nil => exact absurd rfl hp
  | cons c p =>
    rw [substrMake, substrSearch]
    split_ifs with hle
    · obtain ⟨ms, hms, hleft⟩ := substrLoop_spec c p text 0 []
      rwa [hms, List.nil_append]
    · exact .none fun k _ => not_at_of_length hp (Nat.lt_of_not_ge hle) k

theorem substrMatch_iff {pattern : Str} (hp : pattern ≠ []) (text : Str) :
    substrMatch text (substrMake pattern) = true ↔ substrSearch text (substrMake pattern) ≠ [] := by
  rw [(substrSearch_leftmost hp text).ne_nil_iff]
  cases pattern with
  | nil => exact absurd rfl hp
  | cons c p =>
    rw [substrMake, substrMatch]
    split_ifs with hle
    · exact substrMatchLoop_spec c p text 0
    · rw [false_iff]
      exact fun ⟨k, _, hat⟩ => not_at_of_length hp (Nat.lt_of_not_ge hle) k hat

/-! ## Kmplps -/

/-- What a list of the source holds here. -/
inductive Val where
  | num (n : ℕ)
  | str (s : Str)
deriving DecidableEq

/-- Why something has no value: an error of the code, or that the loop had not come to its end. -/
inductive Fault where
  | wrongTypes
  | notValidIndex
  | unfinished
deriving DecidableEq

/-- `(length seq)`. -/
def seqLength : Val → Except Fault ℕ
  | .str s => .ok s.length
  | .num _ => .error .wrongTypes

/-- `(elem-get seq idx)` of a string or what should be one. -/
def charAt : Val → Val → Except Fault Byte
  | .str s, .num k => (s[k]?).elim (.error .notValidIndex) .ok
  | _, _ => .error .wrongTypes

/-- The state of the loop of `:compile`: `i` is one past what the table has, `j` before it, and each number of
the table is no place after its own. -/
structure Table where
  j : ℕ
  i : ℕ
  info : List ℕ
  length_info : info.length = i
  j_lt : j < i
  info_le : ∀ k n : ℕ, info[k]? = some n → n ≤ k

/-- Before the loop. -/
def Table.start : Table where
  j := 0
  i := 1
  info := [0]
  length_info := rfl
  j_lt := Nat.zero_lt_one
  info_le k n h := by
    rw [List.mem_singleton.mp (List.mem_of_getElem? h)]
    exact Nat.zero_le k

/-- `(push info n)`, of the place `i`. -/
def Table.push (t : Table) (j n : ℕ) (hj : j ≤ t.i) (hn : n ≤ t.i) : Table where
  j := j
  i := t.i + 1
  info := t.info ++ [n]
  length_info := by rw [List.length_append, t.length_info, List.length_singleton]
  j_lt := Nat.lt_succ_of_le hj
  info_le k m h := by
    rcases Nat.lt_or_ge k t.info.length with hlt | hge
    · rw [List.getElem?_append_left hlt] at h
      exact t.info_le k m h
    · rw [List.getElem?_append_right hge] at h
      obtain ⟨hk, rfl⟩ := List.getElem?_eq_some_iff.mp h
      rw [List.length_singleton, Nat.lt_one_iff] at hk
      simp only [hk, List.getElem_singleton]
      exact hn.trans (t.length_info ▸ hge)

/-- `(elem-get info (dec j))`. -/
def Table.back (t : Table) (_hj : t.j ≠ 0) : ℕ :=
  t.info.get ⟨t.j - 1, by rw [t.length_info]; exact (Nat.sub_le _ _).trans_lt t.j_lt⟩

theorem Table.back_lt (t : Table) (hj : t.j ≠ 0) : t.back hj < t.j := by
  have hle : t.back hj ≤ t.j - 1 := t.info_le (t.j - 1) _ (List.getElem?_eq_getElem _)
  omega

/-- The loop of `:compile`. -/
def tableLoop (pattern : Str) (t : Table) : List ℕ :=
  if _hmore : t.info.length < pattern.length then
    if pattern[t.i]? = pattern[t.j]? then
      tableLoop pattern (t.push (t.j + 1) (t.j + 1) t.j_lt t.j_lt)
    else if hj : t.j = 0 then tableLoop pattern (t.push t.j 0 t.j_lt.le (Nat.zero_le _))
    else tableLoop pattern { t with j := t.back hj, j_lt := (t.back_lt hj).trans t.j_lt }
  else t.info
termination_by (pattern.length - t.info.length, t.j)
decreasing_by
  · apply Prod.Lex.left
    rw [Table.push, List.length_append, List.length_singleton]
    omega
  · apply Prod.Lex.left
    rw [Table.push, List.length_append, List.length_singleton]
    omega
  · exact Prod.Lex.right _ (t.back_lt hj)

/-- What `Kmplps` makes of a pattern. -/
def kmpMake (pattern : Str) : List Val := (tableLoop pattern .start).map .num

/-- The table has a number for each place of the pattern, none of them past its own place. -/
theorem tableLoop_spec (pattern : Str) (t : Table) (hlen : t.info.length ≤ max 1 pattern.length) :
    (tableLoop pattern t).length = max 1 pattern.length ∧
      ∀ k n : ℕ, (tableLoop pattern t)[k]? = some n → n ≤ k := by
  fun_induction tableLoop pattern t with
  | case1 t hmore hsame ih =>
      refine ih ?_
      rw [Table.push, List.length_append, List.length_singleton]
      omega
  | case2 t hmore hdiff hj ih =>
      refine ih ?_
      rw [Table.push, List.length_append, List.length_singleton]
      omega
  | case3 t hmore hdiff hj ih => exact ih hlen
  | case4 t hmore =>
      have hpos : 0 < t.info.length := t.length_info ▸ (Nat.zero_le _).trans_lt t.j_lt
      exact ⟨by omega, t.info_le⟩

/-- `meta` as it comes to `:search` and `:match?`. -/
inductive Info where
  | str (s : Str)
  | list (l : List Val)

/-- A string is put in a list. -/
def Info.toList : Info → List Val
  | .str s => [.str s]
  | .list l => l

/-- `(first info)`. -/
def first (info : List Val) : Except Fault Val := info.head?.elim (.error .notValidIndex) .ok

/-- `(elem-get info (dec k))`, as the next `k`. -/
def nextK (info : List Val) (k : ℕ) : Except Fault ℕ :=
  match info[k - 1]? with
  | some (.num n) => .ok n
  -- the string is the index of the next character, where it is an error
  | some (.str _) => .error .wrongTypes
  | none => .error .notValidIndex

/-- The loop of `Kmplps :search`, so many times round at most. -/
def kmpSearchLoop (text : Str) (sstr : Val) (m : ℕ) (info : List Val) :
    ℕ → (j k : ℕ) → List (ℕ × ℕ) → Except Fault (List (ℕ × ℕ))
  | 0, _, _, _ => .error .unfinished
  | fuel + 1, j, k, out =>
      if j < text.length then do
        let a ← charAt (.str text) (.num j)
        let b ← charAt sstr (.num k)
        if a = b then
          if m = k + 1 then kmpSearchLoop text sstr m info fuel (j + 1) 0 (out ++ [(j + 1 - (k + 1), j + 1)])
          else kmpSearchLoop text sstr m info fuel (j + 1) (k + 1) out
        else if k = 0 then kmpSearchLoop text sstr m info fuel (j + 1) k out
        else do
          let k ← nextK info k
          kmpSearchLoop text sstr m info fuel j k out
      else return out

/-- `Kmplps :search`. -/
def kmpSearch (fuel : ℕ) (text : Str) (info : Info) : Except Fault (List (ℕ × ℕ)) := do
  let sstr ← first info.toList
  let m ← seqLength sstr
  if m ≤ text.length then kmpSearchLoop text sstr m info.toList fuel 0 0 [] else return []

/-- The loop of `Kmplps :match?`: with a match `n` is -1, and that ends it. -/
def kmpMatchLoop (text : Str) (sstr : Val) (m : ℕ) (info : List Val) : ℕ → (j k : ℕ) → Except Fault Bool
  | 0, _, _ => .error .unfinished
  | fuel + 1, j, k =>
      if j < text.length then do
        let a ← charAt (.str text) (.num j)
        let b ← charAt sstr (.num k)
        if a = b then if m = k + 1 then return true else kmpMatchLoop text sstr m info fuel (j + 1) (k + 1)
        else if k = 0 then kmpMatchLoop text sstr m info fuel (j + 1) k
        else do
          let k ← nextK info k
          kmpMatchLoop text sstr m info fuel j k
      else return false

/-- `Kmplps :match?`. -/
def kmpMatch (fuel : ℕ) (text : Str) (info : Info) : Except Fault Bool := do
  let sstr ← first info.toList
  let m ← seqLength sstr
  if m ≤ text.length then kmpMatchLoop text sstr m info.toList fuel 0 0 else return false

/-! ## The two of them -/

/-- The first of a table is a number, and a number has no length. -/
theorem first_kmpMake (pattern : Str) : ∃ n, first (kmpMake pattern) = .ok (.num n) := by
  have hlen := (tableLoop_spec pattern .start (Nat.le_max_left 1 _)).1
  rw [kmpMake]
  cases htable : tableLoop pattern .start with
  | nil =>
      rw [htable, List.length_nil] at hlen
      omega
  | cons n table => exact ⟨n, rfl⟩

theorem kmpSearch_error (fuel : ℕ) (pattern text : Str) :
    kmpSearch fuel text (.list (kmpMake pattern)) = .error .wrongTypes := by
  obtain ⟨n, hn⟩ := first_kmpMake pattern
  rw [kmpSearch, Info.toList, hn]
  rfl

theorem kmpMatch_error (fuel : ℕ) (pattern text : Str) :
    kmpMatch fuel text (.list (kmpMake pattern)) = .error .wrongTypes := by
  obtain ⟨n, hn⟩ := first_kmpMake pattern
  rw [kmpMatch, Info.toList, hn]
  rfl

/-- The two searchers, with what each has compiled after some other patterns, give the leftmost
    occurrences that have nothing in common, and both say whether there are any. -/
def Agree (earlier : List Str) (pattern text : Str) : Prop :=
  ∃ ms, Leftmost pattern text 0 ms ∧
    substrSearch text (compileAfter substrMake earlier pattern) = ms ∧
    (∃ fuel, kmpSearch fuel text (.list (compileAfter kmpMake earlier pattern)) = .ok ms) ∧
    substrMatch text (compileAfter substrMake earlier pattern) = decide (ms ≠ []) ∧
    ∃ fuel, kmpMatch fuel text (.list (compileAfter kmpMake earlier pattern)) = .ok (decide (ms ≠ []))

/-- The half of it that is of `Substr`. -/
theorem substr_half (earlier : List Str) {pattern : Str} (hp : pattern ≠ []) (text : Str) :
    ∃ ms, Leftmost pattern text 0 ms ∧ substrSearch text (compileAfter substrMake earlier pattern) = ms ∧
      substrMatch text (compileAfter substrMake earlier pattern) = decide (ms ≠ []) := by
  refine ⟨_, substrSearch_leftmost hp text, ?_, ?_⟩
  · rw [compileAfter_eq]
  · rw [compileAfter_eq, Bool.eq_iff_iff, decide_eq_true_iff]
    exact substrMatch_iff hp text

/-- They agree on no pattern and no text: `Kmplps` has an error for each. -/
theorem kmplps_never (earlier : List Str) (pattern text : Str) : ¬ Agree earlier pattern text := by
  rintro ⟨ms, -, -, ⟨fuel, hsearch⟩, -⟩
  rw [compileAfter_eq, kmpSearch_error] at hsearch
  injection hsearch

/-- There are two to find in the same text, and `Kmplps` comes to an error. -/
theorem kmplps_error_ab :
    Leftmost (asc "ab") (asc "xabab") 0 [(1, 3), (3, 5)] ∧ ¬ Agree [] (asc "ab") (asc "xabab") := by
  refine ⟨?_, fun ⟨ms, _, _, ⟨fuel, hsearch⟩, _⟩ => ?_⟩
  · refine .next (i := 1) (Nat.zero_le 1) (by decide) (fun k _ hk => ?_)
      (.next (i := 3) le_rfl (by decide) (fun k hk hlt => absurd hk (Nat.not_le_of_lt hlt))
        (.none fun k hk => ?_))
    · rw [Nat.lt_one_iff.mp hk]
      decide
    · intro hat
      have hle : k + 2 ≤ 5 := hat.le (by decide)
      have hk : 5 ≤ k := hk
      omega
  · have herror := kmpSearch_error fuel (asc "ab") (asc "xabab")
    rw [compileAfter_eq, herror] at hsearch
    injection hsearch

end ChrysaLisp.Search
