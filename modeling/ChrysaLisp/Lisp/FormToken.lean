import ChrysaLisp.Lisp.Form
import ChrysaLisp.Lisp.Text

set_option autoImplicit false

/-! # What is printed is one token

A number, a string or a symbol that is printed, where what ends it comes next, is read as one item,
the same. -/

namespace ChrysaLisp.Forms

/-- What ends an item comes next, or nothing. -/
def Ended (s : Str) : Prop := ∀ c rest, s = c :: rest → endsSym c = true

theorem ended_nil : Ended [] := fun _ _ h => absurd h.symm (List.cons_ne_nil _ _)

theorem ended_cons {c : Byte} (h : endsSym c = true) (s : Str) : Ended (c :: s) := by
  rintro _ _ ⟨⟩
  exact h

/-- The text is read as an item, if it ends there. -/
def Lexes (text : Str) (f : Form) : Prop :=
  ∀ rest, Ended rest → token (skip false (text ++ rest)) = some (.atom (some f), rest)

/-! ## White space -/

@[simp] theorem skip_nil (comment : Bool) : skip comment [] = [] := by rw [skip]

theorem skip_blank {c : Byte} (h : c ≤ 32) (s : Str) : skip false (c :: s) = skip false s := by
  rw [skip, if_neg (by simp), if_pos h]

/-- Where there is nothing to go over. -/
theorem skip_cons {c : Byte} (h : ¬ c ≤ 32) (hc : c ≠ 59) (s : Str) : skip false (c :: s) = c :: s := by
  rw [skip, if_neg (by simp), if_neg h, if_neg hc]

/-- What is next is no white space and no comment. -/
theorem skip_head (comment : Bool) (s : Str) : ∀ c rest, skip comment s = c :: rest → ¬ c ≤ 32 ∧ c ≠ 59 := by
  induction s generalizing comment with
  | nil => simp
  | cons d s ih =>
    intro c rest h
    rw [skip] at h
    split_ifs at h with h1 h2 h3
    · exact ih _ c rest h
    · exact ih _ c rest h
    · exact ih _ c rest h
    · obtain ⟨rfl, rfl⟩ := List.cons.inj h
      exact ⟨h2, h3⟩

/-! ## Symbols -/

theorem takeWhile_append_of {p : Byte → Bool} {l rest : Str} (h : ∀ c ∈ l, p c = true)
    (hrest : ∀ c s, rest = c :: s → p c = false) :
    (l ++ rest).takeWhile p = l ∧ (l ++ rest).dropWhile p = rest := by
  rw [List.takeWhile_append_of_pos h, List.dropWhile_append_of_pos h]
  cases rest with
  | nil => simp
  | cons c s =>
    have hc := hrest c s rfl
    simp [hc]

theorem readSym_append {name rest : Str} (hname : ∀ c ∈ name, endsSym c = false) (hrest : Ended rest) :
    readSym (name ++ rest) = (name, rest) := by
  have hnext : ∀ c s, rest = c :: s → (!endsSym c) = false := fun c s hs => by simp [hrest c s hs]
  have hall : ∀ c ∈ name, (!endsSym c) = true := fun c hc => by simp [hname c hc]
  have hsplit := takeWhile_append_of hall hnext
  rw [readSym, hsplit.1, hsplit.2]

theorem endsSym_of_mem_readSym {s : Str} : ∀ c ∈ (readSym s).1, endsSym c = false := by
  intro c hc
  have := List.mem_takeWhile_imp hc
  simpa using this

/-- A char that begins a symbol, and nothing else. -/
def beginsSym (c : Byte) : Bool :=
  !endsSym c && decide (c ≠ 59) && !decide (48 ≤ c ∧ c ≤ 57) && decide (c ≠ 34) && decide (c ≠ 123) &&
    (marks.find? (fun m => m.char = c)).isNone && decide (c ≠ 45)

theorem token_sym {c : Byte} {s : Str} (h : beginsSym c = true) :
    token (c :: s) = some (.atom (some (.sym (readSym (c :: s)).1)), (readSym (c :: s)).2) := by
  simp only [beginsSym, endsSym, Bool.and_eq_true, Bool.not_eq_true', Bool.or_eq_false_iff,
    decide_eq_false_iff_not, decide_eq_true_eq, Option.isNone_iff_eq_none] at h
  obtain ⟨⟨⟨⟨⟨⟨⟨⟨-, h40⟩, h41⟩, -⟩, hdigit⟩, h34⟩, h123⟩, hmark⟩, h45⟩ := h
  rw [token, if_neg h40, if_neg h41, if_neg hdigit, if_neg h34, if_neg h123, hmark]
  dsimp only
  rw [if_neg h45]

theorem lexes_sym {c : Byte} {name : Str} (h : beginsSym c = true)
    (hname : ∀ d ∈ name, endsSym d = false) : Lexes (c :: name) (.sym (c :: name)) := by
  intro rest hrest
  have hc := h
  simp only [beginsSym, Bool.and_eq_true, Bool.not_eq_true', decide_eq_true_eq] at hc
  have hends := hc.1.1.1.1.1.1
  have hall : ∀ d ∈ c :: name, endsSym d = false := List.forall_mem_cons.2 ⟨hends, hname⟩
  have hblank : ¬ c ≤ 32 := by
    simp only [endsSym, Bool.or_eq_false_iff, decide_eq_false_iff_not] at hends
    exact hends.1.1
  rw [List.cons_append, skip_cons hblank hc.1.1.1.1.1.2, token_sym h, ← List.cons_append,
    readSym_append hall hrest]

/-- A minus is read as a number, or as the symbol it begins. -/
theorem token_minus (s : Str) :
    token (skip false (45 :: s)) = some (.atom (readNum (45 :: s)).1, (readNum (45 :: s)).2) := by
  rw [skip_cons (by decide) (by decide), token, if_neg (by decide), if_neg (by decide),
    if_neg (by decide), if_neg (by decide), if_neg (by decide),
    show marks.find? (fun m => m.char = 45) = none from rfl]
  rfl

theorem lt_digit_of_endsSym {c : Byte} (h : endsSym c = true) : ¬ 48 ≤ c := by
  simp only [endsSym, Bool.or_eq_true, decide_eq_true_eq] at h
  rcases h with (h | rfl) | rfl
  · exact fun hc => absurd (hc.trans h) (by decide)
  · decide
  · decide

theorem lexes_minus : Lexes [45] (.sym [45]) := by
  intro rest hrest
  rw [List.singleton_append, token_minus]
  cases rest with
  | nil => rfl
  | cons c rest =>
    have hc := hrest c rest rfl
    rw [readNum, if_pos rfl, if_neg (lt_digit_of_endsSym hc), if_pos hc]

theorem lexes_minus_cons {c : Byte} {name : Str} (h : ¬ 48 ≤ c)
    (hname : ∀ d ∈ c :: name, endsSym d = false) : Lexes (45 :: c :: name) (.sym (45 :: c :: name)) := by
  intro rest hrest
  have hc := hname c List.mem_cons_self
  rw [List.cons_append, token_minus, List.cons_append, readNum, if_pos rfl, if_neg h, if_neg (by simp [hc]),
    ← List.cons_append, readSym_append hname hrest]

/-! ## Strings -/

theorem escapes_eq : escCodes.zip escChars =
    [(13, 114), (12, 102), (11, 118), (10, 110), (9, 116), (34, 113), (8, 98), (92, 92)] := rfl

theorem escapes_facts : ∀ p ∈ escCodes.zip escChars,
    unescOf p.2 = some p.1 ∧ p.2 ≠ 120 ∧ p.2 ≠ 117 ∧ p.2 ≠ 34 := by
  rw [escapes_eq]
  simp only [List.forall_mem_cons]
  refine ⟨⟨rfl, ?_⟩, ⟨rfl, ?_⟩, ⟨rfl, ?_⟩, ⟨rfl, ?_⟩, ⟨rfl, ?_⟩, ⟨rfl, ?_⟩, ⟨rfl, ?_⟩, ⟨rfl, ?_⟩,
    fun _ h => absurd h List.not_mem_nil⟩
  all_goals decide

/-- A byte is written with a letter that is read as it, or as itself. -/
theorem escOf_cases (c : Byte) :
    (∃ e, escOf c = some e ∧ unescOf e = some c ∧ e ≠ 120 ∧ e ≠ 117 ∧ e ≠ 34) ∨
      (escOf c = none ∧ c ≠ 92 ∧ c ≠ 34) := by
  cases hesc : escOf c with
  | none => exact Or.inr ⟨rfl, by rintro rfl; exact absurd hesc (by decide),
      by rintro rfl; exact absurd hesc (by decide)⟩
  | some e =>
    obtain ⟨p, hp, rfl⟩ := Option.map_eq_some_iff.1 hesc
    have hc : p.1 = c := by simpa using List.find?_some hp
    have hfacts := escapes_facts p (List.mem_of_find?_eq_some hp)
    rw [hc] at hfacts
    exact Or.inl ⟨p.2, rfl, hfacts⟩

theorem unescape_cons {c : Byte} (h : c ≠ 92) (s : Str) : unescape (c :: s) = c :: unescape s := by
  rw [unescape.eq_def]
  exact if_pos h

theorem unescape_esc {e : Byte} (hx : e ≠ 120) (hu : e ≠ 117) (s : Str) :
    unescape (92 :: e :: s) = (unescOf e).getD e :: unescape s := by
  rw [unescape.eq_def]
  dsimp only
  rw [if_neg (by simp), if_neg (fun h => hx h.1), if_neg (fun h => hu h.1)]

theorem unescape_escape (s : Str) : unescape (escape s) = s := by
  induction s with
  | nil => rw [escape, List.flatMap_nil, unescape]
  | cons c s ih =>
    rw [escape, List.flatMap_cons]
    change unescape (_ ++ escape s) = _
    rcases escOf_cases c with ⟨e, hesc, hunesc, hx, hu, -⟩ | ⟨hesc, hback, -⟩
    · rw [hesc, List.cons_append, List.singleton_append, unescape_esc hx hu, hunesc, Option.getD_some,
        ih]
    · rw [hesc, List.singleton_append, unescape_cons hback, ih]

theorem quote_not_mem_escape (s : Str) : ∀ c ∈ escape s, c ≠ 34 := by
  intro c hc
  obtain ⟨d, -, hd⟩ := List.mem_flatMap.1 hc
  rcases escOf_cases d with ⟨e, hesc, -, -, -, he⟩ | ⟨hesc, -, hd34⟩
  · rw [hesc] at hd
    rcases List.mem_pair.1 hd with rfl | rfl
    · decide
    · exact he
  · rw [hesc] at hd
    rw [List.mem_singleton.1 hd]
    exact hd34

theorem lexes_str (s : Str) : Lexes (34 :: (escape s ++ [34])) (.str s) := by
  intro rest _
  have hall : ∀ c ∈ escape s, decide (c ≠ 34) = true := fun c hc =>
    decide_eq_true (quote_not_mem_escape s c hc)
  have hnext : ∀ c r, 34 :: rest = c :: r → decide (c ≠ 34) = false := by
    rintro c r ⟨⟩
    rfl
  have hsplit := takeWhile_append_of hall hnext
  rw [List.cons_append, List.append_assoc, List.singleton_append, skip_cons (by decide) (by decide),
    token, if_neg (by decide), if_neg (by decide), if_neg (by decide), if_pos rfl, readStr, hsplit.1,
    hsplit.2, unescape_escape]
  rfl

/-! ## Numbers -/

theorem isNumChar_of_isDigit {c : Byte} (h : isDigit c = true) : isNumChar c = true := by
  have hc : 48 ≤ c ∧ c ≤ 57 := by simpa [isDigit, Fin.le_def] using h
  simp [isNumChar, hc]

theorem isNumChar_of_endsSym {c : Byte} (h : endsSym c = true) : isNumChar c = false := by
  simp only [endsSym, Bool.or_eq_true, decide_eq_true_eq, Fin.le_def, Fin.ext_iff] at h
  simp only [isNumChar, Bool.or_eq_false_iff, decide_eq_false_iff_not, Fin.le_def, Fin.ext_iff]
  omega

/-- What a digit is read as. -/
theorem digit_facts : ∀ d, d < 10 →
    ((Fin.ofNat 256 (d + 48) : Byte).val ||| 32 = d + 48) ∧ (Fin.ofNat 256 (d + 48) : Byte) ≠ 46 ∧
      48 ≤ (Fin.ofNat 256 (d + 48) : Byte) ∧ (Fin.ofNat 256 (d + 48) : Byte) ≤ 57 := by
  decide

theorem toLong_digits (ds : List ℕ) (hlt : ∀ d ∈ ds, d < 10) (n : ℕ) :
    (ds.map (fun d => (Fin.ofNat 256 (d + 48) : Byte))).foldl (fun num c =>
      let c := c.val ||| 32
      num * 10 + ((if 97 ≤ c then c - 39 else c) - 48)) n =
        n * 10 ^ ds.length + Nat.ofDigits 10 ds.reverse := by
  induction ds generalizing n with
  | nil => simp
  | cons d ds ih =>
    have hd := hlt d List.mem_cons_self
    rw [List.map_cons, List.foldl_cons, ih (fun d hd => hlt d (List.mem_cons_of_mem _ hd))]
    dsimp only
    rw [(digit_facts d hd).1, if_neg (by omega), Nat.add_sub_cancel, List.reverse_cons,
      Nat.ofDigits_append, Nat.ofDigits_singleton, List.length_reverse, List.length_cons, pow_succ]
    ring

theorem toLong_strNum (n : ℕ) : toLong 10 (strNum n) = n := by
  obtain ⟨ds, -, hlt, hval, hstr⟩ := strNum_eq n
  rw [toLong, hstr, toLong_digits ds hlt, hval, zero_mul, zero_add]

/-- Decimal digits say no base. -/
theorem numBase_strNum (n : ℕ) : numBase (strNum n) = (10, strNum n) := by
  obtain ⟨ds, -, hlt, -, hstr⟩ := strNum_eq n
  rw [hstr]
  match ds with
  | [] => rfl
  | [_] => rfl
  | d :: e :: ds =>
    have he := (digit_facts e (hlt e (by simp))).1
    have hlt' := hlt e (by simp)
    rw [List.map_cons, List.map_cons, numBase, he, if_neg (by omega), if_neg (by omega), if_neg (by omega)]

theorem length_strNum {n : ℕ} (h : n < 2 ^ 64) : (strNum n).length ≤ 20 := by
  unfold strNum
  split_ifs with hn
  · simp
  · rw [List.length_map, List.length_reverse]
    exact (Nat.digits_length_le_iff (by decide) n).2 (h.trans (by decide))

theorem readDigits_strNum {n : ℕ} (h : n < 2 ^ 64) (minus : Bool) {rest : Str} (hrest : Ended rest) :
    readDigits minus (strNum n ++ rest) =
      (some (.num (if minus then -BitVec.ofNat 64 n else BitVec.ofNat 64 n)), rest) := by
  have hdigits : ∀ c ∈ strNum n, isNumChar c = true := fun c hc =>
    isNumChar_of_isDigit (isDigit_strNum n c hc)
  have hlen := length_strNum h
  have hbody : ((strNum n ++ rest).take 72).takeWhile isNumChar = strNum n := by
    rw [List.take_append, List.take_of_length_le (by omega)]
    refine (takeWhile_append_of hdigits (fun c s hs => ?_)).1
    cases rest with
    | nil => simp at hs
    | cons d rest =>
      obtain ⟨k, hk⟩ : ∃ k, 72 - (strNum n).length = k + 1 := ⟨71 - (strNum n).length, by omega⟩
      rw [hk, List.take_succ_cons] at hs
      obtain ⟨rfl, -⟩ := List.cons.inj hs
      exact isNumChar_of_endsSym (hrest d rest rfl)
  have hpoint : (46 : Byte) ∉ strNum n := not_mem_strNum (by decide) n
  have hwhole : ¬ (strNum n = [] ∨ (strNum n).any (fun c => decide (c = 46)) = true) := by
    simp [strNum_ne_nil, hpoint]
  rw [readDigits, hbody, numBase_strNum, toLong_strNum, List.drop_left]
  dsimp only
  rw [if_neg hwhole]

theorem readNum_of_ne {c : Byte} (h : c ≠ 45) (s : Str) :
    readNum (c :: s) = readDigits false (c :: s) := by
  rw [readNum.eq_def]
  exact if_neg h

theorem lexes_num (n : BitVec 64) : Lexes (printNum n) (.num n) := by
  intro rest hrest
  have hdigit : ∀ m : ℕ, ∃ c s, strNum m = c :: s ∧ isDigit c = true := by
    intro m
    obtain ⟨c, s, hs⟩ := List.exists_cons_of_ne_nil (strNum_ne_nil m)
    exact ⟨c, s, hs, isDigit_strNum m c (hs ▸ List.mem_cons_self)⟩
  have hle : ∀ c : Byte, isDigit c = true → 48 ≤ c ∧ c ≤ 57 := fun c hc => by
    simpa [isDigit, Fin.le_def] using hc
  unfold printNum
  split_ifs with hneg
  · obtain ⟨c, s, hs, hc⟩ := hdigit (-n).toNat
    rw [List.cons_append, token_minus, hs, List.cons_append, readNum, if_pos rfl, if_pos (hle c hc).1,
      ← List.cons_append, ← hs, readDigits_strNum (-n).isLt true hrest, if_pos rfl, BitVec.ofNat_toNat,
      BitVec.setWidth_eq, BitVec.neg_neg]
  · obtain ⟨c, s, hs, hc⟩ := hdigit n.toNat
    obtain ⟨hlow, hhigh⟩ := hle c hc
    have hblank : ¬ c ≤ 32 := fun h => absurd (hlow.trans h) (by decide)
    have h59 : c ≠ 59 := by rintro rfl; exact absurd hhigh (by decide)
    have h40 : c ≠ 40 := by rintro rfl; exact absurd hlow (by decide)
    have h41 : c ≠ 41 := by rintro rfl; exact absurd hlow (by decide)
    have h45 : c ≠ 45 := by rintro rfl; exact absurd hlow (by decide)
    rw [hs, List.cons_append, skip_cons hblank h59, token, if_neg h40, if_neg h41,
      if_pos ⟨hlow, hhigh⟩, readNum_of_ne h45, ← List.cons_append, ← hs,
      readDigits_strNum n.isLt false hrest, if_neg (by simp), BitVec.ofNat_toNat, BitVec.setWidth_eq]

end ChrysaLisp.Forms
