import ChrysaLisp.Lisp.FormRead

set_option autoImplicit false

/-! # What is not read back

A list that begins with the symbol of a mark is printed as the mark and its second item. Where it is
not of two the text has fewer tokens than any that is read as the form. -/

namespace ChrysaLisp.Forms

/-! ## Tokens -/

/-- How many tokens a text is of, the end of it one more. -/
inductive Tokens : Str → ℕ → Prop
  | done {s : Str} (h : token (skip false s) = none) : Tokens s 1
  | next {s rest : Str} {t : Token} {n : ℕ} (h : token (skip false s) = some (t, rest))
      (hrest : Tokens rest n) : Tokens s (n + 1)

theorem Tokens.nil : Tokens [] 1 := .done rfl

theorem Tokens.pos {s : Str} {n : ℕ} (h : Tokens s n) : 0 < n := by
  cases h
  all_goals omega

theorem Tokens.of_next {s rest : Str} {t : Token} {n : ℕ} (h : Tokens s n)
    (ht : token (skip false s) = some (t, rest)) : ∃ m, n = m + 1 ∧ Tokens rest m := by
  cases h with
  | done hdone => rw [ht] at hdone; exact absurd hdone (by simp)
  | next hnext hrest =>
    rw [ht] at hnext
    obtain ⟨rfl, rfl⟩ := Prod.mk.inj (Option.some.inj hnext)
    exact ⟨_, rfl, hrest⟩

theorem Tokens.blank {s : Str} {n : ℕ} (h : Tokens s n) : Tokens (32 :: s) n := by
  cases h with
  | done hdone => exact .done (by rw [skip_blank le_rfl, hdone])
  | next hnext hrest => exact .next (by rw [skip_blank le_rfl, hnext]) hrest

theorem Lexes.tokens {text : Str} {f : Form} (h : Lexes text f) {rest : Str} {n : ℕ}
    (hend : Ended rest) (hrest : Tokens rest n) : Tokens (text ++ rest) (1 + n) := by
  rw [Nat.add_comm]
  exact .next (h rest hend) hrest

/-! ## The fewest a form is read from -/

mutual

def need : Form → ℕ
  | .list items => (if (markOf items).isSome ∧ items.length = 2 then 0 else 2) + needAll items
  | _ => 1

def needAll : List Form → ℕ
  | [] => 0
  | x :: rest => need x + needAll rest

end

@[simp] theorem needAll_append (items : List Form) (x : Form) :
    needAll (items ++ [x]) = needAll items + need x := by
  induction items with
  | nil => simp [needAll]
  | cons y items ih => rw [List.cons_append, needAll, needAll, ih, Nat.add_assoc]

theorem Atom.need_eq {f : Form} (h : Atom f) : need f = 1 := by
  cases h
  all_goals simp [need]

theorem need_list_le (items : List Form) : need (.list items) ≤ 2 + needAll items := by
  rw [need]
  split_ifs
  all_goals omega

theorem need_mark (m : Mark) (x : Form) : need (.list [.sym m.name, x]) = 1 + need x := by
  have hmark : (markOf [.sym m.name, x]).isSome := by cases m <;> rfl
  rw [need, if_pos ⟨hmark, rfl⟩]
  simp [needAll, need]

/-- What has been read for the lists that are open. -/
def taken : List (List Form) → List Form → ℕ
  | [], _ => 0
  | up :: stack, list => 1 + needAll list + taken stack up

theorem taken_append (stack : List (List Form)) (list up : List Form) (x : Form) :
    taken (up :: stack) (list ++ [x]) = taken (up :: stack) list + need x := by
  rw [taken, taken, needAll_append]
  omega

/-- The form there is nothing for is read from the end. -/
def atEnd (rest : Str) : ℕ := if rest = [] then 1 else 0

/-- The form that is read took as many tokens as it needs. -/
def ReadsFrom (stack : List (List Form)) (list : List Form) (n : ℕ) (r : Form × Str) : Prop :=
  ∃ k, Tokens r.2 k ∧ need r.1 + k ≤ taken stack list + n + atEnd r.2

theorem readLoop_nil (fuel : ℕ) (up : List Form) (stack : List (List Form)) (list : List Form) :
    readLoop fuel (up :: stack) list [] = none := by
  cases fuel <;> rfl

/-- An item that was read from `used` tokens, but one if the text came to its end. -/
theorem readsFrom_pushItem {fuel : ℕ} {stack : List (List Form)} {list : List Form} {item : Form}
    {s : Str} {r : Form × Str} {n k : ℕ}
    (ih : ∀ stack list s r n, readLoop fuel stack list s = some r → Tokens s n →
      ReadsFrom stack list n r)
    (h : pushItem (readLoop fuel) stack list item s = some r) (hs : Tokens s k)
    (hcount : need item + k ≤ n + atEnd s) : ReadsFrom stack list n r := by
  cases stack with
  | nil =>
    obtain rfl := Option.some.inj h
    exact ⟨k, hs, by rw [taken, Nat.zero_add]; exact hcount⟩
  | cons up stack =>
    have hne : s ≠ [] := by
      rintro rfl
      rw [pushItem, readLoop_nil] at h
      exact absurd h (by simp)
    obtain ⟨m, hm, hle⟩ := ih _ _ _ _ _ h hs
    rw [taken_append] at hle
    rw [atEnd, if_neg hne] at hcount
    exact ⟨m, hm, by omega⟩

theorem readLoop_readsFrom (fuel : ℕ) : ∀ (stack : List (List Form)) (list : List Form) (s : Str)
    (r : Form × Str) (n : ℕ), readLoop fuel stack list s = some r → Tokens s n →
    ReadsFrom stack list n r := by
  induction fuel with
  | zero => intro stack list s r n h; rw [readLoop] at h; exact absurd h (by simp)
  | succ fuel ih =>
    intro stack list s r n h hs
    cases htoken : token (skip false s) with
    | none =>
      rw [readLoop, htoken] at h
      dsimp only at h
      split_ifs at h
      obtain rfl := Option.some.inj h
      have hpos := hs.pos
      exact ⟨1, .nil, by rw [atom_symNil.need_eq, atEnd, if_pos rfl]; omega⟩
    | some p =>
      obtain ⟨t, rest⟩ := p
      obtain ⟨m, rfl, hrest⟩ := hs.of_next htoken
      cases t with
      | lrb =>
        rw [readLoop_lrb htoken] at h
        obtain ⟨k, hk, hle⟩ := ih _ _ _ _ _ h hrest
        rw [taken, needAll] at hle
        exact ⟨k, hk, by omega⟩
      | rrb =>
        cases stack with
        | nil => rw [readLoop, htoken] at h; exact absurd h (by simp)
        | cons up stack =>
          rw [readLoop_rrb htoken] at h
          have hlist := need_list_le list
          obtain ⟨k, hk, hle⟩ := readsFrom_pushItem ih (n := 2 + needAll list + m) h hrest (by omega)
          rw [ReadsFrom, taken]
          exact ⟨k, hk, by omega⟩
      | mark mk =>
        rw [readLoop_mark htoken] at h
        obtain ⟨x, hx, hpush⟩ := Option.bind_eq_some_iff.1 h
        obtain ⟨k, hk, hle⟩ := ih _ _ _ _ _ hx hrest
        rw [taken] at hle
        exact readsFrom_pushItem ih hpush hk (by rw [need_mark]; omega)
      | atom f =>
        cases f with
        | none => rw [readLoop, htoken] at h; exact absurd h (by simp)
        | some f =>
          rw [readLoop_atom htoken] at h
          exact readsFrom_pushItem ih h hrest (by rw [(atom_token htoken).need_eq]; omega)

/-! ## What is printed -/

mutual

/-- How many tokens a form is printed as. -/
def said : Form → ℕ
  | .list items =>
      match markOf items with
      | some _ => 1 + saidSecond items
      | none => 2 + saidAll items
  | _ => 1

def saidSecond : List Form → ℕ
  | [] => 0
  | [_] => 0
  | _ :: x :: _ => said x

def saidAll : List Form → ℕ
  | [] => 0
  | x :: rest => said x + saidAll rest

end

/-- What a form is printed as is so many tokens. -/
def PrintTokens (f : Form) : Prop :=
  ∀ (rest : Str) (n : ℕ), Ended rest → Tokens rest n → Tokens (print f ++ rest) (said f + n)

theorem Atom.printTokens {f : Form} (h : Atom f) : PrintTokens f := by
  intro rest n hend hrest
  have hsaid : said f = 1 := by
    cases h
    all_goals simp [said]
  rw [hsaid]
  exact h.lexes.tokens hend hrest

theorem tokens_items {items : List Form} (h : ∀ x ∈ items, PrintTokens x) {rest : Str} {n : ℕ}
    (hrest : Tokens rest n) : Tokens (printItems items ++ 41 :: rest) (saidAll items + (n + 1)) := by
  have hend : Ended (41 :: rest) := ended_cons (by decide) rest
  have hclosed : Tokens (41 :: rest) (n + 1) := .next (token_rrb rest) hrest
  induction items with
  | nil => rw [printItems, saidAll, Nat.zero_add]; exact hclosed
  | cons x items ih =>
    have hx := h x List.mem_cons_self
    cases items with
    | nil => rw [printItems, saidAll, saidAll, Nat.add_zero]; exact hx _ _ hend hclosed
    | cons y items =>
      have hitems := ih (fun x hx => h x (List.mem_cons_of_mem _ hx))
      rw [printItems, saidAll, Nat.add_assoc, List.append_assoc, List.cons_append]
      exact hx _ _ (ended_cons (by decide) _) hitems.blank

theorem tokens_second {items : List Form} (h : ∀ x ∈ items, PrintTokens x) {rest : Str} {n : ℕ}
    (hend : Ended rest) (hrest : Tokens rest n) :
    Tokens (printSecond items ++ rest) (saidSecond items + n) := by
  match items with
  | [] => rw [printSecond, saidSecond, Nat.zero_add]; exact hrest
  | [_] => rw [printSecond, saidSecond, Nat.zero_add]; exact hrest
  | _ :: x :: _ => rw [printSecond, saidSecond]; exact h x (by simp) rest n hend hrest

theorem printTokens (f : Form) (hvalid : Valid f) : PrintTokens f := by
  induction f using Form.induct with
  | num n => exact (Atom.num n).printTokens
  | str s => exact (Atom.str s).printTokens
  | sym name =>
    cases hvalid with
    | atom h => exact h.printTokens
  | list items ih =>
    have hitems : ∀ x ∈ items, PrintTokens x := fun x hx => ih x hx (hvalid.items x hx)
    intro rest n hend hrest
    cases hmark : markOf items with
    | some m =>
      have hcount : said (.list items) + n = saidSecond items + n + 1 := by
        rw [said, hmark]
        dsimp only
        omega
      rw [hcount, print, hmark]
      exact .next (token_mark m _) (tokens_second hitems hend hrest)
    | none =>
      have hcount : said (.list items) + n = saidAll items + (n + 1) + 1 := by
        rw [said, hmark]
        dsimp only
        omega
      rw [hcount, print, hmark]
      dsimp only
      rw [List.cons_append, List.append_assoc, List.singleton_append]
      exact .next (token_lrb _) (tokens_items hitems hrest)

/-! ## Printed short -/

theorem saidAll_le {items : List Form} (h : ∀ x ∈ items, said x ≤ need x) :
    saidAll items ≤ needAll items := by
  induction items with
  | nil => rw [saidAll, needAll]
  | cons x rest ih =>
    obtain ⟨hx, hrest⟩ := List.forall_mem_cons.1 h
    have := ih hrest
    rw [saidAll, needAll]
    omega

theorem saidAll_add_le {items : List Form} (h : ∀ x ∈ items, said x ≤ need x)
    (hshort : ∀ x ∈ items, ¬ Paired x → said x + 2 ≤ need x) (hpaired : ¬ PairedAll items) :
    saidAll items + 2 ≤ needAll items := by
  induction items with
  | nil => exact absurd trivial hpaired
  | cons x rest ih =>
    obtain ⟨hx, hrest⟩ := List.forall_mem_cons.1 h
    obtain ⟨hshort, hshorts⟩ := List.forall_mem_cons.1 hshort
    rw [saidAll, needAll]
    by_cases hp : Paired x
    · have := ih hrest hshorts (fun hall => hpaired ⟨hp, hall⟩)
      omega
    · have := hshort hp
      have := saidAll_le hrest
      omega

/-- A list that begins with the symbol of a mark, one of two apart. -/
theorem saidSecond_add_le {items : List Form} {m : Mark} (hmark : markOf items = some m)
    (h : ∀ x ∈ items, said x ≤ need x) (hlen : items.length ≠ 2) :
    1 + saidSecond items + 2 ≤ need (.list items) := by
  rw [need, if_neg (fun hpair => hlen hpair.2)]
  match items with
  | [] => exact absurd hmark (by simp [markOf])
  | [x] =>
    cases x with
    | sym name => simp [saidSecond, needAll, need]
    | num n => exact absurd hmark (by simp [markOf])
    | str s => exact absurd hmark (by simp [markOf])
    | list items => exact absurd hmark (by simp [markOf])
  | x :: y :: z :: rest =>
    have hx : need x = 1 := by
      cases x with
      | sym name => simp [need]
      | num n => exact absurd hmark (by simp [markOf])
      | str s => exact absurd hmark (by simp [markOf])
      | list items => exact absurd hmark (by simp [markOf])
    have hy := h y (by simp)
    rw [saidSecond, needAll, needAll, hx]
    omega

/-- No more is printed than what is needed, and two less where a list is printed short. -/
theorem said_le_need (f : Form) : said f ≤ need f ∧ (¬ Paired f → said f + 2 ≤ need f) := by
  induction f using Form.induct with
  | num n => simp [said, need, Paired]
  | str s => simp [said, need, Paired]
  | sym name => simp [said, need, Paired]
  | list items ih =>
    have hle : ∀ x ∈ items, said x ≤ need x := fun x hx => (ih x hx).1
    have hshort : ∀ x ∈ items, ¬ Paired x → said x + 2 ≤ need x := fun x hx => (ih x hx).2
    cases hmark : markOf items with
    | none =>
      have hneed : need (.list items) = 2 + needAll items := by rw [need, hmark]; rfl
      have hpaired : Paired (.list items) ↔ PairedAll items := by simp [Paired, hmark]
      rw [said, hmark, hneed, hpaired]
      have hall := saidAll_le hle
      exact ⟨by dsimp only; omega, fun hp => by have := saidAll_add_le hle hshort hp; dsimp only; omega⟩
    | some m =>
      have hsaid : said (.list items) = 1 + saidSecond items := by rw [said, hmark]
      rw [hsaid]
      by_cases hlen : items.length = 2
      · obtain ⟨x, rfl⟩ := markOf_pair hmark hlen
        have hpaired : Paired (.list [.sym m.name, x]) ↔ Paired x := by simp [Paired, PairedAll]
        obtain ⟨hx, hx2⟩ := ih x (by simp)
        rw [need_mark, saidSecond, hpaired]
        exact ⟨by omega, fun hp => by have := hx2 hp; omega⟩
      · have := saidSecond_add_le hmark hle hlen
        exact ⟨by omega, fun _ => this⟩

/-! ## Read back -/

theorem valid_of_read {text rest : Str} {f : Form} (h : read text = some (f, rest)) : Valid f :=
  valid_readLoop _ _ _ _ _ h (by simp)

theorem read_print {f : Form} (hvalid : Valid f) (hpaired : Paired f) :
    read (print f) = some (f, []) := by
  have h := printReads f hvalid hpaired 1 [] [] [] (f, []) ended_nil rfl
  rw [List.append_nil, Nat.add_comm] at h
  exact h

theorem read_print_ne {f : Form} (hvalid : Valid f) (hpaired : ¬ Paired f) (rest : Str) :
    read (print f) ≠ some (f, rest) := by
  intro h
  have htokens := printTokens f hvalid [] 1 ended_nil .nil
  rw [List.append_nil] at htokens
  obtain ⟨k, hk, hle⟩ := readLoop_readsFrom _ _ _ _ _ _ h htokens
  have hshort := (said_le_need f).2 hpaired
  have hpos := hk.pos
  have hend : atEnd rest ≤ 1 := by rw [atEnd]; split_ifs <;> omega
  rw [taken] at hle
  dsimp only at hle
  omega

/-- A form that is read is read from what is printed of it exactly when every list in it that begins
    with the symbol of a mark is of two. -/
theorem read_print_iff_paired (text rest : Str) (f : Form) (h : read text = some (f, rest)) :
    (read (print f)).map Prod.fst = some f ↔ Paired f := by
  have hvalid := valid_of_read h
  constructor
  · intro hread
    by_contra hpaired
    obtain ⟨r, hr, hfst⟩ := Option.map_eq_some_iff.1 hread
    obtain ⟨g, rest'⟩ := r
    obtain rfl : g = f := hfst
    exact read_print_ne hvalid hpaired rest' hr
  · intro hpaired
    rw [read_print hvalid hpaired]
    rfl

theorem read_print_iff_paired_quote :
    (read (print (.list [.sym (asc "quote"), .sym (asc "a")]))).map Prod.fst
      = some (.list [.sym (asc "quote"), .sym (asc "a")]) ↔
    Paired (.list [.sym (asc "quote"), .sym (asc "a")]) :=
  read_print_iff_paired (asc "(quote a)") [] _ rfl

/-- A third item is not printed. -/
theorem read_print_quote_three :
    ¬ ∀ (text rest : Str) (f : Form), read text = some (f, rest) →
      (read (print f)).map Prod.fst = some f := by
  intro h
  have hprint := h (asc "(quote a b)") [] (.list [.sym (asc "quote"), .sym (asc "a"), .sym (asc "b")]) rfl
  have hread : (read (print (.list [.sym (asc "quote"), .sym (asc "a"), .sym (asc "b")]))).map Prod.fst
      = some (.list [.sym (asc "quote"), .sym (asc "a")]) := rfl
  rw [hread] at hprint
  have hlist := Form.list.inj (Option.some.inj hprint)
  exact absurd (congrArg List.length hlist) (by simp)

end ChrysaLisp.Forms
