import ChrysaLisp.Lisp.FormToken

set_option autoImplicit false

/-! # Printed forms read back

What `:repl_print` prints of a form that was read is read as that form, but for lists that begin
with the symbol of a mark and are not of two, which are printed with fewer tokens than any text has
that they are read from. -/

namespace ChrysaLisp.Forms

/-- Induction over a form: a list, if it is so of all it holds. -/
theorem Form.induct {P : Form → Prop} (num : ∀ n, P (.num n)) (str : ∀ s, P (.str s))
    (sym : ∀ name, P (.sym name)) (list : ∀ items, (∀ x ∈ items, P x) → P (.list items)) (f : Form) :
    P f :=
  @Form.rec P (fun items => ∀ x ∈ items, P x) num str sym list
    (fun _ h => absurd h List.not_mem_nil) (fun _ _ hx hrest => List.forall_mem_cons.2 ⟨hx, hrest⟩) f

/-- A form that is one token, as its name is if it is a symbol. -/
inductive Atom : Form → Prop
  | num (n : BitVec 64) : Atom (.num n)
  | str (s : Str) : Atom (.str s)
  | sym {name : Str} (h : Lexes name (.sym name)) : Atom (.sym name)

/-- A form whose symbols are read as what they are. -/
inductive Valid : Form → Prop
  | atom {f : Form} (h : Atom f) : Valid f
  | list {items : List Form} (h : ∀ x ∈ items, Valid x) : Valid (.list items)

theorem Atom.lexes {f : Form} (h : Atom f) : Lexes (print f) f := by
  cases h with
  | num n => rw [print]; exact lexes_num n
  | str s => rw [print]; exact lexes_str s
  | sym h => rw [print]; exact h

theorem Valid.items {items : List Form} (h : Valid (.list items)) : ∀ x ∈ items, Valid x := by
  cases h with
  | atom h => nomatch h
  | list h => exact h

mutual

/-- Every list in it that begins with the symbol of a mark is of two. -/
def Paired : Form → Prop
  | .list items => (markOf items ≠ none → items.length = 2) ∧ PairedAll items
  | _ => True

def PairedAll : List Form → Prop
  | [] => True
  | x :: rest => Paired x ∧ PairedAll rest

end

theorem pairedAll_iff {items : List Form} : PairedAll items ↔ ∀ x ∈ items, Paired x := by
  induction items with
  | nil => simp [PairedAll]
  | cons x rest ih => rw [PairedAll, ih, List.forall_mem_cons]

/-! ## A turn of the loop -/

section Turn

variable {fuel : ℕ} {stack : List (List Form)} {list up : List Form} {s rest : Str}

theorem readLoop_lrb (h : token (skip false s) = some (.lrb, rest)) :
    readLoop (fuel + 1) stack list s = readLoop fuel (list :: stack) [] rest := by
  rw [readLoop, h]

theorem readLoop_rrb (h : token (skip false s) = some (.rrb, rest)) :
    readLoop (fuel + 1) (up :: stack) list s =
      pushItem (readLoop fuel) stack up (.list list) rest := by
  rw [readLoop, h]

theorem readLoop_mark {m : Mark} (h : token (skip false s) = some (.mark m, rest)) :
    readLoop (fuel + 1) stack list s = (readLoop fuel [] [] rest).bind fun r =>
      pushItem (readLoop fuel) stack list (.list [.sym m.name, r.1]) r.2 := by
  rw [readLoop, h]

theorem readLoop_atom {f : Form} (h : token (skip false s) = some (.atom (some f), rest)) :
    readLoop (fuel + 1) stack list s = pushItem (readLoop fuel) stack list f rest := by
  rw [readLoop, h]
  rfl

end Turn

theorem pushItem_mono {next next' : List (List Form) → List Form → Str → Option (Form × Str)}
    (h : ∀ stack list s r, next stack list s = some r → next' stack list s = some r)
    {stack : List (List Form)} {list : List Form} {item : Form} {s : Str} {r : Form × Str}
    (hr : pushItem next stack list item s = some r) : pushItem next' stack list item s = some r := by
  cases stack with
  | nil => exact hr
  | cons up stack => exact h _ _ _ _ hr

/-- More turns read the same. -/
theorem readLoop_succ (fuel : ℕ) : ∀ (stack : List (List Form)) (list : List Form) (s : Str)
    (r : Form × Str), readLoop fuel stack list s = some r → readLoop (fuel + 1) stack list s = some r := by
  induction fuel with
  | zero => intro stack list s r h; rw [readLoop] at h; exact absurd h (by simp)
  | succ fuel ih =>
    intro stack list s r h
    cases htoken : token (skip false s) with
    | none => rw [readLoop, htoken] at h ⊢; exact h
    | some p =>
      obtain ⟨t, rest⟩ := p
      cases t with
      | lrb =>
        rw [readLoop_lrb htoken] at h ⊢
        exact ih _ _ _ _ h
      | rrb =>
        cases stack with
        | nil => rw [readLoop, htoken] at h; exact absurd h (by simp)
        | cons up stack =>
          rw [readLoop_rrb htoken] at h ⊢
          exact pushItem_mono ih h
      | mark m =>
        rw [readLoop_mark htoken] at h ⊢
        obtain ⟨x, hx, hpush⟩ := Option.bind_eq_some_iff.1 h
        rw [ih _ _ _ _ hx, Option.bind_some]
        exact pushItem_mono ih hpush
      | atom f =>
        cases f with
        | none => rw [readLoop, htoken] at h; exact absurd h (by simp)
        | some f =>
          rw [readLoop_atom htoken] at h ⊢
          exact pushItem_mono ih h

theorem readLoop_mono {fuel fuel' : ℕ} (hle : fuel ≤ fuel') {stack : List (List Form)}
    {list : List Form} {s : Str} {r : Form × Str} (h : readLoop fuel stack list s = some r) :
    readLoop fuel' stack list s = some r := by
  induction hle with
  | refl => exact h
  | step _ ih => exact readLoop_succ _ _ _ _ _ ih

/-! ## What is printed is read -/

theorem token_lrb (s : Str) : token (skip false (40 :: s)) = some (.lrb, s) := rfl

theorem token_rrb (s : Str) : token (skip false (41 :: s)) = some (.rrb, s) := rfl

theorem token_mark (m : Mark) (s : Str) : token (skip false (m.char :: s)) = some (.mark m, s) := by
  cases m <;> rfl

theorem Lexes.ne_nil {text : Str} {f : Form} (h : Lexes text f) : text ≠ [] := by
  rintro rfl
  have hnil := h [] ended_nil
  rw [List.nil_append, skip_nil] at hnil
  exact absurd hnil (by simp [token])

/-- A list that begins with the symbol of a mark, and is of two. -/
theorem markOf_pair {items : List Form} {m : Mark} (h : markOf items = some m)
    (hlen : items.length = 2) : ∃ x, items = [.sym m.name, x] := by
  match items with
  | [first, x] =>
    cases first with
    | sym name =>
      have hname : m.name = name := by simpa using List.find?_some h
      exact ⟨x, by rw [hname]⟩
    | num n => exact absurd h (by simp [markOf])
    | str s => exact absurd h (by simp [markOf])
    | list items => exact absurd h (by simp [markOf])

/-- What reading a form as it is printed comes to. -/
def PrintReads (f : Form) : Prop :=
  ∀ (fuel : ℕ) (stack : List (List Form)) (list : List Form) (rest : Str) (r : Form × Str),
    Ended rest → pushItem (readLoop fuel) stack list f rest = some r →
    readLoop (fuel + (print f).length) stack list (print f ++ rest) = some r

theorem Atom.printReads {f : Form} (hatom : Atom f) : PrintReads f := by
  have h := hatom.lexes
  intro fuel stack list rest r hrest hpush
  obtain ⟨n, hn⟩ : ∃ n, (print f).length = n + 1 :=
    Nat.exists_eq_succ_of_ne_zero (fun h0 => h.ne_nil (List.length_eq_zero_iff.1 h0))
  rw [hn, ← Nat.add_assoc, readLoop_atom (h rest hrest)]
  exact pushItem_mono (fun _ _ _ _ => readLoop_mono (Nat.le_add_right fuel n)) hpush

theorem readLoop_blank (fuel : ℕ) (stack : List (List Form)) (list : List Form) (s : Str) :
    readLoop fuel stack list (32 :: s) = readLoop fuel stack list s := by
  cases fuel with
  | zero => rfl
  | succ fuel => rw [readLoop, readLoop, skip_blank le_rfl]

theorem readLoop_items {items : List Form} (h : ∀ x ∈ items, PrintReads x) (fuel : ℕ)
    (up : List Form) (stack : List (List Form)) (list : List Form) (rest : Str) (r : Form × Str)
    (hr : readLoop fuel (up :: stack) (list ++ items) (41 :: rest) = some r) :
    readLoop (fuel + (printItems items).length) (up :: stack) list (printItems items ++ 41 :: rest)
      = some r := by
  have hend : Ended (41 :: rest) := ended_cons (by decide) rest
  induction items generalizing list with
  | nil => simpa [printItems] using hr
  | cons x items ih =>
    cases items with
    | nil => exact h x List.mem_cons_self fuel (up :: stack) list (41 :: rest) r hend hr
    | cons y items =>
      have hitems := ih (fun x hx => h x (List.mem_cons_of_mem _ hx)) (list ++ [x]) (by simpa using hr)
      have hblank : readLoop (fuel + (printItems (y :: items)).length) (up :: stack) (list ++ [x])
          (32 :: (printItems (y :: items) ++ 41 :: rest)) = some r := by
        rw [readLoop_blank]
        exact hitems
      have hx := h x List.mem_cons_self _ (up :: stack) list _ r (ended_cons (by decide) _) hblank
      rw [printItems, List.append_assoc, List.cons_append]
      refine readLoop_mono ?_ hx
      rw [List.length_append, List.length_cons]
      omega

theorem printReads (f : Form) (hvalid : Valid f) (hpaired : Paired f) : PrintReads f := by
  induction f using Form.induct with
  | num n => exact (Atom.num n).printReads
  | str s => exact (Atom.str s).printReads
  | sym name =>
    cases hvalid with
    | atom h => exact h.printReads
  | list items ih =>
    have hvalid := hvalid.items
    obtain ⟨hlen, hall⟩ := hpaired
    rw [pairedAll_iff] at hall
    intro fuel stack list rest r hrest hpush
    cases hmark : markOf items with
    | some m =>
      obtain ⟨x, rfl⟩ := markOf_pair hmark (hlen (by simp [hmark]))
      have hx := ih x (by simp) (hvalid x (by simp)) (hall x (by simp)) fuel [] [] rest (x, rest)
        hrest rfl
      have hprint : print (.list [.sym m.name, x]) = m.char :: print x := by
        rw [print, hmark]
        rfl
      rw [hprint, List.length_cons, ← Nat.add_assoc, List.cons_append, readLoop_mark (token_mark m _), hx,
        Option.bind_some]
      exact pushItem_mono (fun _ _ _ _ => readLoop_mono (Nat.le_add_right fuel _)) hpush
    | none =>
      have hprint : print (.list items) = 40 :: (printItems items ++ [41]) := by rw [print, hmark]
      have hclosed : readLoop (fuel + 1) (list :: stack) ([] ++ items) (41 :: rest) = some r := by
        rw [readLoop_rrb (token_rrb rest)]
        exact hpush
      have hitems := readLoop_items (fun x hx => ih x hx (hvalid x hx) (hall x hx)) (fuel + 1) list stack
        [] rest r hclosed
      rw [hprint, List.length_cons, ← Nat.add_assoc, List.cons_append, readLoop_lrb (token_lrb _),
        List.append_assoc, List.singleton_append]
      refine readLoop_mono ?_ hitems
      rw [List.length_append, List.length_singleton]
      omega

/-! ## What is read is valid -/

theorem lexes_plain {c : Byte} {name : Str} (h : beginsSym c = true)
    (hname : name.all (fun d => !endsSym d) = true) : Lexes (c :: name) (.sym (c :: name)) :=
  lexes_sym h (fun d hd => by simpa using List.all_eq_true.1 hname d hd)

theorem valid_mark (m : Mark) : Valid (.sym m.name) := by
  cases m
  all_goals exact .atom (.sym (lexes_plain rfl rfl))

theorem atom_symNil : Atom symNil := .sym (lexes_plain rfl rfl)

theorem atom_readDigits {minus : Bool} {s : Str} {f : Form} (h : (readDigits minus s).1 = some f) :
    Atom f := by
  rw [readDigits] at h
  dsimp only at h
  split_ifs at h
  · obtain rfl := Option.some.inj h
    exact .num _
  · obtain rfl := Option.some.inj h
    exact .num _

theorem readSym_cons {c : Byte} (h : endsSym c = false) (s : Str) :
    (readSym (c :: s)).1 = c :: (readSym s).1 := by
  change List.takeWhile _ _ = _
  rw [List.takeWhile_cons, h]
  rfl

theorem atom_readNum {s : Str} {f : Form} (h : (readNum s).1 = some f) : Atom f := by
  cases s with
  | nil => exact absurd h (by simp [readNum])
  | cons first rest =>
    by_cases hminus : first = 45
    · subst hminus
      cases rest with
      | nil =>
        obtain rfl := Option.some.inj h
        exact .sym lexes_minus
      | cons c rest =>
        rw [readNum, if_pos rfl] at h
        split_ifs at h with hdigit hend
        · exact atom_readDigits h
        · obtain rfl := Option.some.inj h
          exact .sym lexes_minus
        · obtain rfl := Option.some.inj h
          have hend : endsSym c = false := by simpa using hend
          rw [readSym_cons hend]
          exact .sym (lexes_minus_cons hdigit
            (List.forall_mem_cons.2 ⟨hend, endsSym_of_mem_readSym⟩))
    · rw [readNum_of_ne hminus] at h
      exact atom_readDigits h

theorem atom_token {s rest : Str} {f : Form}
    (h : token (skip false s) = some (.atom (some f), rest)) : Atom f := by
  have hskip := skip_head false s
  generalize skip false s = t at h hskip
  cases t with
  | nil => exact absurd h (by simp [token])
  | cons c t =>
    obtain ⟨hblank, h59⟩ := hskip c t rfl
    rw [token] at h
    by_cases h40 : c = 40
    · rw [if_pos h40] at h
      exact absurd (Prod.mk.inj (Option.some.inj h)).1 (by simp)
    by_cases h41 : c = 41
    · rw [if_neg h40, if_pos h41] at h
      exact absurd (Prod.mk.inj (Option.some.inj h)).1 (by simp)
    rw [if_neg h40, if_neg h41] at h
    by_cases hdigit : 48 ≤ c ∧ c ≤ 57
    · rw [if_pos hdigit] at h
      exact atom_readNum (Token.atom.inj (Prod.mk.inj (Option.some.inj h)).1)
    rw [if_neg hdigit] at h
    by_cases h34 : c = 34
    · rw [if_pos h34] at h
      obtain rfl := Option.some.inj (Token.atom.inj (Prod.mk.inj (Option.some.inj h)).1)
      exact .str _
    by_cases h123 : c = 123
    · rw [if_neg h34, if_pos h123] at h
      obtain rfl := Option.some.inj (Token.atom.inj (Prod.mk.inj (Option.some.inj h)).1)
      exact .str _
    rw [if_neg h34, if_neg h123] at h
    cases hmark : marks.find? (fun m => m.char = c) with
    | some m =>
      rw [hmark] at h
      exact absurd (Prod.mk.inj (Option.some.inj h)).1 (by simp)
    | none =>
      rw [hmark] at h
      dsimp only at h
      by_cases h45 : c = 45
      · rw [if_pos h45] at h
        exact atom_readNum (Token.atom.inj (Prod.mk.inj (Option.some.inj h)).1)
      · rw [if_neg h45] at h
        obtain rfl := Option.some.inj (Token.atom.inj (Prod.mk.inj (Option.some.inj h)).1)
        have hend : endsSym c = false := by simp [endsSym, hblank, h40, h41]
        have hbegins : beginsSym c = true := by
          simp only [beginsSym, hend, hmark]
          simp [h59, hdigit, h34, h123, h45]
        rw [readSym_cons hend]
        exact .sym (lexes_sym hbegins endsSym_of_mem_readSym)

theorem valid_pushItem {fuel : ℕ} {stack : List (List Form)} {list : List Form} {item : Form}
    {s : Str} {r : Form × Str}
    (ih : ∀ (stack : List (List Form)) (list : List Form) (s : Str) (r : Form × Str),
      readLoop fuel stack list s = some r → (∀ l ∈ list :: stack, ∀ x ∈ l, Valid x) → Valid r.1)
    (h : pushItem (readLoop fuel) stack list item s = some r)
    (hall : ∀ l ∈ list :: stack, ∀ x ∈ l, Valid x) (hitem : Valid item) : Valid r.1 := by
  cases stack with
  | nil =>
    obtain rfl := Option.some.inj h
    exact hitem
  | cons up stack =>
    refine ih _ _ _ _ h (List.forall_mem_cons.2 ⟨fun x hx => ?_, (List.forall_mem_cons.1 hall).2⟩)
    rcases List.mem_append.1 hx with hx | hx
    · exact hall list List.mem_cons_self x hx
    · rw [List.mem_singleton.1 hx]
      exact hitem

theorem valid_readLoop (fuel : ℕ) : ∀ (stack : List (List Form)) (list : List Form) (s : Str)
    (r : Form × Str), readLoop fuel stack list s = some r → (∀ l ∈ list :: stack, ∀ x ∈ l, Valid x) →
    Valid r.1 := by
  induction fuel with
  | zero => intro stack list s r h; rw [readLoop] at h; exact absurd h (by simp)
  | succ fuel ih =>
    intro stack list s r h hall
    cases htoken : token (skip false s) with
    | none =>
      rw [readLoop, htoken] at h
      dsimp only at h
      split_ifs at h
      obtain rfl := Option.some.inj h
      exact .atom atom_symNil
    | some p =>
      obtain ⟨t, rest⟩ := p
      cases t with
      | lrb =>
        rw [readLoop_lrb htoken] at h
        exact ih _ _ _ _ h (List.forall_mem_cons.2 ⟨by simp, hall⟩)
      | rrb =>
        cases stack with
        | nil => rw [readLoop, htoken] at h; exact absurd h (by simp)
        | cons up stack =>
          rw [readLoop_rrb htoken] at h
          obtain ⟨hlist, hup⟩ := List.forall_mem_cons.1 hall
          exact valid_pushItem ih h hup (.list hlist)
      | mark m =>
        rw [readLoop_mark htoken] at h
        obtain ⟨x, hx, hpush⟩ := Option.bind_eq_some_iff.1 h
        have hvalid := ih _ _ _ _ hx (by simp)
        refine valid_pushItem ih hpush hall (.list (List.forall_mem_cons.2 ⟨valid_mark m, ?_⟩))
        exact List.forall_mem_cons.2 ⟨hvalid, by simp⟩
      | atom f =>
        cases f with
        | none => rw [readLoop, htoken] at h; exact absurd h (by simp)
        | some f =>
          rw [readLoop_atom htoken] at h
          exact valid_pushItem ih h hall (.atom (atom_token htoken))

end ChrysaLisp.Forms
