import ChrysaLisp.Text.RegexpSpans
import Mathlib.Data.Fintype.EquivFin
import Mathlib.Logic.Relation

set_option autoImplicit false

/-! # Where a search ends

A turn of the closure goes from a split to all of its offsets, whether it has been there before or
not. So it ends for every text where no walk through the splits comes back to where it was
(`ends_of_noRound`), and of `(a?)*` it goes round for ever (`loop_never_ends`). -/

namespace ChrysaLisp.Regexp

/-! ## Settling -/

/-- From so many turns on it is the same, and not for want of turns. -/
def Settles {α : Type} (x : ℕ → Run α) : Prop := ∃ n r, r ≠ .error .turns ∧ ∀ turns, n ≤ turns → x turns = r

theorem settles_const {α : Type} {r : Run α} (hr : r ≠ .error .turns) : Settles fun _ => r :=
    ⟨0, r, hr, fun _ _ => rfl⟩

theorem settles_ok {α : Type} (a : α) : Settles fun _ => (.ok a : Run α) := settles_const (by simp)

theorem settles_thrown {α : Type} : Settles fun _ => (.error .thrown : Run α) := settles_const (by simp)

theorem Settles.bind {α β : Type} {x : ℕ → Run α} {f : ℕ → α → Run β} (hx : Settles x)
    (hf : ∀ a, Settles fun turns => f turns a) : Settles fun turns => x turns >>= f turns := by
  obtain ⟨n, r, hr, hsame⟩ := hx
  cases r with
  | error e =>
      refine ⟨n, .error e, fun h => hr (by rw [Except.error.inj h]), fun turns hturns => ?_⟩
      change x turns >>= f turns = _
      rw [hsame turns hturns]
      rfl
  | ok a =>
      obtain ⟨m, r, hr, hrest⟩ := hf a
      refine ⟨max n m, r, hr, fun turns hturns => ?_⟩
      change x turns >>= f turns = _
      rw [hsame turns (by omega)]
      exact hrest turns (by omega)

/-- One turn more. -/
theorem Settles.succ {α : Type} {x y : ℕ → Run α} (hx : Settles x)
    (h : ∀ turns, y (turns + 1) = x turns) : Settles y := by
  obtain ⟨n, r, hr, hsame⟩ := hx
  refine ⟨n + 1, r, hr, fun turns hturns => ?_⟩
  obtain ⟨turns, rfl⟩ := Nat.exists_eq_add_of_le' (Nat.le_trans (Nat.le_add_left 1 n) hturns)
  rw [h]
  exact hsame turns (Nat.le_of_succ_le_succ hturns)

/-! ## Walks through splits -/

/-- How far an offset goes, if it does. -/
def Offset.value : Offset → ℤ
  | .num n => n
  | _ => 1

/-- From a split to what one of its offsets goes to. -/
def Steps (prog : List Elem) (i j : ℕ) : Prop :=
  ∃ offsets o, prog[i]? = some ⟨none, offsets⟩ ∧ o ∈ offsets ∧ (j : ℤ) = i + o.value

/-- No walk through the splits comes back to where it was. -/
def NoRound (prog : List Elem) : Prop := ∀ i, ¬ Relation.TransGen (Steps prog) i i

section Steps

variable {prog : List Elem}

theorem Steps.lt {i j : ℕ} (h : Steps prog i j) : i < prog.length := by
  obtain ⟨offsets, o, helem, -⟩ := h
  exact (List.getElem?_eq_some_iff.mp helem).1

/-- So what holds of an element where it holds of those that it goes to holds of all. -/
theorem NoRound.induct (h : NoRound prog) {P : ℕ → Prop}
    (hstep : ∀ i, (∀ j, Steps prog i j → P j) → P i) (i : ℕ) : P i := by
  have hlast : ∀ i, prog.length ≤ i → P i := fun i hi =>
    hstep i fun j hj => absurd hj.lt (Nat.not_lt.mpr hi)
  let later (a b : Fin prog.length) : Prop := Relation.TransGen (Steps prog) b a
  have htrans : IsTrans (Fin prog.length) later := ⟨fun _ _ _ hab hbc => hbc.trans hab⟩
  have hirrefl : Std.Irrefl later := ⟨fun a => h a⟩
  have hwf := Finite.wellFounded_of_trans_of_irrefl later
  have hin : ∀ i : Fin prog.length, P i := fun i => hwf.induction i fun i ih => hstep i fun j hj => by
    rcases Nat.lt_or_ge j prog.length with hlt | hge
    · exact ih ⟨j, hlt⟩ (.single hj)
    · exact hlast j hge
  rcases Nat.lt_or_ge i prog.length with hlt | hge
  · exact hin ⟨i, hlt⟩
  · exact hlast i hge

end Steps

/-! ## The closure -/

section Closure

variable {prog : List Elem} {here : Place}

theorem evalOffset_value {trace trace' : List ℕ} {o : Offset} {offset : ℤ}
    (h : evalOffset here trace o = .ok (some offset, trace')) : offset = o.value := by
  cases o with
  | num n => exact (Option.some.inj (Prod.mk.inj (Except.ok.inj h)).1).symm
  | assert c =>
      have hvalue := (Prod.mk.inj (Except.ok.inj h)).1
      split_ifs at hvalue
      exact (Option.some.inj hvalue).symm
  | lrb label => exact (Option.some.inj (Prod.mk.inj (Except.ok.inj h)).1).symm
  | rrb label =>
      rw [evalOffset] at h
      split_ifs at h
      exact (Option.some.inj (Prod.mk.inj (Except.ok.inj h)).1).symm

theorem evalOffset_ne_turns (here : Place) (trace : List ℕ) (o : Offset) :
    evalOffset here trace o ≠ .error .turns := by
  cases o with
  | num n => simp [evalOffset]
  | assert c => simp [evalOffset]
  | lrb label => simp [evalOffset]
  | rrb label =>
      rw [evalOffset]
      split_ifs <;> simp

/-- What is pushed is what the offsets of the split go to. -/
theorem pushOffsets_spec (offset : ℤ) (offsets : List Offset) : ∀ {stack stack' trace trace'},
    pushOffsets here offset offsets stack trace = .ok (stack', trace') →
      ∃ pushed, stack' = pushed ++ stack ∧ ∀ p ∈ pushed, ∃ o ∈ offsets, p = .num (offset + o.value) := by
  induction offsets with
  | nil =>
      intro stack stack' trace trace' h
      obtain ⟨rfl, -⟩ := Prod.mk.inj (Except.ok.inj h)
      exact ⟨[], rfl, fun _ h => absurd h List.not_mem_nil⟩
  | cons o offsets ih =>
      intro stack stack' trace trace' h
      obtain ⟨⟨value, trace''⟩, heval, hrest⟩ := bind_eq_ok.mp h
      obtain ⟨pushed, rfl, hpushed⟩ := ih hrest
      have hlater : ∀ p ∈ pushed, ∃ o' ∈ o :: offsets, p = .num (offset + o'.value) := by
        intro p hp
        obtain ⟨o', ho', heq⟩ := hpushed p hp
        exact ⟨o', List.mem_cons_of_mem _ ho', heq⟩
      cases value with
      | none => exact ⟨pushed, rfl, hlater⟩
      | some n =>
          refine ⟨pushed ++ [.num (offset + n)], by simp, fun p hp => ?_⟩
          rcases List.mem_append.mp hp with hold | hnew
          · exact hlater p hold
          · rw [List.mem_singleton.mp hnew, evalOffset_value heval]
            exact ⟨o, List.mem_cons_self, rfl⟩

theorem bind_ne_turns {α β : Type} {x : Run α} {f : α → Run β} (hx : x ≠ .error .turns)
    (hf : ∀ a, f a ≠ .error .turns) :
    x >>= f ≠ .error .turns := by
  cases x with
  | error e => exact fun h => hx (by rw [Except.error.inj h])
  | ok a => exact hf a

theorem pushOffsets_ne_turns (here : Place) (offset : ℤ) (offsets : List Offset) : ∀ stack trace,
    pushOffsets here offset offsets stack trace ≠ .error .turns := by
  induction offsets with
  | nil => simp [pushOffsets]
  | cons o offsets ih =>
      intro stack trace
      exact bind_ne_turns (evalOffset_ne_turns here trace o) fun p => ih _ _

theorem insertTurn_ne_turns (index : ℤ) (o : Offset) (stack : List Offset) (c : Closure) :
    insertTurn prog here index o stack c ≠ .error .turns := by
  refine bind_ne_turns (evalOffset_ne_turns here c.trace o) fun p => ?_
  obtain ⟨value, trace⟩ := p
  cases value with
  | none => simp
  | some offset =>
      simp only
      split_ifs
      · simp
      · simp
      · split
        · simp
        · simp
        · exact bind_ne_turns (pushOffsets_ne_turns here offset _ _ _) fun p => by simp

/-- Whatever is below it on the stack, if that comes to an end then so does what there is with it. -/
def Passes (prog : List Elem) (here : Place) (index : ℤ) (o : Offset) : Prop :=
  ∀ stack, (∀ c, Settles fun turns => insertLoop prog here index turns stack c) →
    ∀ c, Settles fun turns => insertLoop prog here index turns (o :: stack) c

theorem settles_stack {index : ℤ} {pushed stack : List Offset}
    (hpushed : ∀ o ∈ pushed, Passes prog here index o)
    (hstack : ∀ c, Settles fun turns => insertLoop prog here index turns stack c) :
    ∀ c, Settles fun turns => insertLoop prog here index turns (pushed ++ stack) c := by
  induction pushed with
  | nil => exact hstack
  | cons o pushed ih =>
      obtain ⟨ho, hrest⟩ := List.forall_mem_cons.mp hpushed
      exact ho _ (ih hrest)

section Loop

variable {index : ℤ} {o : Offset} {stack stack' : List Offset} {c c' : Closure}

theorem insertLoop_error {e : Halt} (h : insertTurn prog here index o stack c = .error e) (turns : ℕ) :
    insertLoop prog here index (turns + 1) (o :: stack) c = .error e := by
  rw [insertLoop, h]
  rfl

theorem insertLoop_matched (h : insertTurn prog here index o stack c = .ok (.matched c')) (turns : ℕ) :
    insertLoop prog here index (turns + 1) (o :: stack) c = .ok (c', true) := by
  rw [insertLoop, h]
  rfl

theorem insertLoop_goesOn (h : insertTurn prog here index o stack c = .ok (.goesOn stack' c')) (turns : ℕ) :
    insertLoop prog here index (turns + 1) (o :: stack) c = insertLoop prog here index turns stack' c' := by
  rw [insertLoop, h]
  rfl

end Loop

/-- An entry passes where those that are pushed for it do. -/
theorem passes_of_pushed {index : ℤ} {o : Offset} (h : 0 ≤ index + o.value → ∀ offsets,
    prog[(index + o.value).toNat]? = some ⟨none, offsets⟩ → ∀ o' ∈ offsets,
      Passes prog here index (.num (o.value + o'.value))) : Passes prog here index o := by
  intro stack hstack c
  cases hturn : insertTurn prog here index o stack c with
  | error e =>
      have he : (.error e : Run (Closure × Bool)) ≠ .error .turns := fun h =>
        insertTurn_ne_turns index o stack c (hturn.trans (congrArg _ (Except.error.inj h)))
      exact (settles_const he).succ fun turns => insertLoop_error hturn turns
  | ok turn =>
      obtain ⟨value, trace, heval, hcases⟩ := insertTurn_cases hturn
      rcases hcases with ⟨-, rfl⟩ | ⟨offset, rfl, hpos, ⟨-, rfl⟩ | ⟨test, offsets, -, rfl⟩ |
        ⟨offsets, stack', trace', helem, hpush, rfl⟩⟩
      · exact (hstack _).succ fun turns => insertLoop_goesOn hturn turns
      · exact (settles_ok _).succ fun turns => insertLoop_matched hturn turns
      · exact (hstack _).succ fun turns => insertLoop_goesOn hturn turns
      · obtain ⟨pushed, rfl, hpushed⟩ := pushOffsets_spec offset offsets hpush
        refine (settles_stack (fun p hp => ?_) hstack _).succ fun turns => insertLoop_goesOn hturn turns
        obtain ⟨o', ho', rfl⟩ := hpushed p hp
        rw [evalOffset_value heval] at hpos helem ⊢
        exact h hpos offsets helem o' ho'

/-- Where no walk comes back, every entry passes. -/
theorem NoRound.passes (h : NoRound prog) (index : ℤ) (o : Offset) : Passes prog here index o := by
  have hall : ∀ i : ℕ, ∀ o : Offset, index + o.value = i → Passes prog here index o := by
    refine h.induct fun i ih o ho => passes_of_pushed fun _ offsets helem o' ho' => ?_
    rw [ho, Int.toNat_natCast] at helem
    have hgoes : index + (Offset.num (o.value + o'.value)).value = i + o'.value := by
      rw [Offset.value, ← ho, Int.add_assoc]
    rcases Int.lt_or_le ((i : ℤ) + o'.value) 0 with hneg | hpos
    · refine passes_of_pushed fun hpos => absurd hpos ?_
      rw [hgoes]
      exact Int.not_le.mpr hneg
    · obtain ⟨j, hj⟩ := Int.eq_ofNat_of_zero_le hpos
      exact ih j ⟨offsets, o', helem, ho', hj.symm⟩ _ (hgoes.trans hj)
  rcases Int.lt_or_le (index + o.value) 0 with hneg | hpos
  · exact passes_of_pushed fun hpos => absurd hpos (Int.not_le.mpr hneg)
  · obtain ⟨i, hi⟩ := Int.eq_ofNat_of_zero_le hpos
    exact hall i o hi

theorem NoRound.insertelem_settles (h : NoRound prog) (here : Place) (next : List (List ℕ))
    (seen : List ℕ) (trace : List ℕ)
    (elem : Elem) : Settles fun turns => insertelem prog here turns next seen trace elem := by
  have hempty : ∀ c, Settles fun turns => insertLoop prog here (trace.getLastD 0) turns [] c := fun c =>
    (settles_ok (c, false)).succ fun _ => rfl
  have hpasses : ∀ o ∈ elem.offsets.reverse, Passes prog here (trace.getLastD 0) o := fun o _ =>
    h.passes (trace.getLastD 0) o
  have hall := settles_stack hpasses hempty
  rw [List.append_nil] at hall
  exact hall ⟨next, seen, trace⟩

end Closure

/-! ## The search -/

section Search

variable {prog : List Elem}

theorem NoRound.firstelem_settles (h : NoRound prog) (here : Place) :
    Settles fun turns => firstelem prog here turns := by
  unfold firstelem
  split
  · exact settles_thrown
  · split_ifs
    · exact settles_ok _
    · exact (h.insertelem_settles here _ _ _ _).bind fun _ => settles_ok _

theorem NoRound.stepThreads_settles (h : NoRound prog) (here : Place) (current : List (List ℕ)) : ∀ next seen,
    Settles fun turns => stepThreads prog here turns current next seen := by
  induction current with
  | nil => exact fun _ _ => settles_ok _
  | cons tr current ih =>
      intro next seen
      simp only [stepThreads]
      split
      · exact settles_thrown
      · split_ifs
        · refine (h.insertelem_settles here _ _ _ _).bind fun p => ?_
          obtain ⟨c, matched⟩ := p
          cases matched with
          | true => exact settles_ok _
          | false => exact ih _ _
        · exact ih _ _

theorem NoRound.searchLoop_settles (h : NoRound prog) (text rest : Str) : ∀ k current found,
    Settles fun turns => searchLoop prog text turns rest k current found := by
  induction rest with
  | nil => exact fun _ _ _ => settles_ok _
  | cons s rest ih =>
      intro k current found
      refine (h.stepThreads_settles ⟨text, k + 1, s⟩ current _ _).bind fun p => ?_
      obtain ⟨next, matched⟩ := p
      simp only
      split_ifs
      · exact settles_ok _
      · exact ih _ _ _

theorem NoRound.search_settles (h : NoRound prog) (text : Str) (start : ℕ) :
    Settles fun turns => search prog text turns start :=
  (h.firstelem_settles _).bind fun _ => (h.searchLoop_settles text _ _ _ _).bind fun _ => settles_ok _

theorem le_bskipn (cls text : Str) (j : ℕ) : j ≤ bskipn cls text j := Nat.le_add_right _ _

theorem le_bskip (cls text : Str) (j : ℕ) : j ≤ bskip cls text j := Nat.le_add_right _ _

theorem le_of_skipBy {text : Str} {skip : ℕ → ℕ} (h : skipBy prog text = some skip) (j : ℕ) : j ≤ skip j := by
  unfold skipBy at h
  split at h
  · rw [← Option.some.inj h]
    exact le_bskipn _ _ _
  · rw [← Option.some.inj h]
    exact le_bskip _ _ _
  · exact absurd h (by simp)

/-- A scan goes on by a character at the least. -/
theorem NoRound.scan_settles (h : NoRound prog) (text : Str) {skip : ℕ → ℕ}
    (hskip : ∀ j, j ≤ skip j) (left : ℕ) :
    ∀ j out, text.length - j < left → Settles fun turns => scan prog text turns skip left j out := by
  induction left with
  | zero => exact fun _ _ hj => absurd hj (Nat.not_lt_zero _)
  | succ left ih =>
      intro j out hj
      have hle := hskip j
      simp only [scan]
      split_ifs with hlt
      · refine (h.search_settles text (skip j)).bind fun p => ?_
        obtain ⟨l, stop⟩ := p
        simp only
        by_cases hfound : (skip j : ℤ) ≤ stop
        · simp only [if_pos hfound]
          refine ih _ _ ?_
          split_ifs <;> omega
        · simp only [if_neg hfound]
          exact ih _ _ (by omega)
      · exact settles_ok _

theorem NoRound.scanAny_settles (h : NoRound prog) (text : Str) {skip : ℕ → ℕ}
    (hskip : ∀ j, j ≤ skip j) (left : ℕ) :
    ∀ j, text.length - j < left → Settles fun turns => scanAny prog text turns skip left j := by
  induction left with
  | zero => exact fun _ hj => absurd hj (Nat.not_lt_zero _)
  | succ left ih =>
      intro j hj
      have hle := hskip j
      simp only [scanAny]
      split_ifs with hlt
      · refine (h.search_settles text (skip j)).bind fun p => ?_
        split_ifs with hfound
        · exact settles_ok _
        · exact ih _ (by omega)
      · exact settles_ok _

theorem lastStop_settles (out : List (List (ℕ × ℕ))) : Settles fun _ => lastStop out := by
  unfold lastStop
  split
  · exact settles_ok _
  · exact settles_thrown
  · exact settles_ok _

/-- `:search` and `:match?` come to an end. -/
def Ends (prog : List Elem) (text : Str) : Prop :=
  Settles (fun turns => searchAll prog text turns) ∧ Settles fun turns => matchAny prog text turns

/-- Of a program without a walk through its splits that comes back, both come to an end for every text. -/
theorem ends_of_noRound (h : NoRound prog) (text : Str) : Ends prog text := by
  have hstart : text.length - 0 < text.length + 1 := by omega
  constructor
  · unfold searchAll
    split_ifs
    · exact (h.search_settles [] 0).bind fun _ => settles_ok _
    · split
      · exact h.scan_settles text (le_of_skipBy (by assumption)) _ _ _ hstart
      · refine (h.scan_settles text (fun j => Nat.le_refl j) _ _ _ hstart).bind fun out => ?_
        refine (lastStop_settles out).bind fun last => ?_
        split_ifs
        · exact settles_ok _
        · exact (h.search_settles text text.length).bind fun _ => settles_ok _
  · unfold matchAny
    split_ifs
    · exact (h.search_settles [] 0).bind fun _ => settles_ok _
    · split
      · exact h.scanAny_settles text (le_of_skipBy (by assumption)) _ _ hstart
      · refine (h.scanAny_settles text (fun j => Nat.le_refl j) _ _ hstart).bind fun found => ?_
        cases found with
        | true => exact settles_ok _
        | false => exact (h.search_settles text text.length).bind fun _ => settles_ok _

end Search

/-- Where every offset goes on there is no way back. -/
theorem noRound_of_forward {prog : List Elem} (h : ∀ elem ∈ prog, ∀ o ∈ elem.offsets, 0 < o.value) :
    NoRound prog := by
  have hforward : ∀ i j, Steps prog i j → i < j := by
    rintro i j ⟨offsets, o, helem, ho, hj⟩
    have hpos := h _ (List.mem_of_getElem? helem) o ho
    omega
  have htrans : ∀ i j, Relation.TransGen (Steps prog) i j → i < j := by
    intro i j hij
    induction hij with
    | single hstep => exact hforward _ _ hstep
    | tail _ hstep ih => exact Nat.lt_trans ih (hforward _ _ hstep)
  exact fun i hround => Nat.lt_irrefl i (htrans i i hround)

/-- The search for `a` in `a`. -/
theorem ends_one : Ends [⟨none, [.lrb 0]⟩, ⟨some (.among [97]), [.num 1]⟩, ⟨none, [.rrb 1]⟩] [97] :=
  ends_of_noRound (noRound_of_forward (by decide)) [97]

/-! ## A pattern that goes round -/

theorem insertLoop_fewer {prog : List Elem} {here : Place} {index : ℤ} (turns : ℕ) : ∀ {stack c},
    insertLoop prog here index (turns + 1) stack c = .error .turns →
      insertLoop prog here index turns stack c = .error .turns := by
  induction turns with
  | zero => exact fun _ => rfl
  | succ turns ih =>
      intro stack c h
      cases stack with
      | nil => exact absurd h (by simp [insertLoop])
      | cons o stack =>
          cases hturn : insertTurn prog here index o stack c with
          | error e =>
              rw [insertLoop_error hturn] at h ⊢
              exact h
          | ok turn =>
              cases turn with
              | matched c' =>
                  rw [insertLoop_matched hturn] at h
                  exact absurd h (by simp)
              | goesOn stack' c' =>
                  rw [insertLoop_goesOn hturn] at h ⊢
                  exact ih h

/-- The program of `(a?)*`. -/
def loopProg : List Elem :=
  [⟨none, [.lrb 0]⟩, ⟨none, [.num 6, .num 1]⟩, ⟨none, [.lrb 2]⟩, ⟨none, [.num 2, .num 1]⟩,
    ⟨some (.among [97]), [.num 1]⟩, ⟨none, [.rrb 3]⟩, ⟨none, [.num (-5)]⟩, ⟨none, [.rrb 1]⟩]

theorem compile_loop : compile (asc "(a?)*") false = some loopProg := by decide +kernel

/-- At the start of a text. -/
def loopPlace : Place := ⟨[97], 0, 32⟩

/-- Once round, with one entry more on the stack. -/
theorem loop_round (turns : ℕ) (stack : List Offset) (next : List (List ℕ)) (seen : List ℕ) : ∃ next' seen',
    insertLoop loopProg loopPlace 0 (turns + 6) (.num 2 :: stack) ⟨next, seen, [0, 0, 0, 0, 0]⟩ =
      insertLoop loopProg loopPlace 0 turns (.num 2 :: .num 7 :: stack) ⟨next', seen', [0, 0, 0, 0, 0]⟩ := by
  have hwait : ∃ next' seen', (⟨next, seen, [0, 0, 0, 0, 0]⟩ : Closure).wait 4 [0, 0, 0, 0, 0] =
      ⟨next', seen', [0, 0, 0, 0, 0]⟩ := by
    unfold Closure.wait
    split_ifs
    · exact ⟨_, _, rfl⟩
    · exact ⟨_, _, rfl⟩
  obtain ⟨next', seen', hwait⟩ := hwait
  refine ⟨next', seen', ?_⟩
  -- the bracket, the `?`, the character, the way past it, the bracket, and the way back to the `*`
  have hlrb : insertTurn loopProg loopPlace 0 (.num 2) stack ⟨next, seen, [0, 0, 0, 0, 0]⟩ =
      .ok (.goesOn (.num 3 :: stack) ⟨next, seen, [0, 0, 0, 0, 0]⟩) := by with_unfolding_all rfl
  have hquest : insertTurn loopProg loopPlace 0 (.num 3) stack ⟨next, seen, [0, 0, 0, 0, 0]⟩ =
      .ok (.goesOn (.num 4 :: .num 5 :: stack) ⟨next, seen, [0, 0, 0, 0, 0]⟩) := by with_unfolding_all rfl
  have hchar : insertTurn loopProg loopPlace 0 (.num 4) (.num 5 :: stack) ⟨next, seen, [0, 0, 0, 0, 0]⟩ =
      .ok (.goesOn (.num 5 :: stack) ⟨next', seen', [0, 0, 0, 0, 0]⟩) := by
    rw [← hwait]
    with_unfolding_all rfl
  have hrrb : insertTurn loopProg loopPlace 0 (.num 5) stack ⟨next', seen', [0, 0, 0, 0, 0]⟩ =
      .ok (.goesOn (.num 6 :: stack) ⟨next', seen', [0, 0, 0, 0, 0]⟩) := by with_unfolding_all rfl
  have hback : insertTurn loopProg loopPlace 0 (.num 6) stack ⟨next', seen', [0, 0, 0, 0, 0]⟩ =
      .ok (.goesOn (.num 1 :: stack) ⟨next', seen', [0, 0, 0, 0, 0]⟩) := by with_unfolding_all rfl
  have hstar : insertTurn loopProg loopPlace 0 (.num 1) stack ⟨next', seen', [0, 0, 0, 0, 0]⟩ =
      .ok (.goesOn (.num 2 :: .num 7 :: stack) ⟨next', seen', [0, 0, 0, 0, 0]⟩) := by with_unfolding_all rfl
  rw [insertLoop_goesOn hlrb, insertLoop_goesOn hquest, insertLoop_goesOn hchar, insertLoop_goesOn hrrb,
    insertLoop_goesOn hback, insertLoop_goesOn hstar]

theorem loop_rounds (n : ℕ) : ∀ stack next seen,
    insertLoop loopProg loopPlace 0 (6 * n) (.num 2 :: stack) ⟨next, seen, [0, 0, 0, 0, 0]⟩ =
      .error .turns := by
  induction n with
  | zero => exact fun _ _ _ => rfl
  | succ n ih =>
      intro stack next seen
      obtain ⟨next', seen', hround⟩ := loop_round (6 * n) stack next seen
      rw [Nat.mul_succ, hround]
      exact ih _ _ _

/-- However many turns there are, they are used up. -/
theorem loop_turns (turns : ℕ) (stack : List Offset) (next : List (List ℕ)) (seen : List ℕ) :
    insertLoop loopProg loopPlace 0 turns (.num 2 :: stack) ⟨next, seen, [0, 0, 0, 0, 0]⟩ =
      .error .turns := by
  have hmore : ∀ more, insertLoop loopProg loopPlace 0 (turns + more) (.num 2 :: stack)
    ⟨next, seen, [0, 0, 0, 0, 0]⟩ =
      .error .turns → insertLoop loopProg loopPlace 0 turns (.num 2 :: stack)
        ⟨next, seen, [0, 0, 0, 0, 0]⟩ = .error .turns := by
    intro more
    induction more with
    | zero => exact fun h => h
    | succ more ih => exact fun h => ih (insertLoop_fewer _ h)
  refine hmore (5 * turns) ?_
  rw [show turns + 5 * turns = 6 * turns by omega]
  exact loop_rounds turns stack next seen

theorem loop_insertelem (turns : ℕ) :
    insertelem loopProg loopPlace turns [] [] [0] ⟨none, [.lrb 0]⟩ = .error .turns := by
  have hlrb : insertTurn loopProg loopPlace 0 (.lrb 0) [] ⟨[], [], [0]⟩ =
      .ok (.goesOn [.num 2, .num 7] ⟨[], [], [0, 0, 0]⟩) := by with_unfolding_all rfl
  have hgroup : insertTurn loopProg loopPlace 0 (.num 2) [.num 7] ⟨[], [], [0, 0, 0]⟩ =
      .ok (.goesOn [.num 3, .num 7] ⟨[], [], [0, 0, 0, 0, 0]⟩) := by with_unfolding_all rfl
  have hagain : insertTurn loopProg loopPlace 0 (.num 2) [.num 7] ⟨[], [], [0, 0, 0, 0, 0]⟩ =
      .ok (.goesOn [.num 3, .num 7] ⟨[], [], [0, 0, 0, 0, 0]⟩) := by with_unfolding_all rfl
  match turns with
  | 0 => rfl
  | 1 => exact insertLoop_goesOn hlrb 0
  | turns + 2 =>
      have hround := loop_turns (turns + 1) [.num 7] [] []
      rw [insertLoop_goesOn hagain, ← insertLoop_goesOn hgroup] at hround
      exact (insertLoop_goesOn hlrb (turns + 1)).trans hround

/-- The search for `(a?)*` in `a` never ends. -/
theorem loop_never_ends : compile (asc "(a?)*") false = some loopProg ∧ ¬ Ends loopProg [97] := by
  refine ⟨compile_loop, fun h => ?_⟩
  obtain ⟨n, r, hr, hsame⟩ := h.1
  refine hr ((hsame n (Nat.le_refl n)).symm.trans ?_)
  have hfirst : firstelem loopProg loopPlace n = .error .turns := by
    change insertelem loopProg loopPlace n [] [] [0] ⟨none, [.lrb 0]⟩ >>= _ = _
    rw [loop_insertelem]
    rfl
  have hsearch : search loopProg [97] n 0 = .error .turns := by
    change firstelem loopProg loopPlace n >>= _ = _
    rw [hfirst]
    rfl
  have hscan : scan loopProg [97] n id 2 0 [] = .error .turns := by
    change search loopProg [97] n 0 >>= _ = _
    rw [hsearch]
    rfl
  change scan loopProg [97] n id 2 0 [] >>= _ = _
  rw [hscan]
  rfl

end ChrysaLisp.Regexp
