import Mathlib.Logic.Function.Iterate
import Mathlib.Tactic.Common

set_option autoImplicit false

/-! # Runs of a system

A system is a state type, an event type and what an event does to a state. A run is a list of
events from a state. An invariant is what holds at the start and every step keeps; where the steps
keep it only under a condition, it holds of every run whose steps all meet it (`inv_of_each`).

A system may also answer its events. Two systems that are of a relation, which every event keeps,
give the same answers to a run (`answers_eq_of_sim`). -/

namespace Run

variable {σ ε : Type*} (step : σ → ε → σ)

/-- The state after the events, in order. -/
def run (s : σ) (es : List ε) : σ := es.foldl step s

/-- Every event of the run meets a condition, in the state it comes to. -/
def Each (C : σ → ε → Prop) : σ → List ε → Prop
  | _, [] => True
  | s, e :: es => C s e ∧ Each C (step s e) es

@[simp] theorem run_nil (s : σ) : run step s [] = s := rfl

@[simp] theorem run_cons (s : σ) (e : ε) (es : List ε) :
    run step s (e :: es) = run step (step s e) es := rfl

theorem run_append (s : σ) (es fs : List ε) : run step s (es ++ fs) = run step (run step s es) fs :=
  List.foldl_append

variable {step}

instance decidableEach {C : σ → ε → Prop} [∀ s e, Decidable (C s e)] :
    ∀ s es, Decidable (Each step C s es)
  | _, [] => isTrue trivial
  | s, e :: es =>
      have : Decidable (Each step C (step s e) es) := decidableEach (step s e) es
      inferInstanceAs (Decidable (C s e ∧ Each step C (step s e) es))

theorem each_append {C : σ → ε → Prop} {s : σ} {es fs : List ε} :
    Each step C s (es ++ fs) ↔ Each step C s es ∧ Each step C (run step s es) fs := by
  induction es generalizing s with
  | nil => simp [Each]
  | cons e es ih => simp only [List.cons_append, Each, ih, run_cons, and_assoc]

theorem Each.imp {C D : σ → ε → Prop} (h : ∀ s e, C s e → D s e) {s : σ} {es : List ε}
    (hes : Each step C s es) : Each step D s es := by
  induction es generalizing s with
  | nil => trivial
  | cons e es ih => exact ⟨h s e hes.1, ih hes.2⟩

/-- What is so of every event, whatever state it comes to, is so of the run. -/
theorem each_of_mem {C : σ → ε → Prop} {es : List ε} (h : ∀ e ∈ es, ∀ s, C s e) (s : σ) :
    Each step C s es := by
  induction es generalizing s with
  | nil => trivial
  | cons e es ih =>
      exact ⟨h e List.mem_cons_self s, ih (fun e he => h e (List.mem_cons_of_mem _ he)) (step s e)⟩

/-- What every step that meets the condition keeps holds of every run whose steps all meet it. -/
theorem inv_of_each {I : σ → Prop} {C : σ → ε → Prop} (hstep : ∀ s e, I s → C s e → I (step s e))
    {s : σ} (hs : I s) {es : List ε} (hes : Each step C s es) : I (run step s es) := by
  induction es generalizing s with
  | nil => exact hs
  | cons e es ih => exact ih (hstep s e hs hes.1) hes.2

/-- What every step keeps holds of every run. -/
theorem inv_of_step {I : σ → Prop} (hstep : ∀ s e, I s → I (step s e)) {s : σ} (hs : I s)
    (es : List ε) : I (run step s es) := by
  induction es generalizing s with
  | nil => exact hs
  | cons e es ih => exact ih (hstep s e hs)

/-- What is so of the events there have been, and every next event keeps so, is so of them all. -/
theorem inv_of_prefix {I : List ε → σ → Prop} {es : List ε}
    (hstep : ∀ pre e post s, es = pre ++ e :: post → I pre s → I (pre ++ [e]) (step s e)) {s : σ}
    (hs : I [] s) : I es (run step s es) := by
  have hrest : ∀ post pre s, es = pre ++ post → I pre s → I es (run step s post) := by
    intro post
    induction post with
    | nil =>
        intro pre s hes hpre
        rw [hes, List.append_nil]
        exact hpre
    | cons e post ih =>
        intro pre s hes hpre
        exact ih (pre ++ [e]) (step s e) (by rw [hes, List.append_assoc]; rfl)
          (hstep pre e post s hes hpre)
  exact hrest es [] s rfl hs

/-- What `f` leaves of a state goes its own way `g`, if every step goes so from a state of which what is left
    meets a condition. -/
theorem left_of_each {τ : Type*} {f : σ → τ} {g : τ → τ} {I : σ → Prop} {C : τ → Prop}
    (hstep : ∀ s e, I s → C (f s) → I (step s e) ∧ f (step s e) = g (f s)) {s : σ} (hs : I s)
    {es : List ε} (hes : ∀ k < es.length, C (g^[k] (f s))) :
    I (run step s es) ∧ f (run step s es) = g^[es.length] (f s) := by
  induction es generalizing s with
  | nil => exact ⟨hs, rfl⟩
  | cons e es ih =>
    obtain ⟨hnext, hleft⟩ := hstep s e hs (hes 0 (Nat.succ_pos _))
    rw [run_cons, List.length_cons, Function.iterate_succ_apply, ← hleft]
    refine ih hnext fun k hk => ?_
    rw [hleft, ← Function.iterate_succ_apply]
    exact hes (k + 1) (Nat.succ_lt_succ hk)

/-! ## Answers -/

section Answers

variable {τ α : Type*}

/-- What the events of a run are answered, in order. -/
def answers (act : σ → ε → σ × α) : σ → List ε → List α
  | _, [] => []
  | s, e :: es => (act s e).2 :: answers act (act s e).1 es

/-- A simulation: what is of the relation answers the same, and is of it after every event. -/
theorem answers_eq_of_sim {act : σ → ε → σ × α} {spec : τ → ε → τ × α} {R : σ → τ → Prop}
    {C : ε → Prop}
    (hsim : ∀ s t e, R s t → C e → (act s e).2 = (spec t e).2 ∧ R (act s e).1 (spec t e).1)
    {s : σ} {t : τ} (h : R s t) {es : List ε} (hes : ∀ e ∈ es, C e) :
    answers act s es = answers spec t es ∧
      R (run (fun s e => (act s e).1) s es) (run (fun t e => (spec t e).1) t es) := by
  induction es generalizing s t with
  | nil => exact ⟨rfl, h⟩
  | cons e es ih =>
      obtain ⟨hanswer, hnext⟩ := hsim s t e h (hes e List.mem_cons_self)
      obtain ⟨hrest, hend⟩ := ih hnext (fun e he => hes e (List.mem_cons_of_mem _ he))
      exact ⟨by rw [answers, answers, hanswer, hrest], hend⟩

/-- A simulation up to what two answers have to do with each other, of the steps that meet a
    condition in the state they come to. -/
theorem answers_rel_of_sim {β : Type*} {act : σ → ε → σ × α} {spec : τ → ε → τ × β}
    {A : α → β → Prop} {R : σ → τ → Prop} {C : σ → ε → Prop}
    (hsim : ∀ s t e, R s t → C s e → A (act s e).2 (spec t e).2 ∧ R (act s e).1 (spec t e).1)
    {s : σ} {t : τ} (h : R s t) {es : List ε} (hes : Each (fun s e => (act s e).1) C s es) :
    List.Forall₂ A (answers act s es) (answers spec t es) := by
  induction es generalizing s t with
  | nil => exact List.Forall₂.nil
  | cons e es ih =>
      obtain ⟨hanswer, hnext⟩ := hsim s t e h hes.1
      exact List.Forall₂.cons hanswer (ih hnext hes.2)

end Answers

end Run
