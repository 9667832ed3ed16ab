import ChrysaLisp.Lisp.Env

set_option autoImplicit false

/-! # What the environments are for

A tree of environments with what each binds, of which none is ever used again: what was bound last and
not undone. A symbol is looked up in one and then in those above it.

It says nothing of a program that makes an environment its own ancestor, which is then no tree, nor of
one that pops the environment an `eval` is in or leaves it elsewhere. -/

namespace ChrysaLisp.Lookup

structure Tree (S V : Type) where
  parent : ℕ → Option ℕ
  binds : ℕ → S → Option V
  next : ℕ
  current : ℕ
  held : List (Option ℕ)
  /-- For each `eval`: the environment it was called in, and the one it is in. -/
  saved : List (ℕ × ℕ)

namespace Tree

variable {S V : Type} (t : Tree S V)

/-- The nearest that binds the symbol. -/
def nearest (e : ℕ) (key : S) : Option ℕ :=
  Climb.first t.parent (fun e => (t.binds e key).isSome) t.next e

def lookup (e : ℕ) (key : S) : Option V := (t.nearest e key).bind fun e => t.binds e key

/-- The environment an `eval` is in is not popped by what it evaluates. -/
def mayPop : Bool := decide (t.saved.head?.map Prod.snd ≠ some t.current)

def add (parent : Option ℕ) (binds : S → Option V) : Tree S V :=
  { t with
    parent := Function.update t.parent t.next parent
    binds := Function.update t.binds t.next binds
    next := t.next + 1 }

def hold (e : ℕ) : Tree S V := { t with held := t.held ++ [some e] }

def value? (i : ℕ) : Option ℕ := (t.held[i]?).join

def which (w : Option ℕ) : Option ℕ := w.elim (some t.current) t.value?

def rebind (e : ℕ) (f : S → Option V) : Tree S V := { t with binds := Function.update t.binds e f }

def reparent (e : ℕ) (q : Option ℕ) : Tree S V := { t with parent := Function.update t.parent e q }

variable [DecidableEq S]

def bind (e : ℕ) (args : List (S × V)) : Tree S V := t.rebind e (bound (t.binds e) args)

def step : Op S V → Option (Tree S V × Answer V)
  | .push => some ({ t.add (some t.current) (fun _ => none) with current := t.next }, .done)
  | .pop => if t.mayPop then (t.parent t.current).map fun p => ({ t with current := p }, .done) else none
  | .envPush i => (t.value? i).bind fun e =>
      if (t.parent e).isSome then some (t, .error)
      else if e ∈ Climb.nodes t.parent t.next t.current then none
      else some ({ (t.reparent e (some t.current)).hold e with current := e }, .done)
  | .envPop =>
      match t.parent t.current with
      | some p =>
          if t.mayPop then
            some ({ (t.reparent t.current none).hold t.current with current := p }, .done)
          else none
      | none => some (t, .error)
  | .create num => some (if num < 1 then (t, .error) else ((t.add none fun _ => none).hold t.next, .done))
  | .here => some (t.hold t.current, .done)
  | .penv w => (t.which w).map fun e =>
      match t.parent e with
      | some p => (t.hold p, .found true)
      | none => (t, .found false)
  | .drop i => (t.value? i).map fun _ => ({ t with held := t.held.set i none }, .done)
  | .enter i => (t.value? i).map fun e =>
      ({ t with current := e, held := t.held.set i none, saved := (t.current, e) :: t.saved }, .done)
  | .leave =>
      match t.saved with
      | (old, e) :: saved =>
          if t.current = e then some ({ t.hold e with current := old, saved := saved }, .done) else none
      | [] => none
  | .bind _ args => some (t.bind t.current args, .done)
  | .define w key value => (t.which w).map fun e => (t.bind e [(key, value)], .done)
  | .undef w key => (t.which w).map fun e => (t.rebind e (Function.update (t.binds e) key none), .done)
  | .set w key value => (t.which w).map fun e =>
      match t.nearest e key with
      | some e => (t.bind e [(key, value)], .found true)
      | none => (t, .found false)
  | .get w key => (t.which w).map fun e => (t, .value (t.lookup e key))
  | .defx w key => (t.which w).map fun e => (t, .value (t.binds e key))
  | .resize w num => (t.which w).map fun _ => (t, if num < 1 then .error else .done)
  | .copy w num => (t.which w).map fun e =>
      if num < 1 then (t, .error) else ((t.add (t.parent e) (t.binds e)).hold t.next, .done)
  | .slot _ _ => some (t, .done)

def run : Tree S V → List (Op S V) → Option (Tree S V × List (Answer V))
  | t, [] => some (t, [])
  | t, op :: ops => (t.step op).bind fun r => (r.1.run ops).map fun q => (q.1, r.2 :: q.2)

omit [DecidableEq S] in
/-- One environment, with nothing bound. -/
def root : Tree S V where
  parent := fun _ => none
  binds := fun _ _ => none
  next := 1
  current := 0
  held := []
  saved := []

end Tree

/-! ## A tree -/

/-- Every environment there is has a way up to one with no parent. -/
structure Rooted (parent : ℕ → Option ℕ) (next : ℕ) : Prop where
  closed : ∀ e, e < next → ∀ p, parent e = some p → p < next
  climbs : ∀ e, e < next → ∃ way, Climb.Path parent e way

namespace Rooted

variable {parent : ℕ → Option ℕ} {next e p : ℕ}

theorem way_lt (h : Rooted parent next) {way : List ℕ} (he : e < next)
    (hway : Climb.Path parent e way) : ∀ x ∈ way, x < next :=
  hway.closed he (fun x p hx hp => h.closed x hx p hp)

/-- As many steps as there are environments are enough. -/
theorem way_length_le (h : Rooted parent next) {way : List ℕ} (he : e < next)
    (hway : Climb.Path parent e way) : way.length ≤ next := by
  have hle := hway.length_le (fun x hx => List.mem_range.2 (h.way_lt he hway x hx))
  rwa [List.length_range] at hle

theorem notMem_way (h : Rooted parent next) {way : List ℕ} (he : e < next)
    (hway : Climb.Path parent e way) : next ∉ way := fun hn => (h.way_lt he hway next hn).ne rfl

theorem add (h : Rooted parent next) {q : Option ℕ} (hq : ∀ p, q = some p → p < next) :
    Rooted (Function.update parent next q) (next + 1) := by
  have hold : ∀ e, e < next → Function.update parent next q e = parent e := fun e he =>
    Function.update_of_ne he.ne _ _
  have hclimb : ∀ e, e < next → ∃ way, Climb.Path (Function.update parent next q) e way := by
    intro e he
    obtain ⟨way, hway⟩ := h.climbs e he
    exact ⟨way, hway.update_of_notMem (h.notMem_way he hway) q⟩
  constructor
  · intro e he p hp
    rcases Nat.lt_succ_iff_lt_or_eq.1 he with he | rfl
    · rw [hold e he] at hp
      exact (h.closed e he p hp).trans (Nat.lt_succ_self _)
    · rw [Function.update_self] at hp
      exact (hq p hp).trans (Nat.lt_succ_self _)
  · intro e he
    rcases Nat.lt_succ_iff_lt_or_eq.1 he with he | rfl
    · exact hclimb e he
    · cases hqe : q with
      | none => exact ⟨_, .root (Function.update_self ..)⟩
      | some p =>
        obtain ⟨way, hway⟩ := hclimb p (hq p hqe)
        rw [hqe] at hway
        exact ⟨_, .up (Function.update_self ..) hway⟩

theorem closed_update (h : Rooted parent next) {q : Option ℕ} (hq : ∀ p, q = some p → p < next) :
    ∀ x, x < next → ∀ p, Function.update parent e q x = some p → p < next := by
  intro x hx p hp
  by_cases hxe : x = e
  · rw [hxe, Function.update_self] at hp
    exact hq p hp
  · rw [Function.update_of_ne hxe] at hp
    exact h.closed x hx p hp

/-- One with no parent put under another, whose ancestor it is not. -/
theorem hang (h : Rooted parent next) (he : parent e = none) (hp : p < next)
    (hnot : e ∉ Climb.nodes parent next p) : Rooted (Function.update parent e (some p)) next := by
  obtain ⟨way, hway⟩ := h.climbs p hp
  rw [Climb.nodes_eq hway (h.way_length_le hp hway)] at hnot
  refine ⟨h.closed_update ?_, fun x hx => ?_⟩
  · intro q hq
    rw [← Option.some.inj hq]
    exact hp
  · obtain ⟨w, hw⟩ := h.climbs x hx
    exact hw.hang he hway hnot

theorem cut (h : Rooted parent next) : Rooted (Function.update parent e none) next := by
  refine ⟨h.closed_update (fun q hq => absurd hq (by simp)), fun x hx => ?_⟩
  obtain ⟨w, hw⟩ := h.climbs x hx
  exact hw.cut e

end Rooted

theorem rooted_root : Rooted (fun _ => none) 1 :=
  ⟨fun _ _ _ h => absurd h (by simp), fun e _ => ⟨[e], .root rfl⟩⟩

end ChrysaLisp.Lookup
