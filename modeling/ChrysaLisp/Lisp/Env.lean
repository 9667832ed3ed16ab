import ChrysaLisp.Library.Climb
import ChrysaLisp.Lisp.Hmap

set_option autoImplicit false

/-! # The environments of a task

`class/lisp/env_bind.vp`, `lisp_bind.vp` and what `class/hmap` does to them for Lisp: the environment a
task is in, those above it, those the values of Lisp hold, and the chain of empty ones. An environment
is its address, and what is created is where none has been.

A value that is an environment is a place in a list, which a program comes by, uses and drops. One an
`eval` is given is at a new place after. -/

namespace ChrysaLisp.Lookup

structure Lisp (S V : Type) where
  env : ℕ → Hmap S V
  next : ℕ
  slot : S → ℕ
  environment : ℕ
  env_pool : Option ℕ
  held : List (Option ℕ)
  /-- For each `eval` in an environment, the one it was called in. The ref of the value it was given is
      the task's meanwhile. -/
  saved : List ℕ

/-- What is done by and for a program. Where an environment is given it is a value's, or the
    task's. -/
inductive Op (S V : Type)
  | push
  | pop
  | envPush (i : ℕ)
  | envPop
  | create (num : ℕ)
  | here
  | penv (w : Option ℕ)
  | drop (i : ℕ)
  | enter (i : ℕ)
  | leave
  | bind (steal : Bool) (args : List (S × V))
  | define (w : Option ℕ) (key : S) (value : V)
  | undef (w : Option ℕ) (key : S)
  | set (w : Option ℕ) (key : S) (value : V)
  | get (w : Option ℕ) (key : S)
  | defx (w : Option ℕ) (key : S)
  | resize (w : Option ℕ) (num : ℕ)
  | copy (w : Option ℕ) (num : ℕ)
  /-- Another map of the symbol's slot, a `pmap` or a `pset`, notes its own. -/
  | slot (key : S) (n : ℕ)

inductive Answer (V : Type)
  | done
  | error
  | value (v : Option V)
  | found (b : Bool)

/-- One ref fewer. -/
def unref {S V : Type} (env : ℕ → Hmap S V) (e : ℕ) : ℕ → Hmap S V :=
  Function.update env e { env e with refs := (env e).refs - 1 }

/-- `:obj :deref`: with the last ref an environment goes, and its ref to its parent. -/
def deref {S V : Type} : ℕ → (ℕ → Hmap S V) → ℕ → (ℕ → Hmap S V)
  | 0, env, _ => env
  | fuel + 1, env, e =>
      if (env e).refs = 1 then
        match (env e).parent with
        | some p => deref fuel (unref env e) p
        | none => unref env e
      else unref env e

namespace Lisp

variable {S V : Type} (l : Lisp S V)

def parent (e : ℕ) : Option ℕ := (l.env e).parent

def put (e : ℕ) (h : Hmap S V) : Lisp S V := { l with env := Function.update l.env e h }

@[simp] theorem env_put_self (e : ℕ) (h : Hmap S V) : (l.put e h).env e = h := Function.update_self ..

theorem env_put_of_ne {e x : ℕ} (hx : x ≠ e) (h : Hmap S V) : (l.put e h).env x = l.env x :=
  Function.update_of_ne hx ..

@[simp] theorem parent_put_self (e : ℕ) (h : Hmap S V) : (l.put e h).parent e = h.parent := by
  rw [parent, env_put_self]

theorem parent_put_of_ne {e x : ℕ} (hx : x ≠ e) (h : Hmap S V) : (l.put e h).parent x = l.parent x := by
  rw [parent, env_put_of_ne l hx, parent]

/-- `class/obj/ref` -/
def ref (e n : ℕ) : Lisp S V := l.put e { l.env e with refs := (l.env e).refs + n }

def derefEnv (e : ℕ) : Lisp S V := { l with env := deref l.next l.env e }

def hold (e : ℕ) : Lisp S V := { l with held := l.held ++ [some e] }

/-- The environment a value is. -/
def value? (i : ℕ) : Option ℕ := (l.held[i]?).join

def which (w : Option ℕ) : Option ℕ := w.elim (some l.environment) l.value?

/-! ## Pushes and pops -/

section Push

variable (room : ℕ) (grow : ℕ → ℕ)

def add (h : Hmap S V) : Lisp S V := { l.put l.next h with next := l.next + 1 }

/-- `:lisp :env_push` -/
def envPush : Lisp S V :=
  match l.env_pool with
  | none =>
      { l.add { Hmap.create room grow 1 with parent := some l.environment } with environment := l.next }
  | some e =>
      { l.put e { l.env e with parent := some l.environment } with
        environment := e
        env_pool := l.parent e }

/-- `:lisp :env_pop`: none has a ref to it, and it is as it was made. -/
def envPop : Option (Lisp S V) :=
  let e := l.environment
  let this := l.env e
  this.parent.map fun p =>
    if this.refs = 1 ∧ this.grown = false ∧ this.buckets.length = 1 then
      { l.put e { this with buckets := [[]], parent := l.env_pool } with
        environment := p
        env_pool := some e }
    else { (l.ref p 1).derefEnv e with environment := p }

/-- `(env-push env)` -/
def lispEnvPush (e : ℕ) : Lisp S V × Answer V :=
  if l.parent e = none then
    ({ (l.put e { l.env e with parent := some l.environment, refs := (l.env e).refs + 2 }).hold e with
        environment := e }, .done)
  else (l, .error)

/-- `(env-pop)` -/
def lispEnvPop : Lisp S V × Answer V :=
  let e := l.environment
  match l.parent e with
  | some p => ({ (l.put e { l.env e with parent := none }).hold e with environment := p }, .done)
  | none => (l, .error)

end Push

/-! ## Searches -/

section Search

variable [DecidableEq S] (hash : S → ℕ) (this : ℕ) (key : S)

/-- `hmap-search`: the environment it is found in, and the place in its bucket. -/
def search : Option (ℕ × ℕ) :=
  (Climb.first l.parent (fun e => ((l.env e).pfind hash l.slot key).isSome) l.next this).bind fun e =>
    ((l.env e).pfind hash l.slot key).map fun i => (e, i)

def note (i : Option ℕ) : Lisp S V := { l with slot := Hmap.noted l.slot key i }

/-- `:hmap :get` -/
def get : Lisp S V × Answer V :=
  let r := l.search hash this key
  (l.note key (r.map Prod.snd), .value (r.bind fun r => (l.env r.1).valueAt hash key r.2))

/-- `:hmap :set` -/
def set (value : V) : Lisp S V × Answer V :=
  match l.search hash this key with
  | some (e, i) => ((l.note key (some i)).put e ((l.env e).setValue hash key i value), .found true)
  | none => (l, .found false)

/-- `(def? sym env)`, with `:hmap :pfind`. -/
def defx : Lisp S V × Answer V :=
  let r := (l.env this).pfind hash l.slot key
  (l.note key r, .value (r.bind fun i => (l.env this).valueAt hash key i))

variable (grow : ℕ → ℕ)

/-- `:hmap :pinsert` -/
def pinsert (value : V) : Lisp S V :=
  let r := (l.env this).pinsert hash l.slot key grow value
  { l.put this r.1 with slot := r.2 }

def undef : Lisp S V :=
  let r := (l.env this).undef hash l.slot key
  { l.put this r.1 with slot := r.2 }

/-- `:lisp :env_bind` of plain symbols to as many values: in place in an environment that is empty,
    with the room, or else one by one. A loop that gave up leaves what is in place by then, if the
    values are not stolen from the list they come in. -/
def envBind (steal : Bool) (args : List (S × V)) : Lisp S V :=
  let e := l.environment
  let this := l.env e
  let oneByOne (l : Lisp S V) := args.foldl (fun l p => l.pinsert hash e p.1 grow p.2) l
  if this.buckets.length = 1 ∧ this.buckets.flatten.isEmpty ∧ args.length ≤ this.capacity / 2 then
    match freshLoop l.slot [] args with
    | (true, done, slot) => { l.put e { this with buckets := [done] } with slot := slot }
    | (false, done, slot) =>
        if steal then oneByOne { l with slot := slot }
        else oneByOne { l.put e { this with buckets := [done] } with slot := slot }
  else oneByOne l

end Search

/-! ## A step -/

section Step

variable [DecidableEq S] (hash : S → ℕ) (room : ℕ) (grow : ℕ → ℕ)

/-- There is nothing where a program cannot do it: of a value it has not got, a pop of the last
    environment, an `eval` left that there is none of. -/
def step : Op S V → Option (Lisp S V × Answer V)
  | .push => some (l.envPush room grow, .done)
  | .pop => l.envPop.map fun l => (l, .done)
  | .envPush i => (l.value? i).map l.lispEnvPush
  | .envPop => some l.lispEnvPop
  | .create num =>
      some (if num < 1 then (l, .error) else ((l.add (Hmap.create room grow num)).hold l.next, .done))
  | .here => some ((l.ref l.environment 1).hold l.environment, .done)
  | .penv w => (l.which w).map fun e =>
      match l.parent e with
      | some p => ((l.ref p 1).hold p, .found true)
      | none => (l, .found false)
  | .drop i => (l.value? i).map fun e => ({ l.derefEnv e with held := l.held.set i none }, .done)
  | .enter i => (l.value? i).map fun e =>
      ({ l with environment := e, held := l.held.set i none, saved := l.environment :: l.saved }, .done)
  | .leave =>
      match l.saved with
      | old :: saved => some ({ l.hold l.environment with environment := old, saved := saved }, .done)
      | [] => none
  | .bind steal args => some (l.envBind hash grow steal args, .done)
  | .define w key value => (l.which w).map fun e => (l.pinsert hash e key grow value, .done)
  | .undef w key => (l.which w).map fun e => (l.undef hash e key, .done)
  | .set w key value => (l.which w).map fun e => l.set hash e key value
  | .get w key => (l.which w).map fun e => l.get hash e key
  | .defx w key => (l.which w).map fun e => l.defx hash e key
  | .resize w num => (l.which w).map fun e =>
      if num < 1 then (l, .error) else (l.put e ((l.env e).resize room grow hash num), .done)
  | .copy w num => (l.which w).map fun e =>
      if num < 1 then (l, .error)
      else
        let this := (l.parent e).elim l (fun p => l.ref p 1)
        ((this.add ((l.env e).copy room grow hash num)).hold l.next, .done)
  | .slot key n => some ({ l with slot := Function.update l.slot key n }, .done)

/-- The answers to one after the other. -/
def run : Lisp S V → List (Op S V) → Option (Lisp S V × List (Answer V))
  | l, [] => some (l, [])
  | l, op :: ops =>
      (l.step hash room grow op).bind fun r => (r.1.run ops).map fun q => (q.1, r.2 :: q.2)

/-- A task with one environment, empty, and slots that may be anything. -/
def boot (slot : S → ℕ) : Lisp S V where
  env := fun _ => Hmap.create room grow 1
  next := 1
  slot := slot
  environment := 0
  env_pool := none
  held := []
  saved := []

end Step

end Lisp

end ChrysaLisp.Lookup
