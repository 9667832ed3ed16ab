import Mathlib.Data.List.ReduceOption
import ChrysaLisp.Lisp.EnvCells
import ChrysaLisp.Lisp.Scope

set_option autoImplicit false

/-! # Lookup finds the nearest binding

Each environment a program can come to is one of the tree, and no two are the same one, so what is
done to it is done to the tree: a hint may be stale and an address may be used again. That none of the
pool is one a program can come to is what the refs are for. -/

namespace ChrysaLisp.Lookup

variable {S V : Type}

/-- The refs of the task and of its values. -/
def Lisp.roots (l : Lisp S V) : List ℕ := l.environment :: (l.held.reduceOption ++ l.saved)

/-- Each environment there is as the one of the tree it is called by. -/
structure Named [DecidableEq S] (hash : S → ℕ) (env : ℕ → Hmap S V) (t : Tree S V) (live : List ℕ)
    (m : ℕ → ℕ) : Prop where
  rooted : Rooted t.parent t.next
  inj : ∀ e ∈ live, ∀ e' ∈ live, m e = m e' → e = e'
  lt : ∀ e ∈ live, m e < t.next
  parent : ∀ e ∈ live, t.parent (m e) = (env e).parent.map m
  binds : ∀ e ∈ live, Binds hash (env e) (t.binds (m e))

structure Sim [DecidableEq S] (hash : S → ℕ) (l : Lisp S V) (t : Tree S V) (live idle : List ℕ)
    (m : ℕ → ℕ) : Prop where
  cells : Cells l.env l.next l.env_pool live idle l.roots
  named : Named hash l.env t live m
  current : t.current = m l.environment
  held : t.held = l.held.map (Option.map m)
  saved : t.saved.map Prod.fst = l.saved.map m

theorem find?_congr {p q : ℕ → Bool} {way : List ℕ} (h : ∀ x ∈ way, p x = q x) :
    way.find? p = way.find? q := by
  induction way with
  | nil => rfl
  | cons x way ih =>
    obtain ⟨hx, hway⟩ := List.forall_mem_cons.1 h
    rw [List.find?_cons, List.find?_cons, hx, ih hway]

theorem mem_roots_held {l : Lisp S V} {e : ℕ} (he : some e ∈ l.held) : e ∈ l.roots :=
  List.mem_cons_of_mem _ (List.mem_append_left _ (List.reduceOption_mem_iff.2 he))

theorem roots_hold (l : Lisp S V) (e : ℕ) : (l.hold e).roots.Perm (e :: l.roots) := by
  rw [Lisp.roots, Lisp.hold, List.reduceOption_append, List.append_assoc]
  have hmid : (l.held.reduceOption ++ (e :: l.saved)).Perm (e :: (l.held.reduceOption ++ l.saved)) :=
    List.perm_middle
  exact (hmid.cons _).trans (List.Perm.swap ..)

theorem roots_drop (l : Lisp S V) {i e : ℕ} (hi : l.held[i]? = some (some e)) :
    l.roots.Perm (e :: { l with held := l.held.set i none }.roots) := by
  obtain ⟨hlt, hval⟩ := List.getElem?_eq_some_iff.1 hi
  have hsplit : l.held = l.held.take i ++ some e :: l.held.drop (i + 1) := by
    rw [← hval, List.getElem_cons_drop, List.take_append_drop]
  have hset : l.held.set i none = l.held.take i ++ none :: l.held.drop (i + 1) :=
    List.set_eq_take_append_cons_drop.trans (if_pos hlt)
  have hheld : l.held.reduceOption.Perm (e :: (l.held.set i none).reduceOption) := by
    rw [hset, List.reduceOption_append, List.reduceOption_cons_of_none]
    conv_lhs => rw [hsplit]
    rw [List.reduceOption_append, List.reduceOption_cons_of_some]
    exact List.perm_middle
  exact ((hheld.append_right _).cons _).trans (List.Perm.swap ..)

section Sim

variable [DecidableEq S] {hash : S → ℕ} {l : Lisp S V} {t : Tree S V} {live idle : List ℕ} {m : ℕ → ℕ}

/-- An environment has a way up, and as many steps as there are environments are enough. -/
theorem Named.way {env : ℕ → Hmap S V} {next : ℕ} {pool : Option ℕ} {roots : List ℕ}
    (h : Named hash env t live m) (hc : Cells env next pool live idle roots) {e : ℕ} (he : e ∈ live) :
    ∃ way, Climb.Path (fun e => (env e).parent) e way ∧ way.length ≤ next ∧ (∀ x ∈ way, x ∈ live) ∧
      Climb.Path t.parent (m e) (way.map m) := by
  have hs : ∀ x, x ∈ live →
      t.parent (m x) = (env x).parent.map m ∧ ∀ p, (env x).parent = some p → p ∈ live :=
    fun x hx => ⟨h.parent x hx, hc.closed x hx⟩
  obtain ⟨k, hk⟩ := h.rooted.climbs (m e) (h.lt e he)
  obtain ⟨way, hway, rfl⟩ : ∃ way, Climb.Path (fun e => (env e).parent) e way ∧ k = way.map m :=
    hk.of_map rfl he hs
  have hmem := hway.closed he (fun x p hx hp => hc.closed x hx p hp)
  exact ⟨way, hway, (hway.length_le hmem).trans hc.live_length_le, hmem, hk⟩

namespace Sim

theorem environment_mem (h : Sim hash l t live idle m) : l.environment ∈ live :=
  h.cells.rooted _ List.mem_cons_self

theorem parent_mem (h : Sim hash l t live idle m) {e p : ℕ} (he : e ∈ live) (hp : l.parent e = some p) :
    p ∈ live := h.cells.closed e he p hp

theorem held_mem (h : Sim hash l t live idle m) {i e : ℕ} (hi : l.value? i = some e) : e ∈ live := by
  have hmem : some e ∈ l.held := List.mem_of_getElem? (Option.join_eq_some_iff.1 hi)
  exact h.cells.rooted _ (mem_roots_held hmem)

theorem value? (h : Sim hash l t live idle m) (i : ℕ) : t.value? i = (l.value? i).map m := by
  rw [Tree.value?, Lisp.value?, h.held, List.getElem?_map]
  cases l.held[i]? with
  | none => rfl
  | some o => rfl

theorem which (h : Sim hash l t live idle m) (w : Option ℕ) : t.which w = (l.which w).map m := by
  cases w with
  | none => exact congrArg some h.current
  | some i => exact h.value? i

theorem which_mem (h : Sim hash l t live idle m) {w : Option ℕ} {e : ℕ} (hw : l.which w = some e) :
    e ∈ live := by
  cases w with
  | none => exact Option.some.inj hw ▸ h.environment_mem
  | some i => exact h.held_mem hw

theorem way (h : Sim hash l t live idle m) {e : ℕ} (he : e ∈ live) :
    ∃ way, Climb.Path l.parent e way ∧ way.length ≤ l.next ∧ (∀ x ∈ way, x ∈ live) ∧
      Climb.Path t.parent (m e) (way.map m) := h.named.way h.cells he

/-- What is looked for is found at the same. -/
theorem first (h : Sim hash l t live idle m) {e : ℕ} (he : e ∈ live) (here there : ℕ → Bool)
    (heq : ∀ x ∈ live, there (m x) = here x) :
    Climb.first t.parent there t.next (m e) = (Climb.first l.parent here l.next e).map m ∧
      ∀ x, Climb.first l.parent here l.next e = some x → x ∈ live ∧ here x = true := by
  obtain ⟨way, hway, hlen, hmem, hup⟩ := h.way he
  have hlen' : (way.map m).length ≤ t.next := h.named.rooted.way_length_le (h.named.lt e he) hup
  rw [Climb.first_eq hway hlen, Climb.first_eq hup hlen', List.find?_map]
  have hfind : way.find? (there ∘ m) = way.find? here := find?_congr fun x hx => heq x (hmem x hx)
  rw [hfind]
  exact ⟨rfl, fun x hx => ⟨hmem x (List.mem_of_find?_eq_some hx), List.find?_some hx⟩⟩

/-- The hinted search finds what a plain one does. -/
theorem search (h : Sim hash l t live idle m) {e : ℕ} (he : e ∈ live) (key : S) :
    (l.search hash e key = none ∧ t.nearest (m e) key = none) ∨
      ∃ x i v, l.search hash e key = some (x, i) ∧ x ∈ live ∧
        (l.env x).pfind hash l.slot key = some i ∧ (l.env x).valueAt hash key i = some v ∧
        t.nearest (m e) key = some (m x) ∧ t.binds (m x) key = some v := by
  obtain ⟨hfirst, hfound⟩ := h.first he (fun x => ((l.env x).pfind hash l.slot key).isSome)
    (fun x => (t.binds x key).isSome) (fun x hx => ((h.named.binds x hx).pfind_isSome l.slot key).symm)
  rw [Lisp.search, Tree.nearest, hfirst]
  cases hx : Climb.first l.parent (fun x => ((l.env x).pfind hash l.slot key).isSome) l.next e with
  | none => exact Or.inl ⟨rfl, rfl⟩
  | some x =>
    obtain ⟨hlive, hhere⟩ := hfound x hx
    obtain ⟨i, hi⟩ := Option.isSome_iff_exists.1 hhere
    obtain ⟨v, hv, hbinds⟩ := (h.named.binds x hlive).valueAt_isSome hi
    refine Or.inr ⟨x, i, v, ?_, hlive, hi, hv, rfl, hbinds⟩
    rw [Option.bind_some, hi]
    rfl

end Sim

/-! ## The environments under their names -/

namespace Named

variable {env env' : ℕ → Hmap S V} {live' : List ℕ} {e : ℕ}

/-- Fewer, and what they bind and are under the same. -/
theorem sub (h : Named hash env t live m) (hsub : live' ⊆ live)
    (hsame : ∀ x ∈ live', (env' x).buckets = (env x).buckets ∧ (env' x).parent = (env x).parent) :
    Named hash env' t live' m where
  rooted := h.rooted
  inj x hx y hy := h.inj x (hsub hx) y (hsub hy)
  lt x hx := h.lt x (hsub hx)
  parent x hx := by rw [h.parent x (hsub hx), (hsame x hx).2]
  binds x hx := (h.binds x (hsub hx)).congr (hsame x hx).1

theorem edit (hn : Named hash env t live m) (he : e ∈ live) {h : Hmap S V} {f : S → Option V}
    (hparent : h.parent = (env e).parent) (hb : Binds hash h f) :
    Named hash (Function.update env e h) (t.rebind (m e) f) live m where
  rooted := hn.rooted
  inj := hn.inj
  lt := hn.lt
  parent x hx := by
    rw [Tree.rebind, hn.parent x hx]
    by_cases hxe : x = e
    · rw [hxe, Function.update_self, hparent]
    · rw [Function.update_of_ne hxe]
  binds x hx := by
    rw [Tree.rebind]
    dsimp only
    by_cases hxe : x = e
    · rw [hxe, Function.update_self, Function.update_self]
      exact hb
    · rw [Function.update_of_ne hxe, Function.update_of_ne (fun heq => hxe (hn.inj x hx e he heq))]
      exact hn.binds x hx

theorem reparent (hn : Named hash env t live m) (he : e ∈ live) {h : Hmap S V}
    (hbuckets : h.buckets = (env e).buckets)
    (hrooted : Rooted (Function.update t.parent (m e) (h.parent.map m)) t.next) :
    Named hash (Function.update env e h) (t.reparent (m e) (h.parent.map m)) live m where
  rooted := hrooted
  inj := hn.inj
  lt := hn.lt
  parent x hx := by
    rw [Tree.reparent]
    dsimp only
    by_cases hxe : x = e
    · rw [hxe, Function.update_self, Function.update_self]
    · rw [Function.update_of_ne hxe, Function.update_of_ne (fun heq => hxe (hn.inj x hx e he heq))]
      exact hn.parent x hx
  binds x hx := by
    by_cases hxe : x = e
    · rw [hxe, Function.update_self]
      exact (hn.binds e he).congr hbuckets
    · rw [Function.update_of_ne hxe]
      exact hn.binds x hx

/-- One more, under the next name. -/
theorem join (hn : Named hash env t live m) (he : e ∉ live) {h : Hmap S V} {f : S → Option V}
    (hb : Binds hash h f) (hp : ∀ p, h.parent = some p → p ∈ live)
    (hclosed : ∀ x ∈ live, ∀ p, (env x).parent = some p → p ∈ live) :
    Named hash (Function.update env e h) (t.add (h.parent.map m) f) (e :: live)
      (Function.update m e t.next) := by
  have hne : ∀ x ∈ live, x ≠ e := fun x hx => ne_of_mem_of_not_mem hx he
  have hm : ∀ x ∈ live, Function.update m e t.next x = m x := fun x hx =>
    Function.update_of_ne (hne x hx) _ _
  have hmap : ∀ q : Option ℕ, (∀ p, q = some p → p ∈ live) →
      q.map (Function.update m e t.next) = q.map m := fun q hq =>
    Option.map_congr fun p hqp => hm p (hq p hqp)
  have hold : ∀ x ∈ live, m x ≠ t.next := fun x hx => (hn.lt x hx).ne
  refine ⟨?_, ?_, ?_, ?_, ?_⟩
  · refine hn.rooted.add fun p hq => ?_
    obtain ⟨c, hc, rfl⟩ := Option.map_eq_some_iff.1 hq
    exact hn.lt c (hp c hc)
  · refine List.forall_mem_cons.2 ⟨?_, fun x hx => ?_⟩
    · refine List.forall_mem_cons.2 ⟨fun _ => rfl, fun y hy heq => ?_⟩
      rw [Function.update_self, hm y hy] at heq
      exact absurd heq.symm (hold y hy)
    · refine List.forall_mem_cons.2 ⟨fun heq => ?_, fun y hy heq => ?_⟩
      · rw [Function.update_self, hm x hx] at heq
        exact absurd heq (hold x hx)
      · rw [hm x hx, hm y hy] at heq
        exact hn.inj x hx y hy heq
  · refine List.forall_mem_cons.2 ⟨?_, fun x hx => ?_⟩
    · rw [Function.update_self]
      exact Nat.lt_succ_self _
    · rw [hm x hx]
      exact (hn.lt x hx).trans (Nat.lt_succ_self _)
  · rw [Tree.add]
    dsimp only
    refine List.forall_mem_cons.2 ⟨?_, fun x hx => ?_⟩
    · rw [Function.update_self, Function.update_self, Function.update_self, hmap _ hp]
    · rw [hm x hx, Function.update_of_ne (hold x hx), Function.update_of_ne (hne x hx),
        hmap _ (hclosed x hx)]
      exact hn.parent x hx
  · rw [Tree.add]
    dsimp only
    refine List.forall_mem_cons.2 ⟨?_, fun x hx => ?_⟩
    · rw [Function.update_self, Function.update_self, Function.update_self]
      exact hb
    · rw [hm x hx, Function.update_of_ne (hold x hx), Function.update_of_ne (hne x hx)]
      exact hn.binds x hx

end Named

/-! ## Binds -/

namespace Sim

variable {e : ℕ} {h : Hmap S V} {f : S → Option V}

theorem slot (hs : Sim hash l t live idle m) (slot : S → ℕ) :
    Sim hash { l with slot := slot } t live idle m := { hs with }

theorem edit (hs : Sim hash l t live idle m) (he : e ∈ live) (hparent : h.parent = (l.env e).parent)
    (hrefs : h.refs = (l.env e).refs) (hb : Binds hash h f) (slot : S → ℕ) :
    Sim hash { l.put e h with slot := slot } (t.rebind (m e) f) live idle m where
  cells := hs.cells.edit he hparent hrefs
  named := hs.named.edit he hparent hb
  current := hs.current
  held := hs.held
  saved := hs.saved

theorem pinsert (hs : Sim hash l t live idle m) (he : e ∈ live) (grow : ℕ → ℕ) (key : S) (value : V) :
    Sim hash (l.pinsert hash e key grow value) (t.bind (m e) [(key, value)]) live idle m :=
  hs.edit he (Hmap.parent_pinsert ..) (Hmap.refs_pinsert ..)
    ((hs.named.binds e he).pinsert grow l.slot key value) _

theorem bind_bind (t : Tree S V) (x : ℕ) (f : S → Option V) (args : List (S × V)) :
    (t.rebind x f).bind x args = t.rebind x (bound f args) := by
  rw [Tree.bind, Tree.rebind, Tree.rebind, Tree.rebind]
  dsimp only
  rw [Function.update_self, Function.update_idem]

theorem oneByOne (hs : Sim hash l t live idle m) (he : e ∈ live) (grow : ℕ → ℕ) (args : List (S × V)) :
    Sim hash (args.foldl (fun l p => l.pinsert hash e p.1 grow p.2) l) (t.bind (m e) args) live idle m := by
  induction args generalizing l t with
  | nil =>
    have hself : t.bind (m e) [] = t := by
      rw [Tree.bind, Tree.rebind]
      exact congrArg (fun f => { t with binds := f }) (Function.update_eq_self ..)
    rw [hself]
    exact hs
  | cons p args ih =>
    have hall : (t.bind (m e) [(p.1, p.2)]).bind (m e) args = t.bind (m e) (p :: args) :=
      bind_bind t (m e) _ args
    rw [← hall]
    exact ih (hs.pinsert he grow p.1 p.2)

/-- In place or one by one, the parameters are bound to their values. -/
theorem envBind (hs : Sim hash l t live idle m) (grow : ℕ → ℕ) (steal : Bool) (args : List (S × V)) :
    Sim hash (l.envBind hash grow steal args) (t.bind (m l.environment) args) live idle m := by
  have he := hs.environment_mem
  rw [Lisp.envBind]
  dsimp only
  by_cases hfresh : (l.env l.environment).buckets.length = 1 ∧
      (l.env l.environment).buckets.flatten.isEmpty ∧ args.length ≤ (l.env l.environment).capacity / 2
  · rw [if_pos hfresh]
    obtain ⟨hone, hempty, -⟩ := hfresh
    have hbuckets : (l.env l.environment).buckets = [[]] := by
      obtain ⟨b, hb⟩ := List.length_eq_one_iff.1 hone
      rw [hb, List.flatten_singleton, List.isEmpty_iff] at hempty
      rw [hb, hempty]
    have hnone : t.binds (m l.environment) = fun _ => none := (hs.named.binds _ he).eq_none hbuckets
    have hin : InPlace l.slot ([] : List (S × V)) := fun i p hp => by simp at hp
    obtain ⟨put, rest, hargs, hdone, hall, hholds⟩ := freshLoop_spec args hin holds_nil_pairsOf
    rw [List.nil_append] at hdone hholds
    have hput : ∀ slot, Sim hash
        { l.put l.environment { l.env l.environment with buckets := [put] } with slot := slot }
        (t.rebind (m l.environment) (bound (fun _ => none) put)) live idle m := fun slot =>
      hs.edit (h := { l.env l.environment with buckets := [put] }) he rfl rfl
        (binds_single hash (l.env l.environment) hholds) slot
    generalize freshLoop l.slot [] args = r at hdone hall
    obtain ⟨ok, done, slot⟩ := r
    obtain rfl : done = put := hdone
    cases ok with
    | true =>
      rw [hall rfl, List.append_nil] at hargs
      rw [Tree.bind, hnone, hargs]
      exact hput slot
    | false =>
      cases steal with
      | true => exact (hs.slot slot).oneByOne he grow args
      | false =>
        have hrest := (hput slot).oneByOne he grow args
        -- what was put in place is put again
        have hagain : bound (bound (fun _ => none) done) args = bound (t.binds (m l.environment)) args :=
          bound_congr fun k hk => by
            rw [hnone, bound_of_notMem fun p hp => hk p (hargs ▸ List.mem_append_left _ hp)]
        rw [bind_bind, hagain] at hrest
        exact hrest
  · rw [if_neg hfresh]
    exact hs.oneByOne he grow args

end Sim

end Sim

end ChrysaLisp.Lookup
