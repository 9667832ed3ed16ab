import Mathlib.Algebra.Order.Ring.Int
import ChrysaLisp.Collections.Fmap

set_option autoImplicit false

/-! # Emap

`lib/collections/emap.inc`, an environment of its own with no parent, a `class/hmap`. Its keys are
symbols, and a key is searched for by its address. An `hmap` of one bucket is itself the bucket,
here as everywhere a list of one. -/

namespace ChrysaLisp.Collections

open FiniteMap

variable {O : Type}

/-! ## The environment -/

structure Env (O : Type) where
  num_buckets : ℕ
  buckets : List (List O)

namespace Env

/-- `(env num)` -/
def new (num : ℕ) : Option (Env O) :=
  if num < 1 then none else some ⟨num, List.replicate num []⟩

/-- `:hset :bucket`, of the hash as an unsigned long. -/
def bucket (L : Lisp O) (num_buckets : ℕ) (key : O) : ℕ :=
  if num_buckets = 1 then 0 else (L.hash key % 2 ^ 64).toNat % num_buckets

/-- `(tolist env)` -/
def tolist (e : Env O) : List (O × O) := e.buckets.flatMap partition

/-- `:list :push_back2` of a pair to its bucket, as `:hmap :copy` does of each. -/
def push (L : Lisp O) (e : Env O) (p : O × O) : Option (Env O) :=
  let i := bucket L e.num_buckets p.1
  (e.buckets[i]?).map (fun l => { e with buckets := e.buckets.set i (l ++ [p.1, p.2]) })

/-- `(env-resize num env)` -/
def resize (L : Lisp O) (e : Env O) (num : ℕ) : Option (Env O) := do
  let that ← new num
  e.tolist.foldlM (push L) that

variable [DecidableEq O] (L : Lisp O) (hint : O → ℕ) (e : Env O) (key : O)

/-- `:hmap :pfind`: the bucket searched, and the place in it. -/
def pfind : ℕ × Option ℕ :=
  let i := bucket L e.num_buckets key
  (i, search (fun a b => decide (a = b)) (hint key) key (e.buckets.getD i []))

/-- What throws for a key that is no symbol. -/
def checked {α : Type} (L : Lisp O) (key : O) (r : Option α) : Option α :=
  if L.kind key = .sym then r else none

/-- `(get key env)` and `(def? key env)`, of an environment with no parent. -/
def get : Option O :=
  checked L key <|
    let (i, si) := e.pfind L hint key
    some ((si.bind (fun j => (e.buckets.getD i [])[2 * j + 1]?)).getD L.nil)

/-- `(def env key val)` -/
def define (val : O) : Option (Env O) :=
  checked L key <|
    let (i, si) := e.pfind L hint key
    (e.buckets[i]?).map (fun l => { e with buckets := e.buckets.set i (match si with
      | some j => l.set (2 * j + 1) val
      | none => l ++ [key, val]) })

/-- `(undef env key)` -/
def undef : Option (Env O) :=
  checked L key <|
    let (i, si) := e.pfind L hint key
    (e.buckets[i]?).map (fun l => { e with buckets := e.buckets.set i (match si with
      | some j => erase2 l j
      | none => l) })

end Env

/-! ## Emap -/

structure Emap (O : Type) where
  num_buckets : ℕ
  buckets : Env O

namespace Emap

/-- `(Emap num_buckets)` -/
def new (num_buckets : ℕ) : Option (Emap O) :=
  (Env.new num_buckets).map (fun e => ⟨num_buckets, e⟩)

def each (m : Emap O) : List (O × O) := m.buckets.tolist

def empty (m : Emap O) : Option (Emap O) :=
  (Env.new m.num_buckets).map (fun e => { m with buckets := e })

def resize (L : Lisp O) (m : Emap O) (num_buckets : ℕ) : Option (Emap O) :=
  (m.buckets.resize L num_buckets).map (fun e => { m with buckets := e })

variable [DecidableEq O] (L : Lisp O) (hints : Hints O) (m : Emap O) (key : O)

def find : Option O := m.buckets.get L (hints 0) key

def insert (val : O) : Option (Emap O) :=
  (m.buckets.define L (hints 0) key val).map (fun e => { m with buckets := e })

def update (fnc : O → O) : Option (Emap O × O) := do
  let old ← m.buckets.get L (hints 0) key
  let val := fnc old
  let e ← m.buckets.define L (hints 1) key val
  pure ({ m with buckets := e }, val)

/-- `:memoize`, where a call of the lambda would come back with `val`. A `:nil` that is there is
    as none. -/
def memoize (val : O) : Option (Emap O × O) := do
  let old ← m.buckets.get L (hints 0) key
  if old = L.nil then do
    let e ← m.buckets.define L (hints 1) key val
    pure ({ m with buckets := e }, val)
  else pure (m, old)

def erase : Option (Emap O) :=
  (m.buckets.undef L (hints 0) key).map (fun e => { m with buckets := e })

def copy : Option (Emap O) := do
  let that ← new m.num_buckets
  m.buckets.tolist.foldlM (fun that p => that.insert L hints p.1 p.2) that

/-- `:move`: what is left and what comes back. -/
def move : Option (Emap O × Emap O) := do
  let that ← m.copy L hints
  let m ← m.empty
  pure (m, that)

end Emap

/-! ## What an environment holds -/

namespace Env

/-- Symbols compare by address. -/
def addr [DecidableEq O] (a b : O) : Bool := decide (a = b)

theorem same_addr [DecidableEq O] : Same (addr (O := O)) where
  refl a := by simp [addr]
  symm h := by simpa [addr, eq_comm] using h
  trans hab hbc := by
    simp only [addr, decide_eq_true_iff] at *
    exact hab.trans hbc

variable [DecidableEq O] {L : Lisp O} {e : Env O} {bs : List (List (O × O))} {abs : Map O O}
  {key : O}

/-- The pairs of the buckets are the map's, and their keys are symbols. -/
structure Rep (L : Lisp O) (e : Env O) (bs : List (List (O × O))) (abs : Map O O) : Prop where
  buckets : e.buckets = bs.map flat
  num : e.num_buckets = bs.length
  pos : 0 < bs.length
  kept : Kept addr (fun k => some (bucket L bs.length k)) bs abs
  syms : ∀ p ∈ bs.flatten, L.kind p.1 = .sym

def Is (L : Lisp O) (e : Env O) (abs : Map O O) : Prop := ∃ bs, Rep L e bs abs

omit [DecidableEq O] in
theorem bucket_lt {n : ℕ} (hn : 0 < n) (key : O) : bucket L n key < n := by
  rw [bucket]
  split
  · exact hn
  · exact Nat.mod_lt _ hn

theorem Rep.tolist (h : Rep L e bs abs) : e.tolist = bs.flatten := by
  rw [Env.tolist, h.buckets, List.flatMap_map]
  simp only [partition_flat, List.flatMap_id']

/-- The bucket of a key, and that a search of it finds the key or that it is not there. -/
theorem Rep.bucket (h : Rep L e bs abs) (hint : O → ℕ) (key : O) : ∃ b si,
    bs[bucket L bs.length key]? = some b ∧
    e.buckets[bucket L bs.length key]? = some (flat b) ∧
    Goes addr (fun k => some (bucket L bs.length k)) bs key (bucket L bs.length key) ∧
    e.pfind L hint key = (bucket L bs.length key, si) ∧ Found addr b key si := by
  obtain ⟨b, hb⟩ : ∃ b, bs[Env.bucket L bs.length key]? = some b :=
    ⟨_, List.getElem?_eq_getElem (bucket_lt h.pos key)⟩
  have hm : e.buckets[Env.bucket L bs.length key]? = some (flat b) := by
    rw [h.buckets, List.getElem?_map, hb, Option.map_some]
  have hfound : ∀ b, Found addr b key
      (search (fun a b => decide (a = b)) (hint key) key (flat b)) := fun b =>
    found_search (fun a => decide_eq_decide.2 eq_comm) _
  refine ⟨_, _, hb, hm, ⟨rfl, fun p _ hs => ?_⟩, ?_, hfound _⟩
  · rw [of_decide_eq_true hs]
  · rw [pfind, h.num, List.getD_eq_getElem?_getD, hm]
    rfl

theorem is_new (L : Lisp O) {n : ℕ} (hn : 0 < n) : ∃ e, new n = some e ∧ Is L e Map.empty := by
  refine ⟨⟨n, List.replicate n []⟩, if_neg (by omega), List.replicate n [], ?_, ?_, ?_, ?_, ?_⟩
  · rw [List.map_replicate, flat_nil]
  · rw [List.length_replicate]
  · rw [List.length_replicate]
    exact hn
  · rw [List.length_replicate]
    refine ⟨?_, (filled_replicate (fun k => some (bucket L n k)) n).placed⟩
    rw [List.flatten_replicate_nil]
    exact Holds.nil
  · rw [List.flatten_replicate_nil]
    exact fun p hp => absurd hp List.not_mem_nil

/-- One bucket changed, and the map with it. -/
theorem Rep.set (h : Rep L e bs abs) {j : ℕ} {b : List (O × O)} {abs' : Map O O}
    (hkept : Kept addr (fun k => some (Env.bucket L bs.length k)) (bs.set j b) abs')
    (hsyms : ∀ p ∈ b, L.kind p.1 = .sym) :
    Is L { e with buckets := e.buckets.set j (flat b) } abs' := by
  refine ⟨bs.set j b, by rw [h.buckets, List.map_set], by rw [h.num, List.length_set],
    by rw [List.length_set]; exact h.pos, by rw [List.length_set]; exact hkept, fun p hp => ?_⟩
  obtain ⟨c, hc, hpc⟩ := List.mem_flatten.1 hp
  rcases List.mem_or_eq_of_mem_set hc with hc | rfl
  · exact h.syms p (List.mem_flatten.2 ⟨c, hc, hpc⟩)
  · exact hsyms p hpc

theorem get_eq (h : Is L e abs) (hint : O → ℕ) (hk : L.kind key = .sym) :
    e.get L hint key = some ((abs.find key).getD L.nil) := by
  obtain ⟨bs, h⟩ := h
  obtain ⟨b, si, hb, hm, hgoes, hfind, hfound⟩ := h.bucket hint key
  rw [get, checked, if_pos hk, hfind, Map.find, h.kept.look_found hgoes hb hfound]
  simp only [List.getD_eq_getElem?_getD, hm, Option.getD_some]
  cases si with
  | none => rfl
  | some j => rw [Option.bind_some, Option.bind_some, flat_val]

omit [DecidableEq O] in
theorem putAt_syms {b : List (O × O)} {r : Option ℕ} {val : O} (hk : L.kind key = .sym)
    (hb : ∀ p ∈ b, L.kind p.1 = .sym) : ∀ p ∈ putAt b key val r, L.kind p.1 = .sym := by
  cases r with
  | none =>
      intro p hp
      rcases List.mem_append.1 hp with hp | hp
      · exact hb p hp
      · rw [List.mem_singleton.1 hp]
        exact hk
  | some i =>
      intro p hp
      obtain ⟨j, hj⟩ := List.mem_iff_getElem?.1 hp
      rw [putAt, List.getElem?_modify] at hj
      obtain ⟨q, hq, rfl⟩ := Option.map_eq_some_iff.1 hj
      have := hb q (List.mem_of_getElem? hq)
      split <;> exact this

theorem Rep.syms_of (h : Rep L e bs abs) {j : ℕ} {b : List (O × O)} (hb : bs[j]? = some b) :
    ∀ p ∈ b, L.kind p.1 = .sym := fun p hp =>
  h.syms p (List.mem_flatten.2 ⟨b, List.mem_of_getElem? hb, hp⟩)

theorem is_define (h : Is L e abs) (hint : O → ℕ) (hk : L.kind key = .sym) (val : O) :
    ∃ e', e.define L hint key val = some e' ∧ Is L e' (abs.put addr key val) := by
  obtain ⟨bs, h⟩ := h
  obtain ⟨b, si, hb, hm, hgoes, hfind, hfound⟩ := h.bucket hint key
  have hset := h.set (h.kept.put same_addr hgoes hb hfound val)
    (putAt_syms hk (h.syms_of hb))
  rw [define, checked, if_pos hk, hfind]
  simp only [hm, Option.map_some]
  refine ⟨_, rfl, ?_⟩
  cases si with
  | none =>
      rw [putAt, flat_append] at hset
      exact hset
  | some j =>
      rw [putAt, ← flat_set_val] at hset
      exact hset

theorem is_undef (h : Is L e abs) (hint : O → ℕ) (hk : L.kind key = .sym) :
    ∃ e', e.undef L hint key = some e' ∧ Is L e' (abs.drop addr key) := by
  obtain ⟨bs, h⟩ := h
  obtain ⟨b, si, hb, hm, hgoes, hfind, hfound⟩ := h.bucket hint key
  have hkept := h.kept.drop same_addr hgoes hb hfound
  rw [undef, checked, if_pos hk, hfind]
  simp only [hm, Option.map_some]
  refine ⟨_, rfl, ?_⟩
  cases si with
  | none => exact h.set hkept (h.syms_of hb)
  | some j =>
      show Is L { e with buckets := e.buckets.set _ (erase2 (flat b) j) } _
      rw [erase2_flat (found_lt hfound)]
      refine h.set hkept (fun p hp => ?_)
      have hp' := (swapOut_perm (found_lt hfound)).mem_iff.1 hp
      exact h.syms_of hb p (List.mem_of_mem_eraseIdx hp')

theorem is_tolist (h : Is L e abs) : e.tolist.Nodup ∧ (∀ p, p ∈ e.tolist ↔ p ∈ abs.pairs) ∧
    ∀ p ∈ e.tolist, L.kind p.1 = .sym := by
  obtain ⟨bs, h⟩ := h
  rw [h.tolist]
  exact ⟨h.kept.holds.nodup same_addr, fun p => (h.kept.holds.mem_pairs same_addr p).symm, h.syms⟩

theorem is_resize (h : Is L e abs) {n : ℕ} (hn : 0 < n) :
    ∃ e', e.resize L n = some e' ∧ Is L e' abs := by
  obtain ⟨bs, h⟩ := h
  have hapart : e.tolist.Pairwise (fun p q => ¬ addr p.1 q.1) := by
    rw [h.tolist]
    exact h.kept.holds.apart
  obtain ⟨e', bs', hfold, ⟨hbuckets, hnum, hn'⟩, -, hfilled⟩ := Filled.fold
    (f := push L) (s := (⟨n, List.replicate n []⟩ : Env O))
    (R := fun (e : Env O) bs => e.buckets = bs.map flat ∧ e.num_buckets = n ∧ bs.length = n)
    (fun e bs p j b he _ hj hb => by
      obtain ⟨hbuckets, hnum, hlen⟩ := he
      rw [Option.some_inj] at hj
      refine ⟨{ e with buckets := e.buckets.set j (flat b ++ [p.1, p.2]) }, ?_, ?_, hnum,
        by rw [List.length_set, hlen]⟩
      · rw [push, hnum, hj, hbuckets, List.getElem?_map, hb]
        rfl
      · rw [hbuckets, List.map_set, flat_append]
        rfl)
    ⟨by rw [List.map_replicate, flat_nil], rfl, List.length_replicate⟩
    (filled_replicate (fun k => some (Env.bucket L n k)) n) hapart (by simp)
    (fun p _ => ⟨_, by rw [List.length_replicate]; exact bucket_lt hn p.1, rfl⟩)
  refine ⟨e', ?_, bs', hbuckets, by rw [hnum, hn'], by rw [hn']; exact hn, ?_, ?_⟩
  · rw [resize, new, if_neg (by omega), Option.bind_eq_bind, Option.bind_some]
    exact hfold
  · rw [hn']
    refine hfilled.kept same_addr h.kept.holds ?_
    rw [List.append_nil, ← h.tolist]
    exact List.reverse_perm _
  · intro p hp
    have hmem := hfilled.perm.mem_iff.1 hp
    rw [List.append_nil, List.mem_reverse, h.tolist] at hmem
    exact h.syms p hmem

end Env

/-! ## What an Emap holds -/

namespace Emap

variable [DecidableEq O] {L : Lisp O} {m : Emap O} {abs : Map O O} {key : O} (hints : Hints O)

def Is (L : Lisp O) (m : Emap O) (abs : Map O O) : Prop := 0 < m.num_buckets ∧ m.buckets.Is L abs

theorem is_new (L : Lisp O) {n : ℕ} (hn : 0 < n) :
    ∃ m : Emap O, new n = some m ∧ Is L m Map.empty := by
  obtain ⟨e, he, his⟩ := Env.is_new L hn
  exact ⟨⟨n, e⟩, by rw [new, he]; rfl, hn, his⟩

theorem Is.find (h : Is L m abs) (hk : L.kind key = .sym) :
    m.find L hints key = some ((abs.find key).getD L.nil) := Env.get_eq h.2 (hints 0) hk

theorem Is.insert (h : Is L m abs) (hk : L.kind key = .sym) (val : O) :
    ∃ m', m.insert L hints key val = some m' ∧ Is L m' (abs.put Env.addr key val) := by
  obtain ⟨e, he, his⟩ := Env.is_define h.2 (hints 0) hk val
  exact ⟨{ m with buckets := e }, by rw [Emap.insert, he]; rfl, h.1, his⟩

theorem Is.update (h : Is L m abs) (hk : L.kind key = .sym) (fnc : O → O) :
    ∃ m', m.update L hints key fnc = some (m', fnc ((abs.find key).getD L.nil)) ∧
      Is L m' (abs.put Env.addr key (fnc ((abs.find key).getD L.nil))) := by
  obtain ⟨e, he, his⟩ := Env.is_define h.2 (hints 1) hk (fnc ((abs.find key).getD L.nil))
  refine ⟨{ m with buckets := e }, ?_, h.1, his⟩
  rw [Emap.update, Env.get_eq h.2 (hints 0) hk, Option.bind_eq_bind, Option.bind_some]
  simp only [he, Option.bind_eq_bind, Option.bind_some]
  rfl

/-- A key whose value is `:nil` is worked out again, which says nothing new if that is `:nil`. -/
theorem Is.memoize (h : Is L m abs) (hk : L.kind key = .sym) {val : O}
    (hset : abs.find key = some L.nil → val = L.nil) :
    ∃ m', m.memoize L hints key val = some (m', (abs.find key).getD val) ∧
      Is L m' ((abs.find key).elim (abs.put Env.addr key val) (fun _ => abs)) := by
  obtain ⟨e, he, his⟩ := Env.is_define h.2 (hints 1) hk val
  rw [Emap.memoize, Env.get_eq h.2 (hints 0) hk, Option.bind_eq_bind, Option.bind_some]
  cases hfind : abs.find key with
  | none =>
      rw [Option.getD_none, if_pos rfl, he]
      exact ⟨{ m with buckets := e }, rfl, h.1, his⟩
  | some v =>
      rw [Option.getD_some, Option.getD_some, Option.elim_some]
      by_cases hv : v = L.nil
      · have hval : val = L.nil := hset (by rw [hfind, hv])
        obtain ⟨bs, hbs⟩ := h.2
        rw [hbs.kept.holds.put_same Env.same_addr (by rw [hfind, hv, hval])] at his
        rw [if_pos hv, he, hv, hval]
        exact ⟨{ m with buckets := e }, rfl, h.1, his⟩
      · rw [if_neg hv]
        exact ⟨m, rfl, h⟩

theorem Is.erase (h : Is L m abs) (hk : L.kind key = .sym) :
    ∃ m', m.erase L hints key = some m' ∧ Is L m' (abs.drop Env.addr key) := by
  obtain ⟨e, he, his⟩ := Env.is_undef h.2 (hints 0) hk
  exact ⟨{ m with buckets := e }, by rw [Emap.erase, he]; rfl, h.1, his⟩

theorem Is.resize (h : Is L m abs) {n : ℕ} (hn : 0 < n) :
    ∃ m', m.resize L n = some m' ∧ Is L m' abs := by
  obtain ⟨e, he, his⟩ := Env.is_resize h.2 hn
  exact ⟨{ m with buckets := e }, by rw [Emap.resize, he]; rfl, h.1, his⟩

theorem Is.empty (h : Is L m abs) : ∃ m', m.empty = some m' ∧ Is L m' Map.empty := by
  obtain ⟨e, he, his⟩ := Env.is_new L h.1
  exact ⟨{ m with buckets := e }, by rw [Emap.empty, he]; rfl, h.1, his⟩

theorem Is.each (h : Is L m abs) : m.each.Nodup ∧ ∀ p, p ∈ m.each ↔ p ∈ abs.pairs :=
  ⟨(Env.is_tolist h.2).1, (Env.is_tolist h.2).2.1⟩

theorem Is.look (h : Is L m abs) {p : O × O} (hp : abs key = some p) : p ∈ m.each ∧ p.1 = key := by
  obtain ⟨bs, hbs⟩ := h.2
  obtain ⟨hmem, hs⟩ := (hbs.kept.holds.look key p).1 hp
  exact ⟨by rw [Emap.each, hbs.tolist]; exact hmem, of_decide_eq_true hs⟩

theorem copy_all (l : List (O × O)) (hl : ∀ p ∈ l, L.kind p.1 = .sym) (h : Is L m abs) :
    ∃ m', l.foldlM (fun that p => Emap.insert L hints that p.1 p.2) m = some m' ∧
      Is L m' (l.foldl (fun m p => m.put Env.addr p.1 p.2) abs) := by
  induction l generalizing m abs with
  | nil => exact ⟨m, rfl, h⟩
  | cons p l ih =>
      obtain ⟨m₁, hm₁, h₁⟩ := h.insert hints (hl p List.mem_cons_self) p.2
      obtain ⟨m₂, hm₂, h₂⟩ := ih (fun q hq => hl q (List.mem_cons_of_mem _ hq)) h₁
      refine ⟨m₂, ?_, h₂⟩
      rw [List.foldlM_cons, hm₁]
      exact hm₂

theorem Is.copy (h : Is L m abs) : ∃ m', m.copy L hints = some m' ∧ Is L m' abs := by
  obtain ⟨m₀, hm₀, h₀⟩ := is_new L h.1
  obtain ⟨bs, hbs⟩ := h.2
  obtain ⟨m₁, hm₁, h₁⟩ := copy_all hints m.buckets.tolist (Env.is_tolist h.2).2.2 h₀
  refine ⟨m₁, ?_, ?_⟩
  · rw [Emap.copy, hm₀]
    exact hm₁
  · rw [hbs.tolist, hbs.kept.holds.foldl_put Env.same_addr] at h₁
    exact h₁

theorem Is.move (h : Is L m abs) : ∃ m₁ m₂, m.move L hints = some (m₁, m₂) ∧
    Is L m₁ Map.empty ∧ Is L m₂ abs := by
  obtain ⟨m₂, hm₂, h₂⟩ := h.copy hints
  obtain ⟨m₁, hm₁, h₁⟩ := h.empty
  refine ⟨m₁, m₂, ?_, h₁, h₂⟩
  rw [Emap.move, hm₂, Option.bind_eq_bind, Option.bind_some, hm₁]
  rfl

end Emap

end ChrysaLisp.Collections
