import ChrysaLisp.Text.Regexp
import Mathlib.Tactic.SplitIfs

set_option autoImplicit false

/-! # The spans of a match

Whatever is written to a trace is a zero or the place the search is at, so the spans that are
reported are within the text (`searchAll_within`). Nothing keeps the end of a group from being
before its start. -/

namespace ChrysaLisp.Regexp

/-- What a turn does. -/
theorem insertTurn_cases {prog : List Elem} {here : Place} {index : ℤ} {o : Offset}
    {stack : List Offset} {c : Closure}
    {turn : Turn} (h : insertTurn prog here index o stack c = .ok turn) :
    ∃ value trace, evalOffset here c.trace o = .ok (value, trace) ∧
      ((value = none ∧ turn = .goesOn stack { c with trace }) ∨
        ∃ offset, value = some offset ∧ 0 ≤ index + offset ∧
          (((index + offset).toNat = prog.length ∧ turn = .matched { c with trace }) ∨
            (∃ test offsets, prog[(index + offset).toNat]? = some ⟨some test, offsets⟩ ∧
              turn = .goesOn stack (c.wait (index + offset).toNat trace)) ∨
            ∃ offsets stack' trace', prog[(index + offset).toNat]? = some ⟨none, offsets⟩ ∧
              pushOffsets here offset offsets stack trace = .ok (stack', trace') ∧
              turn = .goesOn stack' { c with trace := trace' })) := by
  obtain ⟨⟨value, trace⟩, heval, hrest⟩ := bind_eq_ok.mp h
  refine ⟨value, trace, heval, ?_⟩
  cases value with
  | none => exact .inl ⟨rfl, (Except.ok.inj hrest).symm⟩
  | some offset =>
      simp only at hrest
      split_ifs at hrest with hneg hstop
      · refine .inr ⟨offset, rfl, Int.not_lt.mp hneg, ?_⟩
        exact .inl ⟨hstop, (Except.ok.inj hrest).symm⟩
      · refine .inr ⟨offset, rfl, Int.not_lt.mp hneg, ?_⟩
        split at hrest
        · exact absurd hrest (by simp)
        · rename_i test offsets helem
          exact .inr (.inl ⟨test, offsets, helem, (Except.ok.inj hrest).symm⟩)
        · rename_i offsets helem
          obtain ⟨⟨stack', trace'⟩, hpush, hturn⟩ := bind_eq_ok.mp hrest
          exact .inr (.inr ⟨offsets, stack', trace', helem, hpush, (Except.ok.inj hturn).symm⟩)

/-! ## The spans are within the text -/

/-- The places of a trace are no further than `n`, whatever the index after them. -/
def Bounded (n : ℕ) (trace : List ℕ) : Prop := ∀ x ∈ trace.dropLast, x ≤ n

/-- So are those of a closure's threads. -/
structure Closure.Bounded (n : ℕ) (c : Closure) : Prop where
  trace : Regexp.Bounded n c.trace
  next : ∀ tr ∈ c.next, Regexp.Bounded n tr

section Bounded

variable {n : ℕ} {prog : List Elem} {here : Place} {index : ℤ} {trace trace' : List ℕ}

theorem Bounded.with_index (h : Bounded n trace) (index : ℕ) : Bounded n (trace.dropLast ++ [index]) := by
  rw [Bounded, List.dropLast_concat]
  exact h

theorem Bounded.set (h : Bounded n trace) (label : ℕ) {place : ℕ} (hplace : place ≤ n) :
    Bounded n (trace.set label place) := by
  intro x hx
  rw [List.dropLast_eq_take, List.length_set, List.take_set] at hx
  rcases List.mem_or_eq_of_mem_set hx with hold | rfl
  · exact h x (List.dropLast_eq_take ▸ hold)
  · exact hplace

theorem Bounded.lrb (h : Bounded n trace) (label i : ℕ) :
    Bounded n (pushZeros label trace.dropLast ++ [i]) := by
  intro x hx
  rw [List.dropLast_concat, pushZeros] at hx
  rcases List.mem_append.mp hx with hold | hzero
  · exact h x hold
  · rw [List.eq_of_mem_replicate hzero]
    exact Nat.zero_le n

theorem evalOffset_bounded (hsi : here.si ≤ n) (h : Bounded n trace) {o : Offset} {value : Option ℤ}
    (heval : evalOffset here trace o = .ok (value, trace')) : Bounded n trace' := by
  cases o with
  | num m =>
      obtain ⟨-, rfl⟩ := Prod.mk.inj (Except.ok.inj heval)
      exact h
  | assert c =>
      obtain ⟨-, rfl⟩ := Prod.mk.inj (Except.ok.inj heval)
      exact h
  | lrb label =>
      obtain ⟨-, rfl⟩ := Prod.mk.inj (Except.ok.inj heval)
      exact (h.lrb label _).set label hsi
  | rrb label =>
      rw [evalOffset] at heval
      split_ifs at heval
      obtain ⟨-, rfl⟩ := Prod.mk.inj (Except.ok.inj heval)
      exact h.set label hsi

theorem pushOffsets_bounded (hsi : here.si ≤ n) (offset : ℤ) (offsets : List Offset) :
    ∀ {stack stack' trace}, Bounded n trace →
      pushOffsets here offset offsets stack trace = .ok (stack', trace') →
      Bounded n trace' := by
  induction offsets with
  | nil =>
      intro stack stack' trace h hpush
      obtain ⟨-, rfl⟩ := Prod.mk.inj (Except.ok.inj hpush)
      exact h
  | cons o offsets ih =>
      intro stack stack' trace h hpush
      obtain ⟨⟨value, trace''⟩, heval, hrest⟩ := bind_eq_ok.mp hpush
      exact ih (evalOffset_bounded hsi h heval) hrest

theorem Closure.Bounded.wait {c : Closure} (h : c.Bounded n) (htrace : Regexp.Bounded n trace)
    (newIndex : ℕ) :
    (c.wait newIndex trace).Bounded n := by
  unfold Closure.wait
  split_ifs
  · exact ⟨htrace, h.next⟩
  · refine ⟨htrace, fun tr htr => ?_⟩
    rcases List.mem_append.mp htr with hold | hnew
    · exact h.next tr hold
    · rw [List.mem_singleton.mp hnew]
      exact htrace.with_index newIndex

theorem insertLoop_bounded (hsi : here.si ≤ n) (turns : ℕ) : ∀ {stack c c' matched}, c.Bounded n →
    insertLoop prog here index turns stack c = .ok (c', matched) → c'.Bounded n := by
  induction turns with
  | zero =>
      intro stack c c' matched _ h
      exact absurd h (by simp [insertLoop])
  | succ turns ih =>
      intro stack c c' matched hc h
      cases stack with
      | nil =>
          obtain ⟨rfl, -⟩ := Prod.mk.inj (Except.ok.inj h)
          exact hc
      | cons o stack =>
          obtain ⟨turn, hturn, hrest⟩ := bind_eq_ok.mp h
          obtain ⟨value, trace, heval, hcases⟩ := insertTurn_cases hturn
          have htrace := evalOffset_bounded hsi hc.trace heval
          rcases hcases with ⟨-, rfl⟩ | ⟨offset, -, -,
            ⟨-, rfl⟩ | ⟨test, offsets, -, rfl⟩ | ⟨offsets, stack', trace', -, hpush, rfl⟩⟩
          · have hnext : Closure.Bounded n { c with trace } := ⟨htrace, hc.next⟩
            exact ih hnext hrest
          · obtain ⟨rfl, -⟩ := Prod.mk.inj (Except.ok.inj hrest)
            exact ⟨htrace, hc.next⟩
          · exact ih (hc.wait htrace _) hrest
          · have hnext : Closure.Bounded n { c with trace := trace' } :=
              ⟨pushOffsets_bounded hsi offset offsets htrace hpush, hc.next⟩
            exact ih hnext hrest

theorem insertelem_bounded (hsi : here.si ≤ n) {turns : ℕ} {next : List (List ℕ)} {seen : List ℕ}
    {tr : List ℕ} {elem : Elem}
    {c : Closure} {matched : Bool} (hnext : ∀ tr ∈ next, Bounded n tr) (htr : Bounded n tr)
    (h : insertelem prog here turns next seen tr elem = .ok (c, matched)) : c.Bounded n :=
  insertLoop_bounded hsi turns ⟨htr, hnext⟩ h

theorem stepThreads_bounded (hsi : here.si ≤ n) {turns : ℕ} (current : List (List ℕ)) :
    ∀ {next seen next' matched},
    (∀ tr ∈ current, Bounded n tr) → (∀ tr ∈ next, Bounded n tr) →
    stepThreads prog here turns current next seen = .ok (next', matched) →
    (∀ tr ∈ next', Bounded n tr) ∧ ∀ tr ∈ matched, Bounded n tr := by
  induction current with
  | nil =>
      intro next seen next' matched _ hnext h
      obtain ⟨rfl, rfl⟩ := Prod.mk.inj (Except.ok.inj h)
      exact ⟨hnext, by simp⟩
  | cons tr current ih =>
      intro next seen next' matched hcurrent hnext h
      obtain ⟨htr, hrest⟩ := List.forall_mem_cons.mp hcurrent
      rw [stepThreads] at h
      split at h
      · exact absurd h (by simp)
      · split_ifs at h
        · obtain ⟨⟨c, found⟩, hinsert, hgo⟩ := bind_eq_ok.mp h
          have hc := insertelem_bounded hsi hnext htr hinsert
          cases found with
          | true =>
              obtain ⟨rfl, rfl⟩ := Prod.mk.inj (Except.ok.inj hgo)
              refine ⟨hc.next, fun tr' htr' => ?_⟩
              rw [← Option.some.inj htr']
              exact hc.trace
          | false => exact ih hrest hc.next hgo
        · exact ih hrest hnext h

theorem searchLoop_bounded {text : Str} {turns : ℕ} (rest : Str) :
    ∀ {k current found found'}, k + rest.length ≤ n →
    (∀ tr ∈ current, Bounded n tr) → Bounded n found.trace →
    searchLoop prog text turns rest k current found = .ok found' → Bounded n found'.trace := by
  induction rest with
  | nil =>
      intro k current found found' _ _ hfound h
      rwa [← Except.ok.inj h]
  | cons s rest ih =>
      intro k current found found' hk hcurrent hfound h
      rw [List.length_cons] at hk
      obtain ⟨⟨next, matched⟩, hstep, hgo⟩ := bind_eq_ok.mp h
      have hsi : (⟨text, k + 1, s⟩ : Place).si ≤ n := by
        simp only
        omega
      obtain ⟨hnext, hmatched⟩ :=
        stepThreads_bounded hsi current hcurrent (fun _ h => absurd h List.not_mem_nil) hstep
      have hlast : Bounded n (matched.elim found fun trace => ⟨k + 1, trace⟩).trace := by
        cases matched with
        | none => exact hfound
        | some trace => exact hmatched trace rfl
      simp only at hgo
      split_ifs at hgo with hnone
      · rwa [← Except.ok.inj hgo]
      · exact ih (by omega) hnext hlast hgo

/-- Spans that are within a text, either way round. -/
def Within (length : ℕ) (spans : List (ℕ × ℕ)) : Prop := ∀ span ∈ spans, span.1 ≤ length ∧ span.2 ≤ length

theorem partitionTwo_within (groups : List ℕ) : (∀ x ∈ groups, x ≤ n) → Within n (partitionTwo groups) := by
  induction groups using partitionTwo.induct with
  | case1 a b rest ih =>
      intro h span hspan
      obtain ⟨ha, hb⟩ := List.forall_mem_cons.mp h
      obtain ⟨hb, hrest⟩ := List.forall_mem_cons.mp hb
      rw [partitionTwo] at hspan
      rcases List.mem_cons.mp hspan with rfl | hin
      · exact ⟨ha, hb⟩
      · exact ih hrest span hin
  | case2 groups hnot =>
      intro _ span hspan
      rw [partitionTwo] at hspan
      · exact absurd hspan List.not_mem_nil
      · exact hnot

theorem firstelem_bounded (hsi : here.si ≤ n) {turns : ℕ} {current : List (List ℕ)} {found : Found}
    (h : firstelem prog here turns = .ok (current, found)) :
    (∀ tr ∈ current, Bounded n tr) ∧ Bounded n found.trace := by
  have hzero : Bounded n [0] := fun _ h => absurd h List.not_mem_nil
  unfold firstelem at h
  split at h
  · exact absurd h (by simp)
  · split_ifs at h
    · obtain ⟨rfl, rfl⟩ := Prod.mk.inj (Except.ok.inj h)
      exact ⟨fun tr htr => List.mem_singleton.mp htr ▸ hzero, hzero⟩
    · obtain ⟨⟨c, matched⟩, hinsert, hgo⟩ := bind_eq_ok.mp h
      obtain ⟨rfl, rfl⟩ := Prod.mk.inj (Except.ok.inj hgo)
      have hc := insertelem_bounded hsi (fun _ h => absurd h List.not_mem_nil) hzero hinsert
      refine ⟨hc.next, ?_⟩
      split_ifs
      · exact hc.trace
      · exact hzero

theorem search_within {text : Str} {turns start : ℕ} (hstart : start ≤ text.length)
    {l : List (ℕ × ℕ)} {stop : ℤ}
    (h : search prog text turns start = .ok (l, stop)) : Within text.length l := by
  obtain ⟨⟨current, found⟩, hfirst, hrest⟩ := bind_eq_ok.mp h
  obtain ⟨found', hloop, heq⟩ := bind_eq_ok.mp hrest
  obtain ⟨rfl, -⟩ := Prod.mk.inj (Except.ok.inj heq)
  obtain ⟨hcurrent, hfound⟩ := firstelem_bounded hstart hfirst
  have hlen : start + (text.drop start).length ≤ text.length := by
    rw [List.length_drop, Nat.add_sub_cancel' hstart]
  exact partitionTwo_within _ (searchLoop_bounded _ hlen hcurrent hfound hloop)

/-- A scan adds matches that are within the text. -/
theorem scan_within {text : Str} {turns : ℕ} {skip : ℕ → ℕ} (left : ℕ) : ∀ {j out out'},
    (∀ m ∈ out, Within text.length m) → scan prog text turns skip left j out = .ok out' →
    ∀ m ∈ out', Within text.length m := by
  induction left with
  | zero =>
      intro j out out' _ h
      exact absurd h (by simp [scan])
  | succ left ih =>
      intro j out out' hout h
      rw [scan] at h
      simp only at h
      split_ifs at h with hlt
      · obtain ⟨⟨l, stop⟩, hsearch, hgo⟩ := bind_eq_ok.mp h
        have hl := search_within hlt.le hsearch
        simp only at hgo
        split at hgo
        · refine ih ?_ hgo
          intro m hm
          rcases List.mem_append.mp hm with hold | hnew
          · exact hout m hold
          · exact List.mem_singleton.mp hnew ▸ hl
        · exact ih hout hgo
      · rwa [← Except.ok.inj h]

/-- Every span that `:search` gives is within the text. -/
theorem searchAll_within {text : Str} {turns : ℕ} {out : List (List (ℕ × ℕ))}
    (h : searchAll prog text turns = .ok out) : ∀ m ∈ out, Within text.length m := by
  have hnone : ∀ m ∈ ([] : List (List (ℕ × ℕ))), Within text.length m := fun _ h => absurd h List.not_mem_nil
  unfold searchAll at h
  split_ifs at h with hempty
  · subst hempty
    obtain ⟨⟨l, stop⟩, hsearch, heq⟩ := bind_eq_ok.mp h
    rw [← Except.ok.inj heq]
    intro m hm
    split_ifs at hm
    · exact List.mem_singleton.mp hm ▸ search_within (Nat.le_refl 0) hsearch
    · exact absurd hm List.not_mem_nil
  · split at h
    · exact scan_within _ hnone h
    · obtain ⟨found, hscan, hrest⟩ := bind_eq_ok.mp h
      have hfound := scan_within _ hnone hscan
      obtain ⟨last, -, hlast⟩ := bind_eq_ok.mp hrest
      split_ifs at hlast
      · rwa [← Except.ok.inj hlast]
      · obtain ⟨⟨l, stop⟩, hsearch, heq⟩ := bind_eq_ok.mp hlast
        rw [← Except.ok.inj heq]
        intro m hm
        split_ifs at hm
        · rcases List.mem_append.mp hm with hold | hnew
          · exact hfound m hold
          · exact List.mem_singleton.mp hnew ▸ search_within (Nat.le_refl _) hsearch
        · exact hfound m hm

end Bounded

end ChrysaLisp.Regexp
