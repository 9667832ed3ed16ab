import ChrysaLisp.Library.Segments

set_option autoImplicit false

/-! # The sort of an array

`:array :pivot` and `:array :sort` of `class/array/class.vp`. The halves that are pending are kept
two numbers to a word on an array that is lent for it. The comparison is a callback: it is given a
context, which may be other after each call, and where the two elements are, and only whether what
it gives is below 0 is looked at.

Any comparison whatever comes to an end, moves nothing outside the segment and loses and doubles nothing
(`Sorts.arranged`); one that is an order puts the segment in order (`Sorts.ordered`). -/

namespace ChrysaLisp.ArraySort

open Bounded Segments

variable {σ α : Type}

/-! ## The model -/

/-- An array: its length is kept in 32 bits. -/
structure Arr (α : Type) where
  elems : List α
  short : elems.length < 2 ^ 32

/-- The sort callback: of the context, the array and two places in it. -/
abbrev Callback (σ α : Type) := σ → List α → ℕ → ℕ → ℤ × σ

/-- The context, the elements, and where the pivot goes. -/
structure Walk (σ α : Type) where
  ctx : σ
  elems : List α
  pivt : ℕ

/-- The middle to the front. -/
def middleFirst (l : List α) (lowr uppr : ℕ) : Read (List α) :=
  if (uppr - lowr) / 2 ≠ 0 then swap l lowr (lowr + (uppr - lowr) / 2) else .ok l

/-- One place of the walk: what comes before the pivot goes next to what does already. -/
def walkStep (func : Callback σ α) (lowr iter : ℕ) (w : Walk σ α) : Read (Walk σ α) :=
  let (r, ctx) := func w.ctx w.elems iter lowr
  if 0 ≤ r then .ok { w with ctx := ctx }
  else if w.pivt + 1 = iter then .ok { w with ctx := ctx, pivt := w.pivt + 1 }
  else do
    let elems ← swap w.elems (w.pivt + 1) iter
    .ok ⟨ctx, elems, w.pivt + 1⟩

/-- The walk over what is left of the segment. -/
def walk (func : Callback σ α) (lowr : ℕ) : (left iter : ℕ) → Walk σ α → Read (Walk σ α)
  | 0, _, w => .ok w
  | left + 1, iter, w => walkStep func lowr iter w >>= walk func lowr left (iter + 1)

/-- `:array :pivot` -/
def pivot (func : Callback σ α) (ctx : σ) (l : List α) (lowr uppr : ℕ) : Read (Walk σ α) := do
  let l ← middleFirst l lowr uppr
  let w ← walk func lowr (uppr - (lowr + 1)) (lowr + 1) ⟨ctx, l, lowr⟩
  if w.pivt ≠ lowr then do
    let elems ← swap w.elems w.pivt lowr
    .ok { w with elems := elems }
  else .ok w

/-- The context, the elements, and the pending halves. -/
structure Sorting (σ α : Type) where
  ctx : σ
  elems : List α
  stack : List ℕ

/-- Two numbers of 32 bits in one word. -/
def interval (low high : ℕ) : ℕ := low + 2 ^ 32 * high

/-- The loop of the sort, that ends where the stack is as long as it was. -/
def sortLoop (func : Callback σ α) (start : ℕ) : (turns low high : ℕ) → Sorting σ α → Read (Sorting σ α)
  | 0, _, _, _ => .error .endless
  | turns + 1, low, high, s => do
      let s ← if low < high then do
          let w ← pivot func s.ctx s.elems low high
          .ok ⟨w.ctx, w.elems, s.stack ++ [interval low w.pivt] ++ [interval (w.pivt + 1) high]⟩
        else .ok s
      if s.stack.length = start then .ok s
      else do
        let last ← value s.stack.getLast?
        sortLoop func start turns (last % 2 ^ 32) (last / 2 ^ 32) { s with stack := s.stack.dropLast }

/-- `:array :sort` -/
def sort (turns : ℕ) (func : Callback σ α) (ctx : σ) (array : Arr α) (stack : List ℕ) (lowr uppr : ℕ) :
    Read (Sorting σ α) :=
  sortLoop func stack.length turns lowr uppr ⟨ctx, array.elems, stack⟩

/-! ## A comparison that is an order -/

/-- A total preorder, as what a comparison gives. -/
structure Preorders (cmp : α → α → ℤ) : Prop where
  flip : ∀ a b, cmp a b < 0 ↔ 0 < cmp b a
  trans : ∀ a b c, cmp a b ≤ 0 → cmp b c ≤ 0 → cmp a c ≤ 0

/-- The callback compares the elements that are at the places, whatever the context. -/
def Answers (func : Callback σ α) (cmp : α → α → ℤ) : Prop :=
  ∀ ctx l i j a b, l[i]? = some a → l[j]? = some b → (func ctx l i j).1 = cmp a b

variable {func : Callback σ α} {cmp : α → α → ℤ}

theorem Preorders.le_of_not_lt (hcmp : Preorders cmp) {a b : α} (h : 0 ≤ cmp a b) : cmp b a ≤ 0 := by
  by_contra hlt
  have hlt' := (hcmp.flip a b).mpr (by omega)
  omega

/-! ## The walk -/

/-- What the walk has come to at a place: what was found before the pivot is next to it, and what
    was not comes after. -/
structure Walked (func : Callback σ α) (cmp : α → α → ℤ) (lowr uppr iter : ℕ) (l : List α)
    (w : Walk σ α) : Prop where
  arranged : Arranged lowr uppr l w.elems
  ge_lowr : lowr ≤ w.pivt
  lt_iter : w.pivt < iter
  front : w.elems[lowr]? = l[lowr]?
  before : Answers func cmp → ∀ k a x, lowr < k → k ≤ w.pivt → w.elems[k]? = some a →
    w.elems[lowr]? = some x → cmp a x < 0
  after : Answers func cmp → ∀ k a x, w.pivt < k → k < iter → w.elems[k]? = some a →
    w.elems[lowr]? = some x → 0 ≤ cmp a x

variable {lowr uppr iter : ℕ} {l : List α} {w : Walk σ α}

theorem walkStep_comes (h : Walked func cmp lowr uppr iter l w) (hiter : iter < uppr)
    (hlen : uppr ≤ l.length) :
    Comes (walkStep func lowr iter w) fun w' => Walked func cmp lowr uppr (iter + 1) l w' := by
  have hlow := h.ge_lowr
  have hlt := h.lt_iter
  have hlen' := h.arranged.length_eq
  obtain ⟨a, ha⟩ : ∃ a, w.elems[iter]? = some a := ⟨_, List.getElem?_eq_getElem (by omega)⟩
  have hanswer : Answers func cmp → ∀ x, w.elems[lowr]? = some x →
    (func w.ctx w.elems iter lowr).1 = cmp a x :=
    fun hans x hx => hans _ _ _ _ _ _ ha hx
  unfold walkStep
  by_cases hr : 0 ≤ (func w.ctx w.elems iter lowr).1
  · simp only [if_pos hr]
    refine ⟨_, rfl, h.arranged, hlow, by simp only; omega, h.front, h.before, ?_⟩
    intro hans k b x hk hki hb hx
    rcases Nat.lt_succ_iff_lt_or_eq.mp hki with hki | rfl
    · exact h.after hans k b x hk hki hb hx
    · rw [hanswer hans x hx, Option.some.inj (ha.symm.trans hb)] at hr
      exact hr
  · simp only [if_neg hr]
    by_cases hnext : w.pivt + 1 = iter
    · rw [if_pos hnext]
      refine ⟨_, rfl, h.arranged, by simp only; omega, by simp only; omega, h.front, ?_, ?_⟩
      · intro hans k b x hk hkp hb hx
        rcases Nat.lt_or_ge w.pivt k with hlast | hfirst
        · have hki : k = iter := by
            simp only at hkp
            omega
          subst hki
          rw [hanswer hans x hx, Option.some.inj (ha.symm.trans hb)] at hr
          exact Int.not_le.mp hr
        · exact h.before hans k b x hk hfirst hb hx
      · intro hans k b x hk hki hb hx
        simp only at hk
        omega
    · rw [if_neg hnext]
      refine (swap_arranged lowr uppr (w.pivt + 1) iter (by omega) (by omega) (by omega)).bind ?_
      rintro elems ⟨harr, hget⟩
      have hfront : elems[lowr]? = w.elems[lowr]? := by rw [hget, if_neg (by omega), if_neg (by omega)]
      refine ⟨_, rfl, h.arranged.trans harr,
        by simp only; omega, by simp only; omega, hfront.trans h.front, ?_, ?_⟩
      · intro hans k b x hk hkp hb hx
        simp only at hkp hb hx
        rw [hfront] at hx
        rcases Nat.lt_or_ge w.pivt k with hlast | hfirst
        · rw [hget, if_pos (by omega)] at hb
          rw [hanswer hans x hx, Option.some.inj (ha.symm.trans hb)] at hr
          exact Int.not_le.mp hr
        · rw [hget, if_neg (by omega), if_neg (by omega)] at hb
          exact h.before hans k b x hk hfirst hb hx
      · intro hans k b x hk hki hb hx
        simp only at hk hki hb hx
        rw [hfront] at hx
        rw [hget, if_neg (by omega)] at hb
        by_cases hlast : k = iter
        · rw [if_pos hlast] at hb
          exact h.after hans (w.pivt + 1) b x (by omega) (by omega) hb hx
        · rw [if_neg hlast] at hb
          exact h.after hans k b x (by omega) (by omega) hb hx

theorem walk_comes {left : ℕ} (h : Walked func cmp lowr uppr iter l w) (hleft : iter + left = uppr)
    (hlen : uppr ≤ l.length) :
    Comes (walk func lowr left iter w) fun w' => Walked func cmp lowr uppr uppr l w' := by
  induction left generalizing iter w with
  | zero =>
      rw [← hleft, Nat.add_zero] at h ⊢
      exact ⟨w, rfl, h⟩
  | succ left ih =>
      unfold walk
      exact (walkStep_comes h (by omega) hlen).bind fun w' h' => ih h' (by omega)

/-! ## The pivot -/

/-- The pivot is where it goes: what is before it does not come after it, and what is after it does
    not come before it. -/
structure Pivoted (func : Callback σ α) (cmp : α → α → ℤ) (lowr uppr : ℕ) (l : List α)
    (w : Walk σ α) : Prop where
  arranged : Arranged lowr uppr l w.elems
  ge_lowr : lowr ≤ w.pivt
  lt_uppr : w.pivt < uppr
  before : Answers func cmp → ∀ k a x, lowr ≤ k → k < w.pivt → w.elems[k]? = some a →
    w.elems[w.pivt]? = some x →
    cmp a x < 0
  after : Answers func cmp → ∀ k a x, w.pivt < k → k < uppr → w.elems[k]? = some a →
    w.elems[w.pivt]? = some x →
    0 ≤ cmp a x

theorem middleFirst_comes (hlt : lowr < uppr) (hlen : uppr ≤ l.length) :
    Comes (middleFirst l lowr uppr) fun l' => Arranged lowr uppr l l' := by
  unfold middleFirst
  by_cases hhalf : (uppr - lowr) / 2 ≠ 0
  · rw [if_pos hhalf]
    obtain ⟨l', hl', harr, -⟩ := swap_arranged lowr uppr lowr (lowr + (uppr - lowr) / 2) hlen (by omega)
      (by omega)
    exact ⟨l', hl', harr⟩
  · rw [if_neg hhalf]
    exact ⟨l, rfl, Arranged.refl lowr uppr l⟩

theorem pivot_comes (func : Callback σ α) (cmp : α → α → ℤ) (ctx : σ) (hlt : lowr < uppr)
    (hlen : uppr ≤ l.length) :
    Comes (pivot func ctx l lowr uppr) fun w => Pivoted func cmp lowr uppr l w := by
  unfold pivot
  refine (middleFirst_comes hlt hlen).bind ?_
  intro l₁ harr₁
  have hstart : Walked func cmp lowr uppr (lowr + 1) l₁ ⟨ctx, l₁, lowr⟩ :=
    ⟨Arranged.refl lowr uppr l₁, le_rfl, Nat.lt_succ_self lowr, rfl,
      fun _ k _ _ hk hkp _ _ => absurd hkp (Nat.not_le.mpr hk),
        fun _ k _ _ hk hki _ _ => by simp only at hk; omega⟩
  refine (walk_comes hstart (by omega) (harr₁.length_eq ▸ hlen)).bind ?_
  intro w hw
  have hlow := hw.ge_lowr
  have hup := hw.lt_iter
  have hwlen : w.elems.length = l.length := hw.arranged.length_eq.trans harr₁.length_eq
  by_cases hmove : w.pivt ≠ lowr
  · rw [if_pos hmove]
    refine (swap_arranged lowr uppr w.pivt lowr (by omega) (by omega) (by omega)).bind ?_
    rintro elems ⟨harr, hget⟩
    have hpivt : elems[w.pivt]? = w.elems[lowr]? := by rw [hget, if_pos rfl]
    refine ⟨_, rfl, (harr₁.trans hw.arranged).trans harr, hlow, hup, ?_, ?_⟩
    · intro hans k a x hk hkp ha hx
      simp only at hkp ha hx
      rw [hpivt] at hx
      rw [hget, if_neg (by omega)] at ha
      by_cases hklow : k = lowr
      · rw [if_pos hklow] at ha
        exact hw.before hans w.pivt a x (by omega) le_rfl ha hx
      · rw [if_neg hklow] at ha
        exact hw.before hans k a x (by omega) (by omega) ha hx
    · intro hans k a x hk hku ha hx
      simp only at hk ha hx
      rw [hpivt] at hx
      rw [hget, if_neg (by omega), if_neg (by omega)] at ha
      exact hw.after hans k a x hk hku ha hx
  · rw [if_neg hmove]
    have hpl : w.pivt = lowr := not_not.mp hmove
    refine ⟨w, rfl, harr₁.trans hw.arranged, hlow, hup, ?_, ?_⟩
    · intro _ k _ _ hk hkp
      omega
    · intro hans k a x hk hku ha hx
      rw [hpl] at hx
      exact hw.after hans k a x hk hku ha hx

/-! ## The segment in order -/

/-- Each of a segment comes before or with all that are after it. -/
def Ordered (cmp : α → α → ℤ) (low high : ℕ) (l : List α) : Prop :=
  ∀ i j a b, low ≤ i → i < j → j < high → l[i]? = some a → l[j]? = some b → cmp a b ≤ 0

/-- Only the segment has changed, and it is in order if the comparison is one. -/
structure Sorts (func : Callback σ α) (cmp : α → α → ℤ) (low high : ℕ) (l l' : List α) : Prop where
  arranged : Arranged low high l l'
  ordered : Preorders cmp → Answers func cmp → Ordered cmp low high l'

variable {low high start turns : ℕ} {l₁ l₂ : List α}

/-- Nothing is to be done for less than two. -/
theorem sorts_refl (h : ¬ low < high) : Sorts func cmp low high l l :=
  ⟨Arranged.refl low high l, fun _ _ i j _ _ _ _ _ _ _ => by omega⟩

/-- With the pivot in its place it is the two halves that are left. -/
theorem Pivoted.sorts (hw : Pivoted func cmp low high l w) (hhigh : high ≤ l.length)
    (h₁ : Sorts func cmp (w.pivt + 1) high w.elems l₁) (h₂ : Sorts func cmp low w.pivt l₁ l₂) :
    Sorts func cmp low high l l₂ := by
  have hlow := hw.ge_lowr
  have hup := hw.lt_uppr
  refine ⟨(hw.arranged.trans (h₁.arranged.mono (by omega) le_rfl)).trans
    (h₂.arranged.mono le_rfl (by omega)), ?_⟩
  intro hcmp hans i j a b hi hij hj ha hb
  have hwlen := hw.arranged.length_eq
  obtain ⟨x, hx⟩ : ∃ x, w.elems[w.pivt]? = some x := ⟨_, List.getElem?_eq_getElem (by omega)⟩
  have hleft : ∀ k, w.pivt ≤ k → l₂[k]? = l₁[k]? := fun k hk => h₂.arranged.outside k (Or.inr hk)
  have hpivt : l₂[w.pivt]? = some x := by
    rw [hleft _ le_rfl, h₁.arranged.outside _ (Or.inl (Nat.lt_succ_self _)), hx]
  have hbelow : ∀ k c, low ≤ k → k < w.pivt → l₂[k]? = some c → cmp c x ≤ 0 := by
    intro k c hk hkp hc
    obtain ⟨m, hm, hmp, hcm⟩ := h₂.arranged.exists_getElem? hk hkp hc
    rw [h₁.arranged.outside m (Or.inl (by omega))] at hcm
    exact (hw.before hans m c x hm hmp hcm hx).le
  have habove : ∀ k c, w.pivt < k → k < high → l₂[k]? = some c → cmp x c ≤ 0 := by
    intro k c hk hkh hc
    rw [hleft k hk.le] at hc
    obtain ⟨m, hm, hmh, hcm⟩ := h₁.arranged.exists_getElem? hk hkh hc
    exact hcmp.le_of_not_lt (hw.after hans m c x hm hmh hcm hx)
  rcases lt_trichotomy j w.pivt with hjp | rfl | hjp
  · exact h₂.ordered hcmp hans i j a b hi hij hjp ha hb
  · rw [hpivt] at hb
    rw [← Option.some.inj hb]
    exact hbelow i a hi hij ha
  · rcases lt_trichotomy i w.pivt with hip | rfl | hip
    · exact hcmp.trans a x b (hbelow i a hi hip ha) (habove j b hjp hj hb)
    · rw [hpivt] at ha
      rw [← Option.some.inj ha]
      exact habove j b hjp hj hb
    · rw [hleft i hip.le] at ha
      rw [hleft j hjp.le] at hb
      exact h₁.ordered hcmp hans i j a b hip hij hj ha hb

/-! ## The loop -/

/-- The loop from where the stack is looked at: it ends, or goes on with what was pushed last. -/
def resume (func : Callback σ α) (start turns : ℕ) (s : Sorting σ α) : Read (Sorting σ α) :=
  if s.stack.length = start then .ok s
  else do
    let last ← value s.stack.getLast?
    sortLoop func start turns (last % 2 ^ 32) (last / 2 ^ 32) { s with stack := s.stack.dropLast }

theorem resume_push {ctx : σ} {stack : List ℕ} (hstart : start ≤ stack.length) (hlow : low < 2 ^ 32) :
    resume func start turns ⟨ctx, l, stack ++ [interval low high]⟩ =
      sortLoop func start turns low high ⟨ctx, l, stack⟩ := by
  have hlen : (stack ++ [interval low high]).length ≠ start := by
    rw [List.length_append, List.length_singleton]
    omega
  have hmod : interval low high % 2 ^ 32 = low := by
    unfold interval
    rw [Nat.add_mul_mod_self_left, Nat.mod_eq_of_lt hlow]
  have hdiv : interval low high / 2 ^ 32 = high := by
    unfold interval
    rw [Nat.add_mul_div_left _ _ (by norm_num), Nat.div_eq_of_lt hlow, Nat.zero_add]
  unfold resume
  rw [if_neg hlen, List.getLast?_concat]
  simp only [value, ok_bind, hmod, hdiv, List.dropLast_concat]

/-- A segment takes no more turns than twice its length and one, and leaves the stack as it was. -/
theorem sortLoop_segment (func : Callback σ α) (cmp : α → α → ℤ) (start n : ℕ) (s : Sorting σ α)
    (low high : ℕ)
    (hn : high - low ≤ n) (hhigh : high ≤ s.elems.length) (hshort : s.elems.length < 2 ^ 32)
    (hstart : start ≤ s.stack.length) :
    ∃ k ≤ 2 * (high - low) + 1, ∃ s', s'.stack = s.stack ∧ Sorts func cmp low high s.elems s'.elems ∧
      ∀ turns, sortLoop func start (turns + k) low high s = resume func start turns s' := by
  induction n using Nat.strong_induction_on generalizing s low high with
  | _ n ih =>
      by_cases hlt : low < high
      · obtain ⟨w, hw, hpiv⟩ := pivot_comes func cmp s.ctx hlt hhigh
        have hplow := hpiv.ge_lowr
        have hphigh := hpiv.lt_uppr
        have hlen := hpiv.arranged.length_eq
        obtain ⟨k₁, hk₁, s₁, hstack₁, hsorts₁, hrun₁⟩ := ih (high - (w.pivt + 1)) (by omega)
          ⟨w.ctx, w.elems, s.stack ++ [interval low w.pivt]⟩ (w.pivt + 1) high le_rfl
          (by simp only; omega) (by simp only; omega) (by simp only [List.length_append]; omega)
        have hlen₁ := hsorts₁.arranged.length_eq
        simp only at hlen₁ hstack₁ hsorts₁
        obtain ⟨k₂, hk₂, s₂, hstack₂, hsorts₂, hrun₂⟩ := ih (w.pivt - low) (by omega)
          ⟨s₁.ctx, s₁.elems, s.stack⟩ low w.pivt le_rfl (by simp only; omega) (by simp only; omega)
          hstart
        refine ⟨k₂ + k₁ + 1, by omega, s₂, hstack₂, hpiv.sorts hhigh hsorts₁ hsorts₂, ?_⟩
        intro turns
        have hfirst : sortLoop func start (turns + k₂ + k₁ + 1) low high s =
          resume func start (turns + k₂ + k₁)
            ⟨w.ctx, w.elems, s.stack ++ [interval low w.pivt] ++ [interval (w.pivt + 1) high]⟩ := by
          unfold sortLoop
          rw [if_pos hlt, hw]
          rfl
        have hsecond : resume func start (turns + k₂) s₁ = resume func start (turns + k₂)
            ⟨s₁.ctx, s₁.elems, s.stack ++ [interval low w.pivt]⟩ := by rw [← hstack₁]
        calc sortLoop func start (turns + (k₂ + k₁ + 1)) low high s
            = resume func start (turns + k₂ + k₁)
                ⟨w.ctx, w.elems, s.stack ++ [interval low w.pivt] ++ [interval (w.pivt + 1) high]⟩ := by
              rw [← hfirst, Nat.add_assoc turns, Nat.add_assoc turns]
          _ = resume func start (turns + k₂) s₁ := by
              rw [resume_push (by simp only [List.length_append]; omega) (by omega), hrun₁]
          _ = resume func start turns s₂ := by
              rw [hsecond, resume_push hstart (by omega), hrun₂]
      · refine ⟨1, by omega, s, rfl, sorts_refl hlt, ?_⟩
        intro turns
        rw [sortLoop, if_neg hlt]
        rfl

theorem sort_comes (func : Callback σ α) (cmp : α → α → ℤ) (ctx : σ) (array : Arr α) (stack : List ℕ)
    {lowr uppr turns : ℕ} (huppr : uppr ≤ array.elems.length) (hturns : 2 * (uppr - lowr) + 1 ≤ turns) :
    Comes (sort turns func ctx array stack lowr uppr) fun out =>
      out.stack = stack ∧ Sorts func cmp lowr uppr array.elems out.elems := by
  obtain ⟨k, hk, s, hstack, hsorts, hrun⟩ :=
    sortLoop_segment func cmp stack.length _ ⟨ctx, array.elems, stack⟩ lowr uppr le_rfl huppr
      array.short le_rfl
  refine ⟨s, ?_, hstack, hsorts⟩
  have hend := hrun (turns - k)
  rw [Nat.sub_add_cancel (hk.trans hturns), resume, if_pos (by rw [hstack])] at hend
  exact hend

/-- Whatever the comparison, the sort of a segment comes to an end, leaves what is outside of it and
    the stack as they were and has in it what was in it; and by a total preorder it is in order. -/
theorem sort_sorts (func : Callback σ α) (ctx : σ) (array : Arr α) (stack : List ℕ) (lowr uppr turns : ℕ)
    (hlowr : lowr ≤ uppr) (huppr : uppr ≤ array.elems.length) (hturns : 2 * (uppr - lowr) + 1 ≤ turns) :
    ∃ out, sort turns func ctx array stack lowr uppr = .ok out ∧ out.stack = stack ∧
      (segment out.elems lowr uppr).Perm (segment array.elems lowr uppr) ∧
      (∀ k, k < lowr ∨ uppr ≤ k → out.elems[k]? = array.elems[k]?) ∧
      ∀ cmp, Preorders cmp → Answers func cmp →
        (segment out.elems lowr uppr).Pairwise fun a b => cmp a b ≤ 0 := by
  obtain ⟨out, hout, hstack, hsorts⟩ := sort_comes func (fun _ _ => 0) ctx array stack huppr hturns
  refine ⟨out, hout, hstack, hsorts.arranged.segment hlowr, hsorts.arranged.outside, ?_⟩
  intro cmp hcmp hans
  obtain ⟨out', hout', -, hsorts'⟩ := sort_comes func cmp ctx array stack huppr hturns
  rw [hout] at hout'
  rw [Except.ok.inj hout', List.pairwise_iff_getElem]
  intro i j hi hj hij
  have hget : ∀ k, ∀ hk : k < (segment out'.elems lowr uppr).length,
      lowr + k < uppr ∧ out'.elems[lowr + k]? = some (segment out'.elems lowr uppr)[k] := by
    intro k hk
    have hsome := List.getElem?_eq_getElem hk
    rw [getElem?_segment] at hsome
    by_cases hlt : lowr + k < uppr
    · rw [if_pos hlt] at hsome
      exact ⟨hlt, hsome⟩
    · rw [if_neg hlt] at hsome
      exact absurd hsome.symm (Option.some_ne_none _)
  exact hsorts'.ordered hcmp hans (lowr + i) (lowr + j) _ _ (Nat.le_add_right lowr i) (by omega) (hget j hj).1
    (hget i hi).2 (hget j hj).2

/-- Three numbers of an array of four, the stack having one on it. -/
theorem sort_sorts_of_three :
    ∃ out, sort 7 (fun (_ : Unit) l i j => ((l.getD i 0 : ℤ) - l.getD j 0, ())) ()
      ⟨[3, 1, 2, 0], by decide⟩ [9] 0 3
        = .ok out ∧ out.stack = [9] ∧ (segment out.elems 0 3).Perm (segment [3, 1, 2, 0] 0 3) ∧
      (∀ k, k < 0 ∨ 3 ≤ k → out.elems[k]? = [3, 1, 2, 0][k]?) ∧
      ∀ cmp, Preorders cmp → Answers
        (fun (_ : Unit) (l : List ℤ) i j => ((l.getD i 0 : ℤ) - l.getD j 0, ())) cmp →
        (segment out.elems 0 3).Pairwise fun a b => cmp a b ≤ 0 :=
  sort_sorts _ () ⟨[3, 1, 2, 0], by decide⟩ [9] 0 3 7 (by decide) (by decide) (by decide)

example : Sorting.elems <$> sort 7 (fun (_ : Unit) l i j => ((l.getD i 0 : ℤ) - l.getD j 0, ())) ()
    ⟨[3, 1, 2, 0], by decide⟩ [] 0 3 = .ok [1, 2, 3, 0] := by decide

end ChrysaLisp.ArraySort
