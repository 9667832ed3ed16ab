import ChrysaLisp.Asm.AssignSort

set_option autoImplicit false

/-! # Copies are done at once

Each instruction puts the value of its source where its destination is. What it puts is nothing to a copy
that uses another register and has its memory elsewhere. So, one after another, in an order in which no
register is written that a later copy uses, copies do as they would all at once. -/

namespace ChrysaLisp.Asm

open Memory

/-! ## Places -/

/-- Where a value can be: a register, or so many bytes from an address on. -/
inductive Loc where
  | reg (r : Reg)
  | mem (a : BitVec 64) (n : ℕ)

def Loc.size : Loc → ℕ
  | .reg _ => 8
  | .mem _ n => n

def State.at (st : State) : Loc → ℕ
  | .reg (.r n) => (st.r n).toNat
  | .reg (.f n) => (st.f n).toNat
  | .mem a n => st.load a n

def State.put (st : State) (v : BitVec 64) : Loc → State
  | .reg (.r n) => st.setR n v
  | .reg (.f n) => st.setF n v
  | .mem a n => st.store a n v

/-- Two places have nothing in common. -/
def Loc.Apart : Loc → Loc → Prop
  | .reg r, .reg r' => r ≠ r'
  | .mem a n, .mem a' n' => ∀ k < n, ∀ k' < n', a + BitVec.ofNat 64 k ≠ a' + BitVec.ofNat 64 k'
  | _, _ => True

/-- The memory a source is in; of one that is in none, no bytes. -/
def Src.loc (st : State) : Src → Loc
  | .i t b x => .mem (st.r b + x) t.size
  | .d t b x => .mem (st.r b + st.r x) t.size
  | _ => .mem 0 0

/-- The value of a source. -/
def Src.value (places : Places) (st : State) : Src → BitVec 64
  | .reg (.r n) => st.r n
  | .reg (.f n) => st.f n
  | .c k => k
  | .s str => places.string str
  | .label l => places.label l
  | .bind p => places.bind p
  | .addrI b x => st.r b + x
  | .addrD b x => st.r b + st.r x
  | .i t b x => t.extend (st.load (st.r b + x) t.size)
  | .d t b x => t.extend (st.load (st.r b + st.r x) t.size)

/-- Where a destination is. -/
def Dst.loc (st : State) : Dst → Loc
  | .ignored => .mem 0 0
  | .reg r => .reg r
  | .i t b x => .mem (st.r b + x) t.size
  | .d t b x => .mem (st.r b + st.r x) t.size

variable {places : Places} {st : State} {v : BitVec 64}

/-- The bytes of what is stored. -/
theorem store_mem (a : BitVec 64) {n k : ℕ} (hk : k < n) (hn : n ≤ 8) :
    (st.store a n v).mem (a + BitVec.ofNat 64 k) = (bytesOf n v.toNat).getD k 0 := by
  have hplace : (a + BitVec.ofNat 64 k - a).toNat = k := by
    rw [add_sub_cancel_left]
    exact Nat.mod_eq_of_lt (by omega)
  show (bytesOf n v.toNat).getD (a + BitVec.ofNat 64 k - a).toNat _ = _
  rw [hplace, List.getD_eq_getElem _ _ (by rwa [length_bytesOf]),
    List.getD_eq_getElem _ _ (by rwa [length_bytesOf])]

theorem load_store {a : BitVec 64} {n : ℕ} (hn : n ≤ 8) :
    (st.store a n v).load a n = v.toNat % 256 ^ n := by
  rw [← numOf_bytesOf]
  refine congrArg numOf (List.ext_getElem (by simp) fun k hk _ => ?_)
  have hlt : k < n := by simpa using hk
  rw [List.getElem_map, List.getElem_range, store_mem a hlt hn,
    List.getD_eq_getElem _ _ (by rwa [length_bytesOf])]

theorem load_store_apart {a a' : BitVec 64} {n n' : ℕ} (h : Loc.Apart (.mem a n) (.mem a' n')) :
    (st.store a n v).load a' n' = st.load a' n' := by
  refine congrArg numOf (List.map_congr_left fun k hk => ?_)
  have hk' := List.mem_range.mp hk
  show (bytesOf n v.toNat).getD (a' + BitVec.ofNat 64 k - a).toNat _ = _
  rw [List.getD_eq_default]
  rw [length_bytesOf]
  by_contra hlt
  refine h _ (Nat.lt_of_not_le hlt) k hk' ?_
  rw [BitVec.ofNat_toNat, BitVec.setWidth_eq, add_sub_cancel]

theorem at_put {loc : Loc} (hsize : loc.size ≤ 8) : (st.put v loc).at loc = v.toNat % 256 ^ loc.size := by
  have hv : v.toNat % 256 ^ 8 = v.toNat := Nat.mod_eq_of_lt v.isLt
  cases loc with
  | reg r =>
      cases r with
      | r n => exact (congrArg BitVec.toNat (Function.update_self n v st.r)).trans hv.symm
      | f n => exact (congrArg BitVec.toNat (Function.update_self n v st.f)).trans hv.symm
  | mem a n => exact load_store hsize

theorem at_put_apart {loc loc' : Loc} (h : loc.Apart loc') : (st.put v loc).at loc' = st.at loc' := by
  cases loc with
  | reg r =>
      cases loc' with
      | reg r' =>
          cases r with
          | r n =>
              cases r' with
              | r n' =>
                  have hne : n' ≠ n := fun heq => h (heq ▸ rfl)
                  show (Function.update st.r n v n').toNat = (st.r n').toNat
                  rw [Function.update_of_ne hne]
              | f n' => rfl
          | f n =>
              cases r' with
              | r n' => rfl
              | f n' =>
                  have hne : n' ≠ n := fun heq => h (heq ▸ rfl)
                  show (Function.update st.f n v n').toNat = (st.f n').toNat
                  rw [Function.update_of_ne hne]
      | mem a n => cases r <;> rfl
  | mem a n =>
      cases loc' with
      | reg r => cases r <;> rfl
      | mem a' n' => exact load_store_apart h

/-- A register that is not written is as it was. -/
theorem r_put {loc : Loc} {n : Fin 16} (h : ∀ r, loc = .reg r → r ≠ .r n) : (st.put v loc).r n = st.r n := by
  cases loc with
  | reg r =>
      cases r with
      | r n' =>
          have hne : n ≠ n' := fun heq => h _ rfl (heq ▸ rfl)
          exact Function.update_of_ne hne v st.r
      | f n' => rfl
  | mem a n' => rfl

theorem f_put {loc : Loc} {n : Fin 16} (h : ∀ r, loc = .reg r → r ≠ .f n) : (st.put v loc).f n = st.f n := by
  cases loc with
  | reg r =>
      cases r with
      | r n' => rfl
      | f n' =>
          have hne : n ≠ n' := fun heq => h _ rfl (heq ▸ rfl)
          exact Function.update_of_ne hne v st.f
  | mem a n' => rfl

/-! ## One copy -/

/-- A destination writes none of some registers. -/
def Spares (d : Dst) (rs : List Reg) : Prop := ∀ r, d = .reg r → r ∉ rs

variable {d : Dst} {s : Src}

theorem Spares.ne {rs : List Reg} (h : Spares d rs) {r' : Reg} (hr' : r' ∈ rs) :
    ∀ r, d.loc st = .reg r → r ≠ r' := by
  intro r hr heq
  subst heq
  cases d with
  | reg r => exact h r rfl (Loc.reg.inj hr ▸ hr')
  | ignored => exact Loc.noConfusion hr
  | i t b x => exact Loc.noConfusion hr
  | d t b x => exact Loc.noConfusion hr

theorem Spares.r_put {rs : List Reg} (h : Spares d rs) {n : Fin 16} (hn : Reg.r n ∈ rs) :
    (st.put v (d.loc st)).r n = st.r n := Asm.r_put (h.ne hn)

theorem Spares.f_put {rs : List Reg} (h : Spares d rs) {n : Fin 16} (hn : Reg.f n ∈ rs) :
    (st.put v (d.loc st)).f n = st.f n := Asm.f_put (h.ne hn)

theorem loc_put_src (h : Spares d s.regs) : s.loc (st.put v (d.loc st)) = s.loc st := by
  cases s with
  | i t b x =>
      have hb : (st.put v (d.loc st)).r b = st.r b := h.r_put List.mem_cons_self
      rw [Src.loc, hb, Src.loc]
  | d t b x =>
      have hb : (st.put v (d.loc st)).r b = st.r b := h.r_put List.mem_cons_self
      have hx : (st.put v (d.loc st)).r x = st.r x := h.r_put (List.mem_cons_of_mem _ List.mem_cons_self)
      rw [Src.loc, hb, hx, Src.loc]
  | _ => rfl

theorem loc_put_dst {d' : Dst} (h : Spares d d'.regs) : d'.loc (st.put v (d.loc st)) = d'.loc st := by
  cases d' with
  | i t b x =>
      have hb : (st.put v (d.loc st)).r b = st.r b := h.r_put List.mem_cons_self
      show Loc.mem ((st.put v (d.loc st)).r b + x) t.size = .mem (st.r b + x) t.size
      rw [hb]
  | d t b x =>
      have hb : (st.put v (d.loc st)).r b = st.r b := h.r_put List.mem_cons_self
      have hx : (st.put v (d.loc st)).r x = st.r x := h.r_put (List.mem_cons_of_mem _ List.mem_cons_self)
      show Loc.mem ((st.put v (d.loc st)).r b + (st.put v (d.loc st)).r x) t.size
        = .mem (st.r b + st.r x) t.size
      rw [hb, hx]
  | _ => rfl

/-- What is loaded from elsewhere is as it was. -/
theorem load_put {a : BitVec 64} {n : ℕ} (h : (d.loc st).Apart (.mem a n)) :
    (st.put v (d.loc st)).load a n = st.load a n := at_put_apart h

/-- A copy does nothing to the value of a source it spares. -/
theorem value_put (h : Spares d s.regs) (hapart : (d.loc st).Apart (s.loc st)) :
    s.value places (st.put v (d.loc st)) = s.value places st := by
  cases s with
  | reg r =>
      cases r with
      | r n => exact h.r_put List.mem_cons_self
      | f n => exact h.f_put List.mem_cons_self
  | addrI b x =>
      have hb : (st.put v (d.loc st)).r b = st.r b := h.r_put List.mem_cons_self
      rw [Src.value, hb, Src.value]
  | addrD b x =>
      have hb : (st.put v (d.loc st)).r b = st.r b := h.r_put List.mem_cons_self
      have hx : (st.put v (d.loc st)).r x = st.r x := h.r_put (List.mem_cons_of_mem _ List.mem_cons_self)
      rw [Src.value, hb, hx, Src.value]
  | i t b x =>
      have hb : (st.put v (d.loc st)).r b = st.r b := h.r_put List.mem_cons_self
      rw [Src.value, hb, load_put hapart, Src.value]
  | d t b x =>
      have hb : (st.put v (d.loc st)).r b = st.r b := h.r_put List.mem_cons_self
      have hx : (st.put v (d.loc st)).r x = st.r x := h.r_put (List.mem_cons_of_mem _ List.mem_cons_self)
      rw [Src.value, hb, hx, load_put hapart, Src.value]
  | _ => rfl

theorem Ty.size_le (t : Ty) : t.size ≤ 8 := by
  cases t <;> decide

theorem size_loc_le (d : Dst) (st : State) : (d.loc st).size ≤ 8 := by
  cases d with
  | ignored => exact Nat.zero_le 8
  | reg r => exact le_rfl
  | i t b x => exact t.size_le
  | d t b x => exact t.size_le

theorem toReg_inst {inst : Fin 16 → Inst} {i : Inst} (h : toReg inst d = .inst i) :
    ∃ n, d = .reg (.r n) ∧ inst n = i := by
  cases d with
  | reg r =>
      cases r with
      | r n => exact ⟨n, rfl, Emitted.inst.inj h⟩
      | f n => exact Emitted.noConfusion h
  | _ => exact Emitted.noConfusion h

/-- An instruction that is emitted does the copy. -/
theorem exec_emit {c : Copy} {i : Inst} (h : emit c = .inst i) :
    exec places st i = st.put (c.src.value places st) (c.dst.loc st) := by
  obtain ⟨s, d⟩ := c
  unfold emit at h
  cases s with
  | reg r =>
      cases r with
      | r n =>
          cases d with
          | reg r' => cases r' <;> (obtain rfl := Emitted.inst.inj h; rfl)
          | ignored => exact Emitted.noConfusion h
          | _ => obtain rfl := Emitted.inst.inj h; rfl
      | f n =>
          cases d with
          | reg r' => cases r' <;> (obtain rfl := Emitted.inst.inj h; rfl)
          | ignored => exact Emitted.noConfusion h
          | i t b x => cases t <;> first | exact Emitted.noConfusion h | (obtain rfl := Emitted.inst.inj h; rfl)
          | d t b x => cases t <;> first | exact Emitted.noConfusion h | (obtain rfl := Emitted.inst.inj h; rfl)
  | i t b x =>
      cases t with
      | l =>
          cases d with
          | reg r' => cases r' <;> (obtain rfl := Emitted.inst.inj h; rfl)
          | _ => exact Emitted.noConfusion h
      | _ => obtain ⟨n, rfl, rfl⟩ := toReg_inst h; rfl
  | d t b x =>
      cases t with
      | l =>
          cases d with
          | reg r' => cases r' <;> (obtain rfl := Emitted.inst.inj h; rfl)
          | _ => exact Emitted.noConfusion h
      | _ => obtain ⟨n, rfl, rfl⟩ := toReg_inst h; rfl
  | _ => obtain ⟨n, rfl, rfl⟩ := toReg_inst h; rfl

/-! ## All of them -/

/-- What a copy writes is apart from what another reads and writes. -/
def Clear (st : State) (a b : Copy) : Prop :=
  (a.dst.loc st).Apart (b.src.loc st) ∧ (a.dst.loc st).Apart (b.dst.loc st)

theorem spares_of_uses {a b : Copy} (h : b.uses a.dst = false) :
    Spares a.dst b.src.regs ∧ Spares a.dst b.dst.regs := by
  have hnot : ∀ r, a.dst = .reg r → ¬ (r ∈ b.src.regs ∨ r ∈ b.dst.regs) := by
    intro r hr
    rw [hr] at h
    exact of_decide_eq_false h
  exact ⟨fun r hr hmem => hnot r hr (Or.inl hmem), fun r hr hmem => hnot r hr (Or.inr hmem)⟩

theorem execAll_cons {c : Copy} {i : Inst} (h : emit c = .inst i) (l : List Copy) :
    execAll places st ((c :: l).map emit)
      = execAll places (st.put (c.src.value places st) (c.dst.loc st)) (l.map emit) := by
  rw [List.map_cons, h, ← exec_emit h]
  rfl

/-- Copies in an order in which none writes a register that one after it uses, and that are clear of each
    other in memory. -/
structure InOrder (st : State) (l : List Copy) : Prop where
  uses : l.Pairwise (fun a b => b.uses a.dst = false)
  clear : l.Pairwise (fun a b => Clear st a b ∧ Clear st b a)
  inst : ∀ c ∈ l, ∃ i, emit c = .inst i

theorem InOrder.tail (places : Places) {c : Copy} {l : List Copy} (h : InOrder st (c :: l)) :
    InOrder (st.put (c.src.value places st) (c.dst.loc st)) l ∧
      (∀ b ∈ l, b.src.value places (st.put (c.src.value places st) (c.dst.loc st)) = b.src.value places st ∧
        b.dst.loc (st.put (c.src.value places st) (c.dst.loc st)) = b.dst.loc st) := by
  obtain ⟨huses, hrest⟩ := List.pairwise_cons.mp h.uses
  obtain ⟨hclear, hclears⟩ := List.pairwise_cons.mp h.clear
  have hsrc : ∀ b ∈ l, ∀ v, b.src.loc (st.put v (c.dst.loc st)) = b.src.loc st :=
    fun b hb v => loc_put_src (spares_of_uses (huses b hb)).1
  have hdst : ∀ b ∈ l, ∀ v, b.dst.loc (st.put v (c.dst.loc st)) = b.dst.loc st :=
    fun b hb v => loc_put_dst (spares_of_uses (huses b hb)).2
  refine ⟨⟨hrest, ?_, fun b hb => h.inst b (List.mem_cons_of_mem c hb)⟩, fun b hb => ⟨?_, hdst b hb _⟩⟩
  · refine hclears.imp_of_mem fun {a b} ha hb hab => ?_
    unfold Clear at *
    rwa [hsrc a ha, hsrc b hb, hdst a ha, hdst b hb]
  · exact value_put (spares_of_uses (huses b hb)).1 (hclear b hb).1.1

/-- What none of them writes is as it was. -/
theorem at_execAll_apart {l : List Copy} {st : State} (h : InOrder st l) {loc : Loc}
    (hloc : ∀ c ∈ l, (c.dst.loc st).Apart loc) : (execAll places st (l.map emit)).at loc = st.at loc := by
  induction l generalizing st with
  | nil => rfl
  | cons c l ih =>
      obtain ⟨i, hi⟩ := h.inst c List.mem_cons_self
      obtain ⟨htail, hsame⟩ := h.tail places
      rw [execAll_cons hi, ih htail fun b hb => ?_, at_put_apart (hloc c List.mem_cons_self)]
      rw [(hsame b hb).2]
      exact hloc b (List.mem_cons_of_mem c hb)

/-- Each has its destination have what its source was. -/
theorem at_execAll {l : List Copy} {st : State} (h : InOrder st l) : ∀ c ∈ l,
    (execAll places st (l.map emit)).at (c.dst.loc st)
      = (c.src.value places st).toNat % 256 ^ (c.dst.loc st).size := by
  induction l generalizing st with
  | nil => exact fun c hc => absurd hc List.not_mem_nil
  | cons a l ih =>
      obtain ⟨i, hi⟩ := h.inst a List.mem_cons_self
      obtain ⟨htail, hsame⟩ := h.tail places
      rw [execAll_cons hi]
      refine List.forall_mem_cons.mpr ⟨?_, fun b hb => ?_⟩
      · rw [at_execAll_apart htail fun b hb => ?_, at_put (size_loc_le _ st)]
        rw [(hsame b hb).2]
        exact ((List.pairwise_cons.mp h.clear).1 b hb).2.2
      · have hthere := ih htail b hb
        rwa [(hsame b hb).1, (hsame b hb).2] at hthere

/-! ## The assignment -/

/-- The copies that are not to `_`. -/
def named (src : List Src) (dst : List Dst) : List Copy :=
  ((src.zip dst).map (fun p => ⟨p.1, p.2⟩)).filter (fun c => decide (c.dst ≠ .ignored))

section Assign

variable {src : List Src} {dst : List Dst}

theorem named_of_kept {c : Copy} (h : c.kept = true) : c.dst ≠ .ignored := by
  obtain ⟨s, d⟩ := c
  rintro rfl
  cases s <;> exact Bool.false_ne_true h

theorem copies_sublist (src : List Src) (dst : List Dst) : (copies src dst).Sublist (named src dst) :=
  List.monotone_filter_right _ fun _ h => decide_eq_true (named_of_kept h)

/-- What is named and left out is a register that is copied to itself. -/
theorem kept_or_self {c : Copy} (h : c ∈ named src dst) :
    c ∈ copies src dst ∨ c.kept = false ∧ ∃ r, c = ⟨.reg r, .reg r⟩ := by
  obtain ⟨hmem, hnamed⟩ := List.mem_filter.mp h
  by_cases hkept : c.kept = true
  · exact Or.inl (List.mem_filter.mpr ⟨hmem, hkept⟩)
  · refine Or.inr ⟨Bool.eq_false_iff.mpr hkept, ?_⟩
    obtain ⟨s, d⟩ := c
    have hd := of_decide_eq_true hnamed
    cases d with
    | ignored => exact absurd rfl hd
    | reg r =>
        cases s with
        | reg r' =>
            have hsame : r' = r := by simpa [Copy.kept] using hkept
            exact ⟨r, by rw [hsame]⟩
        | _ => exact absurd rfl hkept
    | _ => cases s <;> exact absurd rfl hkept

theorem assign_sorted {out : List Emitted} (h : assignAsmToAsm src dst = .ok out) :
    ∃ sorted : List Copy, sorted.Perm (copies src dst) ∧
      sorted.Pairwise (fun a b => b.uses a.dst = false) ∧ out = sorted.map emit := by
  unfold assignAsmToAsm at h
  split_ifs at h with hlen hmany
  · cases hsort : assignTopologySort (copies src dst) with
    | error e => simp [hsort] at h
    | ok sorted =>
        obtain ⟨hperm, hpair⟩ := assignTopologySort_ok hsort
        simp only [hsort] at h
        split_ifs at h
        exact ⟨sorted, hperm, hpair, (Except.ok.inj h).symm⟩
  · simp only at h
    split_ifs at h
    refine ⟨copies src dst, List.Perm.refl _, ?_, (Except.ok.inj h).symm⟩
    cases hcopies : copies src dst with
    | nil => exact List.Pairwise.nil
    | cons c rest =>
        rw [hcopies, List.length_cons] at hmany
        obtain rfl := List.length_eq_zero_iff.mp (by omega : rest.length = 0)
        exact List.pairwise_singleton _ c

/-- Copies to places of their own are done at once, as long as none is to memory that another is of or to:
    each destination has what its source was. They are given up only on registers that go round, or on more
    copies than the sort has turns. -/
theorem assign_at_once (places : Places) (src : List Src) (dst : List Dst)
    (hlen : src.length = dst.length) (hdst : ((named src dst).map Copy.dst).Nodup)
    (hinst : ∀ c ∈ copies src dst, ∃ i, emit c = .inst i) :
    (∀ out, assignAsmToAsm src dst = .ok out → ∀ st,
      (∀ a ∈ copies src dst, ∀ b ∈ copies src dst, a ≠ b → Clear st a b) →
      ∀ c ∈ named src dst, (execAll places st out).at (c.dst.loc st)
        = (c.src.value places st).toNat % 256 ^ (c.dst.loc st).size) ∧
    ∀ e, assignAsmToAsm src dst = .error e →
      e = .cycle ∧ (Cyclic (copies src dst) ∨ 1000 < (copies src dst).length) := by
  have hnodup : (copies src dst).Nodup :=
    ((copies_sublist src dst).map Copy.dst |>.nodup hdst).of_map
  refine ⟨fun out hout st hclear => ?_, fun e he => ?_⟩
  · obtain ⟨sorted, hperm, hpair, rfl⟩ := assign_sorted hout
    have horder : InOrder st sorted := by
      refine ⟨hpair, ?_, fun c hc => hinst c (hperm.mem_iff.mp hc)⟩
      refine (hperm.nodup_iff.mpr hnodup).imp_of_mem fun {a b} ha hb hne => ?_
      have ha := hperm.mem_iff.mp ha
      have hb := hperm.mem_iff.mp hb
      exact ⟨hclear a ha b hb hne, hclear b hb a ha hne.symm⟩
    intro c hc
    rcases kept_or_self hc with hkept | ⟨hkept, r, rfl⟩
    · exact at_execAll horder c (hperm.mem_iff.mpr hkept)
    · have hapart : ∀ b ∈ sorted, (b.dst.loc st).Apart (.reg r) := by
        intro b hb
        have hcopy := hperm.mem_iff.mp hb
        cases hloc : b.dst with
        | reg r' =>
            rintro rfl
            have hsame := List.inj_on_of_nodup_map hdst ((copies_sublist src dst).subset hcopy) hc hloc
            have htrue := (List.mem_filter.mp hcopy).2
            rw [hsame, hkept] at htrue
            exact Bool.noConfusion htrue
        | _ => trivial
      show (execAll places st (sorted.map emit)).at (.reg r) = _
      rw [at_execAll_apart horder hapart]
      cases r with
      | r n => exact (Nat.mod_eq_of_lt (st.r n).isLt).symm
      | f n => exact (Nat.mod_eq_of_lt (st.f n).isLt).symm
  · unfold assignAsmToAsm at he
    rw [if_neg (not_not.mpr hlen)] at he
    have hthrows : ∀ sorted : List Copy, sorted.Perm (copies src dst) → Emitted.throws ∉ sorted.map emit := by
      intro sorted hperm hmem
      obtain ⟨c, hc, hthrows⟩ := List.mem_map.mp hmem
      obtain ⟨i, hi⟩ := hinst c (hperm.mem_iff.mp hc)
      rw [hi] at hthrows
      exact Emitted.noConfusion hthrows
    split_ifs at he with hmany
    · cases hsort : assignTopologySort (copies src dst) with
      | error e' =>
          rw [hsort] at he
          obtain rfl := Except.error.inj he
          exact assignTopologySort_error hnodup hsort
      | ok sorted =>
          simp only [hsort, if_neg (hthrows sorted (assignTopologySort_ok hsort).1)] at he
          simp at he
    · simp only [if_neg (hthrows _ (List.Perm.refl _))] at he
      simp at he

end Assign

instance decidableApart : ∀ a b : Loc, Decidable (a.Apart b)
  | .reg r, .reg r' => inferInstanceAs (Decidable (r ≠ r'))
  | .mem a n, .mem a' n' => inferInstanceAs
      (Decidable (∀ k < n, ∀ k' < n', a + BitVec.ofNat 64 k ≠ a' + BitVec.ofNat 64 k'))
  | .reg _, .mem _ _ => isTrue trivial
  | .mem _ _, .reg _ => isTrue trivial

instance decidableClear (st : State) (a b : Copy) : Decidable (Clear st a b) :=
  inferInstanceAs (Decidable (_ ∧ _))

instance decidableInst : ∀ e : Emitted, Decidable (∃ i, e = .inst i)
  | .inst i => isTrue ⟨i, rfl⟩
  | .nothing => isFalse fun ⟨_, h⟩ => Emitted.noConfusion h
  | .malformed => isFalse fun ⟨_, h⟩ => Emitted.noConfusion h
  | .throws => isFalse fun ⟨_, h⟩ => Emitted.noConfusion h

/-- Everything at the address 0, and registers that have their number. -/
def somewhere : Places := ⟨fun _ => 0, fun _ => 0, fun _ => 0⟩

def numbered : State := ⟨fun n => BitVec.ofNat 64 n, fun _ => 0, fun _ => 0⟩

theorem assign_at_once_turned :
    (execAll somewhere numbered [.inst (.cpyRr 1 2), .inst (.cpyRr 0 1), .inst (.cpyRi 8 0 3 64)]).at
      (.reg (.r 2)) = 1 :=
  have hout : assignAsmToAsm [.reg (.r 0), .reg (.r 1), .reg (.r 0)]
      [.reg (.r 1), .reg (.r 2), .i .l 3 64]
      = .ok [.inst (.cpyRr 1 2), .inst (.cpyRr 0 1), .inst (.cpyRi 8 0 3 64)] := by decide +kernel
  (assign_at_once somewhere [.reg (.r 0), .reg (.r 1), .reg (.r 0)]
    [.reg (.r 1), .reg (.r 2), .i .l 3 64] rfl (by decide) (by decide)).1 _ hout numbered (by decide)
    ⟨.reg (.r 1), .reg (.r 2)⟩ (by decide)

/-- What is stored is what is loaded, where the memory is the same. -/
theorem assign_aliased : ¬ ∀ (places : Places) (src : List Src) (dst : List Dst), src.length = dst.length →
    dst.Nodup → (∀ c ∈ copies src dst, ∃ i, emit c = .inst i) →
    ∀ out, assignAsmToAsm src dst = .ok out → ∀ st, ∀ c ∈ named src dst,
      (execAll places st out).at (c.dst.loc st)
        = (c.src.value places st).toNat % 256 ^ (c.dst.loc st).size := by
  intro h
  have hthere := h somewhere [.reg (.r 1), .i .l 0 8] [.i .l 0 8, .reg (.r 2)] rfl (by decide)
    (by decide) _ rfl numbered ⟨.i .l 0 8, .reg (.r 2)⟩ (by decide)
  exact absurd hthere (by decide)

end ChrysaLisp.Asm
