import ChrysaLisp.Link.Kept

set_option autoImplicit false

/-! # A link loses nothing

In a run in which there is room for all that is put, at every moment what was put and is not taken
lies in the ring as it was put, in order, from where the reader is to the head; and if the reader goes
on it takes that (`link_delivers`).

The `:out` may put what there is no room for. Five fragments can come to just before the end of the
ring with the room each waits for, and what is left before the end is skipped with no look at the
tail: the status that is made `ready` is that of the first of them, and the reader, who has not taken
it, never will (`link_loses`). -/

namespace ChrysaLisp.Link

open Memory Run

/-- What was put is what was taken, what lies in the ring from where the reader is, and what is being
put; and the reader takes all but that if it goes on. -/
structure Channel.Delivered (c : Channel) : Prop where
  kept : ∃ bufs, Lie c.mem c.rxHead bufs c.head ∧
    c.put = c.taken ++ items bufs ++ c.out.item.toList
  taken : ∃ n, c.put = (inStep^[n] c).taken ++ c.out.item.toList

section Delivered

variable {c : Channel} {T : ℕ} {done rest bufs : List Buf} {b : Buf}

/-! ## The reader goes on -/

/-- How many steps there are at most to the end of a buffer. -/
def In.left (b : Buf) : In → ℕ
  | .clear _ _ => 0
  | .data _ _ _ n bytes => 1 + (n - bytes.length)
  | .fields _ _ todo _ => 2 + b.data.length + todo.length
  | .length _ => 12 + b.data.length
  | .top => 13 + b.data.length

theorem length_layout (status : ℕ) : (layout status).length ≤ 9 := by
  unfold layout
  split <;> decide

/-- A step of it goes on. -/
theorem left_inStep (h : c.Inv T done (b :: bufs)) (hread : ∀ length item, c.inn ≠ .clear length item) :
    (inStep c).inn.left b < c.inn.left b := by
  have hinn' := h.inn
  cases hinn : c.inn with
  | top =>
    obtain ⟨-, -, hR8, -⟩ := h.dvd
    have hbusy : word c.mem c.rxHead ≠ lkReady := by
      rw [h.rxHead, (word_mod c.mem hR8).1, h.kept.2.1.status]
      exact b.status_ne
    simp only [inStep, hinn, if_neg hbusy]
    show 12 + b.data.length < 13 + b.data.length
    omega
  | length status =>
    rw [hinn] at hinn'
    obtain ⟨b', bufs', -, rfl⟩ := hinn'
    simp only [inStep, hinn]
    by_cases hskip : b'.status = lkSkip
    · rw [if_pos hskip]
      exact Nat.lt_add_right _ (Nat.succ_pos 11)
    · have hone : b'.status = lkPing ∨ b'.status = lkFrag := by
        cases b' with
        | skip n => exact absurd rfl hskip
        | item i =>
          cases i with
          | ping q => exact Or.inl rfl
          | frag f => exact Or.inr rfl
      have hlen := length_layout b'.status
      rw [if_neg hskip, if_pos hone]
      show 2 + b.data.length + (layout b'.status).length < 12 + b.data.length
      omega
  | fields status length todo got =>
    rw [hinn] at hinn'
    obtain ⟨i, bufs', k, hrest, rfl, rfl, htodo, hgot⟩ := hinn'
    obtain ⟨rfl, -⟩ := List.cons.inj hrest
    cases todo with
    | nil =>
      have hk : i.fields.length ≤ k := List.drop_eq_nil_iff.mp (List.map_eq_nil_iff.mp htodo.symm)
      have hall : got = i.fields.map (fun f => f.2.2) := by
        rw [hgot, List.take_of_length_le hk]
      simp only [inStep, hinn]
      show 1 + ((if i.status = lkPing then 0 else got.getD 0 0) - 0) < 2 + i.data.length + 0
      rw [hall]
      cases i with
      | ping q => exact Nat.lt_succ_self _
      | frag f =>
        show 1 + (f.data.length - 0) < 2 + f.data.length + 0
        omega
    | cons f todo =>
      simp only [inStep, hinn]
      exact Nat.lt_succ_self _
  | data status length got n bytes =>
    simp only [inStep, hinn]
    by_cases hmore : bytes.length < n
    · rw [if_pos hmore]
      show 1 + (n - (bytes ++ [_]).length) < 1 + (n - bytes.length)
      rw [List.length_append, List.length_singleton]
      omega
    · rw [if_neg hmore]
      show 0 < 1 + (n - bytes.length)
      omega
  | clear length item => exact absurd hinn (hread length item)

/-- What the reader does leaves what was put and where the `:out` is. -/
theorem inStep_out (c : Channel) : (inStep c).out = c.out ∧ (inStep c).put = c.put := by
  unfold inStep
  cases c.inn with
  | top => dsimp only; split <;> exact ⟨rfl, rfl⟩
  | length status => dsimp only; split_ifs <;> exact ⟨rfl, rfl⟩
  | fields status length todo got => cases todo <;> exact ⟨rfl, rfl⟩
  | data status length got n bytes => dsimp only; split <;> exact ⟨rfl, rfl⟩
  | clear length item => exact ⟨rfl, rfl⟩

/-- The reader takes the first buffer it has not. -/
theorem takes_first (n : ℕ) : ∀ c : Channel, c.inn.left b = n → c.Inv T done (b :: bufs) →
    ∃ k, (inStep^[k] c).Inv T (done ++ [b]) bufs ∧ (inStep^[k] c).out = c.out ∧
      (inStep^[k] c).put = c.put := by
  induction n using Nat.strong_induction_on with
  | _ n ih =>
    intro c hn h
    obtain ⟨hout, hput⟩ := inStep_out c
    by_cases hread : ∃ length item, c.inn = .clear length item
    · obtain ⟨length, item, hinn⟩ := hread
      obtain ⟨b', bufs', hrest, hinv⟩ := inStep_clear h hinn
      obtain ⟨rfl, rfl⟩ := List.cons.inj hrest
      exact ⟨1, hinv, hout, hput⟩
    · have hread' : ∀ length item, c.inn ≠ .clear length item :=
        fun length item hinn => hread ⟨length, item, hinn⟩
      have hless := left_inStep h hread'
      obtain ⟨k, hinv, hout', hput'⟩ := ih _ (by omega) (inStep c) rfl (inStep_reading h hread')
      refine ⟨k + 1, ?_⟩
      rw [Function.iterate_succ_apply]
      exact ⟨hinv, hout'.trans hout, hput'.trans hput⟩

/-- And so all of them. -/
theorem takes_all (bufs : List Buf) : ∀ (c : Channel) (done : List Buf), c.Inv T done bufs →
    ∃ n done', (inStep^[n] c).Inv T done' [] ∧ (inStep^[n] c).out = c.out ∧
      (inStep^[n] c).put = c.put := by
  induction bufs with
  | nil => exact fun c done h => ⟨0, done, h, rfl, rfl⟩
  | cons b bufs ih =>
    intro c done h
    obtain ⟨k, hfirst, hout, hput⟩ := takes_first _ c rfl h
    obtain ⟨n, done', hall, hout', hput'⟩ := ih _ _ hfirst
    refine ⟨n + k, done', ?_⟩
    rw [Function.iterate_add_apply]
    exact ⟨hall, hout'.trans hout, hput'.trans hput⟩

theorem Channel.Inv.delivered (h : c.Inv T done rest) : c.Delivered := by
  refine ⟨⟨rest, ?_, h.put⟩, ?_⟩
  · rw [h.rxHead, h.head, ← Nat.add_assoc]
    exact h.kept.lie
  · obtain ⟨n, done', hall, hout, hput⟩ := takes_all rest c done h
    refine ⟨n, ?_⟩
    rw [← hput, hall.put, hout, items_nil, List.append_nil]

end Delivered

/-- In every run with room for all that is put, nothing is lost. -/
theorem link_delivers {mem : ℕ → Byte} (hmem : word mem 0 = lkReady) (acts : List Act)
    (hroomy : Each step Channel.Roomy (start mem) acts) :
    (run step (start mem) acts).Delivered := by
  obtain ⟨T, done, rest, h⟩ := inv_of_each (I := fun c => ∃ T done rest, c.Inv T done rest)
    (fun _ _ h hroomy => step_inv h hroomy) ⟨0, [], [], start_inv hmem⟩ hroomy
  exact h.delivered

theorem link_delivers_ping :
    (run step (start (fun _ => 0)) [.out none, .out none,
      .out (some ⟨.ping ⟨⟨1, 2⟩, ⟨3, 4⟩, 5, 6⟩, trivial⟩), .inn, .out none]).Delivered := by
  refine link_delivers rfl _ ⟨trivial, trivial, ?_, trivial, trivial, trivial⟩
  intro m hm _
  rw [← Option.some.inj hm]
  exact (by decide : 64 < 30880)

/-! ## A run with no room -/

/-- The reader has taken nothing of some buffers. -/
structure Channel.Waits (c : Channel) (rest : List Buf) : Prop where
  inv : c.Inv 0 [] rest
  taken : c.taken = []
  inn : c.inn = .top

section Waits

variable {c : Channel} {rest : List Buf}

theorem Channel.Waits.head (h : c.Waits rest) : c.head = total rest := by
  have hroom := h.inv.room
  rw [total_nil, Nat.zero_add] at hroom
  rw [h.inv.head, total_nil, Nat.zero_add, Nat.zero_add, Nat.mod_eq_of_lt hroom]

/-- The writes of an item, one after another. -/
theorem Channel.Waits.writes {size : ℕ} {i : Item} (todo : List (ℕ × Str)) : ∀ c : Channel,
    c.Waits rest → c.out = .writing todo size (some i) → todo ≠ [] →
    ∃ b acts, Channel.Waits (run step c acts) (rest ++ [b]) ∧ (run step c acts).out = .yield ∧
      (run step c acts).put = c.put ∧ b.size = size := by
  induction todo with
  | nil => exact fun c _ _ hne => absurd rfl hne
  | cons st todo ih =>
    intro c h hout _
    by_cases hnil : todo = []
    · subst hnil
      obtain ⟨b, hsize, -, hinv⟩ := h.inv.last hout
      have hstep : outStep none c = { c with
          mem := store c.mem st.1 st.2, head := wrap (c.head + size), out := .yield } := by
        simp only [outStep, hout]
        rfl
      refine ⟨b, [.out none], ?_⟩
      rw [run_cons, run_nil]
      show Channel.Waits (outStep none c) _ ∧ (outStep none c).out = _ ∧ (outStep none c).put = _ ∧ _
      rw [hstep]
      exact ⟨⟨hinv, h.taken, h.inn⟩, rfl, rfl, hsize⟩
    · have hstep : outStep none c = { c with
          mem := store c.mem st.1 st.2, out := .writing todo size (some i) } := by
        simp only [outStep, hout]
        rw [if_neg hnil]
      obtain ⟨b, acts, hrun⟩ := ih (outStep none c)
        (by rw [hstep]; exact ⟨h.inv.write hout hnil, h.taken, h.inn⟩) (by rw [hstep]) hnil
      refine ⟨b, .out none :: acts, ?_⟩
      rw [run_cons]
      have hput : (outStep none c).put = c.put := by rw [hstep]
      rw [hput] at hrun
      exact hrun

/-- A fragment is put, where there is the room it waits for. -/
theorem Channel.Waits.frag (h : c.Waits rest) (hout : c.out = .top) {f : Frag}
    (hfits : (Item.frag f).Fits) (hroom : total rest + 6184 ≤ lkChanSize) :
    ∃ b acts, Channel.Waits (run step c acts) (rest ++ [b]) ∧ (run step c acts).out = .yield ∧
      (run step c acts).put = c.put ++ [.frag f] ∧ b.size = (Item.frag f).size := by
  have hC := lkChanSize_eq
  have hready : word c.mem c.head = lkReady := by
    have hword := h.inv.ready
    obtain ⟨-, -, -, h8⟩ := h.inv.dvd
    rw [h.inv.head, (word_mod c.mem h8).1, hword]
  have hitem : c.out.item = none := by
    rw [hout]
    rfl
  -- nothing is taken, so the tail stays where it is
  have hstay : ¬ (c.tail ≠ c.head ∧ word c.mem c.tail = lkReady) := by
    intro hmore
    have htail := h.inv.tail
    cases rest with
    | nil => exact hmore.1 (htail.trans h.inv.head.symm)
    | cons b rest =>
      obtain ⟨-, hin, -⟩ := h.inv.kept
      rw [htail, (word_mod c.mem h.inv.longs).1] at hmore
      exact b.status_ne (hin.status.symm.trans hmore.2)
  have hspace : space c.head c.tail + total rest = lkChanSize := by
    have hadd := space_add (T := 0) h.inv.room
    rw [← h.inv.head, ← h.inv.tail, total_nil, Nat.zero_add] at hadd
    exact hadd
  have hneeds : ¬ space c.head c.tail < (Item.frag f).needs := by
    show ¬ space c.head c.tail < 6184
    omega
  have htop := h.inv.out
  rw [hout] at htop
  have hchoose := @Channel.Inv.goOn _ _ _ _ h.inv hitem .choose (space c.head c.tail) rfl
    ⟨htop, by rw [total_nil, Nat.zero_add]; exact hspace⟩
  have hbegin := hchoose.begin rfl (.item (.frag f)) ⟨hfits, by rw [hchoose.head]; exact htop⟩
    (by
      have hsize := size_lt_of_needs hfits (Nat.le_of_not_lt hneeds)
      show total [] + total rest + (Item.frag f).size < lkChanSize
      rw [total_nil]
      omega)
  obtain ⟨b, acts, hwaits, hdone, hput, hsize⟩ := Channel.Waits.writes _ _
    ⟨hbegin, h.taken, h.inn⟩ rfl (by simp [Buf.writesRing, writeBuf])
  refine ⟨b, [.out none, .out none, .out (some ⟨.frag f, hfits⟩)] ++ acts, ?_⟩
  have hrun : run step c [.out none, .out none, .out (some ⟨.frag f, hfits⟩)]
      = { c with
          free := space c.head c.tail
          put := c.put ++ [.frag f]
          out := .writing ((Buf.item (.frag f)).writesRing c.head) (Item.frag f).size
            (some (.frag f)) } := by
    simp only [run_cons, run_nil, step, outStep, hout, hready, if_true, if_neg hstay, if_neg hneeds]
    rfl
  rw [run_append, hrun]
  exact ⟨hwaits, hdone, hput, hsize⟩

/-- There is room before the end for the head of another. -/
theorem Channel.Waits.top (h : c.Waits rest) (hout : c.out = .yield)
    (hroom : total rest + 72 ≤ lkChanSize) :
    (step c (.out none)).Waits rest ∧ (step c (.out none)).out = .top ∧
      (step c (.out none)).put = c.put := by
  have hhead := h.head
  have hnot : ¬ lkChanSize < c.head + (lkBufSize + lkFragSize) := by
    rw [show lkBufSize + lkFragSize = 72 from rfl]
    omega
  have hstep : outStep none c = { c with out := .top } := by
    simp only [outStep, hout, if_neg hnot]
  show Channel.Waits (outStep none c) rest ∧ (outStep none c).out = _ ∧ (outStep none c).put = _
  rw [hstep]
  refine ⟨⟨h.inv.goOn (by rw [hout]; rfl) rfl ?_, h.taken, h.inn⟩, rfl, rfl⟩
  show (0 + (total [] + total rest)) % lkChanSize + (lkBufSize + lkFragSize) ≤ lkChanSize
  rw [← h.inv.head]
  exact Nat.le_of_not_lt hnot

/-- A fragment of so many bytes. -/
def fragOf (n : ℕ) : Frag :=
  ⟨⟨0, ⟨0, 0⟩⟩, ⟨0, ⟨0, 0⟩⟩, 0, UInt32.ofNat n, List.replicate n 0⟩

theorem fragOf_fits {n : ℕ} (h : n ≤ lkDataSize) : (Item.frag (fragOf n)).Fits := by
  show (List.replicate n (0 : Byte)).length ≤ lkDataSize
  rw [List.length_replicate]
  exact h

theorem size_fragOf (n : ℕ) :
    (Item.frag (fragOf n)).size = (n + lkBufSize + lkFragSize + 8 - 1) / 8 * 8 := by
  show ((List.replicate n (0 : Byte)).length + lkBufSize + lkFragSize + 8 - 1) / 8 * 8 = _
  rw [List.length_replicate]

/-- One fragment more, and the `:out` at the top again. -/
theorem Channel.Waits.frag_top (h : c.Waits rest) (hout : c.out = .top) {n : ℕ} (hn : n ≤ lkDataSize)
    (hroom : total rest + 6184 ≤ lkChanSize)
    (hend : total rest + (n + lkBufSize + lkFragSize + 8 - 1) / 8 * 8 + 72 ≤ lkChanSize) :
    ∃ b acts, Channel.Waits (run step c acts) (rest ++ [b]) ∧ (run step c acts).out = .top ∧
      total (rest ++ [b]) = total rest + (n + lkBufSize + lkFragSize + 8 - 1) / 8 * 8 := by
  obtain ⟨b, acts, hwaits, hyield, -, hsize⟩ := h.frag hout (fragOf_fits hn) hroom
  have hall : total (rest ++ [b]) = total rest + (n + lkBufSize + lkFragSize + 8 - 1) / 8 * 8 := by
    rw [total_append, total_cons, total_nil, hsize, size_fragOf, Nat.add_zero]
  obtain ⟨hwaits', htop, -⟩ := hwaits.top hyield (by rw [hall]; exact hend)
  refine ⟨b, acts ++ [.out none], ?_⟩
  rw [run_append]
  exact ⟨hwaits', htop, hall⟩

/-- What is skipped, to the end of the ring and the reader where it starts: the status of the first
buffer is made ready, and it is not taken. -/
theorem Channel.Waits.loses (h : c.Waits rest) (hout : c.out = .yield) (hput : c.put ≠ [])
    (hend : lkChanSize < total rest + 72) :
    ∃ acts, ¬ (run step c acts).Delivered := by
  have hC := lkChanSize_eq
  have hhead := h.head
  have hless := h.inv.room
  rw [total_nil, Nat.zero_add] at hless
  have hskip : lkChanSize < c.head + (lkBufSize + lkFragSize) := by
    rw [show lkBufSize + lkFragSize = 72 from rfl]
    omega
  have hwrap : wrap (c.head + (lkChanSize - c.head)) = 0 := by
    unfold wrap
    rw [if_pos (by omega)]
    omega
  have hrx : c.rxHead = 0 := by
    rw [h.inv.rxHead]
    rfl
  refine ⟨[.out none, .out none, .out none], ?_⟩
  have hrun : run step c [.out none, .out none, .out none]
      = { c with
          mem := store (store c.mem (c.head + 4) (bytesOf 4 (lkChanSize - c.head))) 0
            (bytesOf 4 lkReady)
          out := .writing [(c.head, bytesOf 4 lkSkip)] (lkChanSize - c.head) none } := by
    simp only [run_cons, run_nil, step, outStep, hout, if_pos hskip, writeBuf, hwrap]
    rfl
  rw [hrun]
  rintro ⟨⟨bufs, hlie, hall⟩, -⟩
  cases bufs with
  | nil =>
    rw [h.taken] at hall
    exact hput hall
  | cons b bufs =>
    obtain ⟨-, ⟨hstatus, -⟩, -⟩ := hlie
    rw [hrx] at hstatus
    have hword := congrArg numOf (load_store
      (store c.mem (c.head + 4) (bytesOf 4 (lkChanSize - c.head))) 0 (bytesOf 4 lkReady))
    exact b.status_ne (hstatus.symm.trans hword)

end Waits

/-- A run in which something is lost: three fragments of `lk_data_size` bytes, one of 8 less and one
of `lk_data_size` again, and the reader takes nothing. -/
theorem link_loses : ¬ ∀ (mem : ℕ → Byte) (acts : List Act), word mem 0 = lkReady →
    (run step (start mem) acts).Delivered := by
  intro hall
  have h0 : (start (fun _ => 0)).Waits [] := ⟨start_inv rfl, rfl, rfl⟩
  have hC := lkChanSize_eq
  have hD : lkDataSize = 6104 := rfl
  have hfull : (6104 + lkBufSize + lkFragSize + 8 - 1) / 8 * 8 = 6176 := rfl
  have hless : (6096 + lkBufSize + lkFragSize + 8 - 1) / 8 * 8 = 6168 := rfl
  obtain ⟨b1, acts1, h1, hout1, ht1⟩ := h0.frag_top (n := 6104) rfl (by omega)
    (by rw [total_nil]; omega) (by rw [total_nil]; omega)
  obtain ⟨b2, acts2, h2, hout2, ht2⟩ := h1.frag_top (n := 6104) hout1 (by omega)
    (by rw [ht1, total_nil]; omega) (by rw [ht1, total_nil]; omega)
  obtain ⟨b3, acts3, h3, hout3, ht3⟩ := h2.frag_top (n := 6104) hout2 (by omega)
    (by rw [ht2, ht1, total_nil]; omega) (by rw [ht2, ht1, total_nil]; omega)
  obtain ⟨b4, acts4, h4, hout4, ht4⟩ := h3.frag_top (n := 6096) hout3 (by omega)
    (by rw [ht3, ht2, ht1, total_nil]; omega) (by rw [ht3, ht2, ht1, total_nil]; omega)
  obtain ⟨b5, acts5, h5, hout5, hput5, hsize5⟩ := h4.frag (f := fragOf 6104) hout4
    (fragOf_fits (by omega)) (by rw [ht4, ht3, ht2, ht1, total_nil]; omega)
  rw [size_fragOf] at hsize5
  obtain ⟨acts6, h6⟩ := h5.loses hout5 (by rw [hput5]; exact List.concat_ne_nil _ _) (by
    rw [total_append, total_cons, total_nil, hsize5, ht4, ht3, ht2, ht1, total_nil]
    omega)
  rw [← run_append, ← run_append, ← run_append, ← run_append, ← run_append] at h6
  exact h6 (hall _ _ rfl)

end ChrysaLisp.Link
