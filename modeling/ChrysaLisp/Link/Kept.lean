import ChrysaLisp.Link.Write

set_option autoImplicit false

/-! # What a link keeps

At every moment the ring has buffers the reader has taken, from the tail on, and after them those it
has not, to the head. The one side writes past them, the other takes the first that is not taken, and
what a step of either side is in the middle of is said by `OutInv` and `InInv`.

It is kept where there is room for what is put (`Channel.Roomy`). The `:out` sees to that of a
fragment. Of a ping it looks for the room of one header, and of what is skipped it does not look. -/

namespace ChrysaLisp.Link

open Memory

/-- There is more room than what the step is to put. -/
def Channel.Roomy (c : Channel) : Act → Prop
  | .inn => True
  | .out mail =>
    match c.out with
    | .choose => ∀ m, mail = some m → m.item.needs ≤ c.free → m.item.size < c.free
    | .yield => lkChanSize < c.head + (lkBufSize + lkFragSize) →
        lkChanSize - c.head < space c.head c.tail
    | _ => True

/-- What is being put. -/
def Out.item : Out → Option Item
  | .writing _ _ item => item
  | _ => none

/-! ## The invariant -/

/-- What the `:out` is in the middle of, `H` where the head is and `n` how much is in the ring. -/
def OutInv (mem : ℕ → Byte) (free H n : ℕ) : Out → Prop
  | .top => H % lkChanSize + (lkBufSize + lkFragSize) ≤ lkChanSize
  | .reclaim => H % lkChanSize + (lkBufSize + lkFragSize) ≤ lkChanSize
  | .choose => H % lkChanSize + (lkBufSize + lkFragSize) ≤ lkChanSize ∧ free + n = lkChanSize
  | .yield => True
  | .writing todo size item =>
    ∃ (b : Buf) (done flat : List (ℕ × Str)), b.size = size ∧ b.item? = item ∧
      b.Placed (H % lkChanSize) ∧ n + b.size < lkChanSize ∧ b.writes H = done ++ flat ∧ flat ≠ [] ∧
      todo = flat.map (fun st => (st.1 % lkChanSize, st.2)) ∧
      b.In (stores (view mem) flat) H ∧ word (stores (view mem) flat) (H + b.size) = lkReady

/-- What the `:in` is in the middle of, `rest` what it has not taken. -/
def InInv (rest : List Buf) : In → Prop
  | .top => True
  | .length status => ∃ b bufs, rest = b :: bufs ∧ status = b.status
  | .fields status length todo got =>
    ∃ i bufs k, rest = .item i :: bufs ∧ status = i.status ∧ length = i.size ∧
      todo = (i.fields.drop k).map (fun f => (f.1, f.2.1)) ∧
      got = (i.fields.take k).map (fun f => f.2.2)
  | .data status length got n bytes =>
    ∃ i bufs, rest = .item i :: bufs ∧ status = i.status ∧ length = i.size ∧
      got = i.fields.map (fun f => f.2.2) ∧ n = i.data.length ∧ bytes = i.data.take bytes.length
  | .clear length item => ∃ b bufs, rest = b :: bufs ∧ length = b.size ∧ item = b.item?

/-- `T` is where the tail is, of the ring as it goes on for ever, `done` the buffers from there that
are taken and `rest` those that are not. -/
structure Channel.Inv (c : Channel) (T : ℕ) (done rest : List Buf) : Prop where
  tail : c.tail = T % lkChanSize
  rxHead : c.rxHead = (T + total done) % lkChanSize
  head : c.head = (T + (total done + total rest)) % lkChanSize
  longs : 8 ∣ T
  room : total done + total rest < lkChanSize
  taken : Done (view c.mem) T done
  kept : Untaken (view c.mem) (T + total done) rest
  ready : word (view c.mem) (T + (total done + total rest)) = lkReady
  put : c.put = c.taken ++ items rest ++ c.out.item.toList
  out : OutInv c.mem c.free (T + (total done + total rest)) (total done + total rest) c.out
  inn : InInv rest c.inn

section Inv

variable {c : Channel} {T : ℕ} {done rest : List Buf}

theorem Channel.Inv.dvd (h : c.Inv T done rest) :
    8 ∣ total done ∧ 8 ∣ total rest ∧ 8 ∣ T + total done ∧ 8 ∣ T + (total done + total rest) := by
  have hdone := h.taken.dvd
  have hrest := h.kept.dvd
  have hT := h.longs
  omega

/-- What is read of a status or a length. -/
theorem word_mod (mem : ℕ → Byte) {p : ℕ} (h : 8 ∣ p) :
    word mem (p % lkChanSize) = word (view mem) p ∧
      word mem (p % lkChanSize + 4) = word (view mem) (p + 4) := by
  have hle := mod_le h
  exact ⟨@word_view mem p 0 (by omega), word_view (by omega)⟩

theorem space_add {T n : ℕ} (h : n < lkChanSize) :
    space ((T + n) % lkChanSize) (T % lkChanSize) + n = lkChanSize := by
  unfold space
  rw [lkChanSize_eq] at *
  split <;> omega

/-! ## Steps of the `:out` -/

/-- It goes over a buffer that was taken. -/
theorem Channel.Inv.reclaim (h : c.Inv T done rest) (hout : c.out = .reclaim) (hne : c.tail ≠ c.head)
    (hready : word c.mem c.tail = lkReady) :
    ∃ T' done', Channel.Inv { c with tail := wrap (c.tail + word c.mem (c.tail + 4)) } T' done' rest := by
  have hC := lkChanSize_eq
  obtain ⟨hstatus, hlength⟩ := word_mod c.mem h.longs
  rw [← h.tail] at hstatus hlength
  cases done with
  | nil =>
    -- the first buffer there is not taken: its status is not ready
    have hkept := h.kept
    rw [total_nil, Nat.add_zero] at hkept
    cases rest with
    | nil => exact absurd (h.tail.trans h.head.symm) hne
    | cons b rest =>
      obtain ⟨-, hin, -⟩ := hkept
      exact absurd (hin.status.symm.trans (hstatus.symm.trans hready)) b.status_ne
  | cons b done =>
    obtain ⟨hplaced, -, hsize, hdone⟩ := h.taken
    obtain ⟨-, hlongs, -, -, hmost⟩ := hplaced.size_spec
    have hhead := h.head
    have hrx := h.rxHead
    have hkept := h.kept
    have hready' := h.ready
    have hroom := h.room
    have hout' := h.out
    rw [hout] at hout'
    simp only [total_cons] at hhead hrx hkept hready' hroom hout'
    have hall : T + b.size + (total done + total rest) = T + (b.size + total done + total rest) := by
      omega
    refine ⟨T + b.size, done, ?_, ?_, ?_, Nat.dvd_add h.longs hlongs, by omega, hdone, ?_, ?_, h.put, ?_,
      h.inn⟩
    · show wrap (c.tail + word c.mem (c.tail + 4)) = _
      rw [hlength, hsize, h.tail, wrap_mod (by omega)]
    · rw [Nat.add_assoc]
      exact hrx
    · rw [hall]
      exact hhead
    · rw [Nat.add_assoc]
      exact hkept
    · rw [hall]
      exact hready'
    · rw [hall]
      show OutInv c.mem c.free _ _ c.out
      rw [hout]
      exact hout'

/-- It sets about a buffer there is room for. -/
theorem Channel.Inv.begin (h : c.Inv T done rest) (hout : c.out.item = none) (b : Buf)
    (hplaced : b.Placed c.head) (hroom : total done + total rest + b.size < lkChanSize) :
    Channel.Inv { c with
      put := c.put ++ b.item?.toList
      out := .writing (b.writesRing c.head) b.size b.item? } T done rest := by
  obtain ⟨-, -, -, h8⟩ := h.dvd
  rw [h.head] at hplaced ⊢
  obtain ⟨hin, hnext⟩ := @Buf.in_writes b (T + (total done + total rest)) (view c.mem) hplaced h8
  refine ⟨h.tail, h.rxHead, rfl, h.longs, h.room, h.taken, h.kept, h.ready, ?_, ?_, h.inn⟩
  · show c.put ++ b.item?.toList = c.taken ++ items rest ++ b.item?.toList
    rw [h.put, hout, Option.toList_none, List.append_nil]
  · exact ⟨b, [], _, rfl, rfl, hplaced, hroom, rfl, by simp, Buf.writesRing_eq hplaced,
      hin, hnext⟩

/-- What the `:in` is in the middle of is of the first buffer, whatever is put after it. -/
theorem InInv.append {inn : In} (h : InInv rest inn) (more : List Buf) : InInv (rest ++ more) inn := by
  cases inn with
  | top => trivial
  | length status =>
    obtain ⟨b, bufs, rfl, hb⟩ := h
    exact ⟨b, bufs ++ more, rfl, hb⟩
  | fields status length todo got =>
    obtain ⟨i, bufs, k, rfl, hi⟩ := h
    exact ⟨i, bufs ++ more, k, rfl, hi⟩
  | data status length got n bytes =>
    obtain ⟨i, bufs, rfl, hi⟩ := h
    exact ⟨i, bufs ++ more, rfl, hi⟩
  | clear length item =>
    obtain ⟨b, bufs, rfl, hb⟩ := h
    exact ⟨b, bufs ++ more, rfl, hb⟩

/-- Of some that end in the status, what is not the last is before it. -/
theorem mem_of_append_eq {α : Type*} {x y : α} {done flat pre : List α}
    (h : done ++ x :: flat = pre ++ [y]) (hflat : flat ≠ []) : x ∈ pre := by
  obtain ⟨init, z, rfl⟩ := List.eq_nil_or_concat flat |>.resolve_left hflat
  have hsplit : (done ++ x :: init) ++ [z] = pre ++ [y] := by
    rw [← h]
    simp
  rw [← (List.append_inj' hsplit rfl).1]
  simp

/-- All is longs, so what there is room for there is room for a long after. -/
theorem room_longs {a b n : ℕ} (ha : 8 ∣ a) (hb : 8 ∣ b) (hn : 8 ∣ n) (h : a + b + n < lkChanSize) :
    a + b + n + 8 ≤ lkChanSize := by
  rw [lkChanSize_eq] at h ⊢
  omega

/-- One of its writes, and not the last: nothing of the buffers in the ring is written over, and the
head's status is ready still. -/
theorem Channel.Inv.write (h : c.Inv T done rest) {st : ℕ × Str} {todo : List (ℕ × Str)} {size : ℕ}
    {item : Option Item} (hout : c.out = .writing (st :: todo) size item) (hmore : todo ≠ []) :
    Channel.Inv { c with mem := store c.mem st.1 st.2, out := .writing todo size item } T done rest := by
  obtain ⟨hdone8, hrest8, -, h8⟩ := h.dvd
  have hout' := h.out
  have hput := h.put
  rw [hout] at hout' hput
  obtain ⟨b, before, flat, hsize, hitem, hplaced, hroom, hwrites, -, htodo, hin, hnext⟩ := hout'
  obtain ⟨hleast, hlongs, -⟩ := hplaced.size_spec
  have hlast := room_longs hdone8 hrest8 hlongs hroom
  cases flat with
  | nil => exact absurd htodo (List.cons_ne_nil _ _)
  | cons f flat =>
    rw [List.map_cons] at htodo
    obtain ⟨rfl, rfl⟩ := List.cons.inj htodo
    have hflat : flat ≠ [] := fun h => hmore (by rw [h, List.map_nil])
    obtain ⟨hlo, hhi, hfit⟩ := Buf.mem_writesBefore hplaced h8 f (mem_of_append_eq hwrites.symm hflat)
    have hturn := @view_store c.mem T f.1 f.2 hfit (by omega) (by omega)
    have hsame : Agree (fun q => T ≤ q ∧ q < T + (total done + total rest) + 4) (view c.mem)
        (view (store c.mem (f.1 % lkChanSize) f.2)) := by
      intro q hq
      rw [hturn q (by omega), store_out (by omega)]
    refine ⟨h.tail, h.rxHead, h.head, h.longs, h.room,
      h.taken.congr (hsame.imp (fun q hq => by omega)),
      h.kept.congr (hsame.imp (fun q hq => by omega)), ?_, hput, ?_, h.inn⟩
    · rw [← h.ready]
      exact congrArg numOf (hsame.symm.load (fun k hk => by omega))
    · refine ⟨b, before ++ [f], flat, hsize, hitem, hplaced, hroom, ?_, hflat, rfl, ?_, ?_⟩
      · rw [hwrites, List.append_assoc, List.singleton_append]
      · exact hin.congr hplaced ((hturn.symm.stores flat).imp (fun q hq => by omega))
      · rw [← hnext]
        exact congrArg numOf ((hturn.stores flat).load (fun k hk => by omega))

/-- The last of them, the status: the buffer is in the ring. -/
theorem Channel.Inv.last (h : c.Inv T done rest) {st : ℕ × Str} {size : ℕ}
    {item : Option Item} (hout : c.out = .writing [st] size item) :
    ∃ b, b.size = size ∧ b.item? = item ∧ Channel.Inv { c with
      mem := store c.mem st.1 st.2, head := wrap (c.head + size)
      out := if item = none then .top else .yield } T done (rest ++ [b]) := by
  have hC := lkChanSize_eq
  obtain ⟨hdone8, hrest8, -, h8⟩ := h.dvd
  have hout' := h.out
  have hput := h.put
  rw [hout] at hout' hput
  obtain ⟨b, before, flat, rfl, rfl, hplaced, hroom, hwrites, -, htodo, hin, hnext⟩ := hout'
  obtain ⟨hleast, hlongs, -, -, hmost⟩ := hplaced.size_spec
  have hlast := room_longs hdone8 hrest8 hlongs hroom
  cases flat with
  | nil => exact absurd htodo (List.cons_ne_nil _ _)
  | cons f flat =>
    rw [List.map_cons] at htodo
    obtain ⟨rfl, hnil⟩ := List.cons.inj htodo
    have hflat : flat = [] := List.map_eq_nil_iff.mp hnil.symm
    subst hflat
    have hf : f ∈ b.writes (T + (total done + total rest)) := by
      rw [hwrites]
      simp
    obtain ⟨hlo, hhi, hfit⟩ := Buf.mem_writes hplaced h8 f hf
    have hturn := @view_store c.mem T f.1 f.2 hfit (by omega) (by omega)
    have hsame : Agree (fun q => T ≤ q ∧ q < T + (total done + total rest)) (view c.mem)
        (view (store c.mem (f.1 % lkChanSize) f.2)) := by
      intro q hq
      rw [hturn q (by omega), store_out (by omega)]
    have hall : total done + total (rest ++ [b]) = total done + total rest + b.size := by
      rw [total_append, total_cons, total_nil]
      omega
    have hend : T + (total done + total (rest ++ [b])) = T + (total done + total rest) + b.size := by
      omega
    refine ⟨b, rfl, rfl, h.tail, h.rxHead, ?_, h.longs, by omega,
      h.taken.congr (hsame.imp (fun q hq => by omega)), ?_, ?_, ?_, ?_, h.inn.append [b]⟩
    · show wrap (c.head + b.size) = _
      rw [hend, h.head, wrap_mod (by omega)]
    · rw [untaken_append]
      refine ⟨h.kept.congr (hsame.imp (fun q hq => by omega)), ?_, ?_⟩
      · rw [Nat.add_assoc]
        exact hplaced
      · rw [Nat.add_assoc]
        exact hin.congr hplaced (hturn.symm.imp (fun q hq => by omega))
    · rw [hend, ← hnext]
      exact congrArg numOf (hturn.load (fun k hk => by omega))
    · show c.put = c.taken ++ items (rest ++ [b]) ++ _
      rw [hput, items_append, items_cons, items_nil, List.append_nil]
      show _ ++ b.item?.toList = _
      have hdone : (if b.item? = none then Out.top else Out.yield).item = none := by
        split <;> rfl
      rw [hdone, Option.toList_none, List.append_nil, List.append_assoc]
    · rw [hend]
      show OutInv _ _ _ _ (if b.item? = none then Out.top else Out.yield)
      cases b with
      | item i => trivial
      | skip n =>
        obtain ⟨-, -, -, hstop⟩ := hplaced
        show (T + (total done + total rest) + n) % lkChanSize + (lkBufSize + lkFragSize) ≤ lkChanSize
        rw [show lkBufSize + lkFragSize = 72 from rfl]
        rw [hC] at hstop ⊢
        omega

/-- It goes on with nothing of the ring changed. -/
theorem Channel.Inv.goOn (h : c.Inv T done rest) (hitem : c.out.item = none) {out : Out} {free : ℕ}
    (hitem' : out.item = none)
    (hout : OutInv c.mem free (T + (total done + total rest)) (total done + total rest) out) :
    Channel.Inv { c with free := free, out := out } T done rest := by
  refine ⟨h.tail, h.rxHead, h.head, h.longs, h.room, h.taken, h.kept, h.ready, ?_, hout, h.inn⟩
  have hput := h.put
  rw [hitem] at hput
  show c.put = c.taken ++ items rest ++ out.item.toList
  rw [hitem', hput]

/-- The room the `:out` waits for is enough of a fragment. -/
theorem size_lt_of_needs {f : Frag} (h : (Item.frag f).Fits) {free : ℕ}
    (hfree : (Item.frag f).needs ≤ free) : (Item.frag f).size < free := by
  have hlen : f.data.length ≤ 6104 := h
  have hneeds : (Item.frag f).needs = 6184 := rfl
  have hsize : (Item.frag f).size = (f.data.length + 8 + 64 + 8 - 1) / 8 * 8 := rfl
  omega

theorem outStep_inv (h : c.Inv T done rest) (mail : Option Mail) (hroomy : c.Roomy (.out mail)) :
    ∃ T' done' rest', (outStep mail c).Inv T' done' rest' := by
  have hout' := h.out
  cases hout : c.out with
  | top =>
    rw [hout] at hout'
    refine ⟨T, done, rest, ?_⟩
    simp only [outStep, hout]
    by_cases hready : word c.mem c.head = lkReady
    · rw [if_pos hready]
      exact h.goOn (by rw [hout]; rfl) rfl hout'
    · rw [if_neg hready]
      exact h.goOn (by rw [hout]; rfl) rfl hout'
  | reclaim =>
    rw [hout] at hout'
    simp only [outStep, hout]
    by_cases hmore : c.tail ≠ c.head ∧ word c.mem c.tail = lkReady
    · rw [if_pos hmore]
      obtain ⟨T', done', hinv⟩ := h.reclaim hout hmore.1 hmore.2
      rw [hout] at hinv
      exact ⟨T', done', rest, hinv⟩
    · rw [if_neg hmore]
      refine ⟨T, done, rest, h.goOn (by rw [hout]; rfl) rfl ⟨hout', ?_⟩⟩
      rw [h.head, h.tail]
      exact space_add h.room
  | choose =>
    rw [hout] at hout'
    simp only [outStep, hout]
    cases mail with
    | none => exact ⟨T, done, rest, h.goOn (by rw [hout]; rfl) rfl hout'.1⟩
    | some m =>
      dsimp only
      by_cases hfree : c.free < m.item.needs
      · rw [if_pos hfree]
        exact ⟨T, done, rest, h.goOn (by rw [hout]; rfl) rfl hout'.1⟩
      · rw [if_neg hfree]
        have hroom : m.item.size < c.free := by
          unfold Channel.Roomy at hroomy
          rw [hout] at hroomy
          exact hroomy m rfl (Nat.le_of_not_lt hfree)
        have hall := hout'.2
        refine ⟨T, done, rest, h.begin (by rw [hout]; rfl) (.item m.item) ⟨m.fits, ?_⟩ ?_⟩
        · rw [h.head]
          exact hout'.1
        · show total done + total rest + m.item.size < lkChanSize
          omega
  | writing todo size item =>
    simp only [outStep, hout]
    cases todo with
    | nil =>
      -- there is a write while it is writing
      rw [hout] at hout'
      obtain ⟨b, before, flat, -, -, -, -, -, hflat, htodo, -⟩ := hout'
      exact absurd (List.map_eq_nil_iff.mp htodo.symm) hflat
    | cons st todo =>
      dsimp only
      by_cases hnil : todo = []
      · rw [if_pos hnil]
        subst hnil
        obtain ⟨b, -, -, hinv⟩ := h.last hout
        exact ⟨T, done, rest ++ [b], hinv⟩
      · rw [if_neg hnil]
        exact ⟨T, done, rest, h.write hout hnil⟩
  | yield =>
    simp only [outStep, hout]
    by_cases hend : lkChanSize < c.head + (lkBufSize + lkFragSize)
    · rw [if_pos hend]
      have hroom : lkChanSize - c.head < space c.head c.tail := by
        unfold Channel.Roomy at hroomy
        rw [hout] at hroomy
        exact hroomy hend
      obtain ⟨-, -, -, h8⟩ := h.dvd
      have hC := lkChanSize_eq
      have hspace := space_add (T := T) h.room
      rw [← h.head, ← h.tail] at hspace
      have hhead := h.head
      rw [hC] at hhead
      have hplaced : (Buf.skip (lkChanSize - c.head)).Placed c.head := by
        rw [show lkBufSize + lkFragSize = 72 from rfl, hC] at hend
        show 0 < lkChanSize - c.head ∧ lkChanSize - c.head < 72 ∧ 8 ∣ lkChanSize - c.head ∧
          c.head + (lkChanSize - c.head) = lkChanSize
        rw [hC]
        omega
      have hinv := h.begin (by rw [hout]; rfl) _ hplaced
        (by show total done + total rest + (lkChanSize - c.head) < lkChanSize; omega)
      refine ⟨T, done, rest, ?_⟩
      have hput : c.put ++ (Buf.skip (lkChanSize - c.head)).item?.toList = c.put := List.append_nil _
      rw [hput] at hinv
      exact hinv
    · rw [if_neg hend]
      refine ⟨T, done, rest, h.goOn (by rw [hout]; rfl) rfl ?_⟩
      show (T + (total done + total rest)) % lkChanSize + _ ≤ _
      rw [← h.head]
      exact Nat.le_of_not_lt hend

/-! ## Steps of the `:in` -/

/-- It goes on with nothing of the ring changed. -/
theorem Channel.Inv.reading (h : c.Inv T done rest) {inn : In} (hinn : InInv rest inn) :
    Channel.Inv { c with inn := inn } T done rest :=
  ⟨h.tail, h.rxHead, h.head, h.longs, h.room, h.taken, h.kept, h.ready, h.put, h.out, hinn⟩

theorem layout_status (i : Item) : layout i.status = i.fields.map (fun f => (f.1, f.2.1)) := by
  cases i <;> rfl

/-- What is read of the fields and the data of an item is the item. -/
theorem itemOf_fields (i : Item) :
    itemOf i.status (i.fields.map (fun f => f.2.2)) i.data = i := by
  cases i with
  | ping p => simp [itemOf, Item.fields, Item.status]
  | frag f => simp [itemOf, Item.fields, Item.status, Item.data, lkFrag, lkPing]

/-- What the `:out` is in the middle of is past the head, whatever is done before it. -/
theorem OutInv.congr {mem mem' : ℕ → Byte} {free H n : ℕ} {out : Out} (h : OutInv mem free H n out)
    (hmem : Agree (fun q => H ≤ q ∧ q < H + (lkChanSize - n)) (view mem) (view mem'))
    (hlongs : 8 ∣ n) : OutInv mem' free H n out := by
  cases out with
  | top => exact h
  | reclaim => exact h
  | choose => exact h
  | yield => exact h
  | writing todo size item =>
    obtain ⟨b, before, flat, hsize, hitem, hplaced, hroom, hwrites, hflat, htodo, hin, hnext⟩ := h
    obtain ⟨-, hlongs', -⟩ := hplaced.size_spec
    have hlast := room_longs hlongs (dvd_zero 8) hlongs' hroom
    refine ⟨b, before, flat, hsize, hitem, hplaced, hroom, hwrites, hflat, htodo, ?_, ?_⟩
    · exact hin.congr hplaced ((hmem.stores flat).imp (fun q hq => by omega))
    · rw [← hnext]
      exact congrArg numOf ((hmem.symm.stores flat).load (fun k hk => by omega))

/-- It clears the status: the buffer is one that was taken. -/
theorem Channel.Inv.clear (h : c.Inv T done rest) {length : ℕ} {item : Option Item}
    (hinn : c.inn = .clear length item) : ∃ b bufs, rest = b :: bufs ∧
    Channel.Inv { c with
      mem := store c.mem c.rxHead (bytesOf 4 lkReady), rxHead := wrap (c.rxHead + length), inn := .top
      taken := c.taken ++ item.toList } T (done ++ [b]) bufs := by
  have hC := lkChanSize_eq
  obtain ⟨hdone8, hrest8, hR8, h8⟩ := h.dvd
  have hinn' := h.inn
  rw [hinn] at hinn'
  obtain ⟨b, bufs, rfl, rfl, rfl⟩ := hinn'
  obtain ⟨hplaced, hin, hkept⟩ := h.kept
  obtain ⟨hleast, -, -, -, hmost⟩ := hplaced.size_spec
  have hroom := h.room
  rw [total_cons] at hroom
  have hlen : (bytesOf 4 lkReady).length = 4 := length_bytesOf 4 lkReady
  have hturn := @view_store c.mem T (T + total done) (bytesOf 4 lkReady)
    (by rw [hlen]; have := mod_le hR8; omega) (by omega) (by rw [hlen]; omega)
  rw [← h.rxHead] at hturn
  have hbefore : Agree (fun q => T ≤ q ∧ q < T + total done) (view c.mem)
      (view (store c.mem c.rxHead (bytesOf 4 lkReady))) := by
    intro q hq
    rw [hturn q (by omega), store_out (by omega)]
  have hafter : Agree (fun q => T + total done + 4 ≤ q ∧ q < T + lkChanSize) (view c.mem)
      (view (store c.mem c.rxHead (bytesOf 4 lkReady))) := by
    intro q hq
    rw [hturn q (by omega), store_out (by omega)]
  have hall : total (done ++ [b]) = total done + b.size := by
    rw [total_append, total_cons, total_nil, Nat.add_zero]
  have hend : total (done ++ [b]) + total bufs = total done + total (b :: bufs) := by
    rw [hall, total_cons, Nat.add_assoc]
  refine ⟨b, bufs, rfl, h.tail, ?_, ?_, h.longs, ?_, ?_, ?_, ?_, ?_, ?_, trivial⟩
  · show wrap (c.rxHead + b.size) = _
    rw [hall, h.rxHead, wrap_mod (by omega), Nat.add_assoc]
  · rw [hend]
    exact h.head
  · rw [hend]
    exact h.room
  · refine done_append.mpr ⟨h.taken.congr hbefore, hplaced, ?_, ?_⟩
    · have hput := load_store (view c.mem) (T + total done) (bytesOf 4 lkReady)
      rw [hlen] at hput
      exact congrArg numOf ((hturn.load (fun k hk => by omega)).trans hput)
    · rw [← hin.size]
      exact congrArg numOf (hafter.symm.load (fun k hk => by omega))
  · rw [hall, ← Nat.add_assoc]
    exact hkept.congr (hafter.imp (fun q hq => by omega))
  · have htotal := total_cons b bufs
    rw [hend]
    exact (congrArg numOf (hafter.symm.load (fun k hk => by omega))).trans h.ready
  · show c.put = c.taken ++ b.item?.toList ++ items bufs ++ c.out.item.toList
    rw [h.put, items_cons, ← List.append_assoc c.taken]
  · rw [hend]
    refine h.out.congr (hafter.imp (fun q hq => ?_)) (Nat.dvd_add hdone8 hrest8)
    rw [total_cons] at hq
    omega

/-- Till then nothing of the ring is changed. -/
theorem inStep_reading (h : c.Inv T done rest) (hread : ∀ length item, c.inn ≠ .clear length item) :
    (inStep c).Inv T done rest := by
  have hC := lkChanSize_eq
  obtain ⟨-, -, hR8, -⟩ := h.dvd
  have hinn' := h.inn
  cases hinn : c.inn with
  | top =>
    simp only [inStep, hinn]
    by_cases hready : word c.mem c.rxHead = lkReady
    · rw [if_pos hready]
      exact h
    · rw [if_neg hready]
      refine h.reading ?_
      rw [h.rxHead, (word_mod c.mem hR8).1] at hready ⊢
      have hkept := h.kept
      cases rest with
      | nil =>
        -- what is not ready is not the head
        have hhead := h.ready
        rw [total_nil, Nat.add_zero] at hhead
        exact absurd hhead hready
      | cons b bufs => exact ⟨b, bufs, rfl, hkept.2.1.status⟩
  | length status =>
    rw [hinn] at hinn'
    obtain ⟨b, bufs, rfl, rfl⟩ := hinn'
    obtain ⟨hplaced, hin, -⟩ := h.kept
    have hsize : word c.mem (c.rxHead + 4) = b.size := by
      rw [h.rxHead, (word_mod c.mem hR8).2, hin.size]
    simp only [inStep, hinn, hsize]
    cases b with
    | skip n =>
      rw [if_pos (show (Buf.skip n).status = lkSkip from rfl)]
      exact h.reading ⟨.skip n, bufs, rfl, rfl, rfl⟩
    | item i =>
      have hskip : (Buf.item i).status ≠ lkSkip := by
        cases i with
        | ping q => exact fun h => absurd h (show lkPing ≠ lkSkip by decide)
        | frag f => exact fun h => absurd h (show lkFrag ≠ lkSkip by decide)
      have hone : (Buf.item i).status = lkPing ∨ (Buf.item i).status = lkFrag := by
        cases i with
        | ping q => exact Or.inl rfl
        | frag f => exact Or.inr rfl
      rw [if_neg hskip, if_pos hone]
      refine h.reading ⟨i, bufs, 0, rfl, rfl, rfl, ?_, rfl⟩
      rw [List.drop_zero]
      exact layout_status i
  | fields status length todo got =>
    rw [hinn] at hinn'
    obtain ⟨i, bufs, k, rfl, rfl, rfl, htodo, hgot⟩ := hinn'
    cases hleft : i.fields.drop k with
    | nil =>
      rw [hleft, List.map_nil] at htodo
      subst htodo
      have hall : got = i.fields.map (fun f => f.2.2) := by
        rw [hgot, List.take_of_length_le (List.drop_eq_nil_iff.mp hleft)]
      simp only [inStep, hinn]
      refine h.reading ⟨i, bufs, rfl, rfl, rfl, hall, ?_, rfl⟩
      rw [hall]
      cases i with
      | ping q => rfl
      | frag f => rfl
    | cons f more =>
      rw [hleft, List.map_cons] at htodo
      subst htodo
      obtain ⟨hplaced, hin, -⟩ := h.kept
      have hf : f ∈ i.fields := List.mem_of_mem_drop (by rw [hleft]; exact List.mem_cons_self)
      obtain ⟨-, hle, -⟩ := Buf.item_fields_le i f hf
      have hroom := hplaced.2
      rw [show lkBufSize + lkFragSize = 72 from rfl] at hroom
      have hread : numOf (load c.mem (c.rxHead + f.1) f.2.1) = f.2.2 := by
        rw [h.rxHead, load_view (by omega)]
        exact hin.fields f hf
      simp only [inStep, hinn, hread]
      refine h.reading ⟨i, bufs, k + 1, rfl, rfl, rfl, ?_, ?_⟩
      · rw [← List.drop_drop, hleft]
        rfl
      · have hget : i.fields[k]? = some f := by
          rw [← Nat.add_zero k, ← List.getElem?_drop, hleft]
          rfl
        rw [hgot, List.take_add_one, hget, List.map_append]
        rfl
  | data status length got n bytes =>
    rw [hinn] at hinn'
    obtain ⟨i, bufs, rfl, rfl, rfl, hgot, rfl, hbytes⟩ := hinn'
    simp only [inStep, hinn]
    by_cases hmore : bytes.length < i.data.length
    · rw [if_pos hmore]
      obtain ⟨hplaced, hin, -⟩ := h.kept
      obtain ⟨-, -, hdata, -, hmost⟩ := hplaced.size_spec
      have hin' := hdata (show 0 < i.data.length by omega)
      have hsize : (Buf.item i).data = i.data := rfl
      rw [hsize] at hin'
      have hread : c.mem (wrap (c.rxHead + lkBufSize + lkFragSize + bytes.length))
          = i.data.get ⟨bytes.length, hmore⟩ := by
        have hat : c.rxHead + lkBufSize + lkFragSize + bytes.length
            = c.rxHead + (72 + bytes.length) := by
          simp only [lkBufSize, lkFragSize]
          omega
        rw [hat, h.rxHead, ← view_add c.mem (by omega), ← Nat.add_assoc]
        exact hin.data bytes.length hmore
      refine h.reading ⟨i, bufs, rfl, rfl, rfl, hgot, rfl, ?_⟩
      rw [hread, List.length_append, List.length_singleton, List.take_add_one, ← hbytes,
        List.getElem?_eq_getElem hmore]
      rfl
    · rw [if_neg hmore]
      refine h.reading ⟨.item i, bufs, rfl, rfl, ?_⟩
      have hall : bytes = i.data := by
        rw [hbytes]
        exact List.take_of_length_le (Nat.le_of_not_lt hmore)
      rw [hgot, hall]
      exact congrArg some (itemOf_fields i)
  | clear length item => exact absurd hinn (hread length item)

theorem inStep_clear (h : c.Inv T done rest) {length : ℕ} {item : Option Item}
    (hinn : c.inn = .clear length item) :
    ∃ b bufs, rest = b :: bufs ∧ (inStep c).Inv T (done ++ [b]) bufs := by
  obtain ⟨b, bufs, hrest, hinv⟩ := h.clear hinn
  refine ⟨b, bufs, hrest, ?_⟩
  simp only [inStep, hinn]
  exact hinv

theorem inStep_inv (h : c.Inv T done rest) : ∃ T' done' rest', (inStep c).Inv T' done' rest' := by
  by_cases hread : ∃ length item, c.inn = .clear length item
  · obtain ⟨length, item, hinn⟩ := hread
    obtain ⟨b, bufs, -, hinv⟩ := inStep_clear h hinn
    exact ⟨T, done ++ [b], bufs, hinv⟩
  · exact ⟨T, done, rest, inStep_reading h (fun length item hinn => hread ⟨length, item, hinn⟩)⟩

/-- Every step that has room for what it puts keeps the invariant. -/
theorem step_inv {a : Act} (h : ∃ T done rest, c.Inv T done rest) (hroomy : c.Roomy a) :
    ∃ T done rest, (step c a).Inv T done rest := by
  obtain ⟨T, done, rest, h⟩ := h
  cases a with
  | out mail => exact outStep_inv h mail hroomy
  | inn => exact inStep_inv h

end Inv

/-- A link as it starts. -/
theorem start_inv {mem : ℕ → Byte} (hmem : word mem 0 = lkReady) : (start mem).Inv 0 [] [] := by
  refine ⟨rfl, rfl, rfl, dvd_zero 8, by decide, trivial, trivial, ?_, rfl, ?_, trivial⟩
  · exact (word_mod mem (dvd_zero 8)).1.symm.trans hmem
  · show 0 % lkChanSize + _ ≤ _
    decide

end ChrysaLisp.Link
