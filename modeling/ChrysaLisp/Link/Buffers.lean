import ChrysaLisp.Link.Channel

set_option autoImplicit false

/-! # Buffers in the ring of a link

The ring is seen as memory that goes on for ever (`view`): place `p` is the cell `p` mod the size of
the ring. Of it the one turn from the tail on is of use, and in that turn a write of the ring is a
write of this memory (`view_store`). Buffers lie in it one after another, those the reader has taken
(`Done`) and those it has not (`Untaken`). -/

namespace ChrysaLisp.Link

open Memory

theorem lkChanSize_eq : lkChanSize = 30880 := rfl

/-! ## The ring as it goes on for ever -/

/-- The ring, turn after turn. -/
def view (mem : ℕ → Byte) : ℕ → Byte := fun p => mem (p % lkChanSize)

variable {mem : ℕ → Byte}

theorem wrap_mod {p n : ℕ} (h : n ≤ lkChanSize) :
    wrap (p % lkChanSize + n) = (p + n) % lkChanSize := by
  unfold wrap
  rw [lkChanSize_eq] at h ⊢
  split <;> omega

theorem view_add (mem : ℕ → Byte) {p n : ℕ} (h : n ≤ lkChanSize) :
    view mem (p + n) = mem (wrap (p % lkChanSize + n)) := by
  rw [wrap_mod h]
  rfl

theorem load_view {p off n : ℕ} (h : p % lkChanSize + off + n ≤ lkChanSize) :
    load mem (p % lkChanSize + off) n = load (view mem) (p + off) n := by
  unfold load view
  refine List.map_congr_left (fun k hk => ?_)
  have hk' := List.mem_range.mp hk
  congr 1
  rw [lkChanSize_eq] at h ⊢
  omega

theorem word_view {p off : ℕ} (h : p % lkChanSize + off + 4 ≤ lkChanSize) :
    word mem (p % lkChanSize + off) = word (view mem) (p + off) :=
  congrArg numOf (load_view h)

/-- A place that is of longs has the status and the length of a buffer before the end. -/
theorem mod_le {p : ℕ} (h : 8 ∣ p) : p % lkChanSize + 8 ≤ lkChanSize := by
  rw [lkChanSize_eq]
  omega

/-- A write in the turn from `T` on. -/
theorem view_store {T p : ℕ} {m : Str} (hfit : p % lkChanSize + m.length ≤ lkChanSize) (hlo : T ≤ p)
    (hhi : p + m.length ≤ T + lkChanSize) :
    Agree (fun q => T ≤ q ∧ q < T + lkChanSize) (view (store mem (p % lkChanSize) m))
      (store (view mem) p m) := by
  intro q hq
  unfold view
  rw [lkChanSize_eq] at hfit hhi hq ⊢
  by_cases hin : p ≤ q ∧ q < p + m.length
  · obtain ⟨k, rfl⟩ := Nat.exists_eq_add_of_le hin.1
    have hcell : (p + k) % 30880 = p % 30880 + k := by omega
    have hk : k < m.length := by omega
    rw [hcell, store_in hk, store_in hk]
  · rw [store_out (by omega), store_out (by omega)]

/-! ## A buffer -/

/-- A buffer of the ring: of an item, or so many bytes to skip. -/
inductive Buf where
  | item (i : Item)
  | skip (n : ℕ)

namespace Buf

def status : Buf → ℕ
  | item i => i.status
  | skip _ => lkSkip

def size : Buf → ℕ
  | item i => i.size
  | skip n => n

def item? : Buf → Option Item
  | item i => some i
  | skip _ => none

def fields : Buf → List (ℕ × ℕ × ℕ)
  | item i => i.fields
  | skip _ => []

def data : Buf → Str
  | item i => i.data
  | skip _ => []

/-- A buffer may be at this place of the ring: what comes before the data of an item is not cut by the
end of the ring, and what is skipped is what is left before the end. -/
def Placed (o : ℕ) : Buf → Prop
  | item i => i.Fits ∧ o + (lkBufSize + lkFragSize) ≤ lkChanSize
  | skip n => 0 < n ∧ n < lkBufSize + lkFragSize ∧ 8 ∣ n ∧ o + n = lkChanSize

/-- The buffer is in the ring from this place on, as it was put. -/
def Kept (mem : ℕ → Byte) (o : ℕ) (b : Buf) : Prop :=
  word mem o = b.status ∧ word mem (o + 4) = b.size ∧
    (∀ f ∈ b.fields, numOf (load mem (o + f.1) f.2.1) = f.2.2) ∧
    ∀ (k : ℕ) (h : k < b.data.length),
      mem (wrap (o + lkBufSize + lkFragSize + k)) = b.data.get ⟨k, h⟩

/-- The same, where the ring goes on for ever. -/
structure In (V : ℕ → Byte) (p : ℕ) (b : Buf) : Prop where
  status : word V p = b.status
  size : word V (p + 4) = b.size
  fields : ∀ f ∈ b.fields, numOf (load V (p + f.1) f.2.1) = f.2.2
  data : ∀ (k : ℕ) (h : k < b.data.length), V (p + 72 + k) = b.data.get ⟨k, h⟩

variable {b : Buf} {o p : ℕ} {V W : ℕ → Byte}

theorem status_ne (b : Buf) : b.status ≠ lkReady := by
  cases b with
  | item i =>
    cases i with
    | ping q => exact Nat.one_ne_zero
    | frag f => exact Nat.succ_ne_zero 1
  | skip n => exact Nat.succ_ne_zero 2

theorem item_fields_le (i : Item) : ∀ f ∈ i.fields, 8 ≤ f.1 ∧ f.1 + f.2.1 ≤ 72 ∧ f.1 + f.2.1 ≤ i.size := by
  cases i with
  | ping p =>
    have hsize : (Item.ping p).size = 64 := rfl
    rw [hsize]
    simp [Item.fields]
  | frag f =>
    have hsize : 72 ≤ (Item.frag f).size := by
      show 72 ≤ (f.data.length + 8 + 64 + 8 - 1) / 8 * 8
      omega
    generalize (Item.frag f).size = n at hsize
    simp [Item.fields]
    omega

/-- The bytes of a buffer are longs, some of them, and have room for what is in it. -/
theorem Placed.size_spec (h : b.Placed o) : 8 ≤ b.size ∧ 8 ∣ b.size ∧
    (0 < b.data.length → 72 + b.data.length ≤ b.size) ∧ o + 8 ≤ lkChanSize ∧ b.size ≤ 6176 := by
  have hC := lkChanSize_eq
  cases b with
  | item i =>
    obtain ⟨hfits, hroom⟩ := h
    rw [show lkBufSize + lkFragSize = 72 from rfl] at hroom
    cases i with
    | ping q =>
      show 8 ≤ 64 ∧ 8 ∣ 64 ∧ (0 < 0 → 72 + 0 ≤ 64) ∧ _ ∧ 64 ≤ 6176
      omega
    | frag f =>
      have hlen : f.data.length ≤ 6104 := hfits
      show 8 ≤ (f.data.length + 8 + 64 + 8 - 1) / 8 * 8 ∧ 8 ∣ (f.data.length + 8 + 64 + 8 - 1) / 8 * 8 ∧
        (0 < f.data.length → 72 + f.data.length ≤ (f.data.length + 8 + 64 + 8 - 1) / 8 * 8) ∧ _ ∧
        (f.data.length + 8 + 64 + 8 - 1) / 8 * 8 ≤ 6176
      omega
  | skip n =>
    obtain ⟨hpos, hless, hlongs, hend⟩ := h
    rw [show lkBufSize + lkFragSize = 72 from rfl] at hless
    show 8 ≤ n ∧ 8 ∣ n ∧ (0 < 0 → 72 + 0 ≤ n) ∧ _ ∧ n ≤ 6176
    omega

theorem fields_le (b : Buf) : ∀ f ∈ b.fields, 8 ≤ f.1 ∧ f.1 + f.2.1 ≤ 72 ∧ f.1 + f.2.1 ≤ b.size := by
  cases b with
  | item i => exact item_fields_le i
  | skip n => exact fun f h => absurd h List.not_mem_nil

/-- What is in a buffer is of its own bytes. -/
theorem In.congr (h : b.In V p) (ho : b.Placed o) (hV : Agree (fun q => p ≤ q ∧ q < p + b.size) V W) :
    b.In W p := by
  obtain ⟨hsize, -, hdata, -⟩ := ho.size_spec
  refine ⟨?_, ?_, ?_, ?_⟩
  · rw [← h.status]
    exact congrArg numOf (hV.symm.load (fun k hk => by omega))
  · rw [← h.size]
    exact congrArg numOf (hV.symm.load (fun k hk => by omega))
  · intro f hf
    obtain ⟨hlo, -, hhi⟩ := b.fields_le f hf
    rw [← h.fields f hf]
    exact congrArg numOf (hV.symm.load (fun k hk => by omega))
  · intro k hk
    have hin := hdata (by omega)
    rw [← h.data k hk]
    exact hV.symm _ (by omega)

/-- A buffer that is in the ring as it goes on is in the ring. -/
theorem In.kept (h : b.In (view mem) p) (hp : b.Placed (p % lkChanSize)) :
    b.Kept mem (p % lkChanSize) := by
  obtain ⟨hsize, -, hdata, hhead, hmost⟩ := hp.size_spec
  have hC := lkChanSize_eq
  refine ⟨?_, ?_, ?_, ?_⟩
  · rw [← h.status]
    exact @word_view mem p 0 (by omega)
  · rw [← h.size]
    exact word_view (by omega)
  · intro f hf
    rw [← h.fields f hf]
    refine congrArg numOf (load_view ?_)
    cases b with
    | item i =>
      have hle := fields_le (item i) f hf
      have hroom := hp.2
      rw [show lkBufSize + lkFragSize = 72 from rfl] at hroom
      omega
    | skip n => exact absurd hf List.not_mem_nil
  · intro k hk
    have hin := hdata (by omega)
    have hat : p % lkChanSize + lkBufSize + lkFragSize + k = p % lkChanSize + (72 + k) := by
      simp only [lkBufSize, lkFragSize]
      omega
    rw [← h.data k hk, hat, Nat.add_assoc, view_add mem (by omega)]

end Buf

/-! ## Buffers one after another -/

/-- How many bytes some buffers are. -/
def total (bufs : List Buf) : ℕ := (bufs.map Buf.size).sum

/-- The items of some buffers. -/
def items (bufs : List Buf) : List Item := bufs.filterMap Buf.item?

/-- The buffers are in the ring from one place on to another, none of them cut before its data, each
as it was put. -/
def Lie (mem : ℕ → Byte) : ℕ → List Buf → ℕ → Prop
  | o, [], e => o = e
  | o, b :: bufs, e => b.Placed o ∧ b.Kept mem o ∧ Lie mem (wrap (o + b.size)) bufs e

/-- The same, where the ring goes on for ever. -/
def Untaken (V : ℕ → Byte) : ℕ → List Buf → Prop
  | _, [] => True
  | p, b :: bufs => b.Placed (p % lkChanSize) ∧ b.In V p ∧ Untaken V (p + b.size) bufs

/-- Buffers that were taken, one after another: they have their lengths still. -/
def Done (V : ℕ → Byte) : ℕ → List Buf → Prop
  | _, [] => True
  | p, b :: bufs =>
    b.Placed (p % lkChanSize) ∧ word V p = lkReady ∧ word V (p + 4) = b.size ∧
      Done V (p + b.size) bufs

@[simp] theorem total_nil : total [] = 0 := rfl

@[simp] theorem total_cons (b : Buf) (bufs : List Buf) : total (b :: bufs) = b.size + total bufs :=
  rfl

@[simp] theorem total_append (bufs bufs' : List Buf) :
    total (bufs ++ bufs') = total bufs + total bufs' := by
  simp [total]

@[simp] theorem items_nil : items [] = [] := rfl

theorem items_cons (b : Buf) (bufs : List Buf) : items (b :: bufs) = b.item?.toList ++ items bufs := by
  cases b with
  | item i => rfl
  | skip n => rfl

@[simp] theorem items_append (bufs bufs' : List Buf) :
    items (bufs ++ bufs') = items bufs ++ items bufs' := List.filterMap_append

variable {V W : ℕ → Byte} {p : ℕ} {bufs : List Buf}

theorem Untaken.congr : ∀ {p : ℕ} {bufs : List Buf}, Untaken V p bufs →
    Agree (fun q => p ≤ q ∧ q < p + total bufs) V W → Untaken W p bufs := by
  intro p bufs
  induction bufs generalizing p with
  | nil => exact fun _ _ => trivial
  | cons b bufs ih =>
    intro h hV
    obtain ⟨hplaced, hin, hrest⟩ := h
    rw [total_cons] at hV
    exact ⟨hplaced, hin.congr hplaced (hV.imp (fun q hq => by omega)),
      ih hrest (hV.imp (fun q hq => by omega))⟩

theorem Done.congr : ∀ {p : ℕ} {bufs : List Buf}, Done V p bufs →
    Agree (fun q => p ≤ q ∧ q < p + total bufs) V W → Done W p bufs := by
  intro p bufs
  induction bufs generalizing p with
  | nil => exact fun _ _ => trivial
  | cons b bufs ih =>
    intro h hV
    obtain ⟨hplaced, hstatus, hlength, hrest⟩ := h
    obtain ⟨hsize, -⟩ := hplaced.size_spec
    rw [total_cons] at hV
    refine ⟨hplaced, ?_, ?_, ih hrest (hV.imp (fun q hq => by omega))⟩
    · rw [← hstatus]
      exact congrArg numOf (hV.symm.load (fun k hk => by omega))
    · rw [← hlength]
      exact congrArg numOf (hV.symm.load (fun k hk => by omega))

/-- One more, that was put after them. -/
theorem untaken_append {b : Buf} : ∀ {p : ℕ} {bufs : List Buf}, Untaken V p (bufs ++ [b])
    ↔ Untaken V p bufs ∧ b.Placed ((p + total bufs) % lkChanSize) ∧ b.In V (p + total bufs) := by
  intro p bufs
  induction bufs generalizing p with
  | nil => simp [Untaken]
  | cons c bufs ih =>
    rw [List.cons_append, Untaken, Untaken, ih, total_cons, Nat.add_assoc]
    tauto

/-- One more, that was taken after them. -/
theorem done_append {b : Buf} : ∀ {p : ℕ} {bufs : List Buf}, Done V p (bufs ++ [b])
    ↔ Done V p bufs ∧ b.Placed ((p + total bufs) % lkChanSize) ∧ word V (p + total bufs) = lkReady ∧
      word V (p + total bufs + 4) = b.size := by
  intro p bufs
  induction bufs generalizing p with
  | nil => simp [Done]
  | cons c bufs ih =>
    rw [List.cons_append, Done, Done, ih, total_cons, Nat.add_assoc]
    tauto

/-- They are so many longs, and where the first of them is there is room for its head. -/
theorem Untaken.dvd : ∀ {p : ℕ} {bufs : List Buf}, Untaken V p bufs → 8 ∣ total bufs := by
  intro p bufs
  induction bufs generalizing p with
  | nil => exact fun _ => dvd_zero 8
  | cons b bufs ih =>
    intro h
    obtain ⟨-, hlongs, -⟩ := h.1.size_spec
    exact Nat.dvd_add hlongs (ih h.2.2)

theorem Done.dvd : ∀ {p : ℕ} {bufs : List Buf}, Done V p bufs → 8 ∣ total bufs := by
  intro p bufs
  induction bufs generalizing p with
  | nil => exact fun _ => dvd_zero 8
  | cons b bufs ih =>
    intro h
    obtain ⟨-, hlongs, -⟩ := h.1.size_spec
    exact Nat.dvd_add hlongs (ih h.2.2.2)

/-- What is not taken is in the ring as it is. -/
theorem Untaken.lie : ∀ {p : ℕ} {bufs : List Buf}, Untaken (view mem) p bufs →
    Lie mem (p % lkChanSize) bufs ((p + total bufs) % lkChanSize) := by
  intro p bufs
  induction bufs generalizing p with
  | nil => exact fun _ => rfl
  | cons b bufs ih =>
    intro h
    obtain ⟨hplaced, hin, hrest⟩ := h
    obtain ⟨-, -, -, -, hmost⟩ := hplaced.size_spec
    have hnext := ih hrest
    rw [Nat.add_assoc, ← total_cons] at hnext
    refine ⟨hplaced, hin.kept hplaced, ?_⟩
    rw [wrap_mod (by rw [lkChanSize_eq]; omega)]
    exact hnext

end ChrysaLisp.Link
