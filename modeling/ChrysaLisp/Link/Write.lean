import ChrysaLisp.Link.Buffers

set_option autoImplicit false

/-! # A buffer written

The writes of a buffer are apart from each other, so when all are done what each put is there
(`Buf.in_writes`), and the last of them, that of the status, is the only one at it: till then what
the reader waits on is `ready`. -/

namespace ChrysaLisp.Link

open Memory

/-! ## The fields -/

theorem Item.mem_fieldsWritten (i : Item) (f : ℕ × ℕ × ℕ) : f ∈ i.fieldsWritten ↔ f ∈ i.fields := by
  cases i with
  | ping p =>
    simp only [Item.fieldsWritten, Item.fields, List.mem_cons, List.not_mem_nil, or_false]
    tauto
  | frag f => exact Iff.rfl

theorem Item.fieldsWritten_apart (i : Item) :
    i.fieldsWritten.Pairwise (fun f g => f.1 + f.2.1 ≤ g.1 ∨ g.1 + g.2.1 ≤ f.1) := by
  cases i with
  | ping p => simp [Item.fieldsWritten]
  | frag f => simp [Item.fieldsWritten, Item.fields]

theorem Item.fields_pos (i : Item) : ∀ f ∈ i.fields, 0 < f.2.1 := by
  cases i with
  | ping p => simp [Item.fields]
  | frag f => simp [Item.fields]

/-- A field is a number of so many bytes. -/
theorem Item.fields_lt {i : Item} (h : i.Fits) : ∀ f ∈ i.fields, f.2.2 < 256 ^ f.2.1 := by
  have hlong : ∀ x : UInt64, x.toNat < 256 ^ 8 := fun x => x.toNat_lt
  have huint : ∀ x : UInt32, x.toNat < 256 ^ 4 := fun x => x.toNat_lt
  cases i with
  | ping p =>
    simp only [Item.fields, List.forall_mem_cons]
    exact ⟨hlong _, hlong _, hlong _, hlong _, huint _, huint _, fun f h => absurd h List.not_mem_nil⟩
  | frag f =>
    have hlen : f.data.length ≤ 6104 := h
    simp only [Item.fields, List.forall_mem_cons]
    exact ⟨by omega, huint _, huint _, hlong _, hlong _, hlong _, hlong _, hlong _, hlong _,
      fun f h => absurd h List.not_mem_nil⟩

/-! ## The writes -/

namespace Buf

def fieldsWritten : Buf → List (ℕ × ℕ × ℕ)
  | item i => i.fieldsWritten
  | skip _ => []

/-- What is written of the item. -/
def writesItem (p : ℕ) (b : Buf) : List (ℕ × Str) :=
  b.fieldsWritten.map (fun f => (p + f.1, bytesOf f.2.1 f.2.2)) ++
    b.data.zipIdx.map (fun d => (p + 72 + d.2, [d.1]))

/-- What is written before the status. -/
def writesBefore (p : ℕ) (b : Buf) : List (ℕ × Str) :=
  b.writesItem p ++ [(p + 4, bytesOf 4 b.size), (p + b.size, bytesOf 4 lkReady)]

/-- The writes of a buffer, where the ring goes on for ever. -/
def writes (p : ℕ) (b : Buf) : List (ℕ × Str) := b.writesBefore p ++ [(p, bytesOf 4 b.status)]

/-- The same, of the ring. -/
def writesRing (o : ℕ) : Buf → List (ℕ × Str)
  | item i => i.writes o ++ writeBuf o i.status i.size
  | skip n => writeBuf o lkSkip n

variable {b : Buf} {p : ℕ} {V : ℕ → Byte}

theorem mem_fieldsWritten (b : Buf) (f : ℕ × ℕ × ℕ) : f ∈ b.fieldsWritten ↔ f ∈ b.fields := by
  cases b with
  | item i => exact i.mem_fieldsWritten f
  | skip n => exact Iff.rfl

theorem fieldsWritten_apart (b : Buf) :
    b.fieldsWritten.Pairwise (fun f g => f.1 + f.2.1 ≤ g.1 ∨ g.1 + g.2.1 ≤ f.1) := by
  cases b with
  | item i => exact i.fieldsWritten_apart
  | skip n => exact List.Pairwise.nil

theorem mem_zipIdx_data {d : Byte × ℕ} (h : d ∈ b.data.zipIdx) :
    ∃ hk : d.2 < b.data.length, d.1 = b.data.get ⟨d.2, hk⟩ := by
  have hget := List.mem_zipIdx_iff_getElem?.mp h
  obtain ⟨hk, heq⟩ := List.getElem?_eq_some_iff.mp hget
  exact ⟨hk, heq.symm⟩

/-- A write of the item is in its buffer, past the status and the length. -/
theorem mem_writesItem (hp : b.Placed (p % lkChanSize)) : ∀ st ∈ b.writesItem p,
    p + 8 ≤ st.1 ∧ st.1 + st.2.length ≤ p + b.size ∧ st.1 % lkChanSize + st.2.length ≤ lkChanSize := by
  obtain ⟨-, -, hdata, -⟩ := hp.size_spec
  have hC := lkChanSize_eq
  intro st hst
  rcases List.mem_append.mp hst with hst | hst
  · obtain ⟨f, hf, rfl⟩ := List.mem_map.mp hst
    rw [mem_fieldsWritten] at hf
    obtain ⟨hlo, hhead, hhi⟩ := b.fields_le f hf
    have hroom : p % lkChanSize + 72 ≤ lkChanSize := by
      cases b with
      | item i => exact hp.2
      | skip n => exact absurd hf List.not_mem_nil
    dsimp only
    rw [length_bytesOf, hC] at *
    omega
  · obtain ⟨d, hd, rfl⟩ := List.mem_map.mp hst
    obtain ⟨hk, -⟩ := mem_zipIdx_data hd
    have hin := hdata (by omega)
    dsimp only
    rw [List.length_singleton, hC]
    omega

theorem writesItem_apart (p : ℕ) (b : Buf) : (b.writesItem p).Pairwise Apart := by
  refine List.pairwise_append.mpr ⟨?_, ?_, ?_⟩
  · refine List.Pairwise.map _ (fun f g h => ?_) b.fieldsWritten_apart
    unfold Apart
    dsimp only
    rw [length_bytesOf, length_bytesOf]
    omega
  · have hidx : b.data.zipIdx.Pairwise (fun d e => d.2 < e.2) := by
      refine List.pairwise_iff_getElem.mpr (fun i j hi hj hij => ?_)
      rw [List.getElem_zipIdx, List.getElem_zipIdx]
      omega
    refine List.Pairwise.map _ (fun d e h => ?_) hidx
    unfold Apart
    dsimp only
    rw [List.length_singleton]
    omega
  · intro st hst st' hst'
    obtain ⟨f, hf, rfl⟩ := List.mem_map.mp hst
    obtain ⟨d, -, rfl⟩ := List.mem_map.mp hst'
    rw [mem_fieldsWritten] at hf
    obtain ⟨-, hhead, -⟩ := b.fields_le f hf
    unfold Apart
    dsimp only
    rw [length_bytesOf]
    omega

/-- Before the status is written, nothing is at it. -/
theorem mem_writesBefore (hp : b.Placed (p % lkChanSize)) (h8 : 8 ∣ p) : ∀ st ∈ b.writesBefore p,
    p + 4 ≤ st.1 ∧ st.1 + st.2.length ≤ p + b.size + 4 ∧
      st.1 % lkChanSize + st.2.length ≤ lkChanSize := by
  obtain ⟨hsize, hlongs, -, -⟩ := hp.size_spec
  have hC := lkChanSize_eq
  have hnext := @mod_le (p + b.size) (Nat.dvd_add h8 hlongs)
  have hhere := @mod_le p h8
  intro st hst
  rcases List.mem_append.mp hst with hst | hst
  · obtain ⟨hlo, hhi, hfit⟩ := mem_writesItem hp st hst
    omega
  · rcases List.mem_cons.mp hst with rfl | hst
    · dsimp only
      rw [length_bytesOf, hC] at *
      omega
    · rw [List.mem_singleton.mp hst]
      dsimp only
      rw [length_bytesOf]
      omega

theorem mem_writes (hp : b.Placed (p % lkChanSize)) (h8 : 8 ∣ p) : ∀ st ∈ b.writes p,
    p ≤ st.1 ∧ st.1 + st.2.length ≤ p + b.size + 4 ∧
      st.1 % lkChanSize + st.2.length ≤ lkChanSize := by
  have hhere := @mod_le p h8
  intro st hst
  rcases List.mem_append.mp hst with hst | hst
  · have hbefore := mem_writesBefore hp h8 st hst
    omega
  · rw [List.mem_singleton.mp hst]
    dsimp only
    rw [length_bytesOf]
    omega

theorem writes_apart (hp : b.Placed (p % lkChanSize)) (h8 : 8 ∣ p) : (b.writes p).Pairwise Apart := by
  obtain ⟨hsize, -⟩ := hp.size_spec
  refine List.pairwise_append.mpr ⟨List.pairwise_append.mpr ⟨writesItem_apart p b, ?_, ?_⟩,
    List.pairwise_singleton _ _, ?_⟩
  · refine List.pairwise_pair.mpr ?_
    unfold Apart
    dsimp only
    rw [length_bytesOf]
    omega
  · intro st hst st' hst'
    obtain ⟨hlo, hhi, -⟩ := mem_writesItem hp st hst
    unfold Apart
    rcases List.mem_cons.mp hst' with rfl | hst'
    · dsimp only
      rw [length_bytesOf]
      omega
    · rw [List.mem_singleton.mp hst']
      dsimp only
      omega
  · intro st hst st' hst'
    obtain ⟨hlo, -⟩ := mem_writesBefore hp h8 st hst
    rw [List.mem_singleton.mp hst']
    unfold Apart
    dsimp only
    rw [length_bytesOf]
    omega

/-- When all is written the buffer is there, and what is next is `ready`. -/
theorem in_writes (hp : b.Placed (p % lkChanSize)) (h8 : 8 ∣ p) :
    b.In (stores V (b.writes p)) p ∧ word (stores V (b.writes p)) (p + b.size) = lkReady := by
  have hload : ∀ st ∈ b.writes p, load (stores V (b.writes p)) st.1 st.2.length = st.2 :=
    load_stores (writes_apart hp h8)
  have hword : ∀ {a v : ℕ}, (a, bytesOf 4 v) ∈ b.writes p → v < 256 ^ 4 →
      word (stores V (b.writes p)) a = v := by
    intro a v hin hv
    have heq := hload _ hin
    dsimp only at heq
    rw [length_bytesOf] at heq
    rw [word, heq, numOf_bytesOf_of_lt hv]
  obtain ⟨-, -, -, -, hmost⟩ := hp.size_spec
  have hstatus : b.status < 256 ^ 4 := by
    cases b with
    | item i =>
      cases i with
      | ping q => exact (by decide : 1 < 256 ^ 4)
      | frag f => exact (by decide : 2 < 256 ^ 4)
    | skip n => exact (by decide : 3 < 256 ^ 4)
  refine ⟨⟨hword ?_ hstatus, hword ?_ (by omega), ?_, ?_⟩, hword ?_ (by decide)⟩
  · exact List.mem_append_right _ (List.mem_singleton.mpr rfl)
  · exact List.mem_append_left _ (List.mem_append_right _ List.mem_cons_self)
  · intro f hf
    have hin : (p + f.1, bytesOf f.2.1 f.2.2) ∈ b.writes p :=
      List.mem_append_left _ (List.mem_append_left _ (List.mem_append_left _
        (List.mem_map.mpr ⟨f, (b.mem_fieldsWritten f).mpr hf, rfl⟩)))
    have heq := hload _ hin
    dsimp only at heq
    rw [length_bytesOf] at heq
    have hlt : f.2.2 < 256 ^ f.2.1 := by
      cases b with
      | item i => exact Item.fields_lt hp.1 f hf
      | skip n => exact absurd hf List.not_mem_nil
    rw [heq, numOf_bytesOf_of_lt hlt]
  · intro k hk
    have hin : (p + 72 + k, [b.data.get ⟨k, hk⟩]) ∈ b.writes p := by
      refine List.mem_append_left _ (List.mem_append_left _ (List.mem_append_right _
        (List.mem_map.mpr ⟨(b.data.get ⟨k, hk⟩, k), ?_, rfl⟩)))
      exact List.mem_zipIdx_iff_getElem?.mpr (List.getElem?_eq_getElem hk)
    have heq := hload _ hin
    exact List.singleton_inj.mp heq
  · exact List.mem_append_left _ (List.mem_append_right _
      (List.mem_cons_of_mem _ (List.mem_singleton.mpr rfl)))

/-- The writes of the ring are these, where each is of it. -/
theorem writesRing_eq (hp : b.Placed (p % lkChanSize)) :
    b.writesRing (p % lkChanSize) = (b.writes p).map (fun st => (st.1 % lkChanSize, st.2)) := by
  obtain ⟨-, -, hdata, hhead, hmost⟩ := hp.size_spec
  have hC := lkChanSize_eq
  have hbuf : ∀ status, writeBuf (p % lkChanSize) status b.size
      = [((p + 4) % lkChanSize, bytesOf 4 b.size), ((p + b.size) % lkChanSize, bytesOf 4 lkReady),
        (p % lkChanSize, bytesOf 4 status)] := by
    intro status
    have h4 : p % lkChanSize + 4 = (p + 4) % lkChanSize := by
      rw [hC] at hhead ⊢
      omega
    rw [writeBuf, wrap_mod (by omega), h4]
  cases b with
  | item i =>
    obtain ⟨-, hroom⟩ := hp
    rw [show lkBufSize + lkFragSize = 72 from rfl] at hroom
    have hfields : i.fieldsWritten.map (fun f => (p % lkChanSize + f.1, bytesOf f.2.1 f.2.2))
        = i.fieldsWritten.map (fun f => ((p + f.1) % lkChanSize, bytesOf f.2.1 f.2.2)) := by
      refine List.map_congr_left (fun f hf => ?_)
      obtain ⟨-, hle, -⟩ := fields_le (item i) f ((i.mem_fieldsWritten f).mp hf)
      have hpos := i.fields_pos f ((i.mem_fieldsWritten f).mp hf)
      congr 1
      rw [hC] at hroom ⊢
      omega
    have hbytes : i.data.zipIdx.map
        (fun d => (wrap (p % lkChanSize + lkBufSize + lkFragSize + d.2), [d.1]))
        = i.data.zipIdx.map (fun d => ((p + 72 + d.2) % lkChanSize, [d.1])) := by
      refine List.map_congr_left (fun d hd => ?_)
      obtain ⟨hk, -⟩ := @mem_zipIdx_data (item i) d hd
      have hin := hdata (by omega)
      have hat : p % lkChanSize + lkBufSize + lkFragSize + d.2 = p % lkChanSize + (72 + d.2) := by
        simp only [lkBufSize, lkFragSize]
        omega
      rw [hat, wrap_mod (by omega), Nat.add_assoc]
    show i.writes (p % lkChanSize) ++ writeBuf (p % lkChanSize) i.status i.size = _
    have hmine := hbuf i.status
    rw [show (item i).size = i.size from rfl] at hmine
    rw [Item.writes, hfields, hbytes, hmine]
    simp [writes, writesBefore, writesItem, fieldsWritten, data, size, status, Function.comp_def]
  | skip n =>
    exact hbuf lkSkip

end Buf

end ChrysaLisp.Link
