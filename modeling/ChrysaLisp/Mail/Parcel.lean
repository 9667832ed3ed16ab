import ChrysaLisp.Library.Run
import ChrysaLisp.Lisp.Str
import Mathlib.Data.List.Nodup

set_option autoImplicit false

/-! # Parcels

Mail for another node that is too long for one buffer of a link is a parcel. It goes as fragments, which
have who it is to, an id that is its node's own for it, and where in it they are of how much, and each may
go any way there is. Where it is for, the first to come has a message allocated of as many bytes as it
says there are; what each has is put in its place; and when as many bytes have come as there are to be,
the message is posted.

This is `:sys_mail :out`, `:sys_mail :in`, and what `:sys_link :in` and `:host_net :in` do with a
fragment. -/

namespace ChrysaLisp.Parcels

/-- `lk_data_size`. -/
def lkDataSize : ℕ := 6104

/-- A number of a `uint`. -/
def uint : ℕ := 2 ^ 32

/-- A `+net_id`: a mailbox of a node or, of who a parcel is from, its session there. -/
structure NetId where
  mbox : ℕ
  node : ℕ
deriving DecidableEq

/-- A `lk_frag`, with its `length` bytes of data. It is as a message has it between links, too. -/
structure Frag where
  dest : NetId
  src : NetId
  offset : ℕ
  total : ℕ
  data : Str
deriving DecidableEq

/-- The message of a parcel that has not all come. A byte of it is not there till it is written; `total` is
    `+msg_total`, how many are still to come. -/
structure Parcel where
  dest : NetId
  src : NetId
  total : ℕ
  data : List (Option Byte)
deriving DecidableEq

/-- The mail of a node: `statics_sys_mail_parcel_list`, the parcels that were posted, and was a byte ever
    written that is not of the message it is for. -/
structure Mail where
  parcels : List Parcel
  posted : List Parcel
  wild : Bool
deriving DecidableEq

/-- Bytes are written, as far as there is memory of the message's own. -/
def overlay (data : List (Option Byte)) (offset : ℕ) (bytes : Str) : List (Option Byte) :=
  data.mapIdx (fun i b => if offset ≤ i ∧ i < offset + bytes.length then bytes[i - offset]? else b)

/-- `new parcel`. -/
def Parcel.new (f : Frag) : Parcel := ⟨f.dest, f.src, f.total, List.replicate f.total none⟩

/-- `copy fragment data`. -/
def Parcel.receive (p : Parcel) (f : Frag) : Parcel :=
  { p with
    total := (p.total + (uint - f.data.length)) % uint
    data := overlay p.data f.offset f.data }

/-- A parcel in place of the one that was found, or at the tail. -/
def put (p : Parcel) : List Parcel → List Parcel
  | [] => [p]
  | q :: rest => if q.src = p.src then p :: rest else q :: put p rest

/-- The parcel a fragment is of. -/
def Mail.parcel (m : Mail) (f : Frag) : Parcel :=
  (m.parcels.find? (fun p => decide (p.src = f.src))).getD (Parcel.new f)

/-- `:sys_mail :in`. -/
def mailIn (m : Mail) (f : Frag) : Mail :=
  let p := (m.parcel f).receive f
  let wild := m.wild || decide (f.data ≠ [] ∧ (m.parcel f).data.length < f.offset + f.data.length)
  if p.total = 0 then
    ⟨m.parcels.eraseP (fun q => decide (q.src = f.src)), m.posted ++ [p], wild⟩
  else ⟨put p m.parcels, m.posted, wild⟩

/-- The fragments of a parcel of `total` bytes, from `off` on. -/
def fragments (dest src : NetId) (total off : ℕ) (data : Str) : List Frag :=
  let len := min data.length lkDataSize
  let frag : Frag := ⟨dest, src, off, total, data.take len⟩
  if data.length - len = 0 then [frag]
  else frag :: fragments dest src total (off + len) (data.drop len)
termination_by data.length
decreasing_by
  have hsize : 0 < lkDataSize := by decide
  rw [List.length_drop]
  omega

/-! ## What was written -/

@[simp] theorem length_overlay (data : List (Option Byte)) (offset : ℕ) (bytes : Str) :
    (overlay data offset bytes).length = data.length := List.length_mapIdx

theorem getElem?_overlay (data : List (Option Byte)) (offset : ℕ) (bytes : Str) (i : ℕ) :
    (overlay data offset bytes)[i]? = (data[i]?).map
      (fun b => if offset ≤ i ∧ i < offset + bytes.length then bytes[i - offset]? else b) :=
  List.getElem?_mapIdx

/-! ## The parcels of one id -/

/-- The parcels that are open of an id. -/
def Mail.openOf (id : NetId) (m : Mail) : List Parcel := m.parcels.filter (fun p => decide (p.src = id))

/-- The parcels that were posted of an id. -/
def Mail.postsOf (id : NetId) (m : Mail) : List Parcel := m.posted.filter (fun p => decide (p.src = id))

section OpenOf

variable {id : NetId} {m : Mail} {f : Frag} {p : Parcel}

theorem filter_put_self (l : List Parcel) : (put p l).filter (fun q => decide (q.src = p.src))
    = p :: (l.filter (fun q => decide (q.src = p.src))).tail := by
  induction l with
  | nil => simp [put]
  | cons q rest ih =>
      unfold put
      split_ifs with hq
      · simp [hq]
      · simp [hq, ih]

theorem filter_put_of_ne (l : List Parcel) (h : p.src ≠ id) :
    (put p l).filter (fun q => decide (q.src = id)) = l.filter (fun q => decide (q.src = id)) := by
  induction l with
  | nil => simp [put, h]
  | cons q rest ih =>
      unfold put
      split_ifs with hq
      · simp [hq, h]
      · simp [List.filter_cons, ih]

theorem filter_eraseP_self (l : List Parcel) :
    (l.eraseP (fun q => decide (q.src = id))).filter (fun q => decide (q.src = id))
      = (l.filter (fun q => decide (q.src = id))).tail := by
  induction l with
  | nil => rfl
  | cons q rest ih =>
      by_cases hq : q.src = id
      · simp [hq]
      · simp [hq, ih]

theorem filter_eraseP_of_ne (l : List Parcel) {id' : NetId} (h : id' ≠ id) :
    (l.eraseP (fun q => decide (q.src = id'))).filter (fun q => decide (q.src = id))
      = l.filter (fun q => decide (q.src = id)) := by
  induction l with
  | nil => rfl
  | cons q rest ih =>
      by_cases hq : q.src = id'
      · simp [hq, h]
      · simp [hq, List.filter_cons, ih]

theorem parcel_eq (m : Mail) (f : Frag) : m.parcel f = ((m.openOf f.src).head?).getD (Parcel.new f) := by
  unfold Mail.parcel Mail.openOf
  rw [List.head?_filter]

theorem parcel_src (m : Mail) (f : Frag) : (m.parcel f).src = f.src := by
  unfold Mail.parcel
  cases hfind : m.parcels.find? (fun p => decide (p.src = f.src)) with
  | none => rfl
  | some p =>
      have hsrc := List.find?_some hfind
      exact of_decide_eq_true hsrc

/-- The one that is open of the id of a fragment is what it was with the fragment in it, or is posted. -/
theorem openOf_mailIn_self (m : Mail) (f : Frag) : (mailIn m f).openOf f.src
    = (if ((m.parcel f).receive f).total = 0 then [] else [(m.parcel f).receive f])
      ++ (m.openOf f.src).tail := by
  have hsrc : ((m.parcel f).receive f).src = f.src := parcel_src m f
  unfold mailIn
  simp only
  split_ifs
  · exact filter_eraseP_self m.parcels
  · unfold Mail.openOf
    rw [← hsrc, filter_put_self]
    rfl

theorem postsOf_mailIn_self (m : Mail) (f : Frag) : (mailIn m f).postsOf f.src
    = m.postsOf f.src ++ (if ((m.parcel f).receive f).total = 0 then [(m.parcel f).receive f] else []) := by
  have hsrc : ((m.parcel f).receive f).src = f.src := parcel_src m f
  unfold mailIn
  simp only
  split_ifs
  · unfold Mail.postsOf
    rw [List.filter_append, List.filter_singleton]
    simp [hsrc]
  · simp [Mail.postsOf]

/-- What is of other ids is left alone. -/
theorem mailIn_of_ne (h : f.src ≠ id) :
    (mailIn m f).openOf id = m.openOf id ∧ (mailIn m f).postsOf id = m.postsOf id := by
  have hsrc : ((m.parcel f).receive f).src = f.src := parcel_src m f
  unfold mailIn
  simp only
  split_ifs
  · refine ⟨filter_eraseP_of_ne m.parcels h, ?_⟩
    unfold Mail.postsOf
    rw [List.filter_append, List.filter_singleton]
    simp [hsrc, h]
  · exact ⟨filter_put_of_ne m.parcels (hsrc ▸ h), rfl⟩

end OpenOf

/-! ## The fragments of a parcel -/

section Fragments

variable {dest src : NetId} {total off : ℕ} {data : Str}

/-- Each has its own part of the data, and the parts are all of it. -/
theorem fragments_spec (dest src : NetId) (total : ℕ) (off : ℕ) (data : Str) (hdata : data ≠ []) :
    (∀ f ∈ fragments dest src total off data, f.dest = dest ∧ f.src = src ∧ f.total = total ∧
      f.data ≠ [] ∧ off ≤ f.offset ∧ f.offset + f.data.length ≤ off + data.length ∧
      f.data.length ≤ lkDataSize ∧ f.data = (data.drop (f.offset - off)).take f.data.length) ∧
    (∀ i, off ≤ i → i < off + data.length →
      ∃ f ∈ fragments dest src total off data, f.offset ≤ i ∧ i < f.offset + f.data.length) ∧
    ((fragments dest src total off data).map (fun f => f.data.length)).sum = data.length ∧
    ((fragments dest src total off data).map Frag.offset).Nodup := by
  have hsize : 0 < lkDataSize := by decide
  induction hn : data.length using Nat.strong_induction_on generalizing off data with
  | _ n ih =>
      subst hn
      have hpos := List.length_pos_iff.mpr hdata
      have htake : (data.take (min data.length lkDataSize)).length = min data.length lkDataSize := by
        rw [List.length_take]
        omega
      rw [fragments]
      split_ifs with hlast
      · have hmin : min data.length lkDataSize = data.length := by omega
        rw [hmin, List.take_length]
        refine ⟨fun f hf => ?_, fun i hi hlt => ?_, ?_, List.nodup_singleton _⟩
        · rw [List.mem_singleton.mp hf]
          refine ⟨rfl, rfl, rfl, hdata, le_rfl, le_rfl, ?_, ?_⟩
          · simp only
            omega
          · simp
        · exact ⟨_, List.mem_singleton_self _, hi, hlt⟩
        · simp
      · obtain ⟨len, hlen⟩ : ∃ len, len = min data.length lkDataSize := ⟨_, rfl⟩
        rw [← hlen] at htake ⊢
        have hrest : (data.drop len).length = data.length - len := List.length_drop
        obtain ⟨hall, hcover, hsum, hnodup⟩ := ih (data.drop len).length (by omega) (off + len)
          (data.drop len) (fun hnil => by rw [hnil, List.length_nil] at hrest; omega) rfl
        refine ⟨fun f hf => ?_, fun i hi hlt => ?_, ?_, ?_⟩
        · rcases List.mem_cons.mp hf with rfl | hf
          · refine ⟨rfl, rfl, rfl, ?_, le_rfl, ?_, ?_, ?_⟩
            · rw [← List.length_pos_iff, htake]
              omega
            · rw [htake]
              simp only
              omega
            · rw [htake]
              omega
            · rw [htake]
              simp
          · obtain ⟨hdest, hsrc, htotal, hne, hoff, hend, hsmall, hpart⟩ := hall f hf
            refine ⟨hdest, hsrc, htotal, hne, by omega, by omega, hsmall, ?_⟩
            rw [List.drop_drop] at hpart
            have hsub : len + (f.offset - (off + len)) = f.offset - off := by omega
            rwa [hsub] at hpart
        · by_cases hin : i < off + len
          · exact ⟨_, List.mem_cons_self, hi, by rw [htake]; exact hin⟩
          · obtain ⟨f, hf, hcov⟩ := hcover i (by omega) (by omega)
            exact ⟨f, List.mem_cons_of_mem _ hf, hcov⟩
        · rw [List.map_cons, List.sum_cons, hsum, htake]
          omega
        · rw [List.map_cons, List.nodup_cons]
          refine ⟨fun hin => ?_, hnodup⟩
          obtain ⟨f, hf, heq⟩ := List.mem_map.mp hin
          have hoff := (hall f hf).2.2.2.2.1
          simp only at heq
          omega

end Fragments

end ChrysaLisp.Parcels
