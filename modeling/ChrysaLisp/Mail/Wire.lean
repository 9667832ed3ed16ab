import ChrysaLisp.Library.Bytes
import ChrysaLisp.Mail.Parcel

set_option autoImplicit false

/-! # What comes over a TCP link

A link reads what its peer sends a packet at a time, into a buffer of one fragment: a header, then a ping,
or a fragment and as many bytes as it says, where they are no more than the buffer has room for. A
fragment of a parcel that is for this node goes on to `:sys_mail :in`, as it came.

Where it says it is, in how much, is not looked at there or here. Fragments that lie in the message
their first one had made, each in places none before it had, are written where they should be and no
message of theirs is posted with a byte missing (`link_writes_within`); but what is sent need not be such
(`link_writes_outside`).

This is `:host_net :in`. -/

namespace ChrysaLisp.Parcels

open Run Bytes

/-- `lk_frag_size`. -/
def lkFragSize : ℕ := 64

/-- A packet: `+net_wire_type_ping`, with its task count, `+net_wire_type_frag`, or what the link is
    closed for. -/
inductive Wire where
  | ping (task_count : ℕ)
  | frag (f : Frag)
  | bad

/-- A number of so many bytes. -/
def field (s : Str) (at' size : ℕ) : ℕ := ofBytes ((s.drop at').take size)

/-- The packet at the head of what a peer sends, if it has all come, and what is after it. -/
def readWire (s : Str) : Option (Wire × Str) :=
  if s.length < 8 then none
  else
    let type := field s 4 4
    let s := s.drop 8
    if type = 1 then if s.length < 40 then none else some (.ping (field s 32 4), s.drop 40)
    else if type = 2 then
      if s.length < lkFragSize then none
      else
        let frag_len := field s 48 4
        if lkDataSize < frag_len then some (.bad, s)
        else if s.length < lkFragSize + frag_len then none
        else some (.frag ⟨⟨field s 0 8, field s 8 16⟩, ⟨field s 24 8, field s 32 16⟩, field s 52 4,
          field s 56 4, (s.drop lkFragSize).take frag_len⟩, s.drop (lkFragSize + frag_len))
    else some (.bad, s)

/-- Are bytes written that are not of the memory they are for? -/
def outside (room offset : ℕ) (bytes : Str) : Bool :=
  decide (bytes ≠ [] ∧ room < offset + bytes.length)

/-- A node and its links: of each what its peer sends that it has not read yet, or none if it is closed;
    what was sent on; and was a byte ever written that is not of the buffer or the message it is for. -/
structure Host where
  node : ℕ
  mail : Mail
  passed : List Frag
  wild : Bool
  streams : ℕ → Option Str

/-- What there is to come on a link. -/
def Host.setStream (host : Host) (link : ℕ) (stream : Option Str) : Host :=
  { host with streams := fun n => if n = link then stream else host.streams n }

/-- `in_frag`, with the fragment in the buffer. -/
def Host.inFrag (host : Host) (f : Frag) : Host :=
  let host := { host with wild := host.wild || outside (lkFragSize + lkDataSize) lkFragSize f.data }
  if f.total ≠ 0 ∧ f.dest.node = host.node then { host with mail := mailIn host.mail f }
  else
    -- a message of its own, of `frag_len` bytes
    { host with wild := host.wild || outside f.data.length 0 f.data, passed := host.passed ++ [f] }

/-- `in_loop` of a link, once. -/
def hostIn (host : Host) (link : ℕ) : Host :=
  match (host.streams link).bind readWire with
  | none => host
  | some (.bad, _) => host.setStream link none
  | some (.ping task_count, rest) =>
      -- a task count of -1 is a link that is closed
      host.setStream link (if task_count = uint - 1 then none else some rest)
  | some (.frag f, rest) => (host.setStream link (some rest)).inFrag f

/-- A node that no mail has come to yet, with what its peers will send. -/
def Host.start (node : ℕ) (streams : ℕ → Option Str) : Host := ⟨node, ⟨[], [], false⟩, [], false, streams⟩

/-- Nothing was ever written outside of what it was for, and every byte of a parcel that was posted was
    written. -/
def Host.Safe (host : Host) : Prop :=
  host.wild = false ∧ host.mail.wild = false ∧ ∀ p ∈ host.mail.posted, none ∉ p.data

/-- A fragment is in the message of its parcel, in places nothing was written to. -/
def Mail.Fits (m : Mail) (f : Frag) : Prop :=
  f.data = [] ∨ f.offset + f.data.length ≤ (m.parcel f).data.length ∧
    ∀ b ∈ ((m.parcel f).data.drop f.offset).take f.data.length, b = none

/-- The parcel fragment that a link has next. -/
def Host.next (host : Host) (link : ℕ) : Option Frag :=
  match (host.streams link).bind readWire with
  | some (.frag f, _) => if f.total ≠ 0 ∧ f.dest.node = host.node then some f else none
  | _ => none

/-- What a link has next, if it is of a parcel, fits. -/
def NextFits (host : Host) (link : ℕ) : Prop := ∀ f ∈ host.next link, host.mail.Fits f

instance (m : Mail) (f : Frag) : Decidable (m.Fits f) := by unfold Mail.Fits; infer_instance

instance (host : Host) (link : ℕ) : Decidable (NextFits host link) := by unfold NextFits; infer_instance

/-! ## A fragment -/

section Fragment

variable {m : Mail} {f : Frag} {host : Host} {s s' : Str}

/-- A fragment that was read has no more bytes than the buffer has room for, and a total of 32 bits. -/
theorem readWire_frag (h : readWire s = some (.frag f, s')) :
    f.data.length ≤ lkDataSize ∧ f.total < uint := by
  unfold readWire at h
  simp only at h
  split_ifs at h with hhead hping hping' hfrag hfrag' hlong hall
  all_goals cases h
  have htotal := ofBytes_lt (((s.drop 8).drop 56).take 4)
  have hsmall : 256 ^ (((s.drop 8).drop 56).take 4).length ≤ uint :=
    Nat.pow_le_pow_right (n := 256) (by decide) (List.length_take_le 4 _)
  exact ⟨(List.length_take_le _ _).trans (not_lt.mp hlong), htotal.trans_le hsmall⟩

/-- What has not been written of a parcel is what it counts. -/
structure Parcel.Counts (p : Parcel) : Prop where
  total : p.total = p.data.count none
  pos : p.total ≠ 0
  fits : p.total < uint

/-- What is written where nothing was. -/
theorem overlay_eq {data : List (Option Byte)} {offset : ℕ} {bytes : Str}
    (h : offset + bytes.length ≤ data.length) : overlay data offset bytes
      = data.take offset ++ bytes.map some ++ data.drop (offset + bytes.length) := by
  refine List.ext_getElem? (fun i => ?_)
  rw [getElem?_overlay]
  have hlen : (data.take offset ++ bytes.map some).length = offset + bytes.length := by
    rw [List.length_append, List.length_take, List.length_map]
    omega
  have hlen' : (data.take offset).length = offset := by
    rw [List.length_take]
    omega
  by_cases hin : offset ≤ i ∧ i < offset + bytes.length
  · rw [List.getElem?_append_left (by omega), List.getElem?_append_right (by omega), hlen',
      List.getElem?_map, List.getElem?_eq_getElem (by omega : i < data.length), Option.map_some, if_pos hin,
      List.getElem?_eq_getElem (by omega : i - offset < bytes.length), Option.map_some]
  · simp only [if_neg hin, Option.map_id']
    by_cases hbefore : i < offset
    · rw [List.getElem?_append_left (by omega), List.getElem?_append_left (by omega),
        List.getElem?_take_of_lt hbefore]
    · rw [List.getElem?_append_right (by omega), hlen, List.getElem?_drop]
      congr 1
      omega

theorem count_overlay {data : List (Option Byte)} {offset : ℕ} {bytes : Str}
    (h : offset + bytes.length ≤ data.length)
    (hnone : ∀ b ∈ (data.drop offset).take bytes.length, b = none) :
    (overlay data offset bytes).count none + bytes.length = data.count none := by
  have hsplit : data = data.take offset ++ (data.drop offset).take bytes.length
      ++ data.drop (offset + bytes.length) := by
    rw [List.append_assoc, ← List.drop_drop, List.take_append_drop, List.take_append_drop]
  have hmiddle : ((data.drop offset).take bytes.length).count none = bytes.length := by
    rw [List.count_eq_length.mpr (fun b hb => (hnone b hb).symm), List.length_take, List.length_drop]
    omega
  have hwritten : (bytes.map some).count (none : Option Byte) = 0 := List.count_eq_zero.mpr (by simp)
  have hcount := congrArg (List.count none) hsplit
  rw [overlay_eq h]
  simp only [List.count_append] at hcount ⊢
  omega

theorem mem_put {p q : Parcel} {l : List Parcel} (h : q ∈ put p l) : q = p ∨ q ∈ l := by
  induction l with
  | nil => exact Or.inl (List.mem_singleton.mp h)
  | cons r rest ih =>
      unfold put at h
      split_ifs at h
      · exact (List.mem_cons.mp h).imp id (List.mem_cons_of_mem _)
      · rcases List.mem_cons.mp h with rfl | h
        · exact Or.inr List.mem_cons_self
        · exact (ih h).imp id (List.mem_cons_of_mem _)

/-- With every parcel counted, a fragment that fits leaves them counted, and one that is posted has all
    its bytes. -/
theorem mailIn_fits (hcounts : ∀ p ∈ m.parcels, p.Counts) (hwild : m.wild = false)
    (hposted : ∀ p ∈ m.posted, none ∉ p.data) (hfits : m.Fits f) (htotal : f.total ≠ 0)
    (huint : f.total < uint) :
    (∀ p ∈ (mailIn m f).parcels, p.Counts) ∧ (mailIn m f).wild = false ∧
      ∀ p ∈ (mailIn m f).posted, none ∉ p.data := by
  have hparcel : (m.parcel f).Counts := by
    unfold Mail.parcel
    cases hfind : m.parcels.find? (fun p => decide (p.src = f.src)) with
    | none => exact ⟨List.count_replicate_self.symm, htotal, huint⟩
    | some p => exact hcounts p (List.mem_of_find?_eq_some hfind)
  have hsafe : decide (f.data ≠ [] ∧ (m.parcel f).data.length < f.offset + f.data.length) = false := by
    refine decide_eq_false (fun hout => ?_)
    rcases hfits with hnil | ⟨hle, -⟩
    · exact hout.1 hnil
    · omega
  have hcount : ((m.parcel f).receive f).total = ((m.parcel f).receive f).data.count none := by
    obtain ⟨hptotal, -, hpfits⟩ := hparcel
    show ((m.parcel f).total + (uint - f.data.length)) % uint
      = (overlay (m.parcel f).data f.offset f.data).count none
    rcases hfits with hnil | ⟨hle, hnone⟩
    · have hsame : overlay (m.parcel f).data f.offset [] = (m.parcel f).data := by
        refine List.ext_getElem? (fun i => ?_)
        have hin : ¬ (f.offset ≤ i ∧ i < f.offset + ([] : Str).length) := by
          rw [List.length_nil]
          omega
        rw [getElem?_overlay]
        simp only [if_neg hin, Option.map_id']
      rw [hnil, hsame, ← hptotal]
      unfold uint at *
      simp
      omega
    · have hover := count_overlay hle hnone
      unfold uint at *
      omega
  unfold mailIn
  simp only [hwild, hsafe, Bool.or_self]
  split_ifs with hzero
  · refine ⟨fun p hp => hcounts p (List.mem_of_mem_eraseP hp), rfl, fun p hp => ?_⟩
    rcases List.mem_append.mp hp with hp | hp
    · exact hposted p hp
    · rw [List.mem_singleton.mp hp]
      exact List.count_eq_zero.mp (hcount.symm.trans hzero)
  · refine ⟨fun p hp => ?_, rfl, hposted⟩
    rcases mem_put hp with rfl | hp
    · refine ⟨hcount, hzero, ?_⟩
      exact Nat.mod_lt _ (by decide)
    · exact hcounts p hp

end Fragment

/-! ## A link -/

/-- What is kept of a node. -/
structure Host.Kept (host : Host) : Prop where
  safe : host.Safe
  counts : ∀ p ∈ host.mail.parcels, p.Counts

theorem Host.Kept.setStream {host : Host} (h : host.Kept) (link : ℕ) (stream : Option Str) :
    (host.setStream link stream).Kept := ⟨h.safe, h.counts⟩

/-- What is read of a link, and copied, is within the buffer and the message. -/
theorem outside_eq_false {room offset : ℕ} {bytes : Str} (h : offset + bytes.length ≤ room) :
    outside room offset bytes = false := by
  refine decide_eq_false (fun hout => ?_)
  omega

theorem Host.Kept.hostIn {host : Host} (h : host.Kept) (link : ℕ) (hfits : NextFits host link) :
    (hostIn host link).Kept := by
  unfold Parcels.hostIn
  unfold NextFits Host.next at hfits
  cases hread : (host.streams link).bind readWire with
  | none => exact h
  | some packet =>
      obtain ⟨wire, rest⟩ := packet
      rw [hread] at hfits
      cases wire with
      | bad => exact h.setStream link none
      | ping task_count => exact h.setStream link _
      | frag f =>
          obtain ⟨s, -, hs⟩ := Option.bind_eq_some_iff.mp hread
          obtain ⟨hroom, huint⟩ := readWire_frag hs
          have hbuffer : outside (lkFragSize + lkDataSize) lkFragSize f.data = false :=
            outside_eq_false (by omega)
          have hmessage : outside f.data.length 0 f.data = false := outside_eq_false (by omega)
          obtain ⟨⟨hwild, hmail, hposted⟩, hcounts⟩ := h
          simp only at hfits ⊢
          unfold Host.inFrag Host.setStream
          simp only [hbuffer, hmessage, hwild, Bool.or_self]
          split_ifs at hfits ⊢ with hparcel
          · obtain ⟨hcounts', hmail', hposted'⟩ :=
              mailIn_fits hcounts hmail hposted (hfits f rfl) hparcel.1 huint
            exact ⟨⟨rfl, hmail', hposted'⟩, hcounts'⟩
          · exact ⟨⟨rfl, hmail, hposted⟩, hcounts⟩

/-- Whatever peers send, on any links: where every fragment of a parcel for this node is within the
    message its first had made, in places no other has written to, nothing is ever written outside of the
    buffer or the message it is for, and a parcel is posted only with all its bytes. -/
theorem link_writes_within (node : ℕ) (streams : ℕ → Option Str) (links : List ℕ)
    (hfits : Each hostIn NextFits (Host.start node streams) links) :
    (run hostIn (Host.start node streams) links).Safe :=
  (inv_of_each (I := Host.Kept) (fun _ link h hlink => h.hostIn link hlink)
    ⟨⟨rfl, rfl, fun _ hp => absurd hp List.not_mem_nil⟩, fun _ hp => absurd hp List.not_mem_nil⟩
    hfits).safe

/-- A fragment as it comes, from a session of no node to a mailbox of node 1. -/
def fragBytes (offset total : ℕ) (data : Str) : Str :=
  toBytes 4 (lkFragSize + data.length) ++ toBytes 4 2 ++ (toBytes 8 0 ++ toBytes 16 1 ++ toBytes 24 0
    ++ toBytes 4 data.length ++ toBytes 4 offset ++ toBytes 4 total ++ toBytes 4 0) ++ data

/-- Two fragments of a parcel, the last first. -/
theorem link_writes_within_two : (run hostIn (Host.start 1
    (fun _ => some (fragBytes 1 2 [8] ++ fragBytes 0 2 [7]))) [0, 0]).Safe :=
  link_writes_within 1 _ [0, 0] (by decide +kernel)

/-- A fragment that says it is after the end of its message is written there, and the message is posted
    with nothing in it. -/
theorem link_writes_outside : ¬ ∀ (node : ℕ) (streams : ℕ → Option Str) (links : List ℕ),
    (run hostIn (Host.start node streams) links).Safe := by
  intro hall
  obtain ⟨-, hwild, -⟩ := hall 1 (fun _ => some (fragBytes 1 1 [7])) [0]
  have hout : (run hostIn (Host.start 1 (fun _ => some (fragBytes 1 1 [7]))) [0]).mail.wild = true := by
    decide +kernel
  rw [hout] at hwild
  exact absurd hwild (by decide)

end ChrysaLisp.Parcels
