import ChrysaLisp.Fs.Device
import ChrysaLisp.Library.Run
import Mathlib.Tactic.Common

set_option autoImplicit false

/-! # The cache is transparent

A device with blocks of it kept stands for a flat array of bytes: what is kept of a block is what
the array has there, and the device has the rest of the array, and all of it once what was changed
is written (`Agrees`). Every function of the device keeps this, of the array with what was written
written to it, so every read of a run is that of the array (`Device.transparent`). -/

namespace ChrysaLisp

open FlatArray

/-! ## The sectors of an array, and its blocks -/

/-- The bytes of the array that are in whole sectors. -/
def sectors (flat : Str) : ℕ := flat.length / exfatSector * exfatSector

/-- A block of the array, as much of it as is in whole sectors. -/
def blockOf (flat : Str) (index : ℕ) : Str :=
  slice (flat.take (sectors flat)) (index * exfatBlockSize) ((index + 1) * exfatBlockSize)

section Blocks

variable {flat flat' : Str}

theorem sectors_le (flat : Str) : sectors flat ≤ flat.length := Nat.div_mul_le_self _ _

theorem sectors_congr (h : flat.length = flat'.length) : sectors flat = sectors flat' := by
  unfold sectors
  rw [h]

/-- A part of the array that is in whole sectors. -/
theorem slice_take_sectors {i j : ℕ} (h : j ≤ sectors flat) :
    slice (flat.take (sectors flat)) i j = slice flat i j := by
  apply List.ext_getElem?
  intro k
  rw [getElem?_slice, getElem?_slice]
  by_cases hk : i + k < j
  · rw [if_pos hk, if_pos hk, List.getElem?_take_of_lt (by omega)]
  · rw [if_neg hk, if_neg hk]

theorem getElem?_slice_take (i j k : ℕ) :
    (slice (flat.take (sectors flat)) i j)[k]?
      = if i + k < j ∧ i + k < sectors flat then flat[i + k]? else none := by
  rw [getElem?_slice]
  by_cases hj : i + k < j
  · by_cases hs : i + k < sectors flat
    · rw [if_pos hj, if_pos ⟨hj, hs⟩, List.getElem?_take_of_lt hs]
    · rw [if_pos hj, if_neg (by omega), List.getElem?_eq_none (by rw [List.length_take]; omega)]
  · rw [if_neg hj, if_neg (by omega)]

theorem length_slice_take (flat : Str) (i j : ℕ) :
    (slice (flat.take (sectors flat)) i j).length = min (j - i) (sectors flat - i) := by
  have := sectors_le flat
  rw [length_slice, List.length_take]
  omega

/-- Arrays that agree on the bytes of a block have the one block there. -/
theorem blockOf_congr {index : ℕ} (hlen : flat.length = flat'.length)
    (h : ∀ p, p / exfatBlockSize = index → p < sectors flat → flat[p]? = flat'[p]?) :
    blockOf flat index = blockOf flat' index := by
  apply List.ext_getElem?
  intro k
  unfold blockOf
  rw [getElem?_slice_take, getElem?_slice_take, sectors_congr hlen]
  split
  next hk =>
    refine h _ ?_ (by rw [sectors_congr hlen]; exact hk.2)
    unfold exfatBlockSize at hk ⊢
    omega
  · rfl

theorem length_overwrite_slice {stream : Str} (hlen : stream.length = flat.length) (i j : ℕ) :
    (overwrite stream i (slice (flat.take (sectors flat)) i j)).length = flat.length := by
  have hs := sectors_le flat
  have hl := length_slice_take flat i j
  by_cases hi : i ≤ sectors flat
  · rw [length_overwrite (by omega), hlen]
  · have hnil : slice (flat.take (sectors flat)) i j = [] := by
      rw [← List.length_eq_zero_iff]
      omega
    rw [hnil, overwrite_nil, hlen]

/-- Writing a part of the array to where it is in another of its length. -/
theorem getElem?_overwrite_slice {stream : Str} (hlen : stream.length = flat.length) (i j p : ℕ) :
    (overwrite stream i (slice (flat.take (sectors flat)) i j))[p]?
      = if i ≤ p ∧ p < j ∧ p < sectors flat then flat[p]? else stream[p]? := by
  have hs := sectors_le flat
  have hl := length_slice_take flat i j
  by_cases hi : i ≤ sectors flat
  · rw [getElem?_overwrite (by omega), hl]
    by_cases hp : i ≤ p ∧ p < j ∧ p < sectors flat
    · rw [if_pos (by omega), if_pos hp, getElem?_slice_take, if_pos (by omega)]
      congr 1
      omega
    · rw [if_neg (by omega), if_neg hp]
  · have hnil : slice (flat.take (sectors flat)) i j = [] := by
      rw [← List.length_eq_zero_iff]
      omega
    rw [hnil, overwrite_nil, if_neg (by omega)]

/-- A block and those after it. -/
theorem blockOf_append {i j : ℕ} (h : i + 1 ≤ j) :
    blockOf flat i ++ slice (flat.take (sectors flat)) ((i + 1) * exfatBlockSize)
        (j * exfatBlockSize)
      = slice (flat.take (sectors flat)) (i * exfatBlockSize) (j * exfatBlockSize) :=
  slice_append_slice _ (Nat.mul_le_mul_right _ (Nat.le_succ i)) (Nat.mul_le_mul_right _ h)

end Blocks

/-! ## What the device stands for -/

namespace Device

variable {vol : Device} {flat : Str} {pending : ℕ → Prop}

/-- The device stands for the array, all but the blocks that are pending: those go straight to the
    device and are not there yet. -/
structure Agrees (vol : Device) (flat : Str) (pending : ℕ → Prop) : Prop where
  length : vol.stream.length = flat.length
  kept : ∀ i b, vol.cache i = some b → b = blockOf flat i
  dirty : ∀ i ∈ vol.dirty, (vol.cache i).isSome
  stream : ∀ p, (p / exfatBlockSize ∉ vol.dirty ∧ ¬ pending (p / exfatBlockSize)) ∨
    sectors flat ≤ p → vol.stream[p]? = flat[p]?

theorem agrees_mount (stream : Str) : (mount stream).Agrees stream (fun _ => False) where
  length := rfl
  kept _ _ h := absurd h (by simp [mount])
  dirty _ h := absurd h List.not_mem_nil
  stream _ _ := rfl

/-! ## Writing the blocks that were changed -/

/-- What is kept of blocks that are next to each other is a part of the array. -/
theorem Agrees.keptOf (h : vol.Agrees flat pending) {run : List ℕ} {i : ℕ}
    (hkept : ∀ k ∈ i :: run, (vol.cache k).isSome)
    (hrun : (i :: run).IsChain (fun i j => decide (j = i + 1) = true)) :
    vol.keptOf (i :: run) = slice (flat.take (sectors flat)) (i * exfatBlockSize)
      ((i + run.length + 1) * exfatBlockSize) := by
  induction run generalizing i with
  | nil =>
      obtain ⟨b, hb⟩ := Option.isSome_iff_exists.1 (hkept i List.mem_cons_self)
      simp only [Device.keptOf, List.flatMap_cons, List.flatMap_nil, List.append_nil, hb,
        Option.getD_some]
      exact h.kept i b hb
  | cons j run ih =>
      rw [List.isChain_cons_cons] at hrun
      obtain ⟨hj, hrun⟩ := hrun
      obtain rfl := of_decide_eq_true hj
      obtain ⟨b, hb⟩ := Option.isSome_iff_exists.1 (hkept i List.mem_cons_self)
      have hrest := ih (fun k hk => hkept k (List.mem_cons_of_mem _ hk)) hrun
      unfold Device.keptOf at hrest ⊢
      rw [List.flatMap_cons, hrest, hb, Option.getD_some, h.kept i b hb,
        blockOf_append (by omega), List.length_cons]
      congr 2
      omega

/-- Runs of blocks, each written where it is. What they are kept by is left as it was. -/
def writeRuns (data : List ℕ → Str) (runs : List (List ℕ)) (vol : Device) : Device :=
  runs.foldl (fun out run => out.rawWrite (run.headD 0 * exfatBlockSize) (data run)) vol

theorem writeRuns_fields (data : List ℕ → Str) (runs : List (List ℕ)) (vol : Device) :
    (writeRuns data runs vol).cache = vol.cache ∧ (writeRuns data runs vol).cached = vol.cached := by
  unfold writeRuns
  induction runs generalizing vol with
  | nil => exact ⟨rfl, rfl⟩
  | cons run runs ih => exact ih (vol.rawWrite _ _)

/-- Each run is a part of the array, so the device comes to have the array wherever it had it, and
    in the blocks of the runs. -/
theorem stream_writeRuns (data : List ℕ → Str) (runs : List (List ℕ))
    (hdata : ∀ run ∈ runs, ∃ i n, (∀ k, k ∈ run ↔ i ≤ k ∧ k < i + n) ∧ run.headD 0 = i ∧
      data run = slice (flat.take (sectors flat)) (i * exfatBlockSize) ((i + n) * exfatBlockSize))
    (vol : Device) (hlen : vol.stream.length = flat.length)
    (hvol : ∀ p, (p / exfatBlockSize ∉ runs.flatten ∧ ¬ pending (p / exfatBlockSize)) ∨
      sectors flat ≤ p → vol.stream[p]? = flat[p]?) :
    (writeRuns data runs vol).stream.length = flat.length ∧
      ∀ p, ¬ pending (p / exfatBlockSize) ∨ sectors flat ≤ p →
        (writeRuns data runs vol).stream[p]? = flat[p]? := by
  induction runs generalizing vol with
  | nil => exact ⟨hlen, fun p hp => hvol p (by simpa using hp)⟩
  | cons run runs ih =>
      obtain ⟨i, n, hmem, hhead, hpart⟩ := hdata run List.mem_cons_self
      refine ih (fun run hrun => hdata run (List.mem_cons_of_mem _ hrun))
        (vol.rawWrite (run.headD 0 * exfatBlockSize) (data run)) ?_ (fun p hp => ?_)
      · rw [hhead, hpart]
        exact length_overwrite_slice hlen _ _
      · rw [hhead, hpart]
        show (overwrite _ _ _)[p]? = _
        rw [getElem?_overwrite_slice hlen]
        split
        · rfl
        next hout =>
          -- it is in no block of the run, so it was as the array has it
          refine hvol p ?_
          rcases hp with hp | hp
          · by_cases hs : sectors flat ≤ p
            · exact Or.inr hs
            refine Or.inl ⟨?_, hp.2⟩
            rw [List.flatten_cons, List.mem_append, hmem]
            rintro (hin | hin)
            · unfold exfatBlockSize at hin hout
              omega
            · exact hp.1 hin
          · exact Or.inr hp

/-- The first of blocks that are next to each other, and how many they are. -/
theorem mem_of_isChain {run : List ℕ} {i : ℕ}
    (hrun : (i :: run).IsChain (fun i j => decide (j = i + 1) = true)) (k : ℕ) :
    k ∈ i :: run ↔ i ≤ k ∧ k < i + (run.length + 1) := by
  induction run generalizing i with
  | nil =>
      simp only [List.mem_singleton, List.length_nil]
      omega
  | cons j run ih =>
      rw [List.isChain_cons_cons] at hrun
      obtain ⟨hj, hrun⟩ := hrun
      obtain rfl := of_decide_eq_true hj
      rw [List.mem_cons, ih hrun, List.length_cons]
      omega

/-- After a flush the device has all the array, but for what is pending. -/
theorem Agrees.flush (h : vol.Agrees flat pending) : vol.flush.Agrees flat pending := by
  have hmem : ∀ k, k ∈ ((vol.dirty.insertionSort (· ≤ ·)).splitBy
      (fun i j => decide (j = i + 1))).flatten ↔ k ∈ vol.dirty := by
    intro k
    rw [List.flatten_splitBy]
    exact List.mem_insertionSort (· ≤ ·)
  have hwrite := stream_writeRuns vol.keptOf
    ((vol.dirty.insertionSort (· ≤ ·)).splitBy (fun i j => decide (j = i + 1)))
    (fun run hrun => by
      have hchain := List.isChain_of_mem_splitBy hrun
      cases run with
      | nil => exact absurd hrun (List.nil_notMem_splitBy _ _)
      | cons i run =>
          refine ⟨i, run.length + 1, mem_of_isChain hchain, rfl, ?_⟩
          refine h.keptOf (fun k hk => h.dirty k ?_) hchain
          exact (hmem k).1 (List.mem_flatten.2 ⟨_, hrun, hk⟩))
    vol h.length (fun p hp => h.stream p (by rwa [hmem] at hp))
  have hfields := writeRuns_fields vol.keptOf
    ((vol.dirty.insertionSort (· ≤ ·)).splitBy (fun i j => decide (j = i + 1))) vol
  exact
    { length := hwrite.1
      kept := fun i b hb => h.kept i b (hfields.1 ▸ hb)
      dirty := fun _ hi => absurd hi List.not_mem_nil
      stream := fun p hp => hwrite.2 p (hp.imp And.right id) }

theorem flush_dirty (vol : Device) : vol.flush.dirty = [] := rfl

theorem flush_cache (vol : Device) : vol.flush.cache = vol.cache :=
  (writeRuns_fields vol.keptOf _ vol).1

/-- With nothing pending, all the array is there. -/
theorem Agrees.stream_flush (h : vol.Agrees flat (fun _ => False)) : vol.flush.stream = flat :=
  List.ext_getElem? (fun p => h.flush.stream p (Or.inl ⟨List.not_mem_nil, not_false⟩))

/-! ## Keeping a block -/

/-- What a block is kept in: the device, with all that was kept let go of if there was too much. -/
theorem Agrees.keep_cases (h : vol.Agrees flat pending) (index : ℕ) :
    ∃ out : Device, out.Agrees flat pending ∧
      ((vol.cache index).isSome → out = vol) ∧
      ∀ b, vol.keep index b = { out with cache := Function.update out.cache index (some b) } := by
  unfold Device.keep
  by_cases hi : (vol.cache index).isSome
  · exact ⟨vol, h, fun _ => rfl, fun b => by rw [if_pos hi]⟩
  · by_cases hmany : exfatCacheBlocks ≤ vol.cached
    · refine ⟨{ vol.flush with cache := fun _ => none, cached := 0 + 1 }, ?_,
        fun hc => absurd hc hi, fun b => by rw [if_neg hi, if_pos hmany]⟩
      exact
        { length := h.flush.length
          kept := fun _ _ hb => absurd hb (by simp)
          dirty := fun _ hj => absurd hj List.not_mem_nil
          stream := h.flush.stream }
    · exact ⟨{ vol with cached := vol.cached + 1 }, ⟨h.length, h.kept, h.dirty, h.stream⟩,
        fun hc => absurd hc hi, fun b => by rw [if_neg hi, if_neg hmany]⟩

/-- A block of the array, kept. -/
theorem Agrees.keep (h : vol.Agrees flat pending) (index : ℕ) :
    (vol.keep index (blockOf flat index)).Agrees flat pending := by
  obtain ⟨out, hout, -, hkeep⟩ := h.keep_cases index
  rw [hkeep]
  refine ⟨hout.length, fun i b hb => ?_, fun i hi => ?_, hout.stream⟩
  · by_cases he : i = index
    · subst he
      simpa using hb.symm
    · exact hout.kept i b (by simpa [Function.update_of_ne he] using hb)
  · by_cases he : i = index
    · subst he
      simp
    · simpa [Function.update_of_ne he] using hout.dirty i hi

/-- A block of another array, kept and still to be written. The arrays are the same but for it. -/
theorem Agrees.keepDirty (h : vol.Agrees flat pending) {flat' : Str}
    (hlen : flat'.length = flat.length) {index : ℕ}
    (hsame : ∀ p, p / exfatBlockSize ≠ index ∨ sectors flat ≤ p → flat'[p]? = flat[p]?) :
    ((vol.keep index (blockOf flat' index)).setDirty index).Agrees flat' pending := by
  obtain ⟨out, hout, -, hkeep⟩ := h.keep_cases index
  rw [hkeep]
  refine ⟨hout.length.trans hlen.symm, fun i b hb => ?_, fun i hi => ?_, fun p hp => ?_⟩
  · by_cases he : i = index
    · subst he
      simpa [setDirty] using hb.symm
    · rw [hout.kept i b (by simpa [setDirty, Function.update_of_ne he] using hb)]
      exact blockOf_congr hlen.symm (fun p hp _ => (hsame p (Or.inl (hp ▸ he))).symm)
  · by_cases he : i = index
    · subst he
      simp [setDirty]
    · have hin : i ∈ out.dirty := by simpa [setDirty, he] using hi
      simpa [setDirty, Function.update_of_ne he] using hout.dirty i hin
  · rw [sectors_congr hlen] at hp
    have hout' : vol.Agrees flat pending → p / exfatBlockSize ≠ index ∨ sectors flat ≤ p := by
      intro _
      rcases hp with ⟨hp, -⟩ | hp
      · exact Or.inl (fun he => hp (by simp [setDirty, he]))
      · exact Or.inr hp
    rw [hsame p (hout' h)]
    refine hout.stream p (hp.imp (fun hp => ⟨fun hd => hp.1 ?_, hp.2⟩) id)
    simp [setDirty, hd]

/-- A block that is let go of is pending from then on. -/
theorem Agrees.drop (h : vol.Agrees flat pending) {flat' : Str}
    (hlen : flat'.length = flat.length) {index : ℕ}
    (hsame : ∀ p, p / exfatBlockSize ≠ index ∨ sectors flat ≤ p → flat'[p]? = flat[p]?) :
    (vol.drop index).Agrees flat' (fun i => pending i ∨ i = index) := by
  have hkept : ∀ i b, i ≠ index → vol.cache i = some b → b = blockOf flat' i := by
    intro i b he hb
    rw [h.kept i b hb]
    exact blockOf_congr hlen.symm (fun p hp _ => (hsame p (Or.inl (hp ▸ he))).symm)
  have hstream : ∀ p, (p / exfatBlockSize ∉ vol.dirty.filter (· ≠ index) ∧
      ¬ (pending (p / exfatBlockSize) ∨ p / exfatBlockSize = index)) ∨ sectors flat' ≤ p →
      vol.stream[p]? = flat'[p]? := by
    intro p hp
    rw [sectors_congr hlen] at hp
    rcases hp with ⟨hd, hp⟩ | hp
    · push Not at hp
      rw [hsame p (Or.inl hp.2)]
      exact h.stream p (Or.inl ⟨fun hin => hd (by simp [hin, hp.2]), hp.1⟩)
    · rw [hsame p (Or.inr hp)]
      exact h.stream p (Or.inr hp)
  unfold Device.drop
  split
  · refine ⟨h.length.trans hlen.symm, fun i b hb => ?_, fun i hi => ?_, hstream⟩
    · by_cases he : i = index
      · subst he
        simp at hb
      · exact hkept i b he (by simpa [Function.update_of_ne he] using hb)
    · obtain ⟨hi, he⟩ := List.mem_filter.1 hi
      have he : i ≠ index := by simpa using he
      simpa [Function.update_of_ne he] using h.dirty i hi
  next hnone =>
    have hne : ∀ i, (vol.cache i).isSome → i ≠ index := fun i hi he => hnone (he ▸ hi)
    refine ⟨h.length.trans hlen.symm, fun i b hb => ?_, h.dirty, fun p hp => hstream p ?_⟩
    · exact hkept i b (hne i (by rw [hb]; rfl)) hb
    · refine hp.imp (fun hp => ⟨fun hin => hp.1 (List.mem_of_mem_filter hin), hp.2⟩) id

/-! ## Reading a block -/

theorem rawRead_of_le {offset len : ℕ} (h : offset + len ≤ vol.stream.length) :
    vol.rawRead offset len = some (slice vol.stream offset (offset + len)) := by
  unfold rawRead
  simp only
  rw [length_slice_of_le h, Nat.add_sub_cancel_left, if_pos rfl]

theorem rawRead_of_lt {offset len : ℕ} (h : vol.stream.length < offset + len) (hlen : 0 < len) :
    vol.rawRead offset len = none := by
  unfold rawRead
  simp only
  rw [length_slice, if_neg (by omega)]

/-- The sectors from `base` on that are there, of `n`. -/
theorem flatten_rawRead (vol : Device) {base : ℕ} (hbase : exfatSector ∣ base) (n : ℕ) :
    ((List.range n).filterMap (fun i =>
      vol.rawRead (base + i * exfatSector) exfatSector)).flatten
      = slice (vol.stream.take (sectors vol.stream)) base (base + n * exfatSector) := by
  obtain ⟨m, rfl⟩ := hbase
  induction n with
  | zero => simp [slice]
  | succ n ih =>
      rw [List.range_succ, List.filterMap_append, List.flatten_append, ih]
      by_cases hin : exfatSector * m + n * exfatSector + exfatSector ≤ vol.stream.length
      · have hs : exfatSector * m + n * exfatSector + exfatSector ≤ sectors vol.stream := by
          unfold sectors exfatSector at *
          omega
        simp only [List.filterMap_cons, List.filterMap_nil, rawRead_of_le hin,
          List.flatten_cons, List.flatten_nil, List.append_nil]
        rw [← slice_take_sectors hs, slice_append_slice _ (by omega) (by omega),
          Nat.add_one_mul n, Nat.add_assoc]
      · -- no sector from here on is there
        simp only [List.filterMap_cons, List.filterMap_nil,
          rawRead_of_lt (Nat.lt_of_not_le hin) (by decide), List.flatten_nil, List.append_nil]
        apply List.ext_getElem?
        intro k
        rw [getElem?_slice_take, getElem?_slice_take]
        have hend : sectors vol.stream ≤ exfatSector * m + n * exfatSector := by
          unfold sectors exfatSector at *
          omega
        rw [Nat.add_one_mul n]
        exact if_congr ⟨fun h => ⟨by omega, h.2⟩, fun h => ⟨by omega, h.2⟩⟩ rfl rfl

/-- A block that is read is what the stream has there, as much of it as is in whole sectors. -/
theorem blockRead_eq (vol : Device) (index : ℕ) : vol.blockRead index = blockOf vol.stream index := by
  unfold blockRead blockOf
  rw [Nat.add_one_mul index]
  by_cases hin : index * exfatBlockSize + exfatBlockSize ≤ vol.stream.length
  · rw [rawRead_of_le hin, slice_take_sectors]
    unfold sectors exfatBlockSize exfatSector at *
    omega
  · rw [rawRead_of_lt (Nat.lt_of_not_le hin) (by decide)]
    exact flatten_rawRead vol ⟨index * 8, by unfold exfatBlockSize exfatSector; omega⟩ 8

/-- A block that is not pending is read as the array has it, and kept. -/
theorem Agrees.block (h : vol.Agrees flat pending) (index : ℕ) (hp : ¬ pending index) :
    (vol.block index).2 = blockOf flat index ∧ (vol.block index).1.Agrees flat pending := by
  unfold Device.block
  cases hc : vol.cache index with
  | some data => exact ⟨h.kept index data hc, h⟩
  | none =>
      have hread : vol.blockRead index = blockOf flat index := by
        rw [blockRead_eq]
        refine blockOf_congr h.length (fun p hpi _ => h.stream p (Or.inl ⟨fun hd => ?_, hpi ▸ hp⟩))
        have := h.dirty _ hd
        rw [hpi, hc] at this
        exact absurd this (by simp)
      simp only
      rw [hread]
      exact ⟨rfl, h.keep index⟩

/-! ## Reading -/

/-- The part of the array from one block to another. -/
def blocksOf (flat : Str) (i j : ℕ) : Str :=
  slice (flat.take (sectors flat)) (i * exfatBlockSize) (j * exfatBlockSize)

theorem blocksOf_append (flat : Str) {i j k : ℕ} (hij : i ≤ j) (hjk : j ≤ k) :
    blocksOf flat i j ++ blocksOf flat j k = blocksOf flat i k :=
  slice_append_slice _ (Nat.mul_le_mul_right _ hij) (Nat.mul_le_mul_right _ hjk)

theorem blocksOf_self (flat : Str) (i : ℕ) : blocksOf flat i i = [] := by simp [blocksOf, slice]

/-- Nothing is pending: what the device stands for between one read or write and the next. -/
abbrev Holds (vol : Device) (flat : Str) : Prop := vol.Agrees flat (fun _ => False)

theorem Agrees.readBlocks (h : vol.Holds flat) (i n : ℕ) :
    (vol.readBlocks (List.range' i n)).2 = blocksOf flat i (i + n) ∧
      (vol.readBlocks (List.range' i n)).1.Holds flat := by
  have hfold : ∀ (n k : ℕ) (out : Device) (parts : Str), out.Holds flat → i ≤ k →
      parts = blocksOf flat i k →
      ((List.range' k n).foldl (fun (s : Device × Str) index =>
        ((s.1.block index).1, s.2 ++ (s.1.block index).2)) (out, parts)).2
          = blocksOf flat i (k + n) ∧
      ((List.range' k n).foldl (fun (s : Device × Str) index =>
        ((s.1.block index).1, s.2 ++ (s.1.block index).2)) (out, parts)).1.Holds flat := by
    intro n
    induction n with
    | zero => exact fun k out parts hout _ hparts => ⟨hparts, hout⟩
    | succ n ih =>
        intro k out parts hout hk hparts
        obtain ⟨hdata, hnext⟩ := hout.block k not_false
        have hparts' : parts ++ (out.block k).2 = blocksOf flat i (k + 1) := by
          rw [hparts, hdata]
          exact blocksOf_append flat hk (Nat.le_succ k)
        have := ih (k + 1) _ _ hnext (by omega) hparts'
        rw [Nat.add_right_comm] at this
        exact this
  exact hfold n i vol [] h le_rfl (blocksOf_self flat i).symm

theorem Agrees.keepBlocks (h : vol.Holds flat) {data : Str} {i n : ℕ}
    (hdata : data = blocksOf flat i (i + n)) :
    (vol.keepBlocks i data (List.range' i n)).Holds flat := by
  have hfold : ∀ (run : List ℕ) (out : Device), out.Holds flat →
      (∀ k ∈ run, i ≤ k ∧ k < i + n) → (out.keepBlocks i data run).Holds flat := by
    intro run
    induction run with
    | nil => exact fun _ hout _ => hout
    | cons k run ih =>
        intro out hout hrun
        obtain ⟨hik, hk⟩ := hrun k List.mem_cons_self
        have hblock : slice data ((k - i) * exfatBlockSize) ((k + 1 - i) * exfatBlockSize)
            = blockOf flat k := by
          rw [hdata, blocksOf, slice_slice]
          · unfold blockOf
            rw [← Nat.add_mul, ← Nat.add_mul, Nat.add_sub_cancel' hik,
              Nat.add_sub_cancel' (by omega)]
          · rw [← Nat.add_mul]
            exact Nat.mul_le_mul_right _ (by omega)
        refine ih _ ?_ (fun k' hk' => hrun k' (List.mem_cons_of_mem _ hk'))
        show (out.keep k _).Holds flat
        rw [hblock]
        exact hout.keep k
  exact hfold _ vol h (fun k hk => by
    obtain ⟨hik, hk⟩ := List.mem_range'_1.1 hk
    exact ⟨hik, hk⟩)

/-- The blocks that are not kept, from one on. -/
theorem unkept_spec (vol : Device) (n i : ℕ) :
    vol.unkept n i ≤ n ∧ ∀ k, i ≤ k → k < i + vol.unkept n i → vol.cache k = none := by
  induction n generalizing i with
  | zero => exact ⟨le_rfl, fun k hik hk => by simp [unkept] at hk; omega⟩
  | succ n ih =>
      rw [unkept]
      split
      · exact ⟨by omega, fun k hik hk => by omega⟩
      next hnone =>
        obtain ⟨hle, hrest⟩ := ih (i + 1)
        refine ⟨by omega, fun k hik hk => ?_⟩
        by_cases he : k = i
        · subst he
          simpa using hnone
        · exact hrest k (by omega) (by omega)

/-- A run of blocks that are not kept is read as the array has it. -/
theorem Agrees.readRun (h : vol.Holds flat) (keep : Bool) {i j : ℕ} (hij : i ≤ j)
    (hnone : ∀ k, i ≤ k → k < j → vol.cache k = none) :
    (vol.readRun keep i j).2 = blocksOf flat i j ∧ (vol.readRun keep i j).1.Holds flat := by
  have hblocks := h.readBlocks i (j - i)
  rw [Nat.add_sub_cancel' hij] at hblocks
  unfold Device.readRun
  by_cases hone : 1 < j - i
  · rw [if_pos hone]
    by_cases hin : i * exfatBlockSize + (j - i) * exfatBlockSize ≤ vol.stream.length
    · have hend : i * exfatBlockSize + (j - i) * exfatBlockSize = j * exfatBlockSize := by
        rw [← Nat.add_mul, Nat.add_sub_cancel' hij]
      have hs : j * exfatBlockSize ≤ sectors flat := by
        rw [hend, h.length] at hin
        unfold sectors exfatBlockSize exfatSector at *
        omega
      -- no block of the run is kept, so none is still to be written
      have hdata : slice vol.stream (i * exfatBlockSize) (j * exfatBlockSize) = blocksOf flat i j := by
        unfold blocksOf
        rw [slice_take_sectors hs]
        apply List.ext_getElem?
        intro k
        rw [getElem?_slice, getElem?_slice]
        split
        next hk =>
          refine h.stream _ (Or.inl ⟨fun hd => ?_, not_false⟩)
          have hkept := h.dirty _ hd
          rw [hnone _ (by unfold exfatBlockSize at *; omega)
            (by unfold exfatBlockSize at *; omega)] at hkept
          exact absurd hkept (by simp)
        · rfl
      rw [rawRead_of_le hin, hend, hdata]
      simp only
      split
      · exact ⟨rfl, h.keepBlocks (by rw [Nat.add_sub_cancel' hij])⟩
      · exact ⟨rfl, h⟩
    · rw [rawRead_of_lt (Nat.lt_of_not_le hin) (by unfold exfatBlockSize; omega)]
      exact hblocks
  · rw [if_neg hone]
    exact hblocks

theorem Agrees.readFrom (keep : Bool) (hi n i : ℕ) (h : vol.Holds flat) (hn : hi ≤ i + n)
    (hi' : i ≤ hi) :
    (Device.readFrom keep hi n vol i).2 = blocksOf flat i hi ∧
      (Device.readFrom keep hi n vol i).1.Holds flat := by
  induction n generalizing vol i with
  | zero =>
      obtain rfl : i = hi := by omega
      exact ⟨(blocksOf_self flat i).symm, h⟩
  | succ n ih =>
      unfold Device.readFrom
      by_cases hend : hi ≤ i
      · obtain rfl : i = hi := by omega
        rw [if_pos hend]
        exact ⟨(blocksOf_self flat i).symm, h⟩
      · rw [if_neg hend]
        cases hc : vol.cache i with
        | some data =>
            obtain ⟨hrest, hnext⟩ := ih (i + 1) h (by omega) (by omega)
            simp only
            refine ⟨?_, hnext⟩
            rw [hrest, h.kept i data hc]
            exact blocksOf_append flat (Nat.le_succ i) (by omega)
        | none =>
            obtain ⟨hle, hnone⟩ := unkept_spec vol (hi - (i + 1)) (i + 1)
            simp only
            generalize vol.unkept (hi - (i + 1)) (i + 1) = m at hle hnone
            obtain ⟨hdata, hout⟩ := h.readRun keep (i := i) (j := i + 1 + m) (by omega)
              (fun k hik hk => by
                by_cases he : k = i
                · rw [he, hc]
                · exact hnone k (by omega) hk)
            obtain ⟨hrest, hnext⟩ := ih (i + 1 + m) hout (by omega) (by omega)
            refine ⟨?_, hnext⟩
            rw [hdata, hrest]
            exact blocksOf_append flat (by omega) (by omega)

/-- **A read is a read of the array.** -/
theorem Agrees.read (h : vol.Holds flat) {offset len : ℕ} (hin : offset + len ≤ sectors flat)
    (keep : Bool) :
    (vol.read offset len keep).2 = slice flat offset (offset + len) ∧
      (vol.read offset len keep).1.Holds flat := by
  unfold Device.read
  simp only
  have hlo : offset / exfatBlockSize ≤
      (offset + len + (exfatBlockSize - 1)) / exfatBlockSize := Nat.div_le_div_right (by omega)
  obtain ⟨hparts, hout⟩ := h.readFrom keep _ ((offset + len + (exfatBlockSize - 1)) / exfatBlockSize
    - offset / exfatBlockSize) (offset / exfatBlockSize) (by omega) hlo
  refine ⟨?_, hout⟩
  rw [hparts]
  unfold blocksOf
  rw [slice_slice, slice_take_sectors]
  · congr 1 <;> unfold exfatBlockSize <;> omega
  · unfold exfatBlockSize
    omega
  · unfold exfatBlockSize
    omega

/-! ## Writing

A write goes through its blocks in order. Before block `k` the device stands for the array with what
is before `k` of the data written, but for the whole blocks, which are pending until the end. -/

/-- The array with what is before block `k` of the data written to it. -/
def partOf (flat : Str) (offset : ℕ) (data : Str) (k : ℕ) : Str :=
  overwrite flat offset (data.take (k * exfatBlockSize - offset))

section Write

variable {offset : ℕ} {data : Str}

theorem length_partOf (hin : offset + data.length ≤ sectors flat) (k : ℕ) :
    (partOf flat offset data k).length = flat.length := by
  have := sectors_le flat
  refine length_overwrite ?_
  rw [List.length_take]
  omega

theorem getElem?_partOf (hin : offset + data.length ≤ sectors flat) (k p : ℕ) :
    (partOf flat offset data k)[p]?
      = if offset ≤ p ∧ p < offset + data.length ∧ p < k * exfatBlockSize then data[p - offset]?
        else flat[p]? := by
  have := sectors_le flat
  unfold partOf
  rw [getElem?_overwrite (by rw [List.length_take]; omega), List.length_take]
  by_cases hp : offset ≤ p ∧ p < offset + data.length ∧ p < k * exfatBlockSize
  · rw [if_pos (by omega), if_pos hp, List.getElem?_take_of_lt (by omega)]
  · rw [if_neg (by omega), if_neg hp]

/-- From one block to the next only that block of the array changes. -/
theorem partOf_succ (hin : offset + data.length ≤ sectors flat) (k p : ℕ)
    (hp : p / exfatBlockSize ≠ k ∨ sectors flat ≤ p) :
    (partOf flat offset data (k + 1))[p]? = (partOf flat offset data k)[p]? := by
  rw [getElem?_partOf hin, getElem?_partOf hin]
  refine if_congr ?_ rfl rfl
  unfold exfatBlockSize at *
  omega

/-- The block that is written: what was there before the data, the data, and what was there after
    it. -/
theorem blockOf_partOf (hin : offset + data.length ≤ sectors flat) {k first last : ℕ} {old : Str}
    (hfirst : first = max offset (k * exfatBlockSize))
    (hlast : last = min (offset + data.length) (k * exfatBlockSize + exfatBlockSize))
    (hlo : first ≤ last) (hold : old = blockOf (partOf flat offset data k) k) :
    blockOf (partOf flat offset data (k + 1)) k
      = slice old 0 (first - k * exfatBlockSize) ++ slice data (first - offset) (last - offset)
        ++ slice old (min old.length (last - k * exfatBlockSize)) old.length := by
  have hsectors : ∀ k, sectors (partOf flat offset data k) = sectors flat :=
    fun k => sectors_congr (length_partOf hin k)
  have hget : ∀ q, old[q]? = if q < exfatBlockSize ∧ k * exfatBlockSize + q < sectors flat then
      (partOf flat offset data k)[k * exfatBlockSize + q]? else none := by
    intro q
    rw [hold, blockOf, getElem?_slice_take, hsectors]
    refine if_congr ?_ rfl rfl
    rw [Nat.add_one_mul k]
    omega
  have hlen : old.length = min exfatBlockSize (sectors flat - k * exfatBlockSize) := by
    rw [hold, blockOf, length_slice_take, hsectors, Nat.add_one_mul k, Nat.add_sub_cancel_left]
  apply List.ext_getElem?
  intro q
  rw [blockOf, getElem?_slice_take, hsectors, getElem?_partOf hin, Nat.add_one_mul k]
  -- the written part is `m` bytes, `a` into the block and `d` into the data
  have hget := hget q
  rw [getElem?_partOf hin] at hget
  generalize k * exfatBlockSize = base at *
  obtain ⟨a, rfl⟩ := Nat.exists_eq_add_of_le (show base ≤ first by omega)
  obtain ⟨d, hd⟩ := Nat.exists_eq_add_of_le (show offset ≤ base + a by omega)
  obtain ⟨m, rfl⟩ := Nat.exists_eq_add_of_le hlo
  have hstart : a = 0 ∨ d = 0 := by omega
  have hstop : d + m = data.length ∨ a + m = exfatBlockSize := by omega
  have hdata : d + m ≤ data.length := by omega
  have hblock : a + m ≤ exfatBlockSize := by omega
  have hold : a + m ≤ old.length := by omega
  have hin' : q < old.length ↔ q < exfatBlockSize ∧ base + q < sectors flat := by omega
  have hlong : offset + data.length = base + a + (data.length - d) := by omega
  clear hfirst hlast hlo hlen
  rw [Nat.add_assoc base a m, Nat.add_sub_cancel_left, Nat.add_sub_cancel_left, ← Nat.add_assoc, hd,
    Nat.add_sub_cancel_left, Nat.add_assoc offset d m, Nat.add_sub_cancel_left, Nat.min_eq_right hold]
  have hleft : (slice old 0 a).length = a := by
    rw [length_slice_of_le (Nat.le_of_add_right_le hold), Nat.sub_zero]
  have hmid : (slice data d (d + m)).length = m := by
    rw [length_slice_of_le hdata, Nat.add_sub_cancel_left]
  by_cases hq : q < a
  · rw [if_pos ⟨by omega, by omega⟩, if_neg (by omega),
      List.getElem?_append_left (by rw [List.length_append]; omega),
      List.getElem?_append_left (by omega), getElem?_slice, if_pos (by omega), Nat.zero_add, hget,
      if_pos ⟨by omega, by omega⟩, if_neg (by omega)]
  by_cases hq' : q < a + m
  · rw [if_pos ⟨by omega, by omega⟩, if_pos ⟨by omega, by omega, by omega⟩,
      List.getElem?_append_left (by rw [List.length_append]; omega),
      List.getElem?_append_right (by omega), getElem?_slice, hleft, if_pos (by omega)]
    congr 1
    omega
  rw [List.getElem?_append_right (by rw [List.length_append]; omega), getElem?_slice,
    List.length_append, hleft, hmid, Nat.add_sub_cancel' (Nat.le_of_not_lt hq')]
  by_cases hend : q < old.length
  · rw [if_pos ⟨by omega, by omega⟩, if_neg (by omega), if_pos hend, hget,
      if_pos ⟨by omega, by omega⟩, if_neg (by omega)]
  · rw [if_neg (by omega), if_neg hend]

theorem Agrees.mono (h : vol.Agrees flat pending) {pending' : ℕ → Prop}
    (hp : ∀ i, pending i → pending' i) : vol.Agrees flat pending' :=
  ⟨h.length, h.kept, h.dirty, fun p hq =>
    h.stream p (hq.imp (fun hq => ⟨hq.1, fun hi => hq.2 (hp _ hi)⟩) id)⟩

/-- One block of a write. -/
theorem Agrees.writeBlock (hin : offset + data.length ≤ sectors flat) {wholeLo wholeHi k : ℕ}
    (h : vol.Agrees (partOf flat offset data k) (fun i => wholeLo ≤ i ∧ i < wholeHi ∧ i < k))
    (hlo : offset < (k + 1) * exfatBlockSize) (hhi : k * exfatBlockSize < offset + data.length) :
    (vol.writeBlock offset data wholeLo wholeHi k).Agrees (partOf flat offset data (k + 1))
      (fun i => wholeLo ≤ i ∧ i < wholeHi ∧ i < k + 1) := by
  have hlen : (partOf flat offset data (k + 1)).length = (partOf flat offset data k).length := by
    rw [length_partOf hin, length_partOf hin]
  have hsame : ∀ p, p / exfatBlockSize ≠ k ∨ sectors (partOf flat offset data k) ≤ p →
      (partOf flat offset data (k + 1))[p]? = (partOf flat offset data k)[p]? := by
    intro p hp
    rw [sectors_congr (length_partOf hin k)] at hp
    exact partOf_succ hin k p hp
  rw [Nat.add_one_mul k] at hlo
  have horder : max offset (k * exfatBlockSize) ≤
      min (offset + data.length) (k * exfatBlockSize + exfatBlockSize) := by omega
  have hblock := blockOf_partOf hin rfl rfl horder rfl
  unfold Device.writeBlock
  simp only
  split
  next hwhole =>
    refine (h.drop hlen hsame).mono (fun i hi => ?_)
    rcases hi with hi | rfl
    · exact ⟨hi.1, hi.2.1, by omega⟩
    · exact ⟨hwhole.1, hwhole.2, by omega⟩
  next hpart =>
    have hmono : ∀ i, wholeLo ≤ i ∧ i < wholeHi ∧ i < k → wholeLo ≤ i ∧ i < wholeHi ∧ i < k + 1 :=
      fun i hi => ⟨hi.1, hi.2.1, by omega⟩
    split
    next hall =>
      -- the block is all data
      have hleft : ∀ old : Str, slice old 0 (max offset (k * exfatBlockSize) - k * exfatBlockSize)
          = [] := by
        intro old
        rw [← List.length_eq_zero_iff, length_slice]
        omega
      have hright : ∀ old : Str, old.length ≤ exfatBlockSize →
          slice old (min old.length (min (offset + data.length)
            (k * exfatBlockSize + exfatBlockSize) - k * exfatBlockSize)) old.length = [] := by
        intro old hold
        rw [← List.length_eq_zero_iff, length_slice]
        omega
      rw [hleft, hright _ (by
        rw [blockOf, length_slice_take, Nat.add_one_mul k]
        omega), List.nil_append, List.append_nil] at hblock
      rw [← hblock]
      exact (h.keepDirty hlen hsame).mono hmono
    next =>
      obtain ⟨hold, hout⟩ := h.block k (fun hk => absurd hk.2.2 (lt_irrefl k))
      rw [hold, ← hblock]
      exact (hout.keepDirty hlen hsame).mono hmono

/-- **A write is a write to the array.** -/
theorem Agrees.write (h : vol.Holds flat) (hin : offset + data.length ≤ sectors flat) :
    (vol.write offset data).Holds (overwrite flat offset data) := by
  have hs := sectors_le flat
  have hfold : ∀ (wholeLo wholeHi n k : ℕ) (out : Device), offset < (k + 1) * exfatBlockSize →
      (k + n) * exfatBlockSize < offset + data.length + exfatBlockSize ∨ n = 0 →
      out.Agrees (partOf flat offset data k) (fun i => wholeLo ≤ i ∧ i < wholeHi ∧ i < k) →
      ((List.range' k n).foldl (fun out index => out.writeBlock offset data wholeLo wholeHi index)
        out).Agrees (partOf flat offset data (k + n))
          (fun i => wholeLo ≤ i ∧ i < wholeHi ∧ i < k + n) := by
    intro wholeLo wholeHi n
    induction n with
    | zero => exact fun k out _ _ hout => hout
    | succ n ih =>
        intro k out hlo hhi hout
        obtain ⟨hk, hlo', hhi'⟩ : k * exfatBlockSize < offset + data.length ∧
            offset < (k + 1 + 1) * exfatBlockSize ∧
            ((k + 1 + n) * exfatBlockSize < offset + data.length + exfatBlockSize ∨ n = 0) := by
          clear ih hout
          unfold exfatBlockSize at *
          omega
        have hnext := ih (k + 1) _ hlo' hhi' (hout.writeBlock hin hlo hk)
        rw [Nat.add_right_comm] at hnext
        exact hnext
  unfold Device.write
  simp only
  set lo := offset / exfatBlockSize with hlo
  set hi := (offset + data.length + (exfatBlockSize - 1)) / exfatBlockSize with hhi
  set wholeLo := (offset + (exfatBlockSize - 1)) / exfatBlockSize with hwholeLo
  set wholeHi := (if (offset + data.length) / exfatBlockSize - wholeLo < exfatDirectBlocks then
    wholeLo else (offset + data.length) / exfatBlockSize) with hwholeHi
  have hstart : partOf flat offset data lo = flat := by
    unfold partOf
    rw [Nat.sub_eq_zero_of_le (by unfold exfatBlockSize at *; omega), List.take_zero,
      overwrite_nil]
  have hend : partOf flat offset data (lo + (hi - lo)) = overwrite flat offset data := by
    unfold partOf
    rw [List.take_of_length_le (by unfold exfatBlockSize at *; omega)]
  have hall := hfold wholeLo wholeHi (hi - lo) lo vol (by unfold exfatBlockSize at *; omega)
    (by unfold exfatBlockSize at *; omega)
    (hstart.symm ▸ h.mono (fun i hi => absurd hi not_false))
  rw [hend] at hall
  have hlen : (overwrite flat offset data).length = flat.length := length_overwrite (by omega)
  split
  next hwhole =>
    have hwhole' : wholeHi = (offset + data.length) / exfatBlockSize := by
      rw [hwholeHi]
      split
      next hfew => rw [if_pos hfew] at hwholeHi; omega
      · rfl
    have hpart : slice data (wholeLo * exfatBlockSize - offset) (wholeHi * exfatBlockSize - offset)
        = slice ((overwrite flat offset data).take (sectors (overwrite flat offset data)))
          (wholeLo * exfatBlockSize) (wholeHi * exfatBlockSize) := by
      have hbound : wholeHi * exfatBlockSize ≤ offset + data.length := by
        unfold exfatBlockSize at *
        omega
      have hbase : offset ≤ wholeLo * exfatBlockSize := by
        unfold exfatBlockSize at *
        omega
      rw [slice_take_sectors (by rw [sectors_congr hlen]; omega)]
      apply List.ext_getElem?
      intro k
      rw [getElem?_slice, getElem?_slice, getElem?_overwrite (by omega)]
      by_cases hk : wholeLo * exfatBlockSize + k < wholeHi * exfatBlockSize
      · rw [if_pos (by omega), if_pos hk, if_pos (by omega)]
        congr 1
        omega
      · rw [if_neg (by omega), if_neg hk]
    rw [hpart]
    refine ⟨?_, hall.kept, hall.dirty, fun p hp => ?_⟩
    · exact length_overwrite_slice hall.length _ _
    · show (overwrite _ _ _)[p]? = _
      rw [getElem?_overwrite_slice hall.length]
      split
      · rfl
      next hout =>
        by_cases hps : sectors (overwrite flat offset data) ≤ p
        · exact hall.stream p (Or.inr hps)
        · refine hall.stream p (Or.inl ⟨(hp.resolve_right hps).1, fun hpend => hout ?_⟩)
          unfold exfatBlockSize at *
          omega
  next hwhole =>
    exact hall.mono (fun i hi => by omega)

end Write

end Device

/-! ## Every run -/

/-- What the rest of the file system does to the device. -/
inductive DeviceOp
  | read (offset len : ℕ) (keep : Bool)
  | write (offset : ℕ) (data : Str)
  | flush
  | sync

/-- What is read or written is among the first `n` bytes. -/
def DeviceOp.Within (n : ℕ) : DeviceOp → Prop
  | .read offset len _ => offset + len ≤ n
  | .write offset data => offset + data.length ≤ n
  | .flush => True
  | .sync => True

instance (n : ℕ) : (op : DeviceOp) → Decidable (op.Within n)
  | .read offset len _ => inferInstanceAs (Decidable (offset + len ≤ n))
  | .write offset data => inferInstanceAs (Decidable (offset + data.length ≤ n))
  | .flush => instDecidableTrue
  | .sync => instDecidableTrue

namespace Device

/-- What the device does, and what is read. -/
def act (vol : Device) : DeviceOp → Device × Option Str
  | .read offset len keep => ((vol.read offset len keep).1, some (vol.read offset len keep).2)
  | .write offset data => (vol.write offset data, none)
  | .flush => (vol.flush, none)
  | .sync => (vol.sync, none)

/-- The same of a flat array, where nothing is kept and so there is nothing to flush. -/
def flatAct (flat : Str) : DeviceOp → Str × Option Str
  | .read offset len _ => (flat, some (slice flat offset (offset + len)))
  | .write offset data => (overwrite flat offset data, none)
  | .flush => (flat, none)
  | .sync => (flat, none)

/-- The device stands for the array, of so many bytes in whole sectors. -/
def Stands (n : ℕ) (vol : Device) (flat : Str) : Prop := vol.Holds flat ∧ sectors flat = n

theorem Stands.act {vol : Device} {flat : Str} {n : ℕ} (h : vol.Stands n flat) {op : DeviceOp}
    (hop : op.Within n) :
    (vol.act op).2 = (flatAct flat op).2 ∧ (vol.act op).1.Stands n (flatAct flat op).1 := by
  obtain ⟨hvol, rfl⟩ := h
  cases op with
  | read offset len keep =>
      obtain ⟨hdata, hout⟩ := hvol.read hop keep
      exact ⟨congrArg some hdata, hout, rfl⟩
  | write offset data =>
      have hs := sectors_le flat
      have hin : offset + data.length ≤ sectors flat := hop
      exact ⟨rfl, hvol.write hin, sectors_congr (length_overwrite (by omega))⟩
  | flush => exact ⟨rfl, hvol.flush, rfl⟩
  | sync => exact ⟨rfl, hvol.flush, rfl⟩

/-- **The cache is transparent**: in every run of reads, writes, flushes and syncs within the whole
    sectors of the device, what is read is what is read of a flat array with the same writes, and
    a sync then leaves the device with that array. -/
theorem transparent (stream : Str) (ops : List DeviceOp)
    (hops : ∀ op ∈ ops, op.Within (sectors stream)) :
    Run.answers act (mount stream) ops = Run.answers flatAct stream ops ∧
      (Run.run (fun vol op => (act vol op).1) (mount stream) ops).sync.stream
        = Run.run (fun flat op => (flatAct flat op).1) stream ops := by
  have hstart : (mount stream).Stands (sectors stream) stream := ⟨agrees_mount stream, rfl⟩
  have hsim : ∀ (vol : Device) (flat : Str) (op : DeviceOp), vol.Stands (sectors stream) flat →
      op.Within (sectors stream) → (vol.act op).2 = (flatAct flat op).2 ∧
        (vol.act op).1.Stands (sectors stream) (flatAct flat op).1 :=
    fun vol flat op h hop => h.act hop
  obtain ⟨hanswers, hend⟩ := Run.answers_eq_of_sim hsim hstart hops
  exact ⟨hanswers, hend.1.stream_flush⟩

/-- A song across the end of the first block of a device, and a sector of it is the last. -/
def songAcross : List DeviceOp :=
  [.write 4093 (asc "a song"), .read 4095 4 false, .sync, .read 4090 6 true]

theorem transparent_songAcross :
    Run.answers act (mount (List.replicate 4608 0)) songAcross
      = [none, some (asc "song"), none, some [0, 0, 0, 97, 32, 115]] := by
  have hops : ∀ op ∈ songAcross, op.Within (sectors (List.replicate 4608 0)) := by decide +kernel
  exact (transparent (List.replicate 4608 0) songAcross hops).1.trans (by decide +kernel)

end Device

end ChrysaLisp
