import ChrysaLisp.Storage.Mesh

set_option autoImplicit false

/-! # Do the path maps of a mesh come to the same

When meeting changes nothing more, two stores have for a path entries of the same counts, object,
copies and members (`settled`): each of the ways `store-meet` has of setting two entries against
each other changes one side or the other until that is so. The one field no branch reconciles is
the writer. Two entries that differ in it alone are the one entry to `store-meet`, so once two
stores hold such twins they differ for ever, and so do their digests.

A twin comes of a conflict. Two members that write the same object to a path apart each keep the
other's entry when they meet each other's list at the same time, with the counts of both
(`converge_fails`). In a run that makes no twin, all the stores agree when they are quiet
(`agree_of_quiet`). -/

namespace ChrysaLisp

/-! ## What two entries are when they have nothing to tell each other -/

/-- Of one path, with the same counts, object and copies: the one entry to `store-meet`. -/
structure Twin (a b : Entry) : Prop where
  path : a.path = b.path
  vv : a.vv = b.vv
  hash : a.hash = b.hash
  copies : a.copies = b.copies

theorem Twin.symm {a b : Entry} (h : Twin a b) : Twin b a :=
  ⟨h.path.symm, h.vv.symm, h.hash.symm, h.copies.symm⟩

theorem Twin.trans {a b c : Entry} (h : Twin a b) (h' : Twin b c) : Twin a c :=
  ⟨h.path.trans h'.path, h.vv.trans h'.vv, h.hash.trans h'.hash, h.copies.trans h'.copies⟩

/-- The same but for who is known to have it: a twin in every other field too. -/
structure Like (a b : Entry) : Prop extends Twin a b where
  bytes : a.bytes = b.bytes
  writer : a.writer = b.writer
  deleted : a.deleted = b.deleted

theorem Like.refl (a : Entry) : Like a a := ⟨⟨rfl, rfl, rfl, rfl⟩, rfl, rfl, rfl⟩

theorem Like.symm {a b : Entry} (h : Like a b) : Like b a :=
  ⟨h.toTwin.symm, h.bytes.symm, h.writer.symm, h.deleted.symm⟩

theorem Like.trans {a b c : Entry} (h : Like a b) (h' : Like b c) : Like a c :=
  ⟨h.toTwin.trans h'.toTwin, h.bytes.trans h'.bytes, h.writer.trans h'.writer,
    h.deleted.trans h'.deleted⟩

theorem like_taken (me : Str) (theirs : Entry) : Like (taken me theirs) theirs :=
  ⟨⟨rfl, rfl, rfl, rfl⟩, rfl, rfl, rfl⟩

section Settled

variable {members : List Str} {me me' : Str} {a b : Entry}

/-- An entry that comes after another is taken, and is not what was there. -/
theorem cmp_ne_after (ha : Store.EntrySound a) (hb : Store.EntrySound b)
    (h : (meetNow members me a b).getD b = b) : storeVvCmp a.vv b.vv ≠ .after := by
  intro hcmp
  have hvv : a.vv = b.vv := by
    have hb' : taken me a = b := by simpa [meetNow, hcmp] using h
    have hvv' : (taken me a).vv = b.vv := congrArg Entry.vv hb'
    exact hvv'
  have hsame := (storeVvCmp_same_iff ha.vv hb.vv).2 hvv
  rw [hcmp] at hsame
  exact absurd hsame (by simp)

/-- Two written apart come to counts that neither had. -/
theorem cmp_ne_apart (ha : Store.EntrySound a) (hb : Store.EntrySound b)
    (h : (meetNow members me a b).getD b = b) : storeVvCmp a.vv b.vv ≠ .apart := by
  intro hcmp
  have hres : resolved members me a b = b := by simpa [meetNow_of_conflict (Or.inl hcmp)] using h
  have hvv : storeVvMerge a.vv b.vv = b.vv := congrArg Entry.vv hres
  have hle : VvLe a.vv b.vv := hvv ▸ vvLe_merge_left ha.vv hb.vv
  exact ((storeVvCmp_apart_iff ha.vv hb.vv).1 hcmp).1 hle

/-- So when neither is changed by the other the counts are the same. -/
theorem vv_eq_of_settled (ha : Store.EntrySound a) (hb : Store.EntrySound b)
    (h : (meetNow members me a b).getD b = b) (h' : (meetNow members me' b a).getD a = a) :
    a.vv = b.vv := by
  rw [← storeVvCmp_same_iff ha.vv hb.vv]
  have h1 := cmp_ne_after ha hb h
  have h2 := cmp_ne_apart ha hb h
  have h3 : storeVvCmp a.vv b.vv ≠ .before := by
    intro hcmp
    refine cmp_ne_after hb ha h' ?_
    rw [storeVvCmp_before_iff ha.vv hb.vv] at hcmp
    exact (storeVvCmp_after_iff hb.vv ha.vv).2 hcmp
  cases hc : storeVvCmp a.vv b.vv with
  | same => rfl
  | after => exact absurd hc h1
  | before => exact absurd hc h3
  | apart => exact absurd hc h2

/-- Of two with the same counts and another object or copies, one side or the other changes. -/
theorem sameEntry_of_settled (hvv : storeVvCmp a.vv b.vv = .same)
    (hvv' : storeVvCmp b.vv a.vv = .same)
    (h : (meetNow members me a b).getD b = b) (h' : (meetNow members me' b a).getD a = a) :
    sameEntry a b := by
  by_contra hne
  have hne' : ¬ sameEntry b a := fun hs => hne ⟨hs.1.symm, hs.2.symm⟩
  have hres : resolved members me a b = b := by
    simpa [meetNow_of_conflict (Or.inr ⟨hvv, hne⟩)] using h
  have hres' : resolved members me' b a = a := by
    simpa [meetNow_of_conflict (Or.inr ⟨hvv', hne'⟩)] using h'
  have hb : (resolved members me a b).hash = b.hash := by rw [hres]
  have ha : (resolved members me' b a).hash = a.hash := by rw [hres']
  have hcb : (resolved members me a b).copies = b.copies := by rw [hres]
  have hca : (resolved members me' b a).copies = a.copies := by rw [hres']
  simp only [resolved] at ha hb hcb hca
  have hcopies : a.copies = b.copies := by omega
  -- the copies are the same, so the objects are not, and both sides choose the same one
  have hhash : a.hash ≠ b.hash := fun he => hne ⟨he, hcopies⟩
  rw [storeKeeps_comm members hhash, ha] at hb
  exact hhash hb

/-- **Settled.** Two entries of a path that are not changed, either of them, by meeting the other
    are of the same counts, object, copies and members. -/
theorem settled (ha : Store.EntrySound a) (hb : Store.EntrySound b) (hpath : a.path = b.path)
    (h : (meetNow members me a b).getD b = b) (h' : (meetNow members me' b a).getD a = a) :
    Twin a b ∧ a.seen = b.seen := by
  have hvv := vv_eq_of_settled ha hb h h'
  have hab := (storeVvCmp_same_iff ha.vv hb.vv).2 hvv
  have hba := (storeVvCmp_same_iff hb.vv ha.vv).2 hvv.symm
  have hsame := sameEntry_of_settled hab hba h h'
  have hsame' : sameEntry b a := ⟨hsame.1.symm, hsame.2.symm⟩
  have hseen : ∀ {x y : Entry} {m : Str}, Store.EntrySound y →
      storeVvCmp x.vv y.vv = .same → sameEntry x y → (meetNow members m x y).getD y = y →
      ∀ who ∈ x.seen, who ∈ y.seen := by
    intro x y m hy hcmp hs hm
    refine subset_of_length_storeSeen hy.seen ?_
    simp only [meetNow, hcmp, hs, and_self, if_true] at hm
    split at hm
    · assumption
    · have := congrArg Entry.seen hm
      simp only [Option.getD_some] at this
      rw [this]
  refine ⟨⟨hpath, hvv, hsame.1, hsame.2⟩, ?_⟩
  exact ha.seen.ext hb.seen (fun who =>
    ⟨hseen hb hab hsame h who, hseen ha hba hsame' h' who⟩)

end Settled

/-! ## The entries a step makes -/

/-- The entries a meeting makes that no store had: what a conflict comes to, and what is set
    aside. The rest it takes as they are, but for who is known to have them. -/
def meetMakes (members : List Str) (me : Str) : PathMap → List Entry → List Entry
  | _, [] => []
  | map, t :: es =>
      (match map.lookup t.path with
        | some mine =>
            if conflict t mine then
              resolved members me t mine :: (putAside map (meetAside members me t mine)).2
            else []
        | none => []) ++ meetMakes members me (meetOne members me map t).1 es

section Provenance

variable {members : List Str} {me : Str} {map : PathMap}

theorem like_meetNow {t mine now : Entry} (h : meetNow members me t mine = some now) :
    Like now t ∨ Like now mine ∨ (conflict t mine ∧ now = resolved members me t mine) := by
  by_cases hc : conflict t mine
  · rw [meetNow_of_conflict hc] at h
    exact Or.inr (Or.inr ⟨hc, (Option.some.inj h).symm⟩)
  · unfold meetNow at h
    split at h
    · rw [← Option.some.inj h]
      exact Or.inl (like_taken me t)
    · exact absurd h (by simp)
    next hnafter hnbefore =>
      rcases not_conflict_iff.1 hc with hcmp | hcmp | ⟨hcmp, hs⟩
      · exact absurd hcmp hnafter
      · exact absurd hcmp hnbefore
      · simp only [hcmp, hs, and_self, if_true] at h
        split at h
        · exact absurd h (by simp)
        · rw [← Option.some.inj h]
          exact Or.inr (Or.inl ⟨⟨rfl, rfl, rfl, rfl⟩, rfl, rfl, rfl⟩)

/-- Every entry after a meeting is one that was there, one of theirs, or one that was made. -/
theorem meetAll_provenance (hkeyed : map.Keyed) {es : List Entry} {p : Str} {e : Entry}
    (he : (meetAll members me map es).1.lookup p = some e) :
    ∃ e₀, Like e e₀ ∧ (map.lookup p = some e₀ ∨ e₀ ∈ es ∨ e₀ ∈ meetMakes members me map es) := by
  induction es generalizing map with
  | nil => exact ⟨e, Like.refl e, Or.inl he⟩
  | cons t es ih =>
      rw [meetAll_cons] at he
      obtain ⟨e₁, hlike, h₁ | h₁ | h₁⟩ := ih (keyed_meetOne members me hkeyed) he
      · -- an entry of the map after `t` was met
        cases hm : map.lookup p with
        | none =>
            rcases lookup_meetOne_new members me hkeyed hm h₁ with ⟨rfl, rfl⟩ | ⟨-, mine, hmine, ha⟩
            · exact ⟨t, hlike.trans (like_taken me t), Or.inr (Or.inl List.mem_cons_self)⟩
            · refine ⟨e₁, hlike, Or.inr (Or.inr ?_)⟩
              have hnone : map.lookup e₁.path = none := by
                rw [keyed_meetOne members me hkeyed p e₁ h₁]
                exact hm
              unfold meetMakes
              rw [hmine]
              simp only [(meetAside_eq_some ha).1, if_true, ha, putAside, hnone, Option.isSome_none,
                Bool.false_eq_true, if_false]
              exact List.mem_append_left _ (List.mem_cons_of_mem _ List.mem_cons_self)
        | some old =>
            by_cases hp : p = t.path
            · subst hp
              rw [lookup_meetOne_self members me (hkeyed _ _ hm) hm] at h₁
              cases hnow : meetNow members me t old with
              | none =>
                  rw [hnow] at h₁
                  exact ⟨e₁, hlike, Or.inl h₁⟩
              | some now =>
                  rw [hnow] at h₁
                  obtain rfl := Option.some.inj h₁
                  rcases like_meetNow hnow with h | h | ⟨hc, h⟩
                  · exact ⟨t, hlike.trans h, Or.inr (Or.inl List.mem_cons_self)⟩
                  · exact ⟨old, hlike.trans h, Or.inl rfl⟩
                  · refine ⟨now, hlike, Or.inr (Or.inr ?_)⟩
                    unfold meetMakes
                    rw [hm]
                    simp only [hc, if_true, ← h]
                    exact List.mem_append_left _ List.mem_cons_self
            · rw [lookup_meetOne_ne members me hkeyed hp hm] at h₁
              exact ⟨e₁, hlike, Or.inl h₁⟩
      · exact ⟨e₁, hlike, Or.inr (Or.inl (List.mem_cons_of_mem _ h₁))⟩
      · refine ⟨e₁, hlike, Or.inr (Or.inr ?_)⟩
        unfold meetMakes
        exact List.mem_append_right _ h₁

end Provenance

namespace Mesh

variable {ι : Type} [DecidableEq ι] (sha256 : Str → Str)

/-- The entries an event makes that no store had. -/
def makes (mesh : Mesh ι) : MeshEvent ι → List Entry
  | .write i w =>
      match ((mesh.stores i).write sha256 w).1 with
      | .ok entry => [entry]
      | _ => []
  | .meet i k =>
      meetMakes (mesh.stores i).memberList (mesh.stores i).member (mesh.stores i).map (mesh.list k)
  | _ => []

/-- A mesh, and every entry any of its stores has held so far in the run. -/
structure Traced (ι : Type) where
  mesh : Mesh ι
  past : Set Entry

/-- What is held now by some store. -/
def holds (mesh : Mesh ι) : Set Entry :=
  {e | ∃ i, (mesh.stores i).map.lookup e.path = some e}

/-- A run is traced by what its stores come to hold. -/
def Traced.step (t : Traced ι) (e : MeshEvent ι) : Traced ι :=
  ⟨t.mesh.step sha256 e, t.past ∪ (t.mesh.step sha256 e).holds⟩

/-- **No twin is made**: no write, resolution or setting aside makes an entry that has the path,
    the counts, the object and the copies of one some store has held before, and another writer
    (or size, or deleted mark). -/
def NoTwin (t : Traced ι) (e : MeshEvent ι) : Prop :=
  ∀ made ∈ t.mesh.makes sha256 e, ∀ old ∈ t.past, Twin made old → Like made old

/-- Of the entries held so far, those that are the one entry to `store-meet` are so in every other
    field, and what is held or in flight is among them. -/
structure TwinFree (t : Traced ι) : Prop where
  sound : t.mesh.Sound sha256
  held : t.mesh.holds ⊆ t.past
  listed : ∀ l ∈ t.mesh.lists, ∀ e ∈ l, e ∈ t.past
  like : ∀ a ∈ t.past, ∀ b ∈ t.past, Twin a b → Like a b

variable {sha256}

/-- What a store holds after an event is, but for who is known to have it, what it held, what is
    in flight, or what the event makes. -/
theorem holds_step {mesh : Mesh ι} (h : mesh.Sound sha256) (e : MeshEvent ι) {i : ι} {p : Str}
    {x : Entry} (hx : ((mesh.step sha256 e).stores i).map.lookup p = some x) :
    ∃ x₀, Like x x₀ ∧ ((mesh.stores i).map.lookup p = some x₀ ∨ (∃ l ∈ mesh.lists, x₀ ∈ l) ∨
      x₀ ∈ mesh.makes sha256 e) := by
  cases e with
  | write j w =>
      by_cases hij : i = j
      · subst hij
        simp only [step, setStore_self] at hx
        rcases (mesh.stores i).write_cases sha256 w with ⟨h2, -⟩ | ⟨hs, sz, d, c, h1, h2⟩
        · rw [h2] at hx
          exact ⟨x, Like.refl x, Or.inl hx⟩
        · rw [h2] at hx
          by_cases hp : p = ((mesh.stores i).setEntry w.path hs sz d c).path
          · have hput := lookup_put_self (mesh.stores i).map ((mesh.stores i).setEntry w.path hs sz d c)
            rw [← hp] at hput
            simp only [Store.wrote] at hx
            refine ⟨x, Like.refl x, Or.inr (Or.inr ?_)⟩
            simp only [makes, h1, Option.some.inj (hx.symm.trans hput), List.mem_singleton]
          · simp only [Store.wrote] at hx
            rw [lookup_put_ne hp] at hx
            exact ⟨x, Like.refl x, Or.inl hx⟩
      · simp only [step] at hx
        rw [setStore_ne mesh _ hij] at hx
        exact ⟨x, Like.refl x, Or.inl hx⟩
  | take j => exact ⟨x, Like.refl x, Or.inl hx⟩
  | meet j k =>
      by_cases hij : i = j
      · subst hij
        simp only [step, setStore_self, Store.meet] at hx
        obtain ⟨x₀, hlike, h0 | h0 | h0⟩ := meetAll_provenance (h.map i).keyed hx
        · exact ⟨x₀, hlike, Or.inl h0⟩
        · refine ⟨x₀, hlike, Or.inr (Or.inl ?_)⟩
          unfold Mesh.list at h0
          rw [List.getD_eq_getElem?_getD] at h0
          cases hk : mesh.lists[k]? with
          | none => simp [hk] at h0
          | some l => exact ⟨l, List.mem_of_getElem? hk, by simpa [hk] using h0⟩
        · exact ⟨x₀, hlike, Or.inr (Or.inr h0)⟩
      · simp only [step] at hx
        rw [setStore_ne mesh _ hij] at hx
        exact ⟨x, Like.refl x, Or.inl hx⟩
  | digest j =>
      refine ⟨x, Like.refl x, Or.inl ?_⟩
      by_cases hij : i = j
      · subst hij
        simp only [step, setStore_self] at hx
        unfold Store.digestOf at hx
        split at hx <;> exact hx
      · simp only [step] at hx
        rwa [setStore_ne mesh _ hij] at hx

/-- A store an event is not of is as it was. -/
theorem step_stores_ne (mesh : Mesh ι) (e : MeshEvent ι) {i j : ι} (hij : i ≠ j)
    (h : ∃ x, x ∉ mesh.holds ∧ ((mesh.step sha256 e).stores i).map.lookup x.path = some x) :
    (mesh.step sha256 e).stores j = mesh.stores j := by
  obtain ⟨x, hnot, hx⟩ := h
  have hne : (mesh.step sha256 e).stores i ≠ mesh.stores i := fun he =>
    hnot ⟨i, by rw [← he]; exact hx⟩
  cases e with
  | take k => rfl
  | write k w | meet k l | digest k =>
      have hik : i = k := by
        by_contra hik
        exact hne (setStore_ne mesh _ hik)
      subst hik
      exact setStore_ne mesh _ hij.symm

theorem twinFree_step {t : Traced ι} (h : TwinFree sha256 t) (e : MeshEvent ι)
    (hno : NoTwin sha256 t e) : TwinFree sha256 (t.step sha256 e) := by
  -- an entry held after the event, against one held before it
  have hold : ∀ i x, ((t.mesh.step sha256 e).stores i).map.lookup x.path = some x →
      ∀ y ∈ t.past, Twin x y → Like x y := by
    intro i x hx y hy htwin
    obtain ⟨x₀, hlike, h0 | ⟨l, hl, h0⟩ | h0⟩ := holds_step h.sound e hx
    all_goals have htwin₀ : Twin x₀ y := hlike.toTwin.symm.trans htwin
    · have hheld : x₀ ∈ t.mesh.holds := ⟨i, by rw [← hlike.path]; exact h0⟩
      exact hlike.trans (h.like x₀ (h.held hheld) y hy htwin₀)
    · exact hlike.trans (h.like x₀ (h.listed l hl x₀ h0) y hy htwin₀)
    · exact hlike.trans (hno x₀ h0 y hy htwin₀)
  refine ⟨sound_step h.sound e, Set.subset_union_right, ?_, ?_⟩
  · intro l hl x hx
    cases e with
    | take i =>
        rcases List.mem_append.1 hl with hl | hl
        · exact Or.inl (h.listed l hl x hx)
        · rw [List.mem_singleton.1 hl] at hx
          have := (PathMap.mem_inOrder (h.sound.map i).keyed).1 hx
          exact Or.inl (h.held ⟨i, this⟩)
    | write i w => exact Or.inl (h.listed l hl x hx)
    | meet i k => exact Or.inl (h.listed l hl x hx)
    | digest i => exact Or.inl (h.listed l hl x hx)
  · rintro a (ha | ⟨i, ha⟩) b (hb | ⟨j, hb⟩) htwin
    · exact h.like a ha b hb htwin
    · exact (hold j b hb a ha htwin.symm).symm
    · exact hold i a ha b hb htwin
    · by_cases hij : i = j
      · subst hij
        rw [htwin.path, hb] at ha
        rw [Option.some.inj ha]
        exact Like.refl a
      · -- two stores: one of the two is not the event's, and holds what it held
        by_cases hin : a ∈ t.mesh.holds
        · exact (hold j b hb a (h.held hin) htwin.symm).symm
        · have hj := step_stores_ne t.mesh e hij ⟨a, hin, ha⟩
          rw [hj] at hb
          exact hold i a ha b (h.held ⟨j, hb⟩) htwin

theorem traced_mesh (t : Traced ι) (es : List (MeshEvent ι)) :
    (Run.run (Traced.step sha256) t es).mesh = Run.run (step sha256) t.mesh es := by
  induction es generalizing t with
  | nil => rfl
  | cons e es ih => exact ih (t.step sha256 e)

/-! ## Quiet stores -/

omit [DecidableEq ι] in
/-- In a sound mesh that is quiet, no two stores' entries for a path change each other, and no
    store lacks a path another has. -/
theorem Quiet.entry {mesh : Mesh ι} (hs : mesh.Sound sha256) (hq : mesh.Quiet) {i j : ι}
    (hij : i ≠ j) {p : Str} {b : Entry} (hb : (mesh.stores j).map.lookup p = some b) :
    ∃ a, (mesh.stores i).map.lookup p = some a ∧
      (meetNow (mesh.stores i).memberList (mesh.stores i).member b a).getD a = a := by
  have hkeyed := (hs.map j).keyed
  have hpath := hkeyed p b hb
  subst hpath
  have hmem : b ∈ (mesh.stores j).entries := (PathMap.mem_inOrder hkeyed).2 hb
  have hsame := hq i j hij b.path
  simp only [Store.meet] at hsame
  unfold Store.entries at hsame hmem
  cases ha : (mesh.stores i).map.lookup b.path with
  | none =>
      rw [ha] at hsame
      have := lookup_meetAll_isSome (mesh.stores i).memberList (mesh.stores i).member (hs.map i).keyed
        (Or.inr ⟨b, hmem, rfl⟩)
      rw [hsame] at this
      exact absurd this (by simp)
  | some a =>
      refine ⟨a, rfl, ?_⟩
      rw [lookup_meetAll_mem (hs.map i).keyed (PathMap.nodup_inOrder hkeyed) hmem ha, ha] at hsame
      exact Option.some.inj hsame

/-- Quiet stores whose twins are alike hold the same entries. -/
theorem lookup_eq_of_quiet {mesh : Mesh ι} (hs : mesh.Sound sha256) (hq : mesh.Quiet)
    (hlike : ∀ a ∈ mesh.holds, ∀ b ∈ mesh.holds, Twin a b → Like a b) (i j : ι) (p : Str) :
    (mesh.stores i).map.lookup p = (mesh.stores j).map.lookup p := by
  by_cases hij : i = j
  · rw [hij]
  · have hlist : (mesh.stores i).memberList = (mesh.stores j).memberList := by
      unfold Store.memberList
      rw [hs.members i j, hs.retired i j]
    cases hb : (mesh.stores j).map.lookup p with
    | none =>
        cases ha : (mesh.stores i).map.lookup p with
        | none => rfl
        | some a =>
            obtain ⟨b, hb', -⟩ := Quiet.entry hs hq (Ne.symm hij) ha
            rw [hb] at hb'
            exact absurd hb' (by simp)
    | some b =>
        obtain ⟨a, ha, hab⟩ := Quiet.entry hs hq hij hb
        obtain ⟨b', hb', hba⟩ := Quiet.entry hs hq (Ne.symm hij) ha
        obtain rfl : b = b' := Option.some.inj (hb.symm.trans hb')
        rw [← hlist] at hba
        have hpa := (hs.map i).keyed p a ha
        have hpb := (hs.map j).keyed p b hb
        have hsa := (hs.map i).entry p a ha
        have hsb := (hs.map j).entry p b hb
        obtain ⟨htwin, hseen⟩ := settled hsb hsa (hpb.trans hpa.symm) hab hba
        have hall := hlike b ⟨j, by rw [hpb]; exact hb⟩ a ⟨i, by rw [hpa]; exact ha⟩ htwin
        have heq : a = b := by
          cases a; cases b
          simp only [Entry.mk.injEq]
          exact ⟨htwin.path.symm, htwin.hash.symm, hall.bytes.symm, htwin.vv.symm,
            hall.writer.symm, hseen.symm, hall.deleted.symm, htwin.copies.symm⟩
        rw [ha, heq]

omit [DecidableEq ι] in
/-- The digest asked of a store is that of what it holds. -/
theorem digestOf_eq {mesh : Mesh ι} (hs : mesh.Sound sha256) (i : ι) :
    ((mesh.stores i).digestOf sha256).1 = sha256 (mesh.stores i).digestText := by
  unfold Store.digestOf
  split
  next d hd => exact hs.digest i d hd
  · rfl

omit [DecidableEq ι] in
theorem agree_of_lookup {mesh : Mesh ι} (hs : mesh.Sound sha256)
    (h : ∀ i j p, (mesh.stores i).map.lookup p = (mesh.stores j).map.lookup p) :
    mesh.Agree sha256 := by
  refine fun i j => ⟨h i j, ?_⟩
  rw [digestOf_eq hs, digestOf_eq hs,
    Store.digestText_congr (PathMap.perm_of_lookup (h i j)) (hs.members i j) (hs.retired i j)
      (hs.pinned i j)]

/-- **Convergence, where no twin is made.** Any number of stores opened with the same members and
    retired, and any run of writes and meetings of lists taken at any time before, none of which
    makes a twin: if then meeting any store's entries into any other changes nothing, all the
    stores hold the same entries and have the same digest. -/
theorem agree_of_quiet {mesh : Mesh ι} (hopen : mesh.Opened) {es : List (MeshEvent ι)}
    (hno : Run.Each (Traced.step sha256) (NoTwin sha256) ⟨mesh, ∅⟩ es)
    (hq : (Run.run (step sha256) mesh es).Quiet) : (Run.run (step sha256) mesh es).Agree sha256 := by
  have hstart : TwinFree sha256 (⟨mesh, ∅⟩ : Traced ι) := by
    refine ⟨sound_of_opened hopen, ?_, ?_, by simp⟩
    · rintro e ⟨i, he⟩
      rw [hopen.empty] at he
      exact absurd he (by simp)
    · intro l hl
      rw [hopen.lists] at hl
      exact absurd hl List.not_mem_nil
  have hend := Run.inv_of_each (I := TwinFree sha256) (C := NoTwin sha256)
    (fun t e ht hc => twinFree_step ht e hc) hstart hno
  have hmesh : (Run.run (Traced.step sha256) ⟨mesh, ∅⟩ es).mesh = Run.run (step sha256) mesh es :=
    traced_mesh ⟨mesh, ∅⟩ es
  have hs := hend.sound
  rw [hmesh] at hs
  refine agree_of_lookup hs (lookup_eq_of_quiet hs hq (fun a ha b hb htwin => ?_))
  rw [← hmesh] at ha hb
  exact hend.like a (hend.held ha) b (hend.held hb) htwin

/-! ## Two members that write the same song to a path

Neither knows of the other. Each takes its list, and each then meets the list of the other. -/

/-- Both put it, both take their lists, each meets the other's, and then each meets what the other
    has come to. -/
def twoSongs : List (MeshEvent (Fin 2)) :=
  [.write 0 (putSong (asc "a song")), .write 1 (putSong (asc "a song")), .take 0, .take 1,
    .meet 0 1, .meet 1 0, .take 0, .take 1, .meet 0 3, .meet 1 2]

omit [DecidableEq ι] in
/-- A mesh is quiet where no meeting has anything to say it has changed. -/
theorem quiet_of_unchanged {mesh : Mesh ι}
    (h : ∀ i j, i ≠ j → ((mesh.stores i).meet (mesh.stores j).entries).2 = []) : mesh.Quiet := by
  intro i j hij p
  have hmap : ((mesh.stores i).meet (mesh.stores j).entries).1.map = (mesh.stores i).map :=
    meetAll_unchanged (h i j hij)
  rw [hmap]

/-- **The two never come to the same**: each has the other for the writer, and neither has
    anything more to tell. -/
theorem converge_fails : ¬ ∀ (mesh : Mesh (Fin 2)) (es : List (MeshEvent (Fin 2))), mesh.Opened →
    (Run.run (step songSha256) mesh es).Quiet →
    (Run.run (step songSha256) mesh es).Agree songSha256 := by
  intro h
  have hquiet : (Run.run (step songSha256) meshOfTwo twoSongs).Quiet :=
    quiet_of_unchanged (by decide +kernel)
  have hagree := h meshOfTwo twoSongs opened_meshOfTwo hquiet
  have hne : ((Run.run (step songSha256) meshOfTwo twoSongs).stores 0).map.lookup (asc "song")
      ≠ ((Run.run (step songSha256) meshOfTwo twoSongs).stores 1).map.lookup (asc "song") := by
    decide +kernel
  exact hne ((hagree 0 1).1 (asc "song"))

/-- One puts the song, and the other hears of it. -/
def oneSong : List (MeshEvent (Fin 2)) :=
  [.write 0 (putSong (asc "a song")), .take 0, .meet 1 0, .take 1, .meet 0 1, .take 0, .meet 1 2]

theorem agree_oneSong : (Run.run (step songSha256) meshOfTwo oneSong).Agree songSha256 := by
  refine agree_of_quiet opened_meshOfTwo ?_ (quiet_of_unchanged (by decide +kernel))
  have hnone : ∀ (t : Traced (Fin 2)) e, t.mesh.makes songSha256 e = [] → NoTwin songSha256 t e :=
    fun t e h made hmade => by rw [h] at hmade; exact absurd hmade List.not_mem_nil
  refine ⟨fun made _ old hold => absurd hold (Set.notMem_empty old), ?_⟩
  refine ⟨hnone _ _ rfl, hnone _ _ ?_, hnone _ _ rfl, hnone _ _ ?_, hnone _ _ rfl, hnone _ _ ?_,
    trivial⟩
  all_goals decide +kernel

end Mesh

end ChrysaLisp
