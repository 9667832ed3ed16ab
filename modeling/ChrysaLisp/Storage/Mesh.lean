import ChrysaLisp.Library.Run
import ChrysaLisp.Storage.Store
import Mathlib.Data.Set.Basic
import Mathlib.Logic.Function.Basic

set_option autoImplicit false

/-! # A mesh of stores

Any number of stores, and the lists of entries that have been taken of them and may be met at any
time after. An event is a write at one store, a list taken of one, a list met at one, or a digest
asked of one. A run is any finite list of events, so every order of the writes and every delay of
the lists is one. -/

namespace ChrysaLisp

/-- Stores, and the lists that have been taken of them. -/
structure Mesh (ι : Type) where
  stores : ι → Store
  lists : List (List Entry)

/-- What can happen in a mesh. -/
inductive MeshEvent (ι : Type) where
  | write (i : ι) (w : Write)
  | take (i : ι)
  | meet (i : ι) (list : ℕ)
  | digest (i : ι)

namespace Mesh

variable {ι : Type} [DecidableEq ι] (sha256 : Str → Str)

/-- One store is now so. -/
def setStore (mesh : Mesh ι) (i : ι) (store : Store) : Mesh ι :=
  { mesh with stores := Function.update mesh.stores i store }

/-- The list of that number, none if there is not one. -/
def list (mesh : Mesh ι) (k : ℕ) : List Entry := mesh.lists.getD k []

/-- What an event does. -/
def step (mesh : Mesh ι) : MeshEvent ι → Mesh ι
  | .write i w => mesh.setStore i ((mesh.stores i).write sha256 w).2
  | .take i => { mesh with lists := mesh.lists ++ [(mesh.stores i).entries] }
  | .meet i k => mesh.setStore i ((mesh.stores i).meet (mesh.list k)).1
  | .digest i => mesh.setStore i ((mesh.stores i).digestOf sha256).2

/-- Stores as they are opened: with nothing in them, and the same members, retired and pinned. -/
structure Opened (mesh : Mesh ι) : Prop where
  empty : ∀ i, (mesh.stores i).map = ∅
  digest : ∀ i, (mesh.stores i).digest = none
  members : ∀ i j, (mesh.stores i).members = (mesh.stores j).members
  retired : ∀ i j, (mesh.stores i).retired = (mesh.stores j).retired
  pinned : ∀ i j, (mesh.stores i).pinned = (mesh.stores j).pinned
  lists : mesh.lists = []

/-- Meeting any store's entries into any other changes nothing more. -/
def Quiet (mesh : Mesh ι) : Prop :=
  ∀ i j, i ≠ j → ∀ p, ((mesh.stores i).meet (mesh.stores j).entries).1.map.lookup p
    = (mesh.stores i).map.lookup p

/-- All the stores hold the same entry for every path, and so the same digest. -/
def Agree (mesh : Mesh ι) : Prop :=
  ∀ i j, (∀ p, (mesh.stores i).map.lookup p = (mesh.stores j).map.lookup p) ∧
    ((mesh.stores i).digestOf sha256).1 = ((mesh.stores j).digestOf sha256).1

/-! ## What every run keeps -/

/-- What holds of a mesh in every state of every run: the entries are sound, in the stores and in
    the lists taken of them, a digest that is held is that of the store, and the members, retired
    and pinned are as they were opened. -/
structure Sound (mesh : Mesh ι) : Prop where
  map : ∀ i, Store.MapSound (mesh.stores i).map
  list : ∀ l ∈ mesh.lists, (l.map Entry.path).Nodup ∧ ∀ e ∈ l, Store.EntrySound e
  digest : ∀ i d, (mesh.stores i).digest = some d → d = sha256 (mesh.stores i).digestText
  members : ∀ i j, (mesh.stores i).members = (mesh.stores j).members
  retired : ∀ i j, (mesh.stores i).retired = (mesh.stores j).retired
  pinned : ∀ i j, (mesh.stores i).pinned = (mesh.stores j).pinned

variable {sha256} {mesh : Mesh ι}

omit [DecidableEq ι] in
theorem sound_of_opened (h : mesh.Opened) : mesh.Sound sha256 where
  map i := by rw [h.empty]; exact Store.mapSound_empty
  list l hl := by rw [h.lists] at hl; exact absurd hl List.not_mem_nil
  digest i d hd := by rw [h.digest] at hd; exact absurd hd (by simp)
  members := h.members
  retired := h.retired
  pinned := h.pinned

@[simp] theorem setStore_self (mesh : Mesh ι) (i : ι) (s : Store) :
    (mesh.setStore i s).stores i = s := by
  simp [setStore]

theorem setStore_ne (mesh : Mesh ι) {i j : ι} (s : Store) (h : j ≠ i) :
    (mesh.setStore i s).stores j = mesh.stores j := by
  simp [setStore, h]

@[simp] theorem setStore_lists (mesh : Mesh ι) (i : ι) (s : Store) :
    (mesh.setStore i s).lists = mesh.lists := rfl

omit [DecidableEq ι] in
/-- The list of a number is sound, and has each path once. -/
theorem Sound.list_sound (h : mesh.Sound sha256) (k : ℕ) :
    ((mesh.list k).map Entry.path).Nodup ∧ ∀ e ∈ mesh.list k, Store.EntrySound e := by
  unfold Mesh.list
  rw [List.getD_eq_getElem?_getD]
  cases hk : mesh.lists[k]? with
  | none => exact ⟨List.nodup_nil, by simp⟩
  | some l => exact h.list l (List.mem_of_getElem? hk)

/-- One store changed keeps a mesh sound, if its map is sound, its digest its own, and its
    members, retired and pinned as they were. -/
theorem Sound.setStore (h : mesh.Sound sha256) {i : ι} {s : Store}
    (hmap : Store.MapSound s.map)
    (hdigest : ∀ d, s.digest = some d → d = sha256 s.digestText)
    (hmembers : s.members = (mesh.stores i).members)
    (hretired : s.retired = (mesh.stores i).retired)
    (hpinned : s.pinned = (mesh.stores i).pinned) : (mesh.setStore i s).Sound sha256 := by
  have hsame : ∀ j, ((mesh.setStore i s).stores j).members = (mesh.stores j).members ∧
      ((mesh.setStore i s).stores j).retired = (mesh.stores j).retired ∧
      ((mesh.setStore i s).stores j).pinned = (mesh.stores j).pinned := by
    intro j
    by_cases hj : j = i
    · subst hj
      rw [setStore_self]
      exact ⟨hmembers, hretired, hpinned⟩
    · rw [setStore_ne mesh s hj]
      exact ⟨rfl, rfl, rfl⟩
  refine ⟨fun j => ?_, h.list, fun j d hd => ?_, fun j k => ?_, fun j k => ?_, fun j k => ?_⟩
  · by_cases hj : j = i
    · subst hj
      rwa [setStore_self]
    · rw [setStore_ne mesh s hj]
      exact h.map j
  · by_cases hj : j = i
    · subst hj
      rw [setStore_self] at hd ⊢
      exact hdigest d hd
    · rw [setStore_ne mesh s hj] at hd ⊢
      exact h.digest j d hd
  · rw [(hsame j).1, (hsame k).1]
    exact h.members j k
  · rw [(hsame j).2.1, (hsame k).2.1]
    exact h.retired j k
  · rw [(hsame j).2.2, (hsame k).2.2]
    exact h.pinned j k

/-- Sound entries met at a store. -/
theorem Sound.meet (h : mesh.Sound sha256) (i : ι) {es : List Entry}
    (hes : ∀ e ∈ es, Store.EntrySound e) :
    (mesh.setStore i ((mesh.stores i).meet es).1).Sound sha256 := by
  refine h.setStore (Store.mapSound_meetAll (h.map i) hes) ?_ rfl rfl rfl
  intro d hd
  simp only [Store.meet] at hd ⊢
  split at hd
  next hnil =>
    rw [h.digest i d hd]
    refine congrArg sha256 (Store.digestText_congr ?_ rfl rfl rfl)
    simp only [meetAll_unchanged hnil, List.Perm.refl]
  · exact absurd hd (by simp)

theorem sound_step (h : mesh.Sound sha256) (e : MeshEvent ι) : (mesh.step sha256 e).Sound sha256 := by
  cases e with
  | write i w =>
      refine h.setStore (Store.mapSound_write sha256 (h.map i) w) ?_ ?_ ?_ ?_
      all_goals
        rcases (mesh.stores i).write_cases sha256 w with ⟨h2, -⟩ | ⟨_, _, _, _, -, h2⟩
      all_goals rw [h2]
      · exact h.digest i
      · intro d hd
        exact absurd hd (by simp [Store.wrote])
      all_goals rfl
  | take i =>
      refine ⟨h.map, fun l hl => ?_, h.digest, h.members, h.retired, h.pinned⟩
      rcases List.mem_append.1 hl with hl | hl
      · exact h.list l hl
      · rw [List.mem_singleton.1 hl]
        have hmap := h.map i
        refine ⟨PathMap.nodup_inOrder hmap.keyed, fun e he => ?_⟩
        exact hmap.entry _ e ((PathMap.mem_inOrder hmap.keyed).1 he)
  | meet i k => exact h.meet i (h.list_sound k).2
  | digest i =>
      have hmap := h.map i
      simp only [step, Store.digestOf]
      cases hd : (mesh.stores i).digest with
      | some d => exact h.setStore hmap (h.digest i) rfl rfl rfl
      | none =>
          refine h.setStore hmap (fun d hd' => ?_) rfl rfl rfl
          rw [← Option.some.inj hd']
          exact congrArg sha256 (Store.digestText_congr (List.Perm.refl _) rfl rfl rfl)

/-- Every run of an opened mesh keeps it sound. -/
theorem sound_run (h : mesh.Opened) (es : List (MeshEvent ι)) :
    (Run.run (step sha256) mesh es).Sound sha256 :=
  Run.inv_of_step (I := Mesh.Sound sha256) (fun _ e hs => sound_step hs e) (sound_of_opened h) es

/-! ## Two members, and two songs

What the runs on fixed inputs are made of. -/

/-- A store of a member of two, with nothing in it. -/
def storeOfTwo (member : Str) : Store where
  member := member
  members := [asc "aaaa", asc "bbbb"]
  retired := []
  pinned := ∅
  blockSize := 65536
  map := ∅
  digest := none

instance neZero_two : NeZero 2 := ⟨by decide⟩

/-- Two members, and no lists taken. -/
def meshOfTwo : Mesh (Fin 2) where
  stores i := storeOfTwo (if i = 0 then asc "aaaa" else asc "bbbb")
  lists := []

/-- The SHA-256 of `a song` and of `b song`, and of the manifests of the objects that are those
    blocks. -/
def songSha256 (data : Str) : Str :=
  if data = asc "a song" then
    [2, 18, 240, 166, 231, 2, 75, 121, 112, 243, 228, 133, 47, 108, 203, 170,
      127, 127, 156, 63, 74, 9, 215, 69, 62, 179, 12, 227, 190, 221, 188, 63]
  else if data = asc "b song" then
    [171, 105, 139, 35, 0, 151, 39, 206, 149, 87, 143, 108, 89, 46, 29, 35,
      42, 63, 74, 100, 230, 170, 210, 205, 138, 69, 107, 80, 181, 188, 245, 61]
  else if data = asc "CHRYSA_OBJECT 1\n6\n0212F0A6E7024B7970F3E4852F6CCBAA7F7F9C3F4A09D7453EB30CE3BEDDBC3F\n" then
    [220, 6, 134, 142, 220, 33, 13, 237, 142, 105, 99, 142, 25, 188, 53, 140,
      150, 251, 50, 156, 236, 155, 248, 121, 28, 191, 163, 13, 57, 144, 161, 192]
  else
    [24, 116, 225, 19, 40, 185, 156, 30, 206, 79, 10, 96, 25, 102, 210, 101,
      204, 39, 124, 7, 202, 202, 190, 217, 187, 195, 218, 110, 238, 24, 103, 18]

/-- A song put to the path `song`, where there is room for it. -/
def putSong (data : Str) : Write := .put (fun _ => true) (asc "song") data none

theorem opened_meshOfTwo : meshOfTwo.Opened :=
  ⟨fun _ => rfl, fun _ => rfl, fun _ _ => rfl, fun _ _ => rfl, fun _ _ => rfl, rfl⟩

end Mesh

end ChrysaLisp
