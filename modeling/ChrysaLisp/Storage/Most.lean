import ChrysaLisp.Storage.Mesh

set_option autoImplicit false

/-! # What most of the members have

A member is put among those that have seen an entry when it writes it or takes it, and what it has
of a path then is what the entry says; and what it has of a path only ever goes on. So the entries
of a path a member is said to have seen are all of a line, whoever says so and however late
(`Lined`): of two that were written apart no member has seen both, and the most of the members can
not have one and the most have the other (`most_at_most_one`).

What is met is here any entries that were ever in a list taken of a store, in any order. -/

namespace ChrysaLisp

/-- What can happen: a write, a list taken of a store, and entries of the lists met at one, each by
    its list and where it is in that. -/
inductive ToldEvent (ι : Type) where
  | write (i : ι) (w : Write)
  | take (i : ι)
  | meet (i : ι) (picks : List (ℕ × ℕ))

namespace Mesh

variable {ι : Type} [DecidableEq ι] {sha256 : Str → Str}

/-- The entries picked of the lists. -/
def picked (mesh : Mesh ι) (picks : List (ℕ × ℕ)) : List Entry :=
  picks.filterMap (fun pick => (mesh.list pick.1)[pick.2]?)

/-- What an event does. -/
def toldStep (sha256 : Str → Str) (mesh : Mesh ι) : ToldEvent ι → Mesh ι
  | .write i w => mesh.setStore i ((mesh.stores i).write sha256 w).2
  | .take i => { mesh with lists := mesh.lists ++ [(mesh.stores i).entries] }
  | .meet i picks => mesh.setStore i ((mesh.stores i).meet (mesh.picked picks)).1

end Mesh

/-! ## The entries a member has seen are of a line -/

section Lined

variable {ι : Type} {ids : ι → Str} {maps : ι → PathMap} {lists : List (List Entry)}

/-- A map has the entry, or a list. -/
def Held (maps : ι → PathMap) (lists : List (List Entry)) (e : Entry) : Prop :=
  (∃ i, (maps i).lookup e.path = some e) ∨ ∃ l ∈ lists, e ∈ l

/-- Whoever has seen an entry has at least it, and of two entries of a path that one member has seen
    one is no later than the other. -/
structure Lined (ids : ι → Str) (maps : ι → PathMap) (lists : List (List Entry)) : Prop where
  known : ∀ i e, Held maps lists e → ids i ∈ e.seen →
    ∃ mine, (maps i).lookup e.path = some mine ∧ VvLe e.vv mine.vv
  line : ∀ e e', Held maps lists e → Held maps lists e' → e.path = e'.path →
    ∀ who, who ∈ e.seen → who ∈ e'.seen → VvLe e.vv e'.vv ∨ VvLe e'.vv e.vv

theorem Lined.mono {lists' : List (List Entry)} (h : Lined ids maps lists)
    (hheld : ∀ e, Held maps lists' e → Held maps lists e) : Lined ids maps lists' :=
  ⟨fun i e he => h.known i e (hheld e he),
    fun e e' he he' => h.line e e' (hheld e he) (hheld e' he')⟩

variable [DecidableEq ι]

/-- **An entry put in a map**, no earlier than what was there, and seen by this member and by those
    that have seen another of the same counts. -/
theorem Lined.put (h : Lined ids maps lists) (hids : Function.Injective ids) {i : ι} {now : Entry}
    (hseen : ∀ who ∈ now.seen, who = ids i ∨
      ∃ e, Held maps lists e ∧ e.path = now.path ∧ e.vv = now.vv ∧ who ∈ e.seen)
    (hlater : ∀ mine, (maps i).lookup now.path = some mine → VvLe mine.vv now.vv) :
    Lined ids (Function.update maps i ((maps i).put now)) lists := by
  have hheld : ∀ e, Held (Function.update maps i ((maps i).put now)) lists e →
      Held maps lists e ∨ e = now := by
    rintro e (⟨j, hj⟩ | hl)
    · by_cases hji : j = i
      · rw [hji, Function.update_self] at hj
        by_cases hp : e.path = now.path
        · rw [hp, lookup_put_self] at hj
          exact Or.inr (Option.some.inj hj).symm
        · rw [lookup_put_ne hp] at hj
          exact Or.inl (Or.inl ⟨i, hj⟩)
      · rw [Function.update_of_ne hji] at hj
        exact Or.inl (Or.inl ⟨j, hj⟩)
    · exact Or.inl (Or.inr hl)
  -- what a member has is no less than it was
  have hgrow : ∀ j p mine, (maps j).lookup p = some mine →
      ∃ mine', (Function.update maps i ((maps i).put now) j).lookup p = some mine' ∧
        VvLe mine.vv mine'.vv := by
    intro j p mine hmine
    by_cases hji : j = i
    · rw [hji, Function.update_self]
      rw [hji] at hmine
      by_cases hp : p = now.path
      · rw [hp] at hmine ⊢
        exact ⟨now, lookup_put_self _ _, hlater mine hmine⟩
      · rw [lookup_put_ne hp]
        exact ⟨mine, hmine, VvLe.refl _⟩
    · rw [Function.update_of_ne hji]
      exact ⟨mine, hmine, VvLe.refl _⟩
  have hknown : ∀ j e, Held maps lists e → ids j ∈ e.seen →
      ∃ mine, (Function.update maps i ((maps i).put now) j).lookup e.path = some mine ∧
        VvLe e.vv mine.vv := by
    intro j e he hj
    obtain ⟨mine, hmine, hle⟩ := h.known j e he hj
    obtain ⟨mine', hmine', hle'⟩ := hgrow j e.path mine hmine
    exact ⟨mine', hmine', hle.trans hle'⟩
  have hnow : ∀ e, Held maps lists e → e.path = now.path → ∀ who, who ∈ e.seen → who ∈ now.seen →
      VvLe e.vv now.vv ∨ VvLe now.vv e.vv := by
    intro e he hpath who hwho hwho'
    rcases hseen who hwho' with rfl | ⟨e0, he0, hpath0, hvv, hin⟩
    · obtain ⟨mine, hmine, hle⟩ := h.known i e he hwho
      rw [hpath] at hmine
      exact Or.inl (hle.trans (hlater mine hmine))
    · rw [← hvv]
      exact h.line e e0 he he0 (hpath.trans hpath0.symm) who hwho hin
  refine ⟨fun j e he hj => ?_, fun e e' he he' hpath who hwho hwho' => ?_⟩
  · rcases hheld e he with he | rfl
    · exact hknown j e he hj
    · rcases hseen _ hj with heq | ⟨e0, he0, hpath0, hvv, hin⟩
      · rw [hids heq, Function.update_self]
        exact ⟨e, lookup_put_self _ _, VvLe.refl _⟩
      · rw [← hpath0, ← hvv]
        exact hknown j e0 he0 hin
  · rcases hheld e he with hold | heq
    · rcases hheld e' he' with hold' | heq'
      · exact h.line e e' hold hold' hpath who hwho hwho'
      · rw [heq'] at hpath hwho' ⊢
        exact hnow e hold hpath who hwho hwho'
    · rcases hheld e' he' with hold' | heq'
      · rw [heq] at hpath hwho ⊢
        exact (hnow e' hold' hpath.symm who hwho' hwho).symm
      · rw [heq, heq']
        exact Or.inl (VvLe.refl _)

/-! ## Meeting -/

variable {members : List Str} {theirs : Entry}

/-- What a path is once an entry of it is met is no earlier than it was, and who has seen that has
    seen theirs or mine at the same counts, or is this member. -/
theorem meetNow_seen {me : Str} {mine now : Entry} (ht : VvSound theirs.vv) (hm : VvSound mine.vv)
    (h : meetNow members me theirs mine = some now) :
    VvLe mine.vv now.vv ∧ ∀ who ∈ now.seen, who = me ∨
      (who ∈ theirs.seen ∧ theirs.vv = now.vv) ∨ (who ∈ mine.seen ∧ mine.vv = now.vv) := by
  by_cases hc : conflict theirs mine
  · rw [meetNow_of_conflict hc] at h
    obtain rfl := Option.some.inj h
    exact ⟨vvLe_merge_right ht hm, fun who hwho => Or.inl (List.mem_singleton.1 hwho)⟩
  · unfold meetNow at h
    rcases not_conflict_iff.1 hc with hafter | hbefore | ⟨hsame, heq⟩
    · rw [hafter] at h
      obtain rfl := Option.some.inj h
      refine ⟨((storeVvCmp_after_iff ht hm).1 hafter).1, fun who hwho => ?_⟩
      rcases mem_storeSeen.1 hwho with hin | hin
      · exact Or.inr (Or.inl ⟨hin, rfl⟩)
      · exact Or.inl (List.mem_singleton.1 hin)
    · rw [hbefore] at h
      exact absurd h (by simp)
    · simp only [hsame, heq, and_self, if_true] at h
      split at h
      · exact absurd h (by simp)
      · obtain rfl := Option.some.inj h
        refine ⟨VvLe.refl _, fun who hwho => ?_⟩
        rcases mem_storeSeen.1 hwho with hin | hin
        · exact Or.inr (Or.inl ⟨hin, (storeVvCmp_same_iff ht hm).1 hsame⟩)
        · exact Or.inr (Or.inr ⟨hin, rfl⟩)

/-- What is kept aside is of a path there was not, and is this member's alone. -/
theorem Lined.putAside (h : Lined ids maps lists) (hids : Function.Injective ids) (i : ι)
    (mine : Entry) : Lined ids (Function.update maps i
      (ChrysaLisp.putAside (maps i) (meetAside members (ids i) theirs mine)).1) lists := by
  unfold ChrysaLisp.putAside
  split
  next kept hkept =>
    split
    · rwa [Function.update_eq_self]
    next hnone =>
      have hl : (maps i).lookup kept.path = none := by simpa using hnone
      obtain ⟨-, rfl, -, -⟩ := meetAside_eq_some hkept
      refine h.put hids (fun who hwho => Or.inl (List.mem_singleton.1 hwho)) (fun old hold => ?_)
      rw [hl] at hold
      exact absurd hold (by simp)
  · rwa [Function.update_eq_self]

/-- **One entry met**, of a list. -/
theorem Lined.meetOne (h : Lined ids maps lists) (hids : Function.Injective ids) {i : ι}
    (hmap : Store.MapSound (maps i)) (ht : Store.EntrySound theirs)
    (hin : ∃ l ∈ lists, theirs ∈ l) :
    Lined ids (Function.update maps i (ChrysaLisp.meetOne members (ids i) (maps i) theirs).1) lists := by
  cases hl : (maps i).lookup theirs.path with
  | none =>
      rw [meetOne_of_none members (ids i) (maps i) theirs hl]
      refine h.put hids (fun who hwho => ?_) (fun old hold => ?_)
      · rcases mem_storeSeen.1 hwho with hwho | hwho
        · exact Or.inr ⟨theirs, Or.inr hin, rfl, rfl, hwho⟩
        · exact Or.inl (List.mem_singleton.1 hwho)
      · rw [show (taken (ids i) theirs).path = theirs.path from rfl, hl] at hold
        exact absurd hold (by simp)
  | some mine =>
      have hpath := hmap.keyed _ _ hl
      have haside : Lined ids (Function.update maps i
          (ChrysaLisp.putAside (maps i) (meetAside members (ids i) theirs mine)).1) lists :=
        h.putAside hids i mine
      rw [meetOne_of_some members (ids i) (maps i) theirs hl]
      split
      next now hnow =>
        have hnowpath := meetNow_path members (ids i) theirs hpath hnow
        have hmine : (ChrysaLisp.putAside (maps i) (meetAside members (ids i) theirs mine)).1.lookup
            theirs.path = some mine := by
          rw [lookup_putAside, hl]
        obtain ⟨hle, hseen⟩ := meetNow_seen ht.vv (hmap.entry _ _ hl).vv hnow
        have hput : Lined ids (Function.update (Function.update maps i _) i
            ((Function.update maps i _ i).put now)) lists := haside.put hids ?_ ?_
        · rw [Function.update_self, Function.update_idem] at hput
          exact hput
        · intro who hwho
          rcases hseen who hwho with hme | ⟨hwho, hvv⟩ | ⟨hwho, hvv⟩
          · exact Or.inl hme
          · exact Or.inr ⟨theirs, Or.inr hin, hnowpath.symm, hvv, hwho⟩
          · refine Or.inr ⟨mine, Or.inl ⟨i, ?_⟩, hpath.trans hnowpath.symm, hvv, hwho⟩
            rw [Function.update_self, hpath]
            exact hmine
        · intro old hold
          rw [Function.update_self, hnowpath, hmine] at hold
          exact Option.some.inj hold ▸ hle
      · exact haside

/-- **Any entries met**, each of a list. -/
theorem Lined.meetAll {es : List Entry} (h : Lined ids maps lists) (hids : Function.Injective ids)
    {i : ι} (hmap : Store.MapSound (maps i)) (hes : ∀ t ∈ es, Store.EntrySound t)
    (hin : ∀ t ∈ es, ∃ l ∈ lists, t ∈ l) :
    Lined ids (Function.update maps i (ChrysaLisp.meetAll members (ids i) (maps i) es).1) lists := by
  induction es generalizing maps with
  | nil => rwa [show (ChrysaLisp.meetAll members (ids i) (maps i) []).1 = maps i from rfl,
      Function.update_eq_self]
  | cons t es ih =>
      have hone : Lined ids (Function.update maps i
          (ChrysaLisp.meetOne members (ids i) (maps i) t).1) lists :=
        h.meetOne hids hmap (hes t List.mem_cons_self) (hin t List.mem_cons_self)
      have hsound : Store.MapSound (ChrysaLisp.meetAll members (ids i) (maps i) [t]).1 :=
        Store.mapSound_meetAll hmap (fun e he => List.mem_singleton.1 he ▸ hes t List.mem_cons_self)
      have hrest := ih hone (by rwa [Function.update_self])
        (fun u hu => hes u (List.mem_cons_of_mem _ hu))
        (fun u hu => hin u (List.mem_cons_of_mem _ hu))
      rw [Function.update_self, Function.update_idem] at hrest
      rwa [meetAll_cons]

end Lined

/-! ## Every run -/

namespace Mesh

variable {ι : Type} [DecidableEq ι] {sha256 : Str → Str} {mesh : Mesh ι}

/-- The map of each store. -/
def maps (mesh : Mesh ι) (i : ι) : PathMap := (mesh.stores i).map

/-- Whose each store is. -/
def ids (mesh : Mesh ι) (i : ι) : Str := (mesh.stores i).member

/-- A store has the entry, or a list has it that was taken of one. -/
def Has (mesh : Mesh ι) (e : Entry) : Prop := Held mesh.maps mesh.lists e

/-- What every run keeps, of stores each of a member of its own. -/
structure Told (sha256 : Str → Str) (ids : ι → Str) (mesh : Mesh ι) : Prop where
  sound : mesh.Sound sha256
  mine : mesh.ids = ids
  lined : Lined ids mesh.maps mesh.lists

theorem maps_setStore (mesh : Mesh ι) (i : ι) (s : Store) :
    (mesh.setStore i s).maps = Function.update mesh.maps i s.map := by
  funext j
  by_cases hj : j = i
  · subst hj
    simp [maps]
  · simp [maps, hj, setStore_ne]

theorem ids_setStore (mesh : Mesh ι) {i : ι} {s : Store} (h : s.member = mesh.ids i) :
    (mesh.setStore i s).ids = mesh.ids := by
  funext j
  by_cases hj : j = i
  · subst hj
    simpa [ids] using h
  · simp [ids, hj, setStore_ne]

omit [DecidableEq ι] in
theorem mem_of_picked {picks : List (ℕ × ℕ)} {e : Entry} (h : e ∈ mesh.picked picks) :
    ∃ l ∈ mesh.lists, e ∈ l := by
  obtain ⟨pick, -, hpick⟩ := List.mem_filterMap.1 h
  have hmem := List.mem_of_getElem? hpick
  unfold Mesh.list at hmem
  rw [List.getD_eq_getElem?_getD] at hmem
  cases hk : mesh.lists[pick.1]? with
  | none => rw [hk] at hmem; exact absurd hmem List.not_mem_nil
  | some l =>
      rw [hk] at hmem
      exact ⟨l, List.mem_of_getElem? hk, hmem⟩

theorem told_step {ids : ι → Str} (hids : Function.Injective ids) (h : Told sha256 ids mesh)
    (e : ToldEvent ι) : Told sha256 ids (mesh.toldStep sha256 e) := by
  have hmine := h.mine
  cases e with
  | write i w =>
      have hsound : (mesh.step sha256 (.write i w)).Sound sha256 := sound_step h.sound (.write i w)
      refine ⟨hsound, ?_, ?_⟩
      · show (mesh.setStore i ((mesh.stores i).write sha256 w).2).ids = ids
        rw [ids_setStore mesh, hmine]
        rcases (mesh.stores i).write_cases sha256 w with ⟨h2, -⟩ | ⟨_, _, _, _, -, h2⟩
        all_goals rw [h2]; rfl
      · show Lined ids (mesh.setStore i ((mesh.stores i).write sha256 w).2).maps mesh.lists
        rw [maps_setStore]
        rcases (mesh.stores i).write_cases sha256 w with ⟨h2, -⟩ | ⟨hash, size, deleted, n, -, h2⟩
        · rw [h2]
          exact (Function.update_eq_self i mesh.maps).symm ▸ h.lined
        · rw [h2]
          refine h.lined.put hids (fun who hwho => Or.inl ?_) (fun old hold => ?_)
          · rw [← hmine]
            exact List.mem_singleton.1 hwho
          · -- one more write of this member is after what it wrote
            have hvv : ((mesh.stores i).setEntry w.path hash size deleted n).vv
                = storeVvBump old.vv (mesh.stores i).member := by
              have hfind : (mesh.stores i).find w.path = some old := hold
              simp [Store.setEntry, hfind]
            rw [hvv]
            have hold' := ((h.sound.map i).entry _ _ hold).vv
            exact ((storeVvCmp_after_iff (vvSound_bump hold' _) hold').1
              (storeVvCmp_bump hold' _)).1
  | take i =>
      have hsound : (mesh.step sha256 (.take i)).Sound sha256 := sound_step h.sound (.take i)
      refine ⟨hsound, hmine, h.lined.mono (fun e he => ?_)⟩
      rcases he with hmap | ⟨l, hl, he⟩
      · exact Or.inl hmap
      · rcases List.mem_append.1 hl with hl | hl
        · exact Or.inr ⟨l, hl, he⟩
        · rw [List.mem_singleton.1 hl] at he
          exact Or.inl ⟨i, (PathMap.mem_inOrder (h.sound.map i).keyed).1 he⟩
  | meet i picks =>
      have hes : ∀ t ∈ mesh.picked picks, Store.EntrySound t := by
        intro t ht
        obtain ⟨l, hl, htl⟩ := mem_of_picked ht
        exact (h.sound.list l hl).2 t htl
      refine ⟨h.sound.meet i hes, ?_, ?_⟩
      · show (mesh.setStore i ((mesh.stores i).meet (mesh.picked picks)).1).ids = ids
        exact (ids_setStore mesh (show ((mesh.stores i).meet _).1.member = mesh.ids i from rfl)).trans
          hmine
      · show Lined ids (mesh.setStore i ((mesh.stores i).meet (mesh.picked picks)).1).maps mesh.lists
        rw [maps_setStore]
        have hmeet : Lined ids (Function.update mesh.maps i (meetAll (mesh.stores i).memberList
            (ids i) (mesh.maps i) (mesh.picked picks)).1) mesh.lists :=
          h.lined.meetAll hids (h.sound.map i) hes (fun t ht => mem_of_picked ht)
        rw [← hmine] at hmeet ⊢
        exact hmeet

omit [DecidableEq ι] in
theorem told_of_opened (h : mesh.Opened) : Told sha256 mesh.ids mesh := by
  have hnone : ∀ e, ¬ Held mesh.maps mesh.lists e := by
    rintro e (⟨i, he⟩ | ⟨l, hl, -⟩)
    · rw [maps, h.empty] at he
      exact absurd he (by simp)
    · rw [h.lists] at hl
      exact absurd hl List.not_mem_nil
  exact ⟨sound_of_opened h, rfl, fun i e he => absurd he (hnone e),
    fun e e' he => absurd he (hnone e)⟩

theorem told_run (hopen : mesh.Opened) (hids : Function.Injective mesh.ids)
    (es : List (ToldEvent ι)) : Told sha256 mesh.ids (Run.run (toldStep sha256) mesh es) :=
  Run.inv_of_step (I := Told sha256 mesh.ids) (fun _ e hs => told_step hids hs e)
    (told_of_opened hopen) es

/-- Of two entries none of the members has seen both of, most of the members have at most one. -/
theorem not_most_of_disjoint {members : List Str} {a b : Entry} (ha : SeenSound a.seen)
    (hb : SeenSound b.seen) (h : ∀ who, ¬ (who ∈ a.seen ∧ who ∈ b.seen)) :
    ¬ (storeMost members a = true ∧ storeMost members b = true) := by
  rintro ⟨hma, hmb⟩
  set as := a.seen.filter (fun who => decide (who ∈ members)) with has
  set bs := b.seen.filter (fun who => decide (who ∈ members)) with hbs
  have hnodup : (as ++ bs).Nodup := by
    refine List.Nodup.append (ha.nodup.filter _) (hb.nodup.filter _) (fun who hwa hwb => h who ?_)
    exact ⟨List.mem_of_mem_filter hwa, List.mem_of_mem_filter hwb⟩
  have hsub : as ++ bs ⊆ members := by
    intro who hwho
    rcases List.mem_append.1 hwho with hw | hw
    · exact of_decide_eq_true (List.mem_filter.1 hw).2
    · exact of_decide_eq_true (List.mem_filter.1 hw).2
  have hle := (List.subperm_of_subset hnodup hsub).length_le
  have hmost : members.length < 2 * as.length := of_decide_eq_true hma
  have hmost' : members.length < 2 * bs.length := of_decide_eq_true hmb
  rw [List.length_append] at hle
  omega

/-- **At most one majority.** In every run no member has seen two entries of a path that were
    written apart, and most of the members have at most one of them, whichever stores are asked. -/
theorem most_at_most_one (hopen : mesh.Opened) (hids : Function.Injective mesh.ids)
    (es : List (ToldEvent ι)) {a b : Entry} (ha : (Run.run (toldStep sha256) mesh es).Has a)
    (hb : (Run.run (toldStep sha256) mesh es).Has b) (hpath : a.path = b.path)
    (hapart : storeVvCmp a.vv b.vv = .apart) :
    (∀ who, ¬ (who ∈ a.seen ∧ who ∈ b.seen)) ∧
      ∀ i j, ¬ (storeMost ((Run.run (toldStep sha256) mesh es).stores i).memberList a = true ∧
        storeMost ((Run.run (toldStep sha256) mesh es).stores j).memberList b = true) := by
  have htold : Told sha256 mesh.ids _ := told_run hopen hids es
  set now := Run.run (toldStep sha256) mesh es with hnow
  have hsound : ∀ e, now.Has e → Store.EntrySound e := by
    rintro e (⟨i, he⟩ | ⟨l, hl, he⟩)
    · exact (htold.sound.map i).entry _ _ he
    · exact (htold.sound.list l hl).2 e he
  have hsa := hsound a ha
  have hsb := hsound b hb
  have hnot := (storeVvCmp_apart_iff hsa.vv hsb.vv).1 hapart
  have hseen : ∀ who, ¬ (who ∈ a.seen ∧ who ∈ b.seen) := by
    rintro who ⟨hwa, hwb⟩
    rcases htold.lined.line a b ha hb hpath who hwa hwb with hle | hle
    · exact hnot.1 hle
    · exact hnot.2 hle
  refine ⟨hseen, fun i j => ?_⟩
  have hmembers : (now.stores i).memberList = (now.stores j).memberList := by
    unfold Store.memberList
    rw [htold.sound.members i j, htold.sound.retired i j]
  rw [hmembers]
  exact not_most_of_disjoint hsa.seen hsb.seen hseen

/-- Two members write a song apart, and one takes a list of the other that is already old. -/
def songsTold : List (ToldEvent (Fin 2)) :=
  [.write 0 (putSong (asc "a song")), .take 0, .write 0 (putSong (asc "a song")), .take 0,
    .write 1 (putSong (asc "b song")), .take 1, .meet 1 [(0, 0)]]

/-- The song as a member put it, that had put it so many times. -/
def toldSong (who data : Str) (n : ℕ) : Entry where
  path := asc "song"
  hash := songSha256 (storeManifestText 6 [songSha256 data])
  bytes := 6
  vv := [(who, n)]
  writer := who
  seen := [who]
  deleted := false
  copies := 0

theorem most_at_most_one_songsTold :
    let now := Run.run (toldStep songSha256) meshOfTwo songsTold
    ∀ i j,
      ¬ (storeMost (now.stores i).memberList (toldSong (asc "aaaa") (asc "a song") 2) = true ∧
        storeMost (now.stores j).memberList (toldSong (asc "bbbb") (asc "b song") 1) = true) := by
  have hids : Function.Injective meshOfTwo.ids := by
    intro i j
    revert i j
    decide
  have ha : (Run.run (toldStep songSha256) meshOfTwo songsTold).lists[1]?
      = some [toldSong (asc "aaaa") (asc "a song") 2] := by decide +kernel
  have hb : (Run.run (toldStep songSha256) meshOfTwo songsTold).lists[2]?
      = some [toldSong (asc "bbbb") (asc "b song") 1] := by decide +kernel
  exact (most_at_most_one opened_meshOfTwo hids songsTold
    (Or.inr ⟨_, List.mem_of_getElem? ha, List.mem_singleton_self _⟩)
    (Or.inr ⟨_, List.mem_of_getElem? hb, List.mem_singleton_self _⟩) rfl (by decide)).2

end Mesh

end ChrysaLisp
