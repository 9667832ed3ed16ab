import ChrysaLisp.Library.Run
import ChrysaLisp.Hash.Tree

set_option autoImplicit false

/-! # A tree says what its things are

What a tree made of things has for each folder: the things that are in it and the folders, each with
its own hash, in the order of their names, and the hash of that (`isTree_hashTree`). In whatever order
the things are given, and the folders come to be, it is the same.

The folders are made from the bottom up. A folder is there before it is in the one above, so on the
way up there is the one, and no more, that is not in the one above yet (`Shape`). -/

namespace ChrysaLisp

/-- Things as a tree takes them: names like paths, each once, none both a thing and a folder of
    another; and what goes on a line of a folder's text can be told from the rest of it. -/
structure ThingsOk (things : List Thing) : Prop where
  proper : ∀ t ∈ things, Proper t.path
  once : (things.map Thing.path).Nodup
  apart : ∀ t ∈ things, ∀ t' ∈ things, t.path ∉ folders t'.path
  line : ∀ t ∈ things, (10 : Byte) ∉ t.path
  words : ∀ t ∈ things, (32 : Byte) ∉ t.hash ∧ (10 : Byte) ∉ t.hash ∧
    (32 : Byte) ∉ t.word.getD [] ∧ (10 : Byte) ∉ t.word.getD []

/-- A folder that some thing is in, or the top. -/
def IsFolder (things : List Thing) (folder : Str) : Prop :=
  folder = [] ∨ ∃ t ∈ things, folder ∈ folders t.path

/-! ## The folders of a path -/

section Folders

variable {path folder : Str}

theorem folderOf_nil : folderOf [] = [] := rfl

/-- What is so of a folder if it is so of one in it, is so of all the folders of one it is so of. -/
theorem folders_of_closed {P : Str → Prop} (hup : ∀ g, P g → P (folderOf g)) (h : P path) :
    ∀ f ∈ folders path, P f := by
  induction hn : path.length using Nat.strong_induction_on generalizing path with
  | _ n ih =>
      intro f hf
      by_cases hnil : path = []
      · rw [hnil, folders_nil] at hf
        exact absurd hf List.not_mem_nil
      · rcases (mem_folders hnil).1 hf with rfl | hf
        · exact hup path h
        · exact ih _ (hn ▸ length_folderOf_lt hnil) (hup path h) rfl f hf

theorem mem_folders_trans {f g : Str} (hf : f ∈ folders g) (hg : g ∈ folders path) :
    f ∈ folders path := by
  have hne : ∀ {p q : Str}, q ∈ folders p → p ≠ [] := by
    rintro p q hq rfl
    rw [folders_nil] at hq
    exact List.not_mem_nil hq
  induction hn : path.length using Nat.strong_induction_on generalizing path with
  | _ n ih =>
      have hpath := hne hg
      rw [mem_folders hpath] at hg ⊢
      rcases hg with rfl | hg
      · exact Or.inr hf
      · exact Or.inr (ih _ (hn ▸ length_folderOf_lt hpath) hg rfl)

theorem length_lt_of_mem_folders (h : folder ∈ folders path) : folder.length < path.length := by
  induction hn : path.length using Nat.strong_induction_on generalizing path with
  | _ n ih =>
      by_cases hnil : path = []
      · rw [hnil, folders_nil] at h
        exact absurd h List.not_mem_nil
      · have hlt := length_folderOf_lt hnil
        rcases (mem_folders hnil).1 h with rfl | h
        · exact hn ▸ hlt
        · exact (ih _ (hn ▸ hlt) h rfl).trans (hn ▸ hlt)

theorem proper_of_mem_folders (hpath : Proper path) (h : folder ∈ folders path) :
    folder = [] ∨ Proper folder := by
  refine folders_of_closed (P := fun g => g = [] ∨ Proper g) (fun g hg => ?_) (Or.inr hpath) folder h
  rcases hg with rfl | hg
  · exact Or.inl rfl
  · exact hg.cut.1

/-- A proper path is told by its folder and its name. -/
theorem Proper.ext {p q : Str} (hp : Proper p) (hq : Proper q) (hf : folderOf p = folderOf q)
    (hn : nameOf p = nameOf q) : p = q := by
  rw [← hp.cut.2.2.1, ← hq.cut.2.2.1, hf, hn]

theorem nil_mem_folders (h : path ≠ []) : [] ∈ folders path := by
  induction hn : path.length using Nat.strong_induction_on generalizing path with
  | _ n ih =>
      rw [mem_folders h]
      by_cases hnil : folderOf path = []
      · exact Or.inl hnil.symm
      · exact Or.inr (ih _ (hn ▸ length_folderOf_lt h) hnil rfl)

end Folders

/-! ## The folders as they are made -/

/-- The folders of some things, on the way up from one that is there and is not in the one above
    yet: those that are there, and what is in each. -/
structure Shape (things : List Thing) (linked : Str → Prop) (bottom : Str) (all : HashFolders) :
    Prop where
  dom : ∀ f, (all.lookup f).isSome ↔ linked f ∨ f = bottom
  kids : ∀ f kids, all.lookup f = some kids → kids.Nodup ∧ ∀ kid, kid ∈ kids ↔
    (∃ t ∈ things, folderOf t.path = f ∧ kid = t.kid) ∨
      ∃ g, linked g ∧ g ≠ [] ∧ folderOf g = f ∧ kid = folderKid g
  top : linked []
  up : ∀ g, linked g → linked (folderOf g) ∨ folderOf g = bottom
  home : ∀ t ∈ things, linked (folderOf t.path) ∨ folderOf t.path = bottom
  proper : ∀ g, linked g → g = [] ∨ Proper g

section Shape

variable {things : List Thing} {linked linked' : Str → Prop} {bottom : Str} {all : HashFolders}

theorem Shape.congr (h : Shape things linked bottom all) (hl : ∀ f, linked f ↔ linked' f) :
    Shape things linked' bottom all := by
  obtain rfl : linked = linked' := funext (fun f => propext (hl f))
  exact h

/-- What is in a folder, be it there or not. -/
theorem Shape.made (h : Shape things linked bottom all) (f : Str) :
    ((all.lookup f).getD []).Nodup ∧ ∀ kid, kid ∈ (all.lookup f).getD [] ↔
      (∃ t ∈ things, folderOf t.path = f ∧ kid = t.kid) ∨
        ∃ g, linked g ∧ g ≠ [] ∧ folderOf g = f ∧ kid = folderKid g := by
  cases hf : all.lookup f with
  | some kids => exact h.kids f kids hf
  | none =>
      have hout : ¬ (linked f ∨ f = bottom) := by
        rw [← h.dom f, hf]
        simp
      refine ⟨List.nodup_nil, fun kid => ⟨fun hin => absurd hin List.not_mem_nil, ?_⟩⟩
      rintro (⟨t, ht, rfl, -⟩ | ⟨g, hg, -, rfl, -⟩)
      · exact absurd (h.home t ht) hout
      · exact absurd (h.up g hg) hout

/-- **A folder in the one above, and so on up.** -/
theorem Shape.climb (h : Shape things linked bottom all) (hbottom : bottom = [] ∨ Proper bottom) :
    Shape things (fun f => linked f ∨ f = bottom ∨ f ∈ folders bottom) [] (climb all bottom) := by
  fun_induction ChrysaLisp.climb all bottom generalizing linked with
  | case1 all =>
      refine h.congr (fun f => ?_)
      rw [folders_nil]
      refine ⟨Or.inl, fun hf => hf.elim id (fun hf => ?_)⟩
      rcases hf with rfl | hf
      · exact h.top
      · exact absurd hf List.not_mem_nil
  | case2 all bottom hne above made =>
      rename_i hfound
      -- it is there, and so are the ones above
      have hproper := hbottom.resolve_left hne
      obtain ⟨kid, hin, hkid⟩ := List.any_eq_true.1 hfound
      obtain ⟨hkind, hname⟩ := of_decide_eq_true hkid
      have hthere : linked bottom := by
        rcases ((h.made above).2 kid).1 hin with ⟨t, -, -, rfl⟩ | ⟨g, hg, hgne, hgf, rfl⟩
        · exact absurd hkind (by simp [Thing.kid])
        · have hgp := (h.proper g hg).resolve_left hgne
          exact hgp.ext hproper hgf hname ▸ hg
      have hup : ∀ g, linked g → linked (folderOf g) :=
        fun g hg => (h.up g hg).elim id (fun heq => heq ▸ hthere)
      have hsame : ∀ f, linked f ↔ linked f ∨ f = bottom ∨ f ∈ folders bottom := by
        refine fun f => ⟨Or.inl, ?_⟩
        rintro (hf | rfl | hf)
        · exact hf
        · exact hthere
        · exact folders_of_closed hup hthere f hf
      refine Shape.congr ⟨fun f => ?_, h.kids, h.top, fun g hg => Or.inl (hup g hg), ?_, h.proper⟩ hsame
      · rw [h.dom f]
        constructor
        · rintro (hf | rfl)
          · exact Or.inl hf
          · exact Or.inl hthere
        · rintro (hf | rfl)
          · exact Or.inl hf
          · exact Or.inl h.top
      · exact fun t ht => Or.inl ((h.home t ht).elim id (fun heq => heq ▸ hthere))
  | case3 all bottom hne above made hfound =>
      rename_i ih
      have hproper := hbottom.resolve_left hne
      have hnew : folderKid bottom ∉ made := by
        intro hin
        exact hfound (List.any_eq_true.2 ⟨_, hin, by simp [folderKid]⟩)
      obtain ⟨hnodup, hmem⟩ := h.made above
      have hshape : Shape things (fun f => linked f ∨ f = bottom) above
          (all.insert above (made ++ [folderKid bottom])) := by
        refine ⟨fun f => ?_, fun f kids hf => ?_, Or.inl h.top, ?_, ?_, ?_⟩
        · by_cases hfa : f = above
          · subst hfa
            rw [AList.lookup_insert]
            exact ⟨fun _ => Or.inr rfl, fun _ => rfl⟩
          · rw [AList.lookup_insert_ne hfa, h.dom f]
            exact ⟨Or.inl, fun hf => hf.resolve_right hfa⟩
        · by_cases hfa : f = above
          · subst hfa
            rw [AList.lookup_insert] at hf
            obtain rfl := Option.some.inj hf
            refine ⟨hnodup.append (List.nodup_singleton _) (List.disjoint_singleton.2 hnew),
              fun kid => ?_⟩
            rw [List.mem_append, hmem kid, List.mem_singleton, or_assoc]
            refine or_congr Iff.rfl ⟨?_, ?_⟩
            · rintro (⟨g, hg, hrest⟩ | rfl)
              · exact ⟨g, Or.inl hg, hrest⟩
              · exact ⟨bottom, Or.inr rfl, hne, rfl, rfl⟩
            · rintro ⟨g, hg | rfl, hgne, hgf, rfl⟩
              · exact Or.inl ⟨g, hg, hgne, hgf, rfl⟩
              · exact Or.inr rfl
          · rw [AList.lookup_insert_ne hfa] at hf
            obtain ⟨hn, hk⟩ := h.kids f kids hf
            refine ⟨hn, fun kid => (hk kid).trans (or_congr Iff.rfl ⟨?_, ?_⟩)⟩
            · rintro ⟨g, hg, hrest⟩
              exact ⟨g, Or.inl hg, hrest⟩
            · rintro ⟨g, hg | rfl, hgne, hgf, rfl⟩
              · exact ⟨g, hg, hgne, hgf, rfl⟩
              · exact absurd hgf.symm hfa
        · rintro g (hg | rfl)
          · exact Or.inl (h.up g hg)
          · exact Or.inr rfl
        · exact fun t ht => Or.inl (h.home t ht)
        · rintro g (hg | rfl)
          · exact h.proper g hg
          · exact Or.inr hproper
      refine (ih hshape hproper.cut.1).congr (fun f => ?_)
      rw [mem_folders hne, or_assoc]

/-- **A thing in its folder**, and each folder on the way up. -/
theorem Shape.addThing {t : Thing} (h : Shape things linked [] all) (hproper : Proper t.path)
    (hold : ∀ t' ∈ things, Proper t'.path) (hnew : ∀ t' ∈ things, t'.path ≠ t.path) :
    Shape (things ++ [t])
      (fun f => linked f ∨ f = folderOf t.path ∨ f ∈ folders (folderOf t.path)) []
      (addThing all t) := by
  obtain ⟨hnodup, hmem⟩ := h.made (folderOf t.path)
  have hout : t.kid ∉ (all.lookup (folderOf t.path)).getD [] := by
    intro hin
    rcases (hmem _).1 hin with ⟨t', ht', hf, heq⟩ | ⟨g, -, -, -, heq⟩
    · exact hnew t' ht' ((hold t' ht').ext hproper hf (congrArg HashKid.name heq).symm)
    · exact absurd (congrArg HashKid.kind heq) (by simp [Thing.kid, folderKid])
  refine Shape.climb ⟨fun f => ?_, fun f kids hf => ?_, h.top, ?_, ?_, h.proper⟩ hproper.cut.1
  · by_cases hfa : f = folderOf t.path
    · subst hfa
      rw [AList.lookup_insert]
      exact ⟨fun _ => Or.inr rfl, fun _ => rfl⟩
    · rw [AList.lookup_insert_ne hfa, h.dom f]
      constructor
      · rintro (hf | rfl)
        · exact Or.inl hf
        · exact Or.inl h.top
      · exact fun hf => Or.inl (hf.resolve_right hfa)
  · by_cases hfa : f = folderOf t.path
    · subst hfa
      rw [AList.lookup_insert] at hf
      obtain rfl := Option.some.inj hf
      refine ⟨hnodup.append (List.nodup_singleton _) (List.disjoint_singleton.2 hout), fun kid => ?_⟩
      rw [List.mem_append, hmem kid, List.mem_singleton, or_right_comm]
      refine or_congr ⟨?_, ?_⟩ Iff.rfl
      · rintro (⟨t', ht', hrest⟩ | rfl)
        · exact ⟨t', List.mem_append_left _ ht', hrest⟩
        · exact ⟨t, by simp, rfl, rfl⟩
      · rintro ⟨t', ht', hf', rfl⟩
        rcases List.mem_append.1 ht' with ht' | ht'
        · exact Or.inl ⟨t', ht', hf', rfl⟩
        · exact Or.inr (List.mem_singleton.1 ht' ▸ rfl)
    · rw [AList.lookup_insert_ne hfa] at hf
      obtain ⟨hn, hk⟩ := h.kids f kids hf
      refine ⟨hn, fun kid => (hk kid).trans (or_congr ⟨?_, ?_⟩ Iff.rfl)⟩
      · rintro ⟨t', ht', hrest⟩
        exact ⟨t', List.mem_append_left _ ht', hrest⟩
      · rintro ⟨t', ht', hf', rfl⟩
        rcases List.mem_append.1 ht' with ht' | ht'
        · exact ⟨t', ht', hf', rfl⟩
        · obtain rfl := List.mem_singleton.1 ht'
          exact absurd hf'.symm hfa
  · exact fun g hg => Or.inl ((h.up g hg).elim id (fun heq => heq ▸ h.top))
  · intro t' ht'
    rcases List.mem_append.1 ht' with ht' | ht'
    · exact Or.inl ((h.home t' ht').elim id (fun heq => heq ▸ h.top))
    · exact Or.inr (by rw [List.mem_singleton.1 ht'])

/-- **The folders of things**, whatever order they are given in. -/
theorem shape_hashTreeFolders (hproper : ∀ t ∈ things, Proper t.path)
    (honce : (things.map Thing.path).Nodup) :
    Shape things (IsFolder things) [] (hashTreeFolders things) := by
  induction things using List.reverseRecOn with
  | nil =>
      have hnone : ∀ f, IsFolder [] f ↔ f = [] := by
        intro f
        simp [IsFolder]
      have hdom : ∀ f, ((hashTreeFolders []).lookup f).isSome ↔ f = [] := by
        intro f
        show ((AList.singleton [] [] : HashFolders).lookup f).isSome ↔ _
        rw [AList.lookup_isSome, AList.mem_keys]
        simp [AList.keys]
      have hstart : Shape [] (fun f => f = []) [] (hashTreeFolders []) := by
        refine ⟨fun f => by simpa using hdom f, fun f kids hf => ?_, rfl, ?_,
          fun t ht => absurd ht List.not_mem_nil, fun g hg => Or.inl hg⟩
        · obtain rfl := (hdom f).1 (Option.isSome_iff_exists.2 ⟨kids, hf⟩)
          obtain rfl : [] = kids := Option.some.inj hf
          refine ⟨List.nodup_nil, fun kid => ⟨fun hin => absurd hin List.not_mem_nil, ?_⟩⟩
          rintro (⟨t, ht, -⟩ | ⟨g, rfl, hg, -⟩)
          · exact absurd ht List.not_mem_nil
          · exact absurd rfl hg
        · rintro g rfl
          exact Or.inl rfl
      exact hstart.congr (fun f => (hnone f).symm)
  | append_singleton things t ih =>
      have hold : ∀ t' ∈ things, Proper t'.path := fun t' ht' => hproper t' (List.mem_append_left _ ht')
      have ht : Proper t.path := hproper t (by simp)
      rw [List.map_append, List.nodup_append] at honce
      have hnew : ∀ t' ∈ things, t'.path ≠ t.path :=
        fun t' ht' => honce.2.2 _ (List.mem_map_of_mem ht') _ (by simp)
      have hfold : hashTreeFolders (things ++ [t]) = addThing (hashTreeFolders things) t :=
        List.foldl_append
      rw [hfold]
      refine ((ih hold honce.1).addThing ht hold hnew).congr (fun f => ?_)
      rw [← mem_folders ht.1]
      unfold IsFolder
      constructor
      · rintro ((rfl | ⟨t', ht', hf⟩) | hf)
        · exact Or.inl rfl
        · exact Or.inr ⟨t', List.mem_append_left _ ht', hf⟩
        · exact Or.inr ⟨t, by simp, hf⟩
      · rintro (rfl | ⟨t', ht', hf⟩)
        · exact Or.inl (Or.inl rfl)
        · rcases List.mem_append.1 ht' with ht' | ht'
          · exact Or.inl (Or.inr ⟨t', ht', hf⟩)
          · exact Or.inr (List.mem_singleton.1 ht' ▸ hf)

end Shape

/-! ## The tree -/

/-- The hash a tree has for a folder. -/
def hashOf (tree : HashTree) (folder : Str) : Str := ((tree.lookup folder).map Prod.fst).getD []

/-- The hash a folder of these is to have. -/
def folderHash (sha256 : Str → Str) (kids : List HashKid) : Str :=
  toLower (hexEncode (sha256 (hashTreeText kids)))

/-- A thing in a folder, or a folder in it with its hash. -/
def KidOf (things : List Thing) (tree : HashTree) (folder : Str) (kid : HashKid) : Prop :=
  (∃ t ∈ things, folderOf t.path = folder ∧ kid = t.kid) ∨
    ∃ g, IsFolder things g ∧ g ≠ [] ∧ folderOf g = folder ∧
      kid = { folderKid g with hash := hashOf tree g }

/-- A tree that says what its things are. -/
structure IsTree (sha256 : Str → Str) (things : List Thing) (tree : HashTree) : Prop where
  none : ∀ f, ¬ IsFolder things f → tree.lookup f = none
  kids : ∀ f, IsFolder things f → ∃ kids, tree.lookup f = some (folderHash sha256 kids, kids) ∧
    kids.Pairwise (fun a b => a.name < b.name) ∧ ∀ kid, kid ∈ kids ↔ KidOf things tree f kid

section Tree

variable {sha256 : Str → Str} {things : List Thing} {linked : Str → Prop} {all : HashFolders}
  {tree : HashTree} {f : Str} {kids : List HashKid}

theorem IsFolder.proper (h : ThingsOk things) (hf : IsFolder things f) : f = [] ∨ Proper f := by
  rcases hf with rfl | ⟨t, ht, hf⟩
  · exact Or.inl rfl
  · exact proper_of_mem_folders (h.proper t ht) hf

/-- A folder of things is not one of them. -/
theorem ThingsOk.not_folder (h : ThingsOk things) {t : Thing} (ht : t ∈ things) :
    ¬ IsFolder things t.path := by
  rintro (hnil | ⟨t', ht', hf⟩)
  · exact (h.proper t ht).1 hnil
  · exact h.apart t ht t' ht' hf

/-- The names in a folder are each of one thing or of one folder. -/
theorem nodup_names (h : ThingsOk things) (hnodup : kids.Nodup)
    (hmem : ∀ kid, kid ∈ kids ↔ (∃ t ∈ things, folderOf t.path = f ∧ kid = t.kid) ∨
      ∃ g, IsFolder things g ∧ g ≠ [] ∧ folderOf g = f ∧ kid = folderKid g) :
    (kids.map HashKid.name).Nodup := by
  refine hnodup.map_on (fun a ha b hb hname => ?_)
  rcases (hmem a).1 ha with ⟨t, ht, hft, rfl⟩ | ⟨g, hg, hgne, hgf, rfl⟩
  · rcases (hmem b).1 hb with ⟨t', ht', hft', rfl⟩ | ⟨g', hg', hgne', hgf', rfl⟩
    · have hpath : t.path = t'.path :=
        (h.proper t ht).ext (h.proper t' ht') (hft.trans hft'.symm) hname
      rw [List.inj_on_of_nodup_map h.once ht ht' hpath]
    · have hpath : t.path = g' := (h.proper t ht).ext ((hg'.proper h).resolve_left hgne')
        (hft.trans hgf'.symm) hname
      exact absurd (hpath ▸ hg') (h.not_folder ht)
  · rcases (hmem b).1 hb with ⟨t', ht', hft', rfl⟩ | ⟨g', hg', hgne', hgf', rfl⟩
    · have hpath : t'.path = g := (h.proper t' ht').ext ((hg.proper h).resolve_left hgne)
        (hft'.trans hgf.symm) hname.symm
      exact absurd (hpath ▸ hg) (h.not_folder ht')
    · have hpath : g = g' := ((hg.proper h).resolve_left hgne).ext
        ((hg'.proper h).resolve_left hgne') (hgf.trans hgf'.symm) hname
      rw [hpath]

/-- What is in a folder, in order, with the hashes the folders have so far. -/
def kidsIn (all : HashFolders) (tree : HashTree) (path : Str) : List HashKid :=
  (((all.lookup path).getD []).insertionSort (fun a b => a.name ≤ b.name)).map (fun kid =>
    match kid.kind with
    | .d => { kid with hash := hashOf tree (under path kid.name) }
    | .f => kid)

theorem hashFolder_eq (all : HashFolders) (tree : HashTree) (path : Str) :
    hashFolder sha256 all tree path
      = tree.insert path (folderHash sha256 (kidsIn all tree path), kidsIn all tree path) := rfl

/-- What is in a folder is what is to be in it. -/
theorem kidsIn_spec (h : ThingsOk things) (hshape : Shape things (IsFolder things) [] all)
    (tree : HashTree) (f : Str) :
    (kidsIn all tree f).Pairwise (fun a b => a.name < b.name) ∧
      ∀ kid, kid ∈ kidsIn all tree f ↔ KidOf things tree f kid := by
  obtain ⟨hnodup, hmem⟩ := hshape.made f
  set made := (all.lookup f).getD [] with hmade
  have hnames := nodup_names h hnodup hmem
  have hfix : ∀ kid ∈ made, (match kid.kind with
      | .d => { kid with hash := hashOf tree (under f kid.name) }
      | .f => kid).name = kid.name := by
    intro kid _
    split <;> rfl
  constructor
  · unfold kidsIn
    rw [← hmade, List.pairwise_map]
    have htotal : Std.Total (fun a b : HashKid => a.name ≤ b.name) :=
      ⟨fun a b => le_total a.name b.name⟩
    have htrans : IsTrans HashKid (fun a b => a.name ≤ b.name) := ⟨fun _ _ _ => le_trans⟩
    have hsorted : (made.insertionSort (fun a b => a.name ≤ b.name)).Pairwise
        (fun a b => a.name ≤ b.name) := List.pairwise_insertionSort _ _
    have hdistinct : (made.insertionSort (fun a b => a.name ≤ b.name)).Pairwise
        (fun a b => a.name ≠ b.name) := by
      have hn := ((List.perm_insertionSort (fun a b : HashKid => a.name ≤ b.name) made).map
        HashKid.name).nodup_iff.2 hnames
      exact List.pairwise_map.1 hn
    refine (hsorted.and hdistinct).imp_of_mem (fun {a b} ha hb hab => ?_)
    rw [hfix a ((List.mem_insertionSort _).1 ha), hfix b ((List.mem_insertionSort _).1 hb)]
    exact lt_of_le_of_ne hab.1 hab.2
  · intro kid
    unfold kidsIn KidOf
    rw [← hmade, List.mem_map]
    constructor
    · rintro ⟨old, hold, rfl⟩
      rcases (hmem old).1 ((List.mem_insertionSort _).1 hold) with ⟨t, ht, hft, rfl⟩ |
        ⟨g, hg, hgne, rfl, rfl⟩
      · exact Or.inl ⟨t, ht, hft, rfl⟩
      · refine Or.inr ⟨g, hg, hgne, rfl, ?_⟩
        have hcut := ((hg.proper h).resolve_left hgne).cut.2.2.1
        show { folderKid g with hash := hashOf tree (under (folderOf g) (nameOf g)) } = _
        rw [hcut]
    · rintro (⟨t, ht, hft, rfl⟩ | ⟨g, hg, hgne, rfl, rfl⟩)
      · exact ⟨t.kid, (List.mem_insertionSort _).2 ((hmem _).2 (Or.inl ⟨t, ht, hft, rfl⟩)), rfl⟩
      · refine ⟨folderKid g, (List.mem_insertionSort _).2
          ((hmem _).2 (Or.inr ⟨g, hg, hgne, rfl, rfl⟩)), ?_⟩
        have hcut := ((hg.proper h).resolve_left hgne).cut.2.2.1
        show { folderKid g with hash := hashOf tree (under (folderOf g) (nameOf g)) } = _
        rw [hcut]

/-- What is to be in a folder is told by the hashes of the folders in it. -/
theorem KidOf.congr {tree' : HashTree} (hsame : ∀ g, IsFolder things g → g ≠ [] → folderOf g = f →
      hashOf tree' g = hashOf tree g) (kid : HashKid) :
    KidOf things tree f kid ↔ KidOf things tree' f kid := by
  refine or_congr Iff.rfl ⟨?_, ?_⟩
  · rintro ⟨g, hg, hgne, hgf, rfl⟩
    exact ⟨g, hg, hgne, hgf, by rw [hsame g hg hgne hgf]⟩
  · rintro ⟨g, hg, hgne, hgf, rfl⟩
    exact ⟨g, hg, hgne, hgf, by rw [hsame g hg hgne hgf]⟩

/-- A tree as far as it is made: the folders there have been have what is in them, and those in
    them have been too. -/
structure Built (sha256 : Str → Str) (things : List Thing) (pre : List Str) (tree : HashTree) :
    Prop where
  dom : ∀ p, (tree.lookup p).isSome ↔ p ∈ pre
  kids : ∀ p ∈ pre, ∃ kids, tree.lookup p = some (folderHash sha256 kids, kids) ∧
    kids.Pairwise (fun a b => a.name < b.name) ∧ ∀ kid, kid ∈ kids ↔ KidOf things tree p kid
  down : ∀ p ∈ pre, ∀ g, IsFolder things g → g ≠ [] → folderOf g = p → g ∈ pre

/-- **One more folder**, if those in it have been. -/
theorem Built.hashFolder {pre : List Str} {path : Str} (h : Built sha256 things pre tree)
    (hok : ThingsOk things) (hshape : Shape things (IsFolder things) [] all) (hnew : path ∉ pre)
    (hdown : ∀ g, IsFolder things g → g ≠ [] → folderOf g = path → g ∈ pre) :
    Built sha256 things (pre ++ [path]) (hashFolder sha256 all tree path) := by
  rw [hashFolder_eq]
  set tree' := tree.insert path (folderHash sha256 (kidsIn all tree path), kidsIn all tree path)
    with htree'
  have hsame : ∀ g, g ∈ pre → hashOf tree' g = hashOf tree g := by
    intro g hg
    have hne : g ≠ path := fun heq => hnew (heq ▸ hg)
    rw [hashOf, htree', AList.lookup_insert_ne hne, hashOf]
  refine ⟨fun p => ?_, fun p hp => ?_, fun p hp g hg hgne hgf => ?_⟩
  · by_cases hpath : p = path
    · rw [htree', hpath, AList.lookup_insert]
      simp
    · rw [htree', AList.lookup_insert_ne hpath, h.dom]
      simp [hpath]
  · rcases List.mem_append.1 hp with hp | hp
    · have hne : p ≠ path := fun heq => hnew (heq ▸ hp)
      obtain ⟨kids, hlook, hsorted, hmem⟩ := h.kids p hp
      refine ⟨kids, by rw [htree', AList.lookup_insert_ne hne, hlook], hsorted, fun kid => ?_⟩
      exact (hmem kid).trans (KidOf.congr (fun g hg hgne hgf => hsame g (h.down p hp g hg hgne hgf)) kid)
    · obtain rfl := List.mem_singleton.1 hp
      obtain ⟨hsorted, hmem⟩ := kidsIn_spec hok hshape tree p
      refine ⟨kidsIn all tree p, by rw [htree', AList.lookup_insert], hsorted, fun kid => ?_⟩
      exact (hmem kid).trans (KidOf.congr (fun g hg hgne hgf => hsame g (hdown g hg hgne hgf)) kid)
  · rcases List.mem_append.1 hp with hp | hp
    · exact List.mem_append_left _ (h.down p hp g hg hgne hgf)
    · exact List.mem_append_left _ (hdown g hg hgne (hgf.trans (List.mem_singleton.1 hp)))

/-- **The tree of things is a tree of them.** -/
theorem isTree_hashTree (sha256 : Str → Str) (h : ThingsOk things) :
    IsTree sha256 things (hashTree sha256 things) := by
  set all := hashTreeFolders things with hall
  have hshape : Shape things (IsFolder things) [] all := shape_hashTreeFolders h.proper h.once
  have htotal : Std.Total (fun a b : Str => depth b ≤ depth a) := ⟨fun a b => le_total _ _⟩
  have htrans : IsTrans Str (fun a b => depth b ≤ depth a) := ⟨fun _ _ _ hab hbc => hbc.trans hab⟩
  set paths := all.keys.insertionSort (fun a b => depth b ≤ depth a) with hpaths
  have hsorted : paths.Pairwise (fun a b => depth b ≤ depth a) := List.pairwise_insertionSort _ _
  have hnodup : paths.Nodup := (List.perm_insertionSort _ _).nodup_iff.2 all.keys_nodup
  have hmem : ∀ p, p ∈ paths ↔ IsFolder things p := by
    intro p
    rw [hpaths, List.mem_insertionSort, ← AList.mem_keys, ← AList.lookup_isSome, hshape.dom]
    exact ⟨fun hp => hp.elim id Or.inl, Or.inl⟩
  have hbuilt : Built sha256 things paths (Run.run (hashFolder sha256 all) ∅ paths) := by
    refine Run.inv_of_prefix (I := Built sha256 things) (fun pre path post tree hes hpre => ?_)
      ⟨fun p => by simp, fun p hp => absurd hp List.not_mem_nil,
        fun p hp => absurd hp List.not_mem_nil⟩
    rw [hes] at hsorted hnodup
    refine hpre.hashFolder h hshape ?_ (fun g hg hgne hgf => ?_)
    · exact fun hin => (List.nodup_append.1 hnodup).2.2 path hin path List.mem_cons_self rfl
    · -- a folder in it is deeper, so it has been
      have hdepth : depth g = depth path + 1 := hgf ▸ ((hg.proper h).resolve_left hgne).cut.2.2.2
      have hin : g ∈ pre ++ path :: post := hes ▸ (hmem g).2 hg
      rcases List.mem_append.1 hin with hin | hin
      · exact hin
      · rcases List.mem_cons.1 hin with rfl | hin
        · omega
        · have hle := List.rel_of_pairwise_cons (List.pairwise_append.1 hsorted).2.1 hin
          omega
  refine ⟨fun f hf => ?_, fun f hf => hbuilt.kids f ((hmem f).2 hf)⟩
  have hnone := (hbuilt.dom f).not.2 (fun hin => hf ((hmem f).1 hin))
  exact Option.not_isSome_iff_eq_none.1 hnone

end Tree

end ChrysaLisp
