import ChrysaLisp.Hash.Compare

set_option autoImplicit false

/-! # The comparison of two trees is exact

One folder compared with the same folder of another says what of it differs, and which folders of it
are to be gone into (`mem_hashTreeCompare`). A folder on the stack is gone through, with all that is
under it that is to be, in so many turns, and nothing on the stack under it is touched: so what is
found of a stack is what is found of each folder on it, and a comparison comes to an end
(`walkLoop_folder`). -/

namespace ChrysaLisp

/-! ## One folder compared -/

section Compare

variable {mine theirs : List HashKid}

theorem key_inj {k k' : HashKid} : k.key = k'.key ↔ k.kind = k'.kind ∧ k.name = k'.name := by
  unfold HashKid.key
  constructor
  · intro h
    cases hk : k.kind <;> cases hk' : k'.kind <;> rw [hk, hk'] at h
    · exact ⟨rfl, List.append_cancel_left h⟩
    · exact absurd (List.cons.inj h).1 (by decide)
    · exact absurd (List.cons.inj h).1 (by decide)
    · exact ⟨rfl, List.append_cancel_left h⟩
  · rintro ⟨hk, hn⟩
    rw [hk, hn]

/-- What they have, by kind and name. -/
def havesOf (theirs : List HashKid) : AList (fun _ : Str => Str × Str) :=
  theirs.foldl (fun map kid => map.insert kid.key (kid.hash, kid.word)) ∅

theorem lookup_havesOf (h : theirs.Pairwise (fun k k' => k.name < k'.name)) (key : Str)
    (x : Str × Str) : (havesOf theirs).lookup key = some x ↔
      ∃ k ∈ theirs, k.key = key ∧ (k.hash, k.word) = x := by
  induction theirs using List.reverseRecOn with
  | nil => simp [havesOf]
  | append_singleton theirs k ih =>
      rw [List.pairwise_append] at h
      have hfold : havesOf (theirs ++ [k]) = (havesOf theirs).insert k.key (k.hash, k.word) :=
        List.foldl_append
      rw [hfold]
      by_cases hkey : key = k.key
      · rw [hkey, AList.lookup_insert]
        constructor
        · intro hx
          exact ⟨k, by simp, rfl, Option.some.inj hx⟩
        · rintro ⟨k', hin, hk', hx⟩
          rcases List.mem_append.1 hin with hin | hin
          · have hlt := h.2.2 k' hin k (by simp)
            rw [(key_inj.1 hk').2] at hlt
            exact absurd hlt (lt_irrefl _)
          · rw [← hx, List.mem_singleton.1 hin]
      · rw [AList.lookup_insert_ne hkey, ih h.1]
        constructor
        · rintro ⟨k', hin, hrest⟩
          exact ⟨k', List.mem_append_left _ hin, hrest⟩
        · rintro ⟨k', hin, hk', hx⟩
          rcases List.mem_append.1 hin with hin | hin
          · exact ⟨k', hin, hk', hx⟩
          · rw [List.mem_singleton.1 hin] at hk'
            exact absurd hk'.symm hkey

/-- Of those I have: the things that are to be said to differ, by the word alone, and the folders to
    go into or to say are mine alone. -/
theorem foldl_compareMine (haves : AList (fun _ : Str => Str × Str)) (out : HashCompared) :
    mine.foldl (compareMine haves) out =
      { differ := out.differ ++ (mine.filter (fun k => decide (k.kind = .f) &&
          decide (((haves.lookup k.key).map Prod.fst) ≠ some k.hash))).map HashKid.name
        words := out.words ++ (mine.filter (fun k => decide (k.kind = .f) &&
          decide (((haves.lookup k.key).map Prod.fst) = some k.hash) &&
          decide (((haves.lookup k.key).map Prod.snd) ≠ some k.word))).map
            (fun k => (k.name, k.word))
        gone := out.gone
        into := out.into ++ (mine.filter (fun k => decide (k.kind = .d) &&
          (haves.lookup k.key).isSome &&
          decide (((haves.lookup k.key).map Prod.fst) ≠ some k.hash))).map HashKid.name
        onlyMine := out.onlyMine ++ (mine.filter (fun k => decide (k.kind = .d) &&
          (haves.lookup k.key).isNone)).map HashKid.name
        onlyTheirs := out.onlyTheirs } := by
  induction mine generalizing out with
  | nil => simp
  | cons k mine ih =>
      rw [List.foldl_cons, ih]
      unfold compareMine
      cases hkind : k.kind <;> cases hlook : haves.lookup k.key with
      | none => simp [hkind, hlook]
      | some there =>
          by_cases hhash : k.hash = there.1
          · by_cases hword : k.word = there.2
            · simp [hkind, hlook, hhash, hword]
            · simp [hkind, hlook, hhash, hword, Ne.symm hword]
          · simp [hkind, hlook, hhash, Ne.symm hhash]

/-- Of theirs: the things and the folders that I have none of. -/
theorem foldl_compareTheirs (keep : List Str) (out : HashCompared) :
    theirs.foldl (compareTheirs keep) out =
      { out with
        gone := out.gone ++ (theirs.filter (fun k => decide (k.kind = .f) &&
          decide (k.key ∉ keep))).map HashKid.name
        onlyTheirs := out.onlyTheirs ++ (theirs.filter (fun k => decide (k.kind = .d) &&
          decide (k.key ∉ keep))).map HashKid.name } := by
  induction theirs generalizing out with
  | nil => simp
  | cons k theirs ih =>
      rw [List.foldl_cons, ih]
      unfold compareTheirs
      by_cases hkeep : k.key ∈ keep
      · simp [hkeep]
      · cases hkind : k.kind <;> simp [hkeep, hkind]

/-- One of that kind and that name is there. -/
def HasKid (kids : List HashKid) (kind : HashKind) (name : Str) (x : Str × Str) : Prop :=
  ⟨name, kind, x.1, x.2⟩ ∈ kids

theorem exists_hasKid {kids : List HashKid} {kind : HashKind} {name : Str}
    {P : Str × Str → Prop} : (∃ k ∈ kids, k.kind = kind ∧ k.name = name ∧ P (k.hash, k.word)) ↔
      ∃ x, HasKid kids kind name x ∧ P x := by
  constructor
  · intro hk
    obtain ⟨k, hin, rfl, rfl, hP⟩ := hk
    exact ⟨(k.hash, k.word), hin, hP⟩
  · intro hx
    obtain ⟨x, hin, hP⟩ := hx
    exact ⟨_, hin, rfl, rfl, hP⟩

theorem lookup_havesOf_key (h : theirs.Pairwise (fun k k' => k.name < k'.name)) (kid : HashKid)
    (x : Str × Str) :
    (havesOf theirs).lookup kid.key = some x ↔ HasKid theirs kid.kind kid.name x := by
  rw [lookup_havesOf h]
  constructor
  · intro hk
    obtain ⟨k, hin, hkey, rfl⟩ := hk
    rw [key_inj] at hkey
    rw [HasKid, ← hkey.1, ← hkey.2]
    exact hin
  · intro hin
    exact ⟨_, hin, key_inj.2 ⟨rfl, rfl⟩, rfl⟩

theorem not_mem_keys (kid : HashKid) : kid.key ∉ mine.map HashKid.key ↔
    ¬ ∃ x, HasKid mine kid.kind kid.name x := by
  rw [not_iff_not, List.mem_map]
  constructor
  · intro hk
    obtain ⟨k, hin, hkey⟩ := hk
    rw [key_inj] at hkey
    refine ⟨(k.hash, k.word), ?_⟩
    rw [HasKid, ← hkey.1, ← hkey.2]
    exact hin
  · intro hx
    obtain ⟨x, hin⟩ := hx
    exact ⟨_, hin, key_inj.2 ⟨rfl, rfl⟩⟩

theorem mem_names {l : List HashKid} {q : HashKid → Bool} {n : Str} {kind : HashKind}
    {P : Str × Str → Prop} (hq : ∀ k, k.name = n →
      (q k = true ↔ k.kind = kind ∧ P (k.hash, k.word))) :
    n ∈ (l.filter q).map HashKid.name ↔ ∃ x, HasKid l kind n x ∧ P x := by
  rw [← exists_hasKid, List.mem_map]
  constructor
  · intro hk
    obtain ⟨k, hin, hname⟩ := hk
    rw [List.mem_filter, hq k hname] at hin
    exact ⟨k, hin.1, hin.2.1, hname, hin.2.2⟩
  · intro hk
    obtain ⟨k, hin, hkind, hname, hP⟩ := hk
    exact ⟨k, List.mem_filter.2 ⟨hin, (hq k hname).2 ⟨hkind, hP⟩⟩, hname⟩

/-- **One folder compared**, what each list of it has. -/
theorem mem_hashTreeCompare (h : theirs.Pairwise (fun k k' => k.name < k'.name)) (n : Str) :
    (n ∈ (hashTreeCompare mine theirs).differ ↔
      ∃ x, HasKid mine .f n x ∧ ¬ ∃ w, HasKid theirs .f n (x.1, w)) ∧
    (n ∈ (hashTreeCompare mine theirs).words.map Prod.fst ↔
      ∃ x, HasKid mine .f n x ∧ ∃ w, HasKid theirs .f n (x.1, w) ∧ w ≠ x.2) ∧
    (n ∈ (hashTreeCompare mine theirs).gone ↔
      (∃ x, HasKid theirs .f n x) ∧ ¬ ∃ x, HasKid mine .f n x) ∧
    (n ∈ (hashTreeCompare mine theirs).into ↔
      ∃ x, HasKid mine .d n x ∧ ∃ y, HasKid theirs .d n y ∧ y.1 ≠ x.1) ∧
    (n ∈ (hashTreeCompare mine theirs).onlyMine ↔
      (∃ x, HasKid mine .d n x) ∧ ¬ ∃ x, HasKid theirs .d n x) ∧
    (n ∈ (hashTreeCompare mine theirs).onlyTheirs ↔
      (∃ x, HasKid theirs .d n x) ∧ ¬ ∃ x, HasKid mine .d n x) := by
  have hlook := lookup_havesOf_key h
  have hfst : ∀ (kid : HashKid) (hash : Str), ((havesOf theirs).lookup kid.key).map Prod.fst = some hash ↔
      ∃ w, HasKid theirs kid.kind kid.name (hash, w) := by
    intro kid hash
    rw [Option.map_eq_some_iff]
    constructor
    · intro hx
      obtain ⟨x, hx, rfl⟩ := hx
      exact ⟨x.2, (hlook kid x).1 hx⟩
    · intro hw
      obtain ⟨w, hw⟩ := hw
      exact ⟨(hash, w), (hlook kid _).2 hw, rfl⟩
  have hsome : ∀ kid : HashKid, ((havesOf theirs).lookup kid.key).isSome ↔
      ∃ x, HasKid theirs kid.kind kid.name x := by
    intro kid
    rw [Option.isSome_iff_exists]
    exact exists_congr (hlook kid)
  have hall : hashTreeCompare mine theirs =
      theirs.foldl (compareTheirs (mine.map HashKid.key))
        (mine.foldl (compareMine (havesOf theirs)) ⟨[], [], [], [], [], []⟩) := rfl
  rw [hall, foldl_compareTheirs, foldl_compareMine]
  simp only [List.nil_append]
  have hboth : ∀ k : HashKid, ((havesOf theirs).lookup k.key).isSome →
      (((havesOf theirs).lookup k.key).map Prod.fst ≠ some k.hash ↔
        ∃ y, HasKid theirs k.kind k.name y ∧ y.1 ≠ k.hash) := by
    intro k hk
    obtain ⟨y, hy⟩ := Option.isSome_iff_exists.1 hk
    rw [hy, Option.map_some, Ne, Option.some_inj]
    constructor
    · intro hne
      exact ⟨y, (hlook k y).1 hy, hne⟩
    · intro hy'
      obtain ⟨y', hin, hne⟩ := hy'
      have heq := ((hlook k y').2 hin).symm.trans hy
      rwa [Option.some_inj.1 heq] at hne
  refine ⟨?_, ?_, ?_, ?_, ?_, ?_⟩
  · refine mem_names (fun k hn => ?_)
    subst hn
    rw [Bool.and_eq_true, decide_eq_true_iff, decide_eq_true_iff, Ne, hfst]
    exact and_congr_right (fun hk => by rw [hk])
  · rw [List.map_map]
    refine mem_names (fun k hn => ?_)
    subst hn
    rw [Bool.and_eq_true, Bool.and_eq_true, decide_eq_true_iff, decide_eq_true_iff,
      decide_eq_true_iff, and_assoc]
    refine and_congr_right (fun hk => ?_)
    rw [← hk]
    constructor
    · intro hx
      obtain ⟨hhash, hword⟩ := hx
      obtain ⟨w, hw⟩ := (hfst k k.hash).1 hhash
      refine ⟨w, hw, fun heq => hword ?_⟩
      rw [(hlook k _).2 hw, heq]
      rfl
    · intro hw
      obtain ⟨w, hw, hne⟩ := hw
      refine ⟨(hfst k k.hash).2 ⟨w, hw⟩, fun heq => hne ?_⟩
      rw [(hlook k _).2 hw] at heq
      exact Option.some_inj.1 heq
  · refine (mem_names (P := fun _ => ¬ ∃ x, HasKid mine .f n x) (fun k hn => ?_)).trans
      exists_and_right
    subst hn
    rw [Bool.and_eq_true, decide_eq_true_iff, decide_eq_true_iff, not_mem_keys]
    exact and_congr_right (fun hk => by rw [hk])
  · refine mem_names (fun k hn => ?_)
    subst hn
    rw [Bool.and_eq_true, Bool.and_eq_true, decide_eq_true_iff, decide_eq_true_iff, and_assoc]
    refine and_congr_right (fun hk => ?_)
    rw [← hk]
    constructor
    · intro hx
      exact (hboth k hx.1).1 hx.2
    · intro hy
      obtain ⟨y, hin, hne⟩ := hy
      have hthere := (hsome k).2 ⟨y, hin⟩
      exact ⟨hthere, (hboth k hthere).2 ⟨y, hin, hne⟩⟩
  · refine (mem_names (P := fun _ => ¬ ∃ x, HasKid theirs .d n x) (fun k hn => ?_)).trans
      exists_and_right
    subst hn
    rw [Bool.and_eq_true, decide_eq_true_iff, Option.isNone_iff_eq_none, ← Option.not_isSome_iff_eq_none,
      hsome]
    exact and_congr_right (fun hk => by rw [hk])
  · refine (mem_names (P := fun _ => ¬ ∃ x, HasKid mine .d n x) (fun k hn => ?_)).trans
      exists_and_right
    subst hn
    rw [Bool.and_eq_true, decide_eq_true_iff, decide_eq_true_iff, not_mem_keys]
    exact and_congr_right (fun hk => by rw [hk])

end Compare

/-! ## The folders of a tree -/

section Tree

variable {sha256 : Str → Str} {A B : List Thing} {a b : HashTree} {f g p n : Str} {x : Str × Str}

/-- The things of a folder, by their paths. -/
theorem hasKid_thing (hok : ThingsOk A) (ht : IsTree sha256 A a) (hf : IsFolder A f) :
    HasKid (hashTreeKids a f) .f n x ↔ Part 47 n ∧ HasThing A (under f n) x := by
  have hgo : Part 47 n → (HasKid (hashTreeKids a f) .f n x ↔ HasThing A (under f n) x) := by
    intro hn
    have hmem := mem_kids_thing (x := x) hok ht hf (proper_under (hf.proper hok) hn)
      (folderOf_under hn.2)
    rwa [nameOf_under hn.2] at hmem
  constructor
  · intro hkid
    rcases ((ht.kids_eq hf).2.2.2 _).1 hkid with ⟨t, hin, -, heq⟩ | ⟨g, -, -, -, heq⟩
    · have hn : Part 47 n := by
        rw [show n = nameOf t.path from congrArg HashKid.name heq]
        exact (hok.proper t hin).cut.2.1
      exact ⟨hn, (hgo hn).1 hkid⟩
    · exact absurd (congrArg HashKid.kind heq) (by simp [folderKid])
  · intro hx
    exact (hgo hx.1).2 hx.2

/-- The folders in a folder, by their paths. -/
theorem hasKid_folder (hok : ThingsOk A) (ht : IsTree sha256 A a) (hf : IsFolder A f) :
    HasKid (hashTreeKids a f) .d n x ↔
      Part 47 n ∧ IsFolder A (under f n) ∧ x = (hashOf a (under f n), asc "-") := by
  have hgo : ∀ hash, Part 47 n → (HasKid (hashTreeKids a f) .d n (hash, asc "-") ↔
      IsFolder A (under f n) ∧ hash = hashOf a (under f n)) := by
    intro hash hn
    have hmem := mem_kids_folder hok ht hf (proper_under (hf.proper hok) hn) (folderOf_under hn.2) hash
    rwa [folderKid, nameOf_under hn.2] at hmem
  constructor
  · intro hkid
    rcases ((ht.kids_eq hf).2.2.2 _).1 hkid with ⟨t, -, -, heq⟩ | ⟨g, hg, hgne, -, heq⟩
    · exact absurd (congrArg HashKid.kind heq) (by simp [Thing.kid])
    · have hn : Part 47 n := by
        rw [show n = nameOf g from congrArg HashKid.name heq]
        exact ((hg.proper hok).resolve_left hgne).cut.2.1
      have hword : x.2 = asc "-" := congrArg HashKid.word heq
      have hx : x = (x.1, asc "-") := Prod.ext rfl hword
      rw [hx] at hkid
      obtain ⟨hg', hhash⟩ := (hgo x.1 hn).1 hkid
      exact ⟨hn, hg', by rw [hx, hhash]⟩
  · intro hx
    obtain ⟨hn, hg, rfl⟩ := hx
    exact (hgo _ hn).2 ⟨hg, rfl⟩

/-- What is under a folder is in it, or under one in it. -/
theorem mem_folders_under (hp : Proper p) : f ∈ folders p ↔
    (∃ n, Part 47 n ∧ p = under f n) ∨ ∃ n, Part 47 n ∧ under f n ∈ folders p := by
  have hin : ∀ n, Part 47 n → f ∈ folders (under f n) := by
    intro n hn
    have hne : under f n ≠ [] := by
      intro hnil
      have hlt : f.length < (under f n).length := length_lt_under hn.1
      rw [hnil] at hlt
      exact absurd hlt (by simp)
    exact (mem_folders hne).2 (Or.inl (folderOf_under hn.2).symm)
  constructor
  · intro hf
    rcases mem_folders_top hp.1 hf with htop | ⟨g, hgne, hgf, hg⟩
    · exact Or.inl ⟨nameOf p, hp.cut.2.1, by rw [← htop, hp.cut.2.2.1]⟩
    · have hcut := ((proper_of_mem_folders hp hg).resolve_left hgne).cut
      refine Or.inr ⟨nameOf g, hcut.2.1, ?_⟩
      rw [← hgf, hcut.2.2.1]
      exact hg
  · intro h
    rcases h with ⟨n, hn, rfl⟩ | ⟨n, hn, hg⟩
    · exact hin n hn
    · exact mem_folders_trans (hin n hn) hg

theorem HasThing.proper (hok : ThingsOk A) (h : HasThing A p x) : Proper p := by
  obtain ⟨t, ht, rfl, -⟩ := h
  exact hok.proper t ht

/-- A folder of one that is a folder is one by a thing under it. -/
theorem isFolder_under (hn : Part 47 n) (hg : IsFolder A (under f n)) :
    ∃ p x, HasThing A p x ∧ under f n ∈ folders p := by
  have hne : under f n ≠ [] := by
    intro hnil
    have hlt : f.length < (under f n).length := length_lt_under hn.1
    rw [hnil] at hlt
    exact absurd hlt (by simp)
  obtain ⟨t, ht, hin⟩ := hg.resolve_left hne
  exact ⟨t.path, _, ⟨t, ht, rfl, rfl⟩, hin⟩

/-! ## All that is under a folder -/

theorem foldl_underStep (kids : List HashKid) (stack out : List Str) :
    kids.foldl (underStep f) (stack, out) =
      (((kids.filter (fun k => decide (k.kind = .d))).map (fun k => under f k.name)).reverse ++ stack,
        out ++ (kids.filter (fun k => decide (k.kind = .f))).map (fun k => under f k.name)) := by
  induction kids generalizing stack out with
  | nil => simp
  | cons k kids ih =>
      rw [List.foldl_cons]
      cases hkind : k.kind <;> simp [underStep, hkind, ih]

/-- Every thing under these folders is put out, in so many turns. -/
def Unders (A : List Thing) (a : HashTree) (gs : List Str) : Prop :=
  ∃ k res, (∀ turns rest out,
    underLoop a (turns + k) (gs ++ rest) out = underLoop a turns rest (out ++ res)) ∧
    ∀ p, p ∈ res ↔ (∃ g ∈ gs, g ∈ folders p) ∧ ∃ x, HasThing A p x

theorem unders_of_each {gs : List Str} (h : ∀ g ∈ gs, Unders A a [g]) : Unders A a gs := by
  induction gs with
  | nil => exact ⟨0, [], by simp, by simp⟩
  | cons g gs ih =>
      obtain ⟨k, res, hrun, hres⟩ := h g List.mem_cons_self
      obtain ⟨k', res', hrun', hres'⟩ := ih (fun g' hg' => h g' (List.mem_cons_of_mem _ hg'))
      refine ⟨k' + k, res ++ res', fun turns rest out => ?_, fun p => ?_⟩
      · have hone := hrun (turns + k') (gs ++ rest) out
        rw [← Nat.add_assoc, List.cons_append, ← List.append_assoc, ← hrun']
        exact hone
      · rw [List.mem_append, hres, hres']
        simp only [List.mem_cons, List.not_mem_nil, or_false, exists_eq_left, exists_eq_or_imp]
        tauto

/-- **A folder is gone through**, with those below it. -/
theorem unders_folder (hok : ThingsOk A) (ht : IsTree sha256 A a) (hf : IsFolder A f) :
    Unders A a [f] := by
  obtain ⟨most, hmost⟩ := exists_longest A
  induction hm : most - f.length using Nat.strong_induction_on generalizing f with
  | _ m ih =>
      set kids := hashTreeKids a f with hkids
      set gs := ((kids.filter (fun k => decide (k.kind = .d))).map
        (fun k => under f k.name)).reverse with hgs
      have hmem : ∀ g, g ∈ gs ↔ ∃ n, Part 47 n ∧ g = under f n ∧ IsFolder A g := by
        intro g
        rw [hgs, List.mem_reverse, List.mem_map]
        constructor
        · intro hk
          obtain ⟨k, hk, rfl⟩ := hk
          rw [List.mem_filter, decide_eq_true_iff] at hk
          have hhas : HasKid kids .d k.name (k.hash, k.word) := hk.2 ▸ hk.1
          obtain ⟨hn, hg, -⟩ := (hasKid_folder hok ht hf).1 hhas
          exact ⟨k.name, hn, rfl, hg⟩
        · intro hn
          obtain ⟨n, hn, rfl, hg⟩ := hn
          have hin := (hasKid_folder hok ht hf).2 ⟨hn, hg, rfl⟩
          exact ⟨_, List.mem_filter.2 ⟨hin, rfl⟩, rfl⟩
      have hbelow : Unders A a gs := by
        refine unders_of_each (fun g hg => ?_)
        obtain ⟨n, hn, rfl, hg⟩ := (hmem g).1 hg
        -- a path under it is longer still, so it is nearer to the longest
        obtain ⟨p, x, ⟨t, htin, rfl, -⟩, hp⟩ := isFolder_under hn hg
        have hlt : f.length < (under f n).length := length_lt_under hn.1
        have hle := length_lt_of_mem_folders hp
        have := hmost t htin
        exact ih _ (by omega) hg rfl
      obtain ⟨k, res, hrun, hres⟩ := hbelow
      set here := (kids.filter (fun k => decide (k.kind = .f))).map (fun k => under f k.name)
        with hhere
      refine ⟨k + 1, here ++ res, fun turns rest out => ?_, fun p => ?_⟩
      · show underLoop a (turns + k + 1) (f :: rest) out = _
        rw [underLoop, ← hkids, foldl_underStep]
        show underLoop a (turns + k) (gs ++ rest) (out ++ here) = _
        rw [hrun, List.append_assoc]
      · have hherep : p ∈ here ↔ ∃ n, Part 47 n ∧ p = under f n ∧ ∃ x, HasThing A p x := by
          rw [hhere, List.mem_map]
          constructor
          · intro hk
            obtain ⟨k, hk, rfl⟩ := hk
            rw [List.mem_filter, decide_eq_true_iff] at hk
            have hhas : HasKid kids .f k.name (k.hash, k.word) := hk.2 ▸ hk.1
            obtain ⟨hn, hx⟩ := (hasKid_thing hok ht hf).1 hhas
            exact ⟨k.name, hn, rfl, _, hx⟩
          · intro hn
            obtain ⟨n, hn, rfl, x, hx⟩ := hn
            have hin := (hasKid_thing hok ht hf).2 ⟨hn, hx⟩
            exact ⟨_, List.mem_filter.2 ⟨hin, rfl⟩, rfl⟩
        rw [List.mem_append, hherep, hres]
        simp only [List.mem_singleton, exists_eq_left]
        constructor
        · intro hp
          rcases hp with ⟨n, hn, rfl, x, hx⟩ | ⟨⟨g, hg, hgp⟩, x, hx⟩
          · exact ⟨(mem_folders_under (hx.proper hok)).2 (Or.inl ⟨n, hn, rfl⟩), x, hx⟩
          · obtain ⟨n, hn, rfl, -⟩ := (hmem g).1 hg
            exact ⟨(mem_folders_under (hx.proper hok)).2 (Or.inr ⟨n, hn, hgp⟩), x, hx⟩
        · intro hp
          obtain ⟨hfp, x, hx⟩ := hp
          rcases (mem_folders_under (hx.proper hok)).1 hfp with ⟨n, hn, rfl⟩ | ⟨n, hn, hg⟩
          · exact Or.inl ⟨n, hn, rfl, x, hx⟩
          · exact Or.inr ⟨⟨_, (hmem _).2 ⟨n, hn, rfl, isFolder_of_hasThing hx hg⟩, hg⟩, x, hx⟩

/-- The folders of a list, each with every thing under it, given turns enough. -/
theorem underAll_some (hok : ThingsOk A) (ht : IsTree sha256 A a) (names : List Str)
    (hnames : ∀ n ∈ names, IsFolder A (under f n)) :
    ∃ m res, (∀ turns, m ≤ turns → underAll a turns f names = some res) ∧
      ∀ p, p ∈ res ↔ ∃ n ∈ names, under f n ∈ folders p ∧ ∃ x, HasThing A p x := by
  induction names with
  | nil => exact ⟨0, [], fun turns _ => rfl, by simp⟩
  | cons n names ih =>
      obtain ⟨m, res, hrun, hres⟩ := ih (fun n' hn' => hnames n' (List.mem_cons_of_mem _ hn'))
      obtain ⟨k, res', hrun', hres'⟩ := unders_folder hok ht (hnames n List.mem_cons_self)
      refine ⟨max m k, sortStr res' ++ res, fun turns hturns => ?_, fun p => ?_⟩
      · have hone : hashTreeUnder a turns (under f n) = some (sortStr res') := by
          have heq := hrun' (turns - k) [] []
          rw [Nat.sub_add_cancel ((le_max_right m k).trans hturns)] at heq
          unfold hashTreeUnder
          have hnil : underLoop a turns [under f n] [] = underLoop a (turns - k) [] ([] ++ res') := heq
          rw [hnil, underLoop]
          rfl
        have hrest := hrun turns ((le_max_left m k).trans hturns)
        unfold underAll at hrest ⊢
        obtain ⟨lists, hlists, rfl⟩ := Option.map_eq_some_iff.1 hrest
        rw [List.mapM_cons, hone, hlists]
        rfl
      · rw [List.mem_append, mem_sortStr, hres, hres']
        simp

/-! ## What differs -/

/-- I have it, and they have it not, or not the same. -/
def Differs (A B : List Thing) (p : Str) : Prop :=
  ∃ x, HasThing A p x ∧ ¬ ∃ w, HasThing B p (x.1, w)

/-- Both have it, the same but for the word. -/
def WordDiffers (A B : List Thing) (p : Str) : Prop :=
  ∃ x, HasThing A p x ∧ ∃ w, HasThing B p (x.1, w) ∧ w ≠ x.2

/-- They have it, and I have not. -/
def IsGone (A B : List Thing) (p : Str) : Prop := (∃ x, HasThing B p x) ∧ ¬ ∃ x, HasThing A p x

theorem HasThing.eq {y : Str × Str} (hok : ThingsOk A) (hx : HasThing A p x) (hy : HasThing A p y) :
    x = y := by
  obtain ⟨t, ht, htp, rfl⟩ := hx
  obtain ⟨t', ht', htp', rfl⟩ := hy
  rw [List.inj_on_of_nodup_map hok.once ht ht' (htp.trans htp'.symm)]

/-- **One folder compared with the same folder of another**, what each list of it has. -/
theorem compare_folder (hA : ThingsOk A) (hB : ThingsOk B) (ha : IsTree sha256 A a)
    (hb : IsTree sha256 B b) (hfA : IsFolder A f) (hfB : IsFolder B f) (n : Str) :
    (n ∈ (hashTreeCompare (hashTreeKids a f) (hashTreeKids b f)).differ ↔
      Part 47 n ∧ Differs A B (under f n)) ∧
    (n ∈ (hashTreeCompare (hashTreeKids a f) (hashTreeKids b f)).words.map Prod.fst ↔
      Part 47 n ∧ WordDiffers A B (under f n)) ∧
    (n ∈ (hashTreeCompare (hashTreeKids a f) (hashTreeKids b f)).gone ↔
      Part 47 n ∧ IsGone A B (under f n)) ∧
    (n ∈ (hashTreeCompare (hashTreeKids a f) (hashTreeKids b f)).into ↔
      Part 47 n ∧ IsFolder A (under f n) ∧ IsFolder B (under f n) ∧
        hashOf b (under f n) ≠ hashOf a (under f n)) ∧
    (n ∈ (hashTreeCompare (hashTreeKids a f) (hashTreeKids b f)).onlyMine ↔
      Part 47 n ∧ IsFolder A (under f n) ∧ ¬ IsFolder B (under f n)) ∧
    (n ∈ (hashTreeCompare (hashTreeKids a f) (hashTreeKids b f)).onlyTheirs ↔
      Part 47 n ∧ IsFolder B (under f n) ∧ ¬ IsFolder A (under f n)) := by
  obtain ⟨h1, h2, h3, h4, h5, h6⟩ := @mem_hashTreeCompare (hashTreeKids a f) (hashTreeKids b f)
    (hb.kids_eq hfB).2.2.1 n
  rw [h1, h2, h3, h4, h5, h6]
  simp only [hasKid_thing hA ha hfA, hasKid_thing hB hb hfB, hasKid_folder hA ha hfA,
    hasKid_folder hB hb hfB]
  unfold Differs WordDiffers IsGone
  by_cases hn : Part 47 n
  · simp [hn]
  · simp [hn]

/-- What is found of what is under these folders. -/
structure FoundOf (A B : List Thing) (gs : List Str) (res : HashDiffer) : Prop where
  differ : ∀ p, p ∈ res.differ ↔ (∃ g ∈ gs, g ∈ folders p) ∧ Differs A B p
  words : ∀ p, p ∈ res.words ↔ (∃ g ∈ gs, g ∈ folders p) ∧ WordDiffers A B p
  gone : ∀ p, p ∈ res.gone ↔ (∃ g ∈ gs, g ∈ folders p) ∧ IsGone A B p

/-- Found, and then found more. -/
def HashDiffer.add (out more : HashDiffer) : HashDiffer :=
  ⟨out.differ ++ more.differ, out.words ++ more.words, out.gone ++ more.gone⟩

/-- What is under these folders is found, in so many turns. -/
def Walks (A B : List Thing) (a b : HashTree) (gs : List Str) : Prop :=
  ∃ k m res, (∀ turns rest out, m ≤ turns →
    walkLoop a b (turns + k) (gs ++ rest) out = walkLoop a b turns rest (out.add res)) ∧
    FoundOf A B gs res

theorem walks_of_each {gs : List Str} (h : ∀ g ∈ gs, Walks A B a b [g]) : Walks A B a b gs := by
  induction gs with
  | nil =>
      refine ⟨0, 0, ⟨[], [], []⟩, fun turns rest out _ => ?_, ⟨by simp, by simp, by simp⟩⟩
      simp [HashDiffer.add]
  | cons g gs ih =>
      obtain ⟨k, m, res, hrun, hres⟩ := h g List.mem_cons_self
      obtain ⟨k', m', res', hrun', hres'⟩ := ih (fun g' hg' => h g' (List.mem_cons_of_mem _ hg'))
      have hmem : ∀ {P : Prop} {p : Str}, ((∃ g' ∈ g :: gs, g' ∈ folders p) ∧ P) ↔
          ((∃ g' ∈ [g], g' ∈ folders p) ∧ P) ∨ ((∃ g' ∈ gs, g' ∈ folders p) ∧ P) := by
        intro P p
        simp only [List.mem_cons, List.not_mem_nil, or_false, exists_eq_left, exists_eq_or_imp]
        exact or_and_right
      refine ⟨k' + k, max m m', res.add res', fun turns rest out hturns => ?_, ?_⟩
      · have hone := hrun (turns + k') (gs ++ rest) out (by omega)
        have htwo := hrun' turns rest (out.add res) (by omega)
        have hadd : (out.add res).add res' = out.add (res.add res') := by
          simp [HashDiffer.add]
        rw [← Nat.add_assoc, List.cons_append, ← hadd, ← htwo]
        exact hone
      · refine ⟨fun p => ?_, fun p => ?_, fun p => ?_⟩
        · rw [hmem, ← hres.differ, ← hres'.differ]
          exact List.mem_append
        · rw [hmem, ← hres.words, ← hres'.words]
          exact List.mem_append
        · rw [hmem, ← hres.gone, ← hres'.gone]
          exact List.mem_append

theorem foldl_push (f : Str) (names stack : List Str) :
    names.foldl (fun st name => under f name :: st) stack
      = (names.map (under f)).reverse ++ stack := by
  induction names generalizing stack with
  | nil => rfl
  | cons n names ih => simp [ih]

/-- What is under a folder is in it, or under one that both have or that one has. -/
theorem below_cases (hA : ThingsOk A) (hB : ThingsOk B) (ha : IsTree sha256 A a)
    (hb : IsTree sha256 B b) (hno : NoCollision sha256 a b) (hfp : f ∈ folders p)
    (hx : HasThing A p x ∨ HasThing B p x) :
    (∃ n, Part 47 n ∧ p = under f n) ∨ ∃ n, Part 47 n ∧ under f n ∈ folders p ∧
      ((∀ y, HasThing A p y ↔ HasThing B p y) ∨
        (IsFolder A (under f n) ∧ IsFolder B (under f n) ∧
          hashOf b (under f n) ≠ hashOf a (under f n)) ∨
        (IsFolder A (under f n) ∧ ¬ IsFolder B (under f n)) ∨
        (IsFolder B (under f n) ∧ ¬ IsFolder A (under f n))) := by
  have hp : Proper p := hx.elim (fun h => h.proper hA) (fun h => h.proper hB)
  rcases (mem_folders_under hp).1 hfp with hn | ⟨n, hn, hg⟩
  · exact Or.inl hn
  · refine Or.inr ⟨n, hn, hg, ?_⟩
    by_cases hgA : IsFolder A (under f n)
    · by_cases hgB : IsFolder B (under f n)
      · by_cases hhash : hashOf b (under f n) = hashOf a (under f n)
        · exact Or.inl (fun y => (hashOf_eq_iff hA hB ha hb hno hgA hgB).1 hhash.symm p y hg)
        · exact Or.inr (Or.inl ⟨hgA, hgB, hhash⟩)
      · exact Or.inr (Or.inr (Or.inl ⟨hgA, hgB⟩))
    · refine Or.inr (Or.inr (Or.inr ⟨?_, hgA⟩))
      rcases hx with hx | hx
      · exact absurd (isFolder_of_hasThing hx hg) hgA
      · exact isFolder_of_hasThing hx hg

/-- What one folder of both is found to have, with all that is under those it has that are gone
    into and all that is under those that only one has. -/
theorem foundOf_folder (hA : ThingsOk A) (hB : ThingsOk B) (ha : IsTree sha256 A a)
    (hb : IsTree sha256 B b) (hno : NoCollision sha256 a b) (hfA : IsFolder A f) (hfB : IsFolder B f)
    {new old : List Str} {res : HashDiffer} {found : HashCompared}
    (hfound : found = hashTreeCompare (hashTreeKids a f) (hashTreeKids b f))
    (hnew : ∀ p, p ∈ new ↔ ∃ n ∈ found.onlyMine, under f n ∈ folders p ∧ ∃ x, HasThing A p x)
    (hold : ∀ p, p ∈ old ↔ ∃ n ∈ found.onlyTheirs, under f n ∈ folders p ∧ ∃ x, HasThing B p x)
    (hres : FoundOf A B (found.into.map (under f)).reverse res) :
    FoundOf A B [f] (HashDiffer.add
      { differ := found.differ.map (under f) ++ new
        words := found.words.map (fun x => under f x.1)
        gone := found.gone.map (under f) ++ old } res) := by
  have hcmp := compare_folder hA hB ha hb hfA hfB
  rw [← hfound] at hcmp
  have hin : ∀ {p n : Str} {P : Prop}, Part 47 n → (P → Proper p) → P →
      (p = under f n ∨ under f n ∈ folders p) → (∃ g ∈ [f], g ∈ folders p) ∧ P := by
    intro p n P hn hproper hP hpath
    refine ⟨⟨f, List.mem_singleton_self f, (mem_folders_under (hproper hP)).2 ?_⟩, hP⟩
    exact hpath.elim (fun h => Or.inl ⟨n, hn, h⟩) (fun h => Or.inr ⟨n, hn, h⟩)
  have hinto : ∀ {p : Str}, (∃ g ∈ (found.into.map (under f)).reverse, g ∈ folders p) ↔
      ∃ n, (Part 47 n ∧ IsFolder A (under f n) ∧ IsFolder B (under f n) ∧
        hashOf b (under f n) ≠ hashOf a (under f n)) ∧ under f n ∈ folders p := by
    intro p
    simp only [List.mem_reverse, List.mem_map]
    constructor
    · intro hg
      obtain ⟨g, ⟨n, hn, rfl⟩, hg⟩ := hg
      exact ⟨n, (hcmp n).2.2.2.1.1 hn, hg⟩
    · intro hn
      obtain ⟨n, hn, hg⟩ := hn
      exact ⟨_, ⟨n, (hcmp n).2.2.2.1.2 hn, rfl⟩, hg⟩
  refine ⟨fun p => ?_, fun p => ?_, fun p => ?_⟩
  · have hproper : Differs A B p → Proper p := by
      intro hd
      obtain ⟨x, hx, -⟩ := hd
      exact hx.proper hA
    show p ∈ found.differ.map (under f) ++ new ++ res.differ ↔ _
    rw [List.mem_append, List.mem_append, List.mem_map, hnew, hres.differ, hinto]
    constructor
    · intro hp
      rcases hp with (⟨n, hn, rfl⟩ | ⟨n, hn, hg, x, hx⟩) | ⟨⟨n, hn, hg⟩, hd⟩
      · obtain ⟨hpart, hd⟩ := (hcmp n).1.1 hn
        exact hin hpart hproper hd (Or.inl rfl)
      · obtain ⟨hpart, -, hgB⟩ := (hcmp n).2.2.2.2.1.1 hn
        refine hin hpart hproper ⟨x, hx, ?_⟩ (Or.inr hg)
        intro hw
        obtain ⟨w, hw⟩ := hw
        exact hgB (isFolder_of_hasThing hw hg)
      · exact hin hn.1 hproper hd (Or.inr hg)
    · intro hp
      obtain ⟨⟨g, hg, hfp⟩, x, hx, hnot⟩ := hp
      rw [List.mem_singleton.1 hg] at hfp
      rcases below_cases hA hB ha hb hno hfp (Or.inl hx) with ⟨n, hn, rfl⟩ | ⟨n, hn, hgp, hcase⟩
      · exact Or.inl (Or.inl ⟨n, (hcmp n).1.2 ⟨hn, x, hx, hnot⟩, rfl⟩)
      · rcases hcase with hsame | hboth | hmine | htheirs
        · exact absurd ⟨x.2, (hsame x).1 hx⟩ hnot
        · exact Or.inr ⟨⟨n, ⟨hn, hboth⟩, hgp⟩, x, hx, hnot⟩
        · exact Or.inl (Or.inr ⟨n, (hcmp n).2.2.2.2.1.2 ⟨hn, hmine⟩, hgp, x, hx⟩)
        · exact absurd (isFolder_of_hasThing hx hgp) htheirs.2
  · have hproper : WordDiffers A B p → Proper p := by
      intro hd
      obtain ⟨x, hx, -⟩ := hd
      exact hx.proper hA
    show p ∈ found.words.map (fun x => under f x.1) ++ res.words ↔ _
    have hmap : found.words.map (fun x => under f x.1) = (found.words.map Prod.fst).map (under f) := by
      rw [List.map_map]
      rfl
    rw [hmap, List.mem_append, List.mem_map, hres.words, hinto]
    constructor
    · intro hp
      rcases hp with ⟨n, hn, rfl⟩ | ⟨⟨n, hn, hg⟩, hd⟩
      · obtain ⟨hpart, hd⟩ := (hcmp n).2.1.1 hn
        exact hin hpart hproper hd (Or.inl rfl)
      · exact hin hn.1 hproper hd (Or.inr hg)
    · intro hp
      obtain ⟨⟨g, hg, hfp⟩, x, hx, w, hw, hne⟩ := hp
      rw [List.mem_singleton.1 hg] at hfp
      rcases below_cases hA hB ha hb hno hfp (Or.inl hx) with ⟨n, hn, rfl⟩ | ⟨n, hn, hgp, hcase⟩
      · exact Or.inl ⟨n, (hcmp n).2.1.2 ⟨hn, x, hx, w, hw, hne⟩, rfl⟩
      · rcases hcase with hsame | hboth | hmine | htheirs
        · exact absurd (congrArg Prod.snd (((hsame _).2 hw).eq hA hx)) hne
        · exact Or.inr ⟨⟨n, ⟨hn, hboth⟩, hgp⟩, x, hx, w, hw, hne⟩
        · exact absurd (isFolder_of_hasThing hw hgp) hmine.2
        · exact absurd (isFolder_of_hasThing hx hgp) htheirs.2
  · have hproper : IsGone A B p → Proper p := by
      intro hd
      obtain ⟨⟨x, hx⟩, -⟩ := hd
      exact hx.proper hB
    show p ∈ found.gone.map (under f) ++ old ++ res.gone ↔ _
    rw [List.mem_append, List.mem_append, List.mem_map, hold, hres.gone, hinto]
    constructor
    · intro hp
      rcases hp with (⟨n, hn, rfl⟩ | ⟨n, hn, hg, x, hx⟩) | ⟨⟨n, hn, hg⟩, hd⟩
      · obtain ⟨hpart, hd⟩ := (hcmp n).2.2.1.1 hn
        exact hin hpart hproper hd (Or.inl rfl)
      · obtain ⟨hpart, -, hgA⟩ := (hcmp n).2.2.2.2.2.1 hn
        refine hin hpart hproper ⟨⟨x, hx⟩, ?_⟩ (Or.inr hg)
        intro hy
        obtain ⟨y, hy⟩ := hy
        exact hgA (isFolder_of_hasThing hy hg)
      · exact hin hn.1 hproper hd (Or.inr hg)
    · intro hp
      obtain ⟨⟨g, hg, hfp⟩, ⟨x, hx⟩, hnot⟩ := hp
      rw [List.mem_singleton.1 hg] at hfp
      rcases below_cases hA hB ha hb hno hfp (Or.inr hx) with ⟨n, hn, rfl⟩ | ⟨n, hn, hgp, hcase⟩
      · exact Or.inl (Or.inl ⟨n, (hcmp n).2.2.1.2 ⟨hn, ⟨x, hx⟩, hnot⟩, rfl⟩)
      · rcases hcase with hsame | hboth | hmine | htheirs
        · exact absurd ⟨x, (hsame x).2 hx⟩ hnot
        · exact Or.inr ⟨⟨n, ⟨hn, hboth⟩, hgp⟩, ⟨x, hx⟩, hnot⟩
        · exact absurd (isFolder_of_hasThing hx hgp) hmine.2
        · exact Or.inl (Or.inr ⟨n, (hcmp n).2.2.2.2.2.2 ⟨hn, htheirs⟩, hgp, x, hx⟩)

/-- **A folder of both is gone through**, and what is found of it is what is under it that
    differs. -/
theorem walks_folder (hA : ThingsOk A) (hB : ThingsOk B) (ha : IsTree sha256 A a)
    (hb : IsTree sha256 B b) (hno : NoCollision sha256 a b) (hfA : IsFolder A f)
    (hfB : IsFolder B f) : Walks A B a b [f] := by
  obtain ⟨most, hmost⟩ := exists_longest A
  induction hm : most - f.length using Nat.strong_induction_on generalizing f with
  | _ n ih =>
      have hcmp := compare_folder hA hB ha hb hfA hfB
      set found := hashTreeCompare (hashTreeKids a f) (hashTreeKids b f) with hfound
      have hbelow : Walks A B a b (found.into.map (under f)).reverse := by
        refine walks_of_each (fun g hg => ?_)
        obtain ⟨name, hname, rfl⟩ := List.mem_map.1 (List.mem_reverse.1 hg)
        obtain ⟨hpart, hgA, hgB, -⟩ := (hcmp name).2.2.2.1.1 hname
        obtain ⟨p, x, ⟨t, ht, rfl, -⟩, hp⟩ := isFolder_under hpart hgA
        have hlt : f.length < (under f name).length := length_lt_under hpart.1
        have hle := length_lt_of_mem_folders hp
        have := hmost t ht
        exact ih _ (by omega) hgA hgB rfl
      obtain ⟨k, m, res, hrun, hres⟩ := hbelow
      obtain ⟨m₁, new, hnew, hmemnew⟩ := underAll_some (f := f) hA ha found.onlyMine
        (fun name hname => ((hcmp name).2.2.2.2.1.1 hname).2.1)
      obtain ⟨m₂, old, hold, hmemold⟩ := underAll_some (f := f) hB hb found.onlyTheirs
        (fun name hname => ((hcmp name).2.2.2.2.2.1 hname).2.1)
      refine ⟨k + 1, max m (max m₁ m₂), _, fun turns rest out hturns => ?_,
        foundOf_folder hA hB ha hb hno hfA hfB hfound hmemnew hmemold hres⟩
      show walkLoop a b (turns + k + 1) (f :: rest) out = _
      rw [walkLoop, ← hfound]
      simp only [hnew (turns + k) (by omega), hold (turns + k) (by omega), foldl_push]
      rw [hrun turns rest _ (by omega)]
      congr 1
      simp [HashDiffer.add, List.append_assoc]

/-- **The comparison is exact.** Two trees have the same hash at the top if they have the same things,
    and not else; and given turns enough the comparison comes to an end, and has found the things that
    I have and they have not or not the same, those that are the same but for the word, and those they
    have and I have not. -/
theorem walk_exact (sha256 : Str → Str) (hA : ThingsOk A) (hB : ThingsOk B)
    (hno : NoCollision sha256 (hashTree sha256 A) (hashTree sha256 B)) :
    (hashTreeRoot (hashTree sha256 A) = hashTreeRoot (hashTree sha256 B) ↔
      ∀ p x, HasThing A p x ↔ HasThing B p x) ∧
    ∃ m found, (∀ turns, m ≤ turns →
        hashTreeWalk (hashTree sha256 A) (hashTree sha256 B) turns = some found) ∧
      (∀ p, p ∈ found.differ ↔ Differs A B p) ∧ (∀ p, p ∈ found.words ↔ WordDiffers A B p) ∧
      ∀ p, p ∈ found.gone ↔ IsGone A B p := by
  have ha := isTree_hashTree sha256 hA
  have hb := isTree_hashTree sha256 hB
  have htop : ∀ {p x}, HasThing A p x ∨ HasThing B p x → [] ∈ folders p := by
    intro p x hx
    exact nil_mem_folders (hx.elim (fun h => h.proper hA) (fun h => h.proper hB)).1
  constructor
  · refine (hashOf_eq_iff hA hB ha hb hno (Or.inl rfl) (Or.inl rfl)).trans ⟨fun h p x => ?_,
      fun h p x _ => h p x⟩
    constructor
    · intro hx
      exact (h p x (htop (Or.inl hx))).1 hx
    · intro hx
      exact (h p x (htop (Or.inr hx))).2 hx
  · obtain ⟨k, m, res, hrun, hres⟩ := walks_folder hA hB ha hb hno (Or.inl rfl) (Or.inl rfl)
    have hall : ∀ {p : Str} {P : Prop}, (P → [] ∈ folders p) →
        ((∃ g ∈ [([] : Str)], g ∈ folders p) ∧ P ↔ P) := by
      intro p P hP
      exact and_iff_right_of_imp (fun h => ⟨[], List.mem_singleton_self _, hP h⟩)
    refine ⟨m + k, res, fun turns hturns => ?_, fun p => ?_, fun p => ?_, fun p => ?_⟩
    · have heq := hrun (turns - k) [] ⟨[], [], []⟩ (by omega)
      rw [Nat.sub_add_cancel (by omega), walkLoop] at heq
      exact heq
    · refine (hres.differ p).trans (hall (fun hd => ?_))
      obtain ⟨x, hx, -⟩ := hd
      exact htop (Or.inl hx)
    · refine (hres.words p).trans (hall (fun hd => ?_))
      obtain ⟨x, hx, -⟩ := hd
      exact htop (Or.inl hx)
    · refine (hres.gone p).trans (hall (fun hd => ?_))
      obtain ⟨⟨x, hx⟩, -⟩ := hd
      exact htop (Or.inr hx)

end Tree

instance (things : List Thing) (path : Str) (x : Str × Str) : Decidable (HasThing things path x) :=
  inferInstanceAs (Decidable (∃ t ∈ things, _ ∧ _))

/-- Two songs and a picture, and the same with one song other, one gone and one new. -/
theorem walk_exact_song :
    let mine : List Thing := [⟨asc "songs/a", asc "1", none⟩, ⟨asc "songs/b", asc "2", none⟩,
      ⟨asc "p", asc "3", some (asc "420")⟩]
    let theirs : List Thing := [⟨asc "songs/a", asc "9", none⟩, ⟨asc "new/c", asc "2", none⟩,
      ⟨asc "p", asc "3", some (asc "384")⟩]
    ∃ m found, (∀ turns, m ≤ turns →
        hashTreeWalk (hashTree id mine) (hashTree id theirs) turns = some found) ∧
      (∀ p, p ∈ found.differ ↔ Differs mine theirs p) ∧
      (∀ p, p ∈ found.words ↔ WordDiffers mine theirs p) ∧
      ∀ p, p ∈ found.gone ↔ IsGone mine theirs p :=
  (walk_exact id ⟨by decide +kernel, by decide, by decide +kernel, by decide, by decide⟩
    ⟨by decide +kernel, by decide, by decide +kernel, by decide, by decide⟩ (fun _ h => h)).2

/-- Not the same things, and none a folder of another, but for all that the same hash at the top. -/
def SameTop (sha256 : Str → Str) (A B : List Thing) : Prop :=
  Function.Injective sha256 ∧ (∀ t ∈ A, ∀ t' ∈ A, t.path ∉ folders t'.path) ∧
    (∀ t ∈ B, ∀ t' ∈ B, t.path ∉ folders t'.path) ∧
    hashTreeRoot (hashTree sha256 A) = hashTreeRoot (hashTree sha256 B) ∧
    ¬ ∀ p x, HasThing A p x ↔ HasThing B p x

/-- A name that is not like a path, one with a line feed in it, and a hash with a space in it. -/
theorem walk_fails :
    SameTop id [⟨asc "/a", asc "H", none⟩] [⟨asc "a", asc "H", none⟩] ∧
    SameTop id [⟨asc "a\nf H - b", asc "H", none⟩]
      [⟨asc "a", asc "H", none⟩, ⟨asc "b", asc "H", none⟩] ∧
    SameTop id [⟨asc "- - a", asc "H", none⟩] [⟨asc "- a", asc "H -", none⟩] := by
  have hnot : ∀ {A B : List Thing} (p : Str) (x : Str × Str), ¬ HasThing A p x → HasThing B p x →
      ¬ ∀ p x, HasThing A p x ↔ HasThing B p x := by
    intro A B p x hA hB h
    exact hA ((h p x).2 hB)
  refine ⟨⟨fun _ _ h => h, by decide +kernel, by decide +kernel, by decide +kernel,
      hnot (asc "a") (asc "H", asc "-") (by decide) (by decide)⟩,
    ⟨fun _ _ h => h, by decide +kernel, by decide +kernel, by decide +kernel,
      hnot (asc "a") (asc "H", asc "-") (by decide) (by decide)⟩,
    ⟨fun _ _ h => h, by decide +kernel, by decide +kernel, by decide +kernel,
      hnot (asc "- a") (asc "H -", asc "-") (by decide) (by decide)⟩⟩

end ChrysaLisp
