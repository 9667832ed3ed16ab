import ChrysaLisp.Hash.Build

set_option autoImplicit false

/-! # Two trees say what differs

Two folders with the same hash have the same things under them, and two with the same things the
same hash (`hashOf_eq_iff`), if no two texts of theirs have one SHA-256: a folder's text is of what is
in it and nothing else (`hashTreeText_inj`). So a folder whose hash is the same need not be gone into,
and the comparison finds the things that differ, those that are the same but for the word, and those
that only one has, all of them and no more (`walk_exact`). -/

namespace ChrysaLisp

/-! ## The text of a folder -/

/-- What goes on a line of a folder's text can be told from the rest of it. -/
structure LineOk (kid : HashKid) : Prop where
  hash : (32 : Byte) ∉ kid.hash ∧ (10 : Byte) ∉ kid.hash
  word : (32 : Byte) ∉ kid.word ∧ (10 : Byte) ∉ kid.word
  name : (10 : Byte) ∉ kid.name

section Text

variable {c : Byte} {a b x y : Str}

/-- What is cut at the first of a character is the same two parts. -/
theorem cut_inj (ha : c ∉ a) (hb : c ∉ b) (h : a ++ c :: x = b ++ c :: y) : a = b ∧ x = y := by
  induction a generalizing b with
  | nil =>
      cases b with
      | nil => exact ⟨rfl, (List.cons.inj h).2⟩
      | cons d b => exact absurd (List.cons.inj h).1 (fun heq => hb (heq ▸ List.mem_cons_self))
  | cons e a ih =>
      cases b with
      | nil => exact absurd (List.cons.inj h).1.symm (fun heq => ha (heq ▸ List.mem_cons_self))
      | cons d b =>
          obtain ⟨rfl, hrest⟩ := List.cons.inj h
          obtain ⟨rfl, hxy⟩ := ih (fun hin => ha (List.mem_cons_of_mem _ hin))
            (fun hin => hb (List.mem_cons_of_mem _ hin)) hrest
          exact ⟨rfl, hxy⟩

/-- A line of a folder's text, but for the line feed. -/
def HashKid.front (kid : HashKid) : Str :=
  kid.kind.text ++ 32 :: (kid.hash ++ 32 :: (kid.word ++ 32 :: kid.name))

theorem line_append (kid : HashKid) (x : Str) : kid.line ++ x = kid.front ++ 10 :: x := by
  have hspace : asc " " = [32] := rfl
  unfold HashKid.line HashKid.front
  simp only [hspace, List.append_assoc, List.cons_append, List.nil_append]

theorem line_inj {k k' : HashKid} (hk : LineOk k) (hk' : LineOk k')
    (h : k.line ++ x = k'.line ++ y) : k = k' ∧ x = y := by
  have hkind : ∀ kind : HashKind, (32 : Byte) ∉ kind.text ∧ (10 : Byte) ∉ kind.text := by
    intro kind
    cases kind <;> decide
  have hout : ∀ k : HashKid, LineOk k →
      (10 : Byte) ∉ k.front := by
    intro k hk
    unfold HashKid.front
    simp only [List.mem_append, List.mem_cons, not_or]
    exact ⟨(hkind k.kind).2, by decide, hk.hash.2, by decide, hk.word.2, by decide, hk.name⟩
  rw [line_append, line_append] at h
  obtain ⟨hline, hxy⟩ := cut_inj (hout k hk) (hout k' hk') h
  obtain ⟨htext, hrest⟩ := cut_inj (hkind k.kind).1 (hkind k'.kind).1 hline
  obtain ⟨hhash, hrest⟩ := cut_inj hk.hash.1 hk'.hash.1 hrest
  obtain ⟨hword, hname⟩ := cut_inj hk.word.1 hk'.word.1 hrest
  have hsame : k.kind = k'.kind := by
    cases hf : k.kind <;> cases hf' : k'.kind <;> rw [hf, hf'] at htext
    · exact absurd htext (by decide)
    · exact absurd htext (by decide)
  obtain ⟨name, kind, hash, word⟩ := k
  obtain ⟨name', kind', hash', word'⟩ := k'
  simp only at hsame hhash hword hname
  exact ⟨by rw [hname, hsame, hhash, hword], hxy⟩

/-- **A folder's text is of what is in it.** -/
theorem hashTreeText_inj {kids kids' : List HashKid} (hk : ∀ k ∈ kids, LineOk k)
    (hk' : ∀ k ∈ kids', LineOk k) (h : hashTreeText kids = hashTreeText kids') : kids = kids' := by
  have hne : ∀ (k : HashKid) (x : Str), k.line ++ x ≠ [] := by
    intro k x hnil
    rw [line_append] at hnil
    simp at hnil
  induction kids generalizing kids' with
  | nil =>
      cases kids' with
      | nil => rfl
      | cons k' kids' => exact absurd h.symm (hne k' _)
  | cons k kids ih =>
      cases kids' with
      | nil => exact absurd h (hne k _)
      | cons k' kids' =>
          obtain ⟨rfl, hrest⟩ := line_inj (hk k List.mem_cons_self) (hk' k' List.mem_cons_self) h
          rw [ih (fun x hx => hk x (List.mem_cons_of_mem _ hx))
            (fun x hx => hk' x (List.mem_cons_of_mem _ hx)) hrest]

theorem hexDecode_toLower (s : Str) : hexDecode (toLower (hexEncode s)) = s := by
  have hbyte : ∀ b : Byte, ∀ lower : Byte → Byte,
      lower = (fun c => if 65 ≤ c.val ∧ c.val ≤ 90 then Fin.ofNat 256 (c.val + 32) else c) →
      Fin.ofNat 256 (hexValue (lower (hexDigit (b.val / 16))) * 16
        + hexValue (lower (hexDigit (b.val % 16)))) = b := by
    rintro b lower rfl
    revert b
    decide +kernel
  induction s with
  | nil => rfl
  | cons b s ih =>
      have hcons : toLower (hexEncode (b :: s)) = _ :: _ :: toLower (hexEncode s) := rfl
      rw [hcons, hexDecode, ih, hbyte b _ rfl]

theorem not_mem_toLower (s : Str) : (32 : Byte) ∉ toLower (hexEncode s) ∧
    (10 : Byte) ∉ toLower (hexEncode s) := by
  have hall : ∀ c ∈ toLower (hexEncode s), 48 ≤ c.val := by
    intro c hc
    obtain ⟨d, hd, rfl⟩ := List.mem_map.1 hc
    obtain ⟨hge, hle⟩ := le_of_mem_hexEncode hd
    split
    · rw [Fin.val_ofNat, Nat.mod_eq_of_lt (by omega)]
      omega
    · exact hge
  exact ⟨fun h => absurd (hall _ h) (by decide), fun h => absurd (hall _ h) (by decide)⟩

end Text

/-! ## Folders with the same hash -/

/-- There is a thing of that path, with that hash and that word, `"-"` if it has none. -/
def HasThing (things : List Thing) (path : Str) (x : Str × Str) : Prop :=
  ∃ t ∈ things, t.path = path ∧ (t.hash, t.word.getD (asc "-")) = x

/-- No two texts that the two trees have for a folder have the one SHA-256. -/
def NoCollision (sha256 : Str → Str) (a b : HashTree) : Prop :=
  ∀ f, sha256 (hashTreeText (hashTreeKids a f)) = sha256 (hashTreeText (hashTreeKids b f)) →
    hashTreeText (hashTreeKids a f) = hashTreeText (hashTreeKids b f)

section Same

variable {sha256 : Str → Str} {A B : List Thing} {a b : HashTree} {f p : Str} {x : Str × Str}

theorem IsTree.kids_eq (ht : IsTree sha256 A a) (hf : IsFolder A f) :
    a.lookup f = some (folderHash sha256 (hashTreeKids a f), hashTreeKids a f) ∧
      hashOf a f = folderHash sha256 (hashTreeKids a f) ∧
      (hashTreeKids a f).Pairwise (fun k k' => k.name < k'.name) ∧
      ∀ kid, kid ∈ hashTreeKids a f ↔ KidOf A a f kid := by
  obtain ⟨kids, hlook, hsorted, hmem⟩ := ht.kids f hf
  have hkids : hashTreeKids a f = kids := by
    unfold hashTreeKids
    rw [hlook]
    rfl
  rw [hkids]
  refine ⟨hlook, ?_, hsorted, hmem⟩
  unfold hashOf
  rw [hlook]
  rfl

theorem isFolder_of_hasThing (h : HasThing A p x) (hf : f ∈ folders p) : IsFolder A f := by
  obtain ⟨t, ht, rfl, -⟩ := h
  exact Or.inr ⟨t, ht, hf⟩

/-- A thing of a folder is one of its kids. -/
theorem mem_kids_thing (hok : ThingsOk A) (ht : IsTree sha256 A a) (hf : IsFolder A f) (hp : Proper p)
    (hpf : folderOf p = f) : ⟨nameOf p, .f, x.1, x.2⟩ ∈ hashTreeKids a f ↔ HasThing A p x := by
  rw [(ht.kids_eq hf).2.2.2]
  constructor
  · rintro (⟨t, hin, htf, heq⟩ | ⟨g, -, -, -, heq⟩)
    · have hname : nameOf p = nameOf t.path := congrArg HashKid.name heq
      have hpath : t.path = p := (hok.proper t hin).ext hp (htf.trans hpf.symm) hname.symm
      exact ⟨t, hin, hpath, Prod.ext (congrArg HashKid.hash heq).symm (congrArg HashKid.word heq).symm⟩
    · exact absurd (congrArg HashKid.kind heq) (by simp [folderKid])
  · rintro ⟨t, hin, rfl, rfl⟩
    exact Or.inl ⟨t, hin, hpf, rfl⟩

/-- A folder of a folder is one of its kids, with its hash. -/
theorem mem_kids_folder (hok : ThingsOk A) (ht : IsTree sha256 A a) (hf : IsFolder A f)
    {g : Str} (hg : Proper g) (hgf : folderOf g = f) (hash : Str) :
    { folderKid g with hash := hash } ∈ hashTreeKids a f ↔ IsFolder A g ∧ hash = hashOf a g := by
  rw [(ht.kids_eq hf).2.2.2]
  constructor
  · rintro (⟨t, hin, htf, heq⟩ | ⟨g', hg', hgne, hgf', heq⟩)
    · exact absurd (congrArg HashKid.kind heq) (by simp [Thing.kid, folderKid])
    · have hname : nameOf g = nameOf g' := congrArg HashKid.name heq
      have hpath : g = g' := hg.ext ((hg'.proper hok).resolve_left hgne) (hgf.trans hgf'.symm) hname
      subst hpath
      exact ⟨hg', congrArg HashKid.hash heq⟩
  · rintro ⟨hg', rfl⟩
    exact Or.inr ⟨g, hg', hg.1, hgf, rfl⟩

theorem lineOk_kids (hok : ThingsOk A) (ht : IsTree sha256 A a) (hf : IsFolder A f) :
    ∀ kid ∈ hashTreeKids a f, LineOk kid := by
  have hname : ∀ {q : Str}, (10 : Byte) ∉ q → (10 : Byte) ∉ nameOf q ∧ (10 : Byte) ∉ folderOf q := by
    intro q hq
    unfold nameOf folderOf
    split
    · exact ⟨fun h => hq (List.mem_of_mem_drop h), fun h => hq (List.mem_of_mem_take h)⟩
    · exact ⟨hq, List.not_mem_nil⟩
  intro kid hkid
  rcases ((ht.kids_eq hf).2.2.2 kid).1 hkid with ⟨t, hin, -, rfl⟩ | ⟨g, hg, hgne, -, rfl⟩
  · obtain ⟨h1, h2, h3, h4⟩ := hok.words t hin
    refine ⟨⟨h1, h2⟩, ?_, (hname (hok.line t hin)).1⟩
    show (32 : Byte) ∉ t.word.getD (asc "-") ∧ (10 : Byte) ∉ t.word.getD (asc "-")
    cases hw : t.word with
    | none => decide
    | some w =>
        rw [hw] at h3 h4
        exact ⟨h3, h4⟩
  · obtain ⟨t, hin, hgt⟩ := hg.resolve_left hgne
    have hline : (10 : Byte) ∉ g := folders_of_closed (P := fun q => (10 : Byte) ∉ q)
      (fun q hq => (hname hq).2) (hok.line t hin) g hgt
    have hhash : hashOf a g = folderHash sha256 (hashTreeKids a g) :=
      (ht.kids_eq (Or.inr ⟨t, hin, hgt⟩)).2.1
    refine ⟨?_, by show (32 : Byte) ∉ asc "-" ∧ (10 : Byte) ∉ asc "-"; decide, (hname hline).1⟩
    show (32 : Byte) ∉ hashOf a g ∧ (10 : Byte) ∉ hashOf a g
    rw [hhash]
    exact not_mem_toLower _

/-- A folder of a path is its own, or the one its folder's folders come to. -/
theorem mem_folders_top (hp : p ≠ []) (hf : f ∈ folders p) : folderOf p = f ∨
    ∃ g, g ≠ [] ∧ folderOf g = f ∧ g ∈ folders p := by
  induction hn : p.length using Nat.strong_induction_on generalizing p with
  | _ n ih =>
      rcases (mem_folders hp).1 hf with rfl | hf
      · exact Or.inl rfl
      · have hne : folderOf p ≠ [] := by
          intro hnil
          rw [hnil, folders_nil] at hf
          exact List.not_mem_nil hf
        refine Or.inr ?_
        rcases ih _ (hn ▸ length_folderOf_lt hp) hne hf rfl with htop | ⟨g, hgne, hgf, hg⟩
        · exact ⟨folderOf p, hne, htop, (mem_folders hp).2 (Or.inl rfl)⟩
        · exact ⟨g, hgne, hgf, (mem_folders hp).2 (Or.inr hg)⟩

/-- The kids of two folders with the same hash are the same. -/
theorem kids_eq_of_hashOf_eq (hA : ThingsOk A) (hB : ThingsOk B) (ha : IsTree sha256 A a)
    (hb : IsTree sha256 B b) (hno : NoCollision sha256 a b) (hfA : IsFolder A f) (hfB : IsFolder B f)
    (h : hashOf a f = hashOf b f) : hashTreeKids a f = hashTreeKids b f := by
  rw [(ha.kids_eq hfA).2.1, (hb.kids_eq hfB).2.1] at h
  have hsha := congrArg hexDecode h
  unfold folderHash at hsha
  rw [hexDecode_toLower, hexDecode_toLower] at hsha
  exact hashTreeText_inj (lineOk_kids hA ha hfA) (lineOk_kids hB hb hfB) (hno f hsha)

/-- Of two folders with the same hash, what is under one is under the other. -/
theorem hasThing_of_hashOf_eq (hA : ThingsOk A) (hB : ThingsOk B) (ha : IsTree sha256 A a)
    (hb : IsTree sha256 B b) (hno : NoCollision sha256 a b) (hfA : IsFolder A f) (hfB : IsFolder B f)
    (h : hashOf a f = hashOf b f) (hp : f ∈ folders p) (hx : HasThing A p x) : HasThing B p x := by
  have hproper : Proper p := by
    obtain ⟨t, ht, rfl, -⟩ := hx
    exact hA.proper t ht
  induction hn : p.length - f.length using Nat.strong_induction_on generalizing f with
  | _ n ih =>
      have hkids := kids_eq_of_hashOf_eq hA hB ha hb hno hfA hfB h
      rcases mem_folders_top hproper.1 hp with hpf | ⟨g, hgne, hgf, hgp⟩
      · exact (mem_kids_thing hB hb hfB hproper hpf).1
          (hkids ▸ (mem_kids_thing hA ha hfA hproper hpf).2 hx)
      · -- the folder of it that the thing is in has the same hash too
        have hgA : IsFolder A g := isFolder_of_hasThing hx hgp
        have hg : Proper g := (hgA.proper hA).resolve_left hgne
        have hin := (mem_kids_folder hA ha hfA hg hgf (hashOf a g)).2 ⟨hgA, rfl⟩
        rw [hkids] at hin
        obtain ⟨hgB, hhash⟩ := (mem_kids_folder hB hb hfB hg hgf (hashOf a g)).1 hin
        have hlt : f.length < g.length := hgf ▸ length_folderOf_lt hgne
        have hle := length_lt_of_mem_folders hgp
        exact ih _ (by omega) hgA hgB hhash hgp rfl

theorem exists_longest (things : List Thing) : ∃ most, ∀ t ∈ things, t.path.length ≤ most := by
  induction things with
  | nil => exact ⟨0, fun t ht => absurd ht List.not_mem_nil⟩
  | cons t things ih =>
      obtain ⟨most, hmost⟩ := ih
      refine ⟨max t.path.length most, fun t' ht' => ?_⟩
      rcases List.mem_cons.1 ht' with rfl | ht'
      · exact le_max_left _ _
      · exact (hmost t' ht').trans (le_max_right _ _)

theorem NoCollision.symm (h : NoCollision sha256 a b) : NoCollision sha256 b a :=
  fun f hf => (h f hf.symm).symm

/-- **Two folders have the same hash if the same things are under them**, and not else. -/
theorem hashOf_eq_iff (hA : ThingsOk A) (hB : ThingsOk B) (ha : IsTree sha256 A a)
    (hb : IsTree sha256 B b) (hno : NoCollision sha256 a b) (hfA : IsFolder A f) (hfB : IsFolder B f) :
    hashOf a f = hashOf b f ↔ ∀ p x, f ∈ folders p → (HasThing A p x ↔ HasThing B p x) := by
  refine ⟨fun h p x hp => ⟨fun hx => hasThing_of_hashOf_eq hA hB ha hb hno hfA hfB h hp hx,
    fun hx => hasThing_of_hashOf_eq hB hA hb ha hno.symm hfB hfA h.symm hp hx⟩, fun h => ?_⟩
  -- by how far a folder is from the longest path, the kids of the two are the same
  obtain ⟨most, hmost⟩ := exists_longest A
  induction hn : most - f.length using Nat.strong_induction_on generalizing f with
  | _ n ih =>
      have hsub : ∀ {A B : List Thing} {a b : HashTree}, ThingsOk A → ThingsOk B →
          IsTree sha256 A a → IsTree sha256 B b → IsFolder A f → IsFolder B f →
          (∀ p x, f ∈ folders p → HasThing A p x → HasThing B p x) →
          (∀ g, IsFolder A g → IsFolder B g → g ≠ [] → folderOf g = f → hashOf a g = hashOf b g) →
          ∀ kid ∈ hashTreeKids a f, kid ∈ hashTreeKids b f := by
        intro A B a b hA hB ha hb hfA hfB hhas hhash kid hkid
        rcases ((ha.kids_eq hfA).2.2.2 kid).1 hkid with ⟨t, ht, htf, rfl⟩ | ⟨g, hg, hgne, hgf, rfl⟩
        · have hne := (hA.proper t ht).1
          have hin : f ∈ folders t.path := (mem_folders hne).2 (Or.inl htf.symm)
          exact (mem_kids_thing hB hb hfB (hA.proper t ht) htf).2
            (hhas t.path (t.hash, t.word.getD (asc "-")) hin ⟨t, ht, rfl, rfl⟩)
        · obtain ⟨t, ht, hgt⟩ := hg.resolve_left hgne
          have hin : f ∈ folders t.path := mem_folders_trans ((mem_folders hgne).2 (Or.inl hgf.symm)) hgt
          have hgB : IsFolder B g := isFolder_of_hasThing (hhas t.path _ hin ⟨t, ht, rfl, rfl⟩) hgt
          exact (mem_kids_folder hB hb hfB ((hg.proper hA).resolve_left hgne) hgf _).2
            ⟨hgB, hhash g hg hgB hgne hgf⟩
      have hdown : ∀ g, IsFolder A g → IsFolder B g → g ≠ [] → folderOf g = f →
          hashOf a g = hashOf b g := by
        intro g hgA hgB hgne hgf
        have hfg : f ∈ folders g := (mem_folders hgne).2 (Or.inl hgf.symm)
        have hlt := length_lt_of_mem_folders hfg
        obtain ⟨t, ht, hgt⟩ := hgA.resolve_left hgne
        have hle := length_lt_of_mem_folders hgt
        have := hmost t ht
        exact ih _ (by omega) hgA hgB (fun p x hp => h p x (mem_folders_trans hfg hp)) rfl
      have hkids : hashTreeKids a f = hashTreeKids b f := by
        have hsorted := (ha.kids_eq hfA).2.2.1
        have hsorted' := (hb.kids_eq hfB).2.2.1
        have hperm : (hashTreeKids a f).Perm (hashTreeKids b f) := by
          refine (List.perm_ext_iff_of_nodup (hsorted.imp (fun hlt heq => ?_))
            (hsorted'.imp (fun hlt heq => ?_))).2 (fun kid => ⟨?_, ?_⟩)
          · exact absurd hlt (heq ▸ lt_irrefl _)
          · exact absurd hlt (heq ▸ lt_irrefl _)
          · exact hsub hA hB ha hb hfA hfB (fun p x hp => (h p x hp).1) hdown kid
          · exact hsub hB hA hb ha hfB hfA (fun p x hp => (h p x hp).2)
              (fun g hgB hgA hgne hgf => (hdown g hgA hgB hgne hgf).symm) kid
        exact hperm.eq_of_pairwise (fun k k' _ _ hlt hgt => absurd hgt (lt_asymm hlt)) hsorted hsorted'
      rw [(ha.kids_eq hfA).2.1, (hb.kids_eq hfB).2.1, hkids]

end Same

end ChrysaLisp
