import ChrysaLisp.Storage.Tender

set_option autoImplicit false

/-! # Is the plan that is kept the plan there would be

A plan is made once, and as blocks come and go it is changed and not made again. What a plan made
afresh says is of what the paths there are need, as far as their manifests are here (`Exact`), and
says it whichever way round the paths and blocks were come to: so two exact plans of the same
members give the same share (`share_perm_of_exact`).

A block that comes keeps a plan exact, a manifest too. So does one that goes, if it is not the
manifest of a path: what the blocks of such a path are is not known any longer, and the plan still
counts them. -/

namespace ChrysaLisp

namespace Keeper

variable (sha256 : Str → Str) (object : Str → Option (ℕ × List Str)) (store : Keeper)

/-- A path that is not deleted. -/
def Live (path : Str) (entry : Entry) : Prop :=
  store.map.lookup path = some entry ∧ entry.deleted = false

/-- A block an object is known to be made of. -/
def Known (entry : Entry) (name : Str) : Prop :=
  ∃ made, store.manifest object entry.hash = some made ∧ name ∈ made.2

/-- Is a block of a path this member's to keep. -/
def Mine (among : List Str) (path : Str) (entry : Entry) (name : Str) : Prop :=
  store.pinnedHere path = true ∨ store.member ∈ store.holders sha256 name among entry.copies

instance (among : List Str) (path : Str) (entry : Entry) (name : Str) :
    Decidable (store.Mine sha256 among path entry name) := inferInstanceAs (Decidable (_ ∨ _))

/-! ## What is wanted and what is others', of so many blocks -/

/-- A plan that has counted objects of these names, and these blocks of paths: what is wanted, how
    many are to keep what is others' (no more than `k`, when no path that leaves it to others has
    more), and that they are the first of the block's order. -/
structure Counts (hashes : Str → Prop) (blocks : Str → Entry → Str → Prop) (plan : Plan) :
    Prop where
  wanted : ∀ n, n ∈ plan.wanted ↔
    hashes n ∨ ∃ path entry, blocks path entry n ∧ store.Mine sha256 plan.among path entry n
  left : ∀ n k, ((plan.others.lookup n).getD []).length ≤ k ↔
    ∀ path entry, blocks path entry n → ¬ store.Mine sha256 plan.among path entry n →
      (store.holders sha256 n plan.among entry.copies).length ≤ k
  shape : ∀ n holders, plan.others.lookup n = some holders →
    holders ≠ [] ∧ ∃ copies, holders = store.holders sha256 n plan.among copies
  nodup : plan.wanted.Nodup

theorem nodup_fsetInsert {set : List Str} (h : set.Nodup) (name : Str) :
    (fsetInsert set name).Nodup := by
  unfold fsetInsert
  split
  · exact h
  next hnot => exact h.append (List.nodup_singleton name) (List.disjoint_singleton.2 hnot)

theorem nodup_fsetErase {set : List Str} (h : set.Nodup) (name : Str) :
    (fsetErase set name).Nodup := h.filter _

section Counts

variable {sha256} {object} {store} {hashes hashes' : Str → Prop}
  {blocks blocks' : Str → Entry → Str → Prop} {plan : Plan} {path : Str} {entry : Entry} {name : Str}

theorem Counts.congr (h : store.Counts sha256 hashes blocks plan) (hh : ∀ n, hashes n ↔ hashes' n)
    (hb : ∀ p e n, blocks p e n ↔ blocks' p e n) : store.Counts sha256 hashes' blocks' plan := by
  obtain rfl : hashes = hashes' := funext (fun n => propext (hh n))
  obtain rfl : blocks = blocks' := funext (fun p => funext (fun e => funext (fun n =>
    propext (hb p e n))))
  exact h

/-- A block is others' if a path leaves it to someone, and not to this member. -/
theorem Counts.others_isSome (h : store.Counts sha256 hashes blocks plan) (n : Str) :
    (plan.others.lookup n).isSome ↔ ∃ path entry, blocks path entry n ∧
      ¬ store.Mine sha256 plan.among path entry n ∧
      0 < (store.holders sha256 n plan.among entry.copies).length := by
  have hsome : (plan.others.lookup n).isSome ↔ ¬ ((plan.others.lookup n).getD []).length ≤ 0 := by
    cases hn : plan.others.lookup n with
    | none => simp
    | some holders =>
        have hne := (h.shape n holders hn).1
        simpa using hne
  rw [hsome, h.left]
  push Not
  rfl

/-- The first so many of a block's order are told by how many they are. -/
theorem holders_eq_take (store : Keeper) (n : Str) (among : List Str) (copies : ℕ) :
    store.holders sha256 n among copies
      = (storeRank sha256 n among among.length).take (store.holders sha256 n among copies).length := by
  unfold holders
  simp only [List.length_take, List.take_eq_take_iff]
  omega

/-- Two plans that have counted the same leave each block to the same members. -/
theorem Counts.others_eq {plan' : Plan} (h : store.Counts sha256 hashes blocks plan)
    (h' : store.Counts sha256 hashes blocks plan') (hamong : plan.among = plan'.among) (n : Str) :
    plan.others.lookup n = plan'.others.lookup n := by
  have hlen : ((plan.others.lookup n).getD []).length
      = ((plan'.others.lookup n).getD []).length := by
    refine le_antisymm ?_ ?_
    · rw [h.left, hamong, ← h'.left]
    · rw [h'.left, ← hamong, ← h.left]
  have hsome : (plan.others.lookup n).isSome ↔ (plan'.others.lookup n).isSome := by
    rw [h.others_isSome, h'.others_isSome, hamong]
  cases hn : plan.others.lookup n with
  | none =>
      cases hn' : plan'.others.lookup n with
      | none => rfl
      | some holders' =>
          rw [hn, hn'] at hsome
          exact absurd (hsome.2 rfl) (by simp)
  | some holders =>
      cases hn' : plan'.others.lookup n with
      | none =>
          rw [hn, hn'] at hsome
          exact absurd (hsome.1 rfl) (by simp)
      | some holders' =>
          rw [hn, hn'] at hlen
          obtain ⟨-, copies, rfl⟩ := h.shape n holders hn
          obtain ⟨-, copies', rfl⟩ := h'.shape n holders' hn'
          have hl : (store.holders sha256 n plan.among copies).length
              = (store.holders sha256 n plan'.among copies').length := hlen
          rw [holders_eq_take store n plan.among copies, hl, hamong,
            ← holders_eq_take store n plan'.among copies']

/-- **One block counted.** -/
theorem Counts.block (h : store.Counts sha256 hashes blocks plan) (path : Str) (entry : Entry)
    (name : Str) :
    store.Counts sha256 hashes (fun p e n => blocks p e n ∨ (p = path ∧ e = entry ∧ n = name))
      (store.planBlock sha256 path entry plan name) := by
  unfold planBlock
  simp only
  split
  next hmine =>
    -- it is this member's: it is wanted, and what is others' is as it was
    refine ⟨fun n => ?_, fun n k => ?_, h.shape, nodup_fsetInsert h.nodup name⟩
    · show n ∈ fsetInsert plan.wanted name ↔ _
      rw [mem_fsetInsert, h.wanted n]
      constructor
      · rintro ((hn | ⟨p, e, hb, hm⟩) | rfl)
        · exact Or.inl hn
        · exact Or.inr ⟨p, e, Or.inl hb, hm⟩
        · exact Or.inr ⟨path, entry, Or.inr ⟨rfl, rfl, rfl⟩, hmine⟩
      · rintro (hn | ⟨p, e, hb | ⟨rfl, rfl, rfl⟩, hm⟩)
        · exact Or.inl (Or.inl hn)
        · exact Or.inl (Or.inr ⟨p, e, hb, hm⟩)
        · exact Or.inr rfl
    · refine (h.left n k).trans ⟨fun hk p e hb hm => ?_, fun hk p e hb hm => hk p e (Or.inl hb) hm⟩
      rcases hb with hb | ⟨rfl, rfl, rfl⟩
      · exact hk p e hb hm
      · exact absurd hmine hm
  next hmine =>
    have hwanted : ∀ n, n ∈ plan.wanted ↔ hashes n ∨ ∃ p e,
        (blocks p e n ∨ (p = path ∧ e = entry ∧ n = name)) ∧
          store.Mine sha256 plan.among p e n := by
      intro n
      rw [h.wanted n]
      refine or_congr Iff.rfl ⟨fun ⟨p, e, hb, hm⟩ => ⟨p, e, Or.inl hb, hm⟩, ?_⟩
      rintro ⟨p, e, hb | ⟨rfl, rfl, rfl⟩, hm⟩
      · exact ⟨p, e, hb, hm⟩
      · exact absurd hm hmine
    split
    next hmore =>
      refine ⟨hwanted, fun n k => ?_, fun n holders hn => ?_, h.nodup⟩
      · show (((plan.others.insert name _).lookup n).getD []).length ≤ k ↔ _
        by_cases hname : n = name
        · subst hname
          rw [AList.lookup_insert, Option.getD_some]
          constructor
          · rintro hk p e (hb | ⟨rfl, rfl, -⟩) hm
            · exact (h.left n k).1 (hmore.le.trans hk) p e hb hm
            · exact hk
          · exact fun hk => hk path entry (Or.inr ⟨rfl, rfl, rfl⟩) hmine
        · rw [AList.lookup_insert_ne hname]
          refine (h.left n k).trans ⟨fun hk p e hb hm => ?_, fun hk p e hb hm => hk p e (Or.inl hb) hm⟩
          rcases hb with hb | ⟨-, -, heq⟩
          · exact hk p e hb hm
          · exact absurd heq hname
      · by_cases hname : n = name
        · subst hname
          have hn' : (plan.others.insert n (store.holders sha256 n plan.among entry.copies)).lookup n
              = some holders := hn
          rw [AList.lookup_insert] at hn'
          obtain rfl := Option.some.inj hn'
          refine ⟨fun hnil => ?_, entry.copies, rfl⟩
          rw [hnil] at hmore
          exact absurd hmore (by simp)
        · have hn' : (plan.others.insert name (store.holders sha256 name plan.among entry.copies)).lookup
              n = some holders := hn
          rw [AList.lookup_insert_ne hname] at hn'
          exact h.shape n holders hn'
    next hmore =>
      refine ⟨hwanted, fun n k => ?_, h.shape, h.nodup⟩
      refine ⟨fun hk p e hb hm => ?_, fun hk => (h.left n k).2 (fun p e hb hm => hk p e (Or.inl hb) hm)⟩
      rcases hb with hb | ⟨rfl, rfl, rfl⟩
      · exact (h.left n k).1 hk p e hb hm
      · exact (not_lt.1 hmore).trans hk

/-- A block counted leaves who the plan is among, what is not known, and what is wanting and over. -/
theorem planBlock_rest (store : Keeper) (path : Str) (entry : Entry) (plan : Plan) (name : Str) :
    (store.planBlock sha256 path entry plan name).among = plan.among ∧
      (store.planBlock sha256 path entry plan name).unknown = plan.unknown ∧
      (store.planBlock sha256 path entry plan name).missing = plan.missing ∧
      (store.planBlock sha256 path entry plan name).extras = plan.extras := by
  unfold planBlock
  simp only
  split
  · exact ⟨rfl, rfl, rfl, rfl⟩
  · split <;> exact ⟨rfl, rfl, rfl, rfl⟩

theorem planBlocks_rest (store : Keeper) (path : Str) (entry : Entry) (plan : Plan)
    (names : List Str) :
    (names.foldl (store.planBlock sha256 path entry) plan).among = plan.among ∧
      (names.foldl (store.planBlock sha256 path entry) plan).unknown = plan.unknown ∧
      (names.foldl (store.planBlock sha256 path entry) plan).missing = plan.missing ∧
      (names.foldl (store.planBlock sha256 path entry) plan).extras = plan.extras := by
  induction names generalizing plan with
  | nil => exact ⟨rfl, rfl, rfl, rfl⟩
  | cons name names ih =>
      obtain ⟨h1, h2, h3, h4⟩ := @planBlock_rest sha256 store path entry plan name
      obtain ⟨i1, i2, i3, i4⟩ := ih (store.planBlock sha256 path entry plan name)
      exact ⟨i1.trans h1, i2.trans h2, i3.trans h3, i4.trans h4⟩

/-- **The blocks of an object counted.** -/
theorem Counts.planBlocks (h : store.Counts sha256 hashes blocks plan) (path : Str) (entry : Entry)
    (names : List Str) :
    store.Counts sha256 hashes (fun p e n => blocks p e n ∨ (p = path ∧ e = entry ∧ n ∈ names))
      (names.foldl (store.planBlock sha256 path entry) plan) := by
  induction names generalizing plan blocks with
  | nil => exact h.congr (fun _ => Iff.rfl) (fun p e n => by simp)
  | cons name names ih =>
      refine (ih (h.block path entry name)).congr (fun _ => Iff.rfl) (fun p e n => ?_)
      rw [List.mem_cons]
      tauto

/-- An object's own block is wanted. -/
theorem Counts.hash (h : store.Counts sha256 hashes blocks plan) (name : Str) :
    store.Counts sha256 (fun n => hashes n ∨ n = name) blocks
      { plan with wanted := fsetInsert plan.wanted name } := by
  refine ⟨fun n => ?_, h.left, h.shape, nodup_fsetInsert h.nodup name⟩
  show n ∈ fsetInsert plan.wanted name ↔ _
  rw [mem_fsetInsert, h.wanted n]
  exact or_right_comm

/-- The parts of a plan that are neither wanted nor others'. -/
theorem Counts.rest (h : store.Counts sha256 hashes blocks plan)
    (unknown : AList (fun _ : Str => List Str)) (missing extras : List Str) :
    store.Counts sha256 hashes blocks
      { plan with unknown := unknown, missing := missing, extras := extras } :=
  ⟨h.wanted, h.left, h.shape, h.nodup⟩

/-! ## A path counted -/

/-- What a plan has for the objects of these paths whose manifests are not here: the paths, by the
    name of the object. -/
structure Waits (object : Str → Option (ℕ × List Str)) (store : Keeper)
    (paths : Str → Entry → Prop) (plan : Plan) : Prop where
  sound : ∀ hash waits, plan.unknown.lookup hash = some waits →
    store.manifest object hash = none ∧
      ∀ path ∈ waits, ∃ entry, paths path entry ∧ entry.hash = hash
  all : ∀ path entry, paths path entry → store.manifest object entry.hash = none →
    ∃ waits, plan.unknown.lookup entry.hash = some waits ∧ path ∈ waits

/-- A plan that has counted these paths, and wants these besides. -/
structure Counted (sha256 : Str → Str) (object : Str → Option (ℕ × List Str)) (store : Keeper)
    (besides : Str → Prop) (paths : Str → Entry → Prop) (plan : Plan) : Prop where
  counts : store.Counts sha256
    (fun n => besides n ∨ ∃ path entry, paths path entry ∧ entry.hash = n)
    (fun path entry n => paths path entry ∧ store.Known object entry n) plan
  waits : Waits object store paths plan

theorem planObject_rest (store : Keeper) (plan : Plan) (path : Str) (entry : Entry) :
    (store.planObject sha256 object plan path entry).among = plan.among ∧
      (store.planObject sha256 object plan path entry).missing = plan.missing ∧
      (store.planObject sha256 object plan path entry).extras = plan.extras := by
  unfold planObject
  simp only
  split
  next made _ =>
    obtain ⟨h1, -, h3, h4⟩ := @planBlocks_rest sha256 store path entry
      { plan with wanted := fsetInsert plan.wanted entry.hash } made.2
    exact ⟨h1, h3, h4⟩
  · exact ⟨rfl, rfl, rfl⟩

/-- **A path counted**, the object of which may be known or not. -/
theorem Counted.planObject {besides : Str → Prop} {paths : Str → Entry → Prop}
    (h : Counted sha256 object store besides paths plan) (path : Str) (entry : Entry) :
    Counted sha256 object store besides (fun p e => paths p e ∨ (p = path ∧ e = entry))
      (store.planObject sha256 object plan path entry) := by
  have hhash := h.counts.hash entry.hash
  have hashes : ∀ n, ((besides n ∨ ∃ p e, paths p e ∧ e.hash = n) ∨ n = entry.hash) ↔
      (besides n ∨ ∃ p e, (paths p e ∨ (p = path ∧ e = entry)) ∧ e.hash = n) := by
    intro n
    constructor
    · rintro ((hb | ⟨p, e, hp, rfl⟩) | rfl)
      · exact Or.inl hb
      · exact Or.inr ⟨p, e, Or.inl hp, rfl⟩
      · exact Or.inr ⟨path, entry, Or.inr ⟨rfl, rfl⟩, rfl⟩
    · rintro (hb | ⟨p, e, hp | ⟨rfl, rfl⟩, rfl⟩)
      · exact Or.inl (Or.inl hb)
      · exact Or.inl (Or.inr ⟨p, e, hp, rfl⟩)
      · exact Or.inr rfl
  unfold Keeper.planObject
  simp only
  cases hmade : store.manifest object entry.hash with
  | some made =>
      simp only
      refine ⟨(hhash.planBlocks path entry made.2).congr (fun n => ?_) (fun p e n => ?_), ?_, ?_⟩
      · exact hashes n
      · constructor
        · rintro (⟨hp, hk⟩ | ⟨rfl, rfl, hn⟩)
          · exact ⟨Or.inl hp, hk⟩
          · exact ⟨Or.inr ⟨rfl, rfl⟩, made, hmade, hn⟩
        · rintro ⟨hp | ⟨rfl, rfl⟩, hk⟩
          · exact Or.inl ⟨hp, hk⟩
          · obtain ⟨made', hmade', hn⟩ := hk
            rw [hmade] at hmade'
            exact Or.inr ⟨rfl, rfl, Option.some.inj hmade' ▸ hn⟩
      · intro hash waits hw
        rw [(planBlocks_rest store path entry _ made.2).2.1] at hw
        obtain ⟨hnone, hall⟩ := h.waits.sound hash waits hw
        exact ⟨hnone, fun p hp => (hall p hp).imp (fun e he => ⟨Or.inl he.1, he.2⟩)⟩
      · rintro p e (hp | ⟨rfl, rfl⟩) hnone
        · rw [(planBlocks_rest store path entry _ made.2).2.1]
          exact h.waits.all p e hp hnone
        · rw [hmade] at hnone
          exact absurd hnone (by simp)
  | none =>
      simp only
      have hunknown : ∀ hash, (plan.unknown.insert entry.hash
            ((plan.unknown.lookup entry.hash).getD [] ++ [path])).lookup hash
          = if hash = entry.hash then some ((plan.unknown.lookup entry.hash).getD [] ++ [path])
            else plan.unknown.lookup hash := by
        intro hash
        split
        next heq => rw [heq, AList.lookup_insert]
        next hne => rw [AList.lookup_insert_ne hne]
      refine ⟨(hhash.rest _ plan.missing plan.extras).congr (fun n => ?_) (fun p e n => ?_), ?_, ?_⟩
      · exact hashes n
      · constructor
        · exact fun ⟨hp, hk⟩ => ⟨Or.inl hp, hk⟩
        · rintro ⟨hp | ⟨rfl, rfl⟩, hk⟩
          · exact ⟨hp, hk⟩
          · obtain ⟨made', hmade', -⟩ := hk
            rw [hmade] at hmade'
            exact absurd hmade' (by simp)
      · intro hash waits hw
        have hw' := (hunknown hash).symm.trans hw
        split at hw'
        next heq =>
          obtain rfl := Option.some.inj hw'
          rw [heq]
          refine ⟨hmade, fun p hp => ?_⟩
          rcases List.mem_append.1 hp with hp | hp
          · cases hwas : plan.unknown.lookup entry.hash with
            | none => rw [hwas] at hp; exact absurd hp List.not_mem_nil
            | some was =>
                rw [hwas] at hp
                exact ((h.waits.sound _ was hwas).2 p hp).imp (fun e he => ⟨Or.inl he.1, he.2⟩)
          · exact ⟨entry, Or.inr ⟨List.mem_singleton.1 hp, rfl⟩, rfl⟩
        next hne =>
          obtain ⟨hnone, hall⟩ := h.waits.sound hash waits hw'
          exact ⟨hnone, fun p hp => (hall p hp).imp (fun e he => ⟨Or.inl he.1, he.2⟩)⟩
      · intro p e hp hnone
        show ∃ waits, (plan.unknown.insert entry.hash _).lookup e.hash = some waits ∧ p ∈ waits
        rw [hunknown]
        rcases hp with hp | ⟨rfl, rfl⟩
        · obtain ⟨waits, hw, hin⟩ := h.waits.all p e hp hnone
          split
          next heq =>
            rw [heq] at hw
            exact ⟨_, rfl, List.mem_append_left _ (by rw [hw]; exact hin)⟩
          · exact ⟨waits, hw, hin⟩
        · rw [if_pos rfl]
          exact ⟨_, rfl, List.mem_append_right _ (List.mem_singleton_self _)⟩

theorem Counted.congr {besides besides' : Str → Prop} {paths paths' : Str → Entry → Prop}
    (h : Counted sha256 object store besides paths plan) (hp : ∀ p e, paths p e ↔ paths' p e)
    (hb : ∀ n, (besides n ∨ ∃ p e, paths' p e ∧ e.hash = n) ↔
      (besides' n ∨ ∃ p e, paths' p e ∧ e.hash = n)) :
    Counted sha256 object store besides' paths' plan := by
  obtain rfl : paths = paths' := funext (fun p => funext (fun e => propext (hp p e)))
  exact ⟨h.counts.congr hb (fun _ _ _ => Iff.rfl), h.waits⟩

theorem Counted.same {besides : Str → Prop} {paths : Str → Entry → Prop} {plan' : Plan}
    (h : Counted sha256 object store besides paths plan) (hw : plan'.wanted = plan.wanted)
    (ho : plan'.others = plan.others) (hu : plan'.unknown = plan.unknown)
    (ha : plan'.among = plan.among) : Counted sha256 object store besides paths plan' := by
  obtain ⟨wanted, others, unknown, missing, extras, among⟩ := plan'
  obtain rfl : wanted = plan.wanted := hw
  obtain rfl : others = plan.others := ho
  obtain rfl : unknown = plan.unknown := hu
  obtain rfl : among = plan.among := ha
  exact ⟨h.counts.rest plan.unknown missing extras, ⟨h.waits.sound, h.waits.all⟩⟩

end Counts

/-! ## An exact plan -/

/-- A plan that says of every path there is what it needs, what of that is not here, and what is
    here and others'. -/
structure Exact (plan : Plan) : Prop where
  counted : Counted sha256 object store (fun _ => False) store.Live plan
  missing : ∀ n, n ∈ plan.missing ↔ n ∈ plan.wanted ∧ n ∉ store.held
  extras : ∀ n, n ∈ plan.extras ↔
    (plan.others.lookup n).isSome ∧ n ∉ plan.wanted ∧ n ∈ store.held
  nodup : plan.missing.Nodup ∧ plan.extras.Nodup

section Exact

variable {sha256} {object} {store} {plan plan' : Plan}

/-- **Two exact plans of the same members give the same share.** -/
theorem perm_of_exact (h : Exact sha256 object store plan) (h' : Exact sha256 object store plan')
    (hamong : plan.among = plan'.among) :
    plan.missing.Perm plan'.missing ∧
      (plan.extras.map (fun name => (name, (plan.others.lookup name).getD []))).Perm
        (plan'.extras.map (fun name => (name, (plan'.others.lookup name).getD []))) := by
  have hwanted : ∀ n, n ∈ plan.wanted ↔ n ∈ plan'.wanted := by
    intro n
    rw [h.counted.counts.wanted, h'.counted.counts.wanted, hamong]
  have hothers := h.counted.counts.others_eq h'.counted.counts hamong
  constructor
  · refine (List.perm_ext_iff_of_nodup h.nodup.1 h'.nodup.1).2 (fun n => ?_)
    rw [h.missing, h'.missing, hwanted]
  · have hperm : plan.extras.Perm plan'.extras := by
      refine (List.perm_ext_iff_of_nodup h.nodup.2 h'.nodup.2).2 (fun n => ?_)
      rw [h.extras, h'.extras, hwanted, hothers]
    have hmap : plan'.extras.map (fun name => (name, (plan'.others.lookup name).getD []))
        = plan'.extras.map (fun name => (name, (plan.others.lookup name).getD [])) :=
      List.map_congr_left (fun name _ => by rw [hothers])
    rw [hmap]
    exact hperm.map _

/-- A path of the map counted, if it is not deleted. -/
def planRow (sha256 : Str → Str) (object : Str → Option (ℕ × List Str)) (store : Keeper) (plan : Plan)
    (row : (_ : Str) × Entry) : Plan :=
  if row.2.deleted then plan else store.planObject sha256 object plan row.1 row.2

/-- What a plan made afresh has counted. -/
theorem counted_planNew (store : Keeper) (among : List Str) :
    Counted sha256 object store (fun _ => False) store.Live
        (store.planNew sha256 object among) ∧
      (store.planNew sha256 object among).among = among := by
  have hstart : Counted sha256 object store (fun _ => False) (fun _ _ => False)
      ⟨[], ∅, ∅, [], [], among⟩ :=
    ⟨⟨fun n => by simp, fun n k => by simp, fun n holders hn => by simp at hn, List.nodup_nil⟩,
      ⟨fun hash waits hw => by simp at hw, fun p e hp => hp.elim⟩⟩
  let rest : Plan := ⟨[], ∅, ∅, [], [], among⟩
  have hfold : Counted sha256 object store (fun _ => False)
        (fun p e => ⟨p, e⟩ ∈ store.map.entries ∧ e.deleted = false)
        (Run.run (store.planRow sha256 object) rest store.map.entries) ∧
      (Run.run (store.planRow sha256 object) rest store.map.entries).among = among := by
    refine Run.inv_of_prefix (I := fun (pre : List ((_ : Str) × Entry)) (plan : Plan) =>
      Counted sha256 object store (fun _ => False)
        (fun p e => ⟨p, e⟩ ∈ pre ∧ e.deleted = false) plan ∧ plan.among = among) ?_
      ⟨hstart.congr (fun p e => by simp) (fun n => by simp), rfl⟩
    rintro pre ⟨path, entry⟩ post plan - ⟨hcounted, hamong⟩
    unfold planRow
    by_cases hdel : entry.deleted = true
    · -- a path that is deleted is passed over
      simp only [hdel, if_true]
      refine ⟨hcounted.congr (fun p e => ?_) (fun _ => Iff.rfl), hamong⟩
      rw [List.mem_append, List.mem_singleton]
      constructor
      · exact fun ⟨hin, hlive⟩ => ⟨Or.inl hin, hlive⟩
      · rintro ⟨hin | heq, hlive⟩
        · exact ⟨hin, hlive⟩
        · cases heq
          rw [hdel] at hlive
          exact absurd hlive (by simp)
    · simp only [hdel]
      refine ⟨(hcounted.planObject path entry).congr (fun p e => ?_) (fun _ => Iff.rfl),
        (planObject_rest store plan path entry).1.trans hamong⟩
      rw [List.mem_append, List.mem_singleton]
      constructor
      · rintro (⟨hin, hlive⟩ | ⟨rfl, rfl⟩)
        · exact ⟨Or.inl hin, hlive⟩
        · exact ⟨Or.inr rfl, by simpa using hdel⟩
      · rintro ⟨hin | heq, hlive⟩
        · exact Or.inl ⟨hin, hlive⟩
        · cases heq
          exact Or.inr ⟨rfl, rfl⟩
  obtain ⟨hcounted, hamong⟩ := hfold
  have hlive : Counted sha256 object store (fun _ => False) store.Live _ :=
    hcounted.congr (fun p e => by rw [Live, ← Option.mem_def, AList.mem_lookup_iff])
      (fun _ => Iff.rfl)
  exact ⟨⟨hlive.counts.rest _ _ _, ⟨hlive.waits.sound, hlive.waits.all⟩⟩, hamong⟩

/-- **A plan made afresh is exact.** -/
theorem exact_planNew (store : Keeper) (among : List Str) :
    Exact sha256 object store (store.planNew sha256 object among) := by
  have hcounted : Counted sha256 object store (fun _ => False) store.Live
      (store.planNew sha256 object among) := (counted_planNew store among).1
  refine ⟨hcounted, fun n => ?_, fun n => ?_, ?_, ?_⟩
  · simp [planNew, blockHas]
  · simp [planNew, blockHas, AList.mem_keys, AList.lookup_isSome]
  · exact hcounted.counts.nodup.filter _
  · exact (AList.keys_nodup _).filter _

/-! ## A block that comes -/

/-- **One block of an object gone through**: if it is wanted it is not over, and is wanting if it is
    not here; if it is others' and here it is over. -/
theorem planCome_one (store : Keeper) (plan : Plan) (block : Str)
    (hnodup : plan.missing.Nodup ∧ plan.extras.Nodup) :
    (∀ n, n ∈ (store.planCome plan block).missing ↔
        n ∈ plan.missing ∨ (n = block ∧ n ∈ plan.wanted ∧ n ∉ store.held)) ∧
      (∀ n, n ∈ (store.planCome plan block).extras ↔
        (n ∈ plan.extras ∧ ¬ (n = block ∧ n ∈ plan.wanted)) ∨
          (n = block ∧ n ∉ plan.wanted ∧ (plan.others.lookup n).isSome ∧ n ∈ store.held)) ∧
      ((store.planCome plan block).missing.Nodup ∧ (store.planCome plan block).extras.Nodup) ∧
      (store.planCome plan block).wanted = plan.wanted ∧
      (store.planCome plan block).others = plan.others ∧
      (store.planCome plan block).unknown = plan.unknown ∧
      (store.planCome plan block).among = plan.among := by
  have hhas : store.blockHas block = true ↔ block ∈ store.held := decide_eq_true_iff
  unfold planCome
  split
  next hwanted =>
    refine ⟨fun n => ?_, fun n => ?_, ⟨?_, nodup_fsetErase hnodup.2 block⟩, rfl, rfl, rfl, rfl⟩
    · show n ∈ (if store.blockHas block = true then plan.missing else fsetInsert plan.missing block) ↔ _
      split
      next hb =>
        refine ⟨Or.inl, fun h => h.resolve_right ?_⟩
        rintro ⟨rfl, -, hnot⟩
        exact hnot (hhas.1 hb)
      next hb =>
        rw [mem_fsetInsert]
        refine or_congr Iff.rfl ⟨?_, fun h => h.1⟩
        rintro rfl
        exact ⟨rfl, hwanted, fun h => hb (hhas.2 h)⟩
    · show n ∈ fsetErase plan.extras block ↔ _
      rw [mem_fsetErase]
      constructor
      · exact fun ⟨hin, hne⟩ => Or.inl ⟨hin, fun h => hne h.1⟩
      · rintro (⟨hin, hnot⟩ | ⟨rfl, hnot, -⟩)
        · refine ⟨hin, ?_⟩
          rintro rfl
          exact hnot ⟨rfl, hwanted⟩
        · exact absurd hwanted hnot
    · show (if store.blockHas block = true then plan.missing
        else fsetInsert plan.missing block).Nodup
      split
      · exact hnodup.1
      · exact nodup_fsetInsert hnodup.1 block
  next hwanted =>
    have hmissing : ∀ n, n ∈ plan.missing ↔
        n ∈ plan.missing ∨ (n = block ∧ n ∈ plan.wanted ∧ n ∉ store.held) := by
      refine fun n => ⟨Or.inl, fun h => h.resolve_right ?_⟩
      rintro ⟨rfl, hin, -⟩
      exact hwanted hin
    have hover : ∀ n, n ∈ plan.extras ↔ n ∈ plan.extras ∧ ¬ (n = block ∧ n ∈ plan.wanted) := by
      refine fun n => ⟨fun hin => ⟨hin, ?_⟩, fun h => h.1⟩
      rintro ⟨rfl, hin⟩
      exact hwanted hin
    split
    next hothers =>
      refine ⟨hmissing, fun n => ?_, ⟨hnodup.1, nodup_fsetInsert hnodup.2 block⟩, rfl, rfl, rfl, rfl⟩
      show n ∈ fsetInsert plan.extras block ↔ _
      rw [mem_fsetInsert, ← hover n]
      refine or_congr Iff.rfl ⟨?_, fun h => h.1⟩
      rintro rfl
      exact ⟨rfl, hwanted, hothers.1, hhas.1 hothers.2⟩
    next hothers =>
      refine ⟨hmissing, fun n => ?_, hnodup, rfl, rfl, rfl, rfl⟩
      rw [← hover n]
      refine ⟨Or.inl, fun h => h.resolve_right ?_⟩
      rintro ⟨rfl, -, hsome, hin⟩
      exact hothers ⟨hsome, hhas.2 hin⟩

/-- **The blocks of an object gone through.** -/
theorem planCome_foldl (store : Keeper) (plan : Plan) (blocks : List Str)
    (hnodup : plan.missing.Nodup ∧ plan.extras.Nodup) :
    (∀ n, n ∈ (blocks.foldl store.planCome plan).missing ↔
        n ∈ plan.missing ∨ (n ∈ blocks ∧ n ∈ plan.wanted ∧ n ∉ store.held)) ∧
      (∀ n, n ∈ (blocks.foldl store.planCome plan).extras ↔
        (n ∈ plan.extras ∧ ¬ (n ∈ blocks ∧ n ∈ plan.wanted)) ∨
          (n ∈ blocks ∧ n ∉ plan.wanted ∧ (plan.others.lookup n).isSome ∧ n ∈ store.held)) ∧
      ((blocks.foldl store.planCome plan).missing.Nodup ∧
        (blocks.foldl store.planCome plan).extras.Nodup) ∧
      (blocks.foldl store.planCome plan).wanted = plan.wanted ∧
      (blocks.foldl store.planCome plan).others = plan.others ∧
      (blocks.foldl store.planCome plan).unknown = plan.unknown ∧
      (blocks.foldl store.planCome plan).among = plan.among := by
  induction blocks generalizing plan with
  | nil => exact ⟨fun n => by simp, fun n => by simp, hnodup, rfl, rfl, rfl, rfl⟩
  | cons block blocks ih =>
      obtain ⟨hm, he, hn, hw, ho, hu, ha⟩ := planCome_one store plan block hnodup
      obtain ⟨im, ie, inodup, iw, io, iu, ia⟩ := ih (store.planCome plan block) hn
      rw [List.foldl_cons]
      refine ⟨fun n => ?_, fun n => ?_, inodup, iw.trans hw, io.trans ho, iu.trans hu, ia.trans ha⟩
      · rw [im, hm, hw, List.mem_cons]
        tauto
      · rw [ie, he, hw, ho, List.mem_cons]
        tauto

/-- Paths counted, each of the map. -/
theorem counted_planPaths (store : Keeper) {besides : Str → Prop} {base : Str → Entry → Prop}
    {paths : List Str} (h : Counted sha256 object store besides base plan)
    (hpaths : ∀ p ∈ paths, ∃ e, store.map.lookup p = some e) :
    Counted sha256 object store besides
        (fun p e => base p e ∨ (p ∈ paths ∧ store.map.lookup p = some e))
        (store.planPaths sha256 object plan paths) ∧
      (store.planPaths sha256 object plan paths).among = plan.among ∧
      (store.planPaths sha256 object plan paths).missing = plan.missing ∧
      (store.planPaths sha256 object plan paths).extras = plan.extras := by
  induction paths generalizing plan base with
  | nil => exact ⟨h.congr (fun p e => by simp) (fun _ => by simp), rfl, rfl, rfl⟩
  | cons path paths ih =>
      obtain ⟨entry, hentry⟩ := hpaths path List.mem_cons_self
      have hfind : store.find path = some entry := hentry
      have hstep : store.planPaths sha256 object plan (path :: paths)
          = store.planPaths sha256 object (store.planObject sha256 object plan path entry) paths := by
        unfold planPaths
        rw [List.foldl_cons, hfind]
      obtain ⟨hcounted, ha, hm, he⟩ := ih (h.planObject path entry)
        (fun p hp => hpaths p (List.mem_cons_of_mem _ hp))
      obtain ⟨ha', hm', he'⟩ := @planObject_rest sha256 object store plan path entry
      rw [hstep]
      refine ⟨hcounted.congr (fun p e => ?_) (fun _ => Iff.rfl), ha.trans ha', hm.trans hm',
        he.trans he'⟩
      rw [List.mem_cons]
      constructor
      · rintro ((hb | ⟨rfl, rfl⟩) | ⟨hin, hl⟩)
        · exact Or.inl hb
        · exact Or.inr ⟨Or.inl rfl, hentry⟩
        · exact Or.inr ⟨Or.inr hin, hl⟩
      · rintro (hb | ⟨rfl | hin, hl⟩)
        · exact Or.inl (Or.inl hb)
        · rw [hentry] at hl
          exact Or.inl (Or.inr ⟨rfl, (Option.some.inj hl).symm⟩)
        · exact Or.inr ⟨hin, hl⟩

/-- A plan in which a block that has come is not wanting, and is over if it is others'. -/
def planHas (plan : Plan) (name : Str) : Plan :=
  { plan with
    missing := fsetErase plan.missing name
    extras := if name ∉ plan.wanted ∧ (plan.others.lookup name).isSome then
        fsetInsert plan.extras name else plan.extras }

theorem planHeld_eq (store : Keeper) (plan : Plan) (name : Str) :
    store.planHeld sha256 object plan name =
      match plan.unknown.lookup name with
      | some paths =>
          ((store.manifest object name).elim [] Prod.snd).foldl store.planCome
            (store.planPaths sha256 object
              { planHas plan name with unknown := plan.unknown.erase name } paths)
      | none => planHas plan name := by
  unfold planHeld planHas
  by_cases hover : name ∉ plan.wanted ∧ (plan.others.lookup name).isSome
  · cases hwaits : plan.unknown.lookup name with
    | none => simp only [if_pos hover, hwaits]
    | some paths => simp only [if_pos hover, hwaits]
  · cases hwaits : plan.unknown.lookup name with
    | none => simp only [if_neg hover, hwaits]
    | some paths => simp only [if_neg hover, hwaits]

/-- **A block that comes.** What its coming tells of the objects it is the manifest of is counted,
    and a plan that was exact is exact. -/
theorem exact_planHeld {name : Str} (h : Exact sha256 object store plan)
    (hnew : name ∉ store.held) :
    Exact sha256 object { store with held := fsetInsert store.held name }
      (planHeld sha256 object { store with held := fsetInsert store.held name } plan name) := by
  set now : Keeper := { store with held := fsetInsert store.held name } with hnow
  have hheld : ∀ n, n ∈ now.held ↔ n ∈ store.held ∨ n = name := fun n => mem_fsetInsert
  -- only the object of that name is now known that was not
  have hmanifest : ∀ hash, hash ≠ name → now.manifest object hash = store.manifest object hash := by
    intro hash hne
    unfold manifest blockHas
    have : hash ∈ now.held ↔ hash ∈ store.held := by rw [hheld, or_iff_left hne]
    simp only [this]
  have hnone : store.manifest object name = none := by
    unfold manifest blockHas
    simp [hnew]
  have hknown : ∀ p e n, store.Live p e ∧ store.Known object e n ↔
      (store.Live p e ∧ e.hash ≠ name) ∧ now.Known object e n := by
    intro p e n
    constructor
    · rintro ⟨hlive, made, hmade, hn⟩
      have hne : e.hash ≠ name := by
        rintro heq
        rw [heq, hnone] at hmade
        exact absurd hmade (by simp)
      exact ⟨⟨hlive, hne⟩, made, (hmanifest _ hne).trans hmade, hn⟩
    · rintro ⟨⟨hlive, hne⟩, made, hmade, hn⟩
      exact ⟨hlive, made, (hmanifest _ hne).symm.trans hmade, hn⟩
  have hcounts : now.Counts sha256 (fun n => ∃ p e, store.Live p e ∧ e.hash = n)
      (fun p e n => (store.Live p e ∧ e.hash ≠ name) ∧ now.Known object e n) plan := by
    have hc := h.counted.counts.congr (fun n => by simp only [false_or]; exact Iff.rfl) hknown
    exact ⟨hc.wanted, hc.left, hc.shape, hc.nodup⟩
  have hmissing : ∀ n, n ∈ (planHas plan name).missing ↔ n ∈ plan.wanted ∧ n ∉ now.held := by
    intro n
    show n ∈ fsetErase plan.missing name ↔ _
    rw [mem_fsetErase, h.missing, hheld]
    tauto
  have hextras : ∀ n, n ∈ (planHas plan name).extras ↔
      (plan.others.lookup n).isSome ∧ n ∉ plan.wanted ∧ n ∈ now.held := by
    intro n
    show n ∈ (if name ∉ plan.wanted ∧ (plan.others.lookup name).isSome then
      fsetInsert plan.extras name else plan.extras) ↔ _
    rw [hheld]
    split
    next hover =>
      rw [mem_fsetInsert, h.extras]
      constructor
      · rintro (⟨h1, h2, h3⟩ | rfl)
        · exact ⟨h1, h2, Or.inl h3⟩
        · exact ⟨hover.2, hover.1, Or.inr rfl⟩
      · rintro ⟨h1, h2, h3 | rfl⟩
        · exact Or.inl ⟨h1, h2, h3⟩
        · exact Or.inr rfl
    next hover =>
      rw [h.extras]
      constructor
      · exact fun ⟨h1, h2, h3⟩ => ⟨h1, h2, Or.inl h3⟩
      · rintro ⟨h1, h2, h3 | rfl⟩
        · exact ⟨h1, h2, h3⟩
        · exact absurd ⟨h2, h1⟩ hover
  have hnodup : (planHas plan name).missing.Nodup ∧ (planHas plan name).extras.Nodup := by
    refine ⟨nodup_fsetErase h.nodup.1 name, ?_⟩
    show (if name ∉ plan.wanted ∧ (plan.others.lookup name).isSome then
      fsetInsert plan.extras name else plan.extras).Nodup
    split
    · exact nodup_fsetInsert h.nodup.2 name
    · exact h.nodup.2
  rw [planHeld_eq]
  cases hwaits : plan.unknown.lookup name with
  | none =>
      -- no path waits for it
      have hne : ∀ p e, store.Live p e → e.hash ≠ name := by
        rintro p e hlive rfl
        obtain ⟨waits, hw, -⟩ := h.counted.waits.all p e hlive hnone
        rw [hwaits] at hw
        exact absurd hw (by simp)
      refine ⟨⟨?_, ⟨fun hash waits hw => ?_, fun p e hp hm => ?_⟩⟩, hmissing, hextras, hnodup⟩
      · refine (hcounts.rest _ _ _).congr (fun n => by simp only [false_or]; exact Iff.rfl)
          (fun p e n => and_congr_left (fun _ => ⟨fun hl => hl.1, fun hl => ⟨hl, hne p e hl⟩⟩))
      · obtain ⟨hm, hall⟩ := h.counted.waits.sound hash waits hw
        refine ⟨(hmanifest hash ?_).trans hm, hall⟩
        rintro rfl
        rw [show (planHas plan hash).unknown = plan.unknown from rfl, hwaits] at hw
        exact absurd hw (by simp)
      · exact h.counted.waits.all p e hp ((hmanifest _ (hne p e hp)).symm.trans hm)
  | some waits =>
      have hall := (h.counted.waits.sound name waits hwaits).2
      have hlive : ∀ p, p ∈ waits ↔ ∃ e, store.Live p e ∧ e.hash = name := by
        refine fun p => ⟨hall p, fun ⟨e, hp, heq⟩ => ?_⟩
        obtain ⟨waits', hw, hin⟩ := h.counted.waits.all p e hp (heq ▸ hnone)
        rw [heq, hwaits] at hw
        exact Option.some.inj hw ▸ hin
      set begun : Plan := { planHas plan name with unknown := plan.unknown.erase name } with hbegun
      -- what it was to count before its coming, but for the paths that wait for it
      have hbase : Counted sha256 object now (fun n => ∃ p e, store.Live p e ∧ e.hash = n)
          (fun p e => store.Live p e ∧ e.hash ≠ name) begun := by
        refine ⟨(hcounts.rest _ _ _).congr (fun n => ?_) (fun _ _ _ => Iff.rfl), ?_, ?_⟩
        · exact ⟨Or.inl, fun hn => hn.elim id (fun ⟨p, e, hp, he⟩ => ⟨p, e, hp.1, he⟩)⟩
        · intro hash waits' hw
          have hne : hash ≠ name := by
            rintro rfl
            rw [show begun.unknown = plan.unknown.erase hash from rfl, AList.lookup_erase] at hw
            exact absurd hw (by simp)
          rw [show begun.unknown = plan.unknown.erase name from rfl,
            AList.lookup_erase_ne hne] at hw
          obtain ⟨hm, hin⟩ := h.counted.waits.sound hash waits' hw
          refine ⟨(hmanifest hash hne).trans hm, fun p hp => ?_⟩
          obtain ⟨e, hl, heq⟩ := hin p hp
          exact ⟨e, ⟨hl, heq ▸ hne⟩, heq⟩
        · rintro p e ⟨hp, hne⟩ hm
          rw [show begun.unknown = plan.unknown.erase name from rfl, AList.lookup_erase_ne hne]
          exact h.counted.waits.all p e hp ((hmanifest _ hne).symm.trans hm)
      have hpaths : ∀ p ∈ waits, ∃ e, now.map.lookup p = some e :=
        fun p hp => (hall p hp).imp (fun e he => he.1.1)
      obtain ⟨hpaths', hamong, hmissing', hextras'⟩ := counted_planPaths now hbase hpaths
      set after : Plan := now.planPaths sha256 object begun waits with hafter
      have hcounted : Counted sha256 object now (fun _ => False) now.Live after := by
        refine hpaths'.congr (fun p e => ?_) (fun n => ?_)
        · constructor
          · rintro (hp | ⟨hin, hl⟩)
            · exact hp.1
            · obtain ⟨e', ⟨hl', hdel⟩, -⟩ := hall p hin
              have heq : e' = e := Option.some.inj (hl'.symm.trans hl)
              exact ⟨hl, heq ▸ hdel⟩
          · intro hp
            by_cases heq : e.hash = name
            · exact Or.inr ⟨(hlive p).2 ⟨e, hp, heq⟩, hp.1⟩
            · exact Or.inl ⟨hp, heq⟩
        · rw [false_or]
          exact ⟨fun hn => hn.elim id id, Or.inr⟩
      set blocks : List Str := (now.manifest object name).elim [] Prod.snd with hblocks
      have hin : ∀ (e : Entry) n, e.hash = name → now.Known object e n → n ∈ blocks := by
        rintro e n rfl ⟨made, hmade, hn⟩
        rw [hblocks, hmade]
        exact hn
      -- what the plan had of each block it has yet, and what is new is of the object that has come
      have hgrows : ∀ n, n ∈ plan.wanted → n ∈ after.wanted := by
        intro n hn
        rw [hcounted.counts.wanted n, false_or, hamong]
        exact ((hcounts.wanted n).1 hn).imp_right
          (fun ⟨p, e, ⟨hp, hk⟩, hmine⟩ => ⟨p, e, ⟨hp.1, hk⟩, hmine⟩)
      have hnewly : ∀ n, n ∈ after.wanted → n ∈ plan.wanted ∨ n ∈ blocks := by
        intro n hn
        rw [hcounted.counts.wanted n, false_or, hamong] at hn
        rcases hn with hn | ⟨p, e, ⟨hp, hk⟩, hmine⟩
        · exact Or.inl ((hcounts.wanted n).2 (Or.inl hn))
        · by_cases heq : e.hash = name
          · exact Or.inr (hin e n heq hk)
          · exact Or.inl ((hcounts.wanted n).2 (Or.inr ⟨p, e, ⟨⟨hp, heq⟩, hk⟩, hmine⟩))
      have hgrows' : ∀ n, (plan.others.lookup n).isSome → (after.others.lookup n).isSome := by
        intro n hn
        obtain ⟨p, e, ⟨hp, hk⟩, hmine⟩ := (hcounts.others_isSome n).1 hn
        rw [hcounted.counts.others_isSome, hamong]
        exact ⟨p, e, ⟨hp.1, hk⟩, hmine⟩
      have hnewly' : ∀ n, (after.others.lookup n).isSome →
          (plan.others.lookup n).isSome ∨ n ∈ blocks := by
        intro n hn
        rw [hcounted.counts.others_isSome, hamong] at hn
        obtain ⟨p, e, ⟨hp, hk⟩, hmine⟩ := hn
        by_cases heq : e.hash = name
        · exact Or.inr (hin e n heq hk)
        · exact Or.inl ((hcounts.others_isSome n).2 ⟨p, e, ⟨⟨hp, heq⟩, hk⟩, hmine⟩)
      obtain ⟨im, ie, inodup, iw, io, iu, ia⟩ :=
        planCome_foldl now after blocks (hmissing' ▸ hextras' ▸ hnodup)
      refine ⟨hcounted.same iw io iu ia, fun n => ?_, fun n => ?_, inodup⟩
      · rw [im, iw, hmissing', hmissing]
        constructor
        · rintro (⟨hn, hnot⟩ | ⟨-, hn, hnot⟩)
          · exact ⟨hgrows n hn, hnot⟩
          · exact ⟨hn, hnot⟩
        · rintro ⟨hn, hnot⟩
          rcases hnewly n hn with hwas | hb
          · exact Or.inl ⟨hwas, hnot⟩
          · exact Or.inr ⟨hb, hn, hnot⟩
      · rw [ie, iw, io, hextras', hextras]
        constructor
        · rintro (⟨⟨ho, hnot, hh⟩, hcome⟩ | ⟨-, hnot, ho, hh⟩)
          · refine ⟨hgrows' n ho, fun hn => ?_, hh⟩
            exact (hnewly n hn).elim hnot (fun hb => hcome ⟨hb, hn⟩)
          · exact ⟨ho, hnot, hh⟩
        · rintro ⟨ho, hnot, hh⟩
          by_cases hb : n ∈ blocks
          · exact Or.inr ⟨hb, hnot, ho, hh⟩
          · exact Or.inl ⟨⟨(hnewly' n ho).resolve_right hb, fun hn => hnot (hgrows n hn), hh⟩,
              fun hcome => hb hcome.1⟩

/-! ## A block that goes -/

/-- **A block that goes**, if it is not the manifest of a path: what was known of the blocks of every
    path is known yet. -/
theorem exact_planDropped {name : Str} (h : Exact sha256 object store plan)
    (hnot : ∀ p e, store.Live p e → e.hash = name → store.manifest object name = none) :
    Exact sha256 object { store with held := fsetErase store.held name } (planDropped plan name) := by
  set now : Keeper := { store with held := fsetErase store.held name } with hnow
  have hheld : ∀ n, n ∈ now.held ↔ n ∈ store.held ∧ n ≠ name := fun n => mem_fsetErase
  have hmanifest : ∀ hash, hash ≠ name → now.manifest object hash = store.manifest object hash := by
    intro hash hne
    unfold manifest blockHas
    have : hash ∈ now.held ↔ hash ∈ store.held := by rw [hheld, and_iff_left hne]
    simp only [this]
  have hgone : now.manifest object name = none := by
    unfold manifest blockHas
    have : name ∉ now.held := fun hin => ((hheld name).1 hin).2 rfl
    simp [this]
  have hsame : ∀ p e, store.Live p e →
      now.manifest object e.hash = store.manifest object e.hash := by
    intro p e hp
    by_cases heq : e.hash = name
    · rw [heq, hgone, hnot p e hp heq]
    · exact hmanifest _ heq
  have hcounted : Counted sha256 object now (fun _ => False) now.Live plan := by
    refine ⟨?_, fun hash waits hw => ?_, fun p e hp hm => ?_⟩
    · have hc := h.counted.counts.congr (fun _ => Iff.rfl) (fun p e n =>
        (and_congr_right (fun hp => by
          unfold Known
          rw [hsame p e hp]) : (store.Live p e ∧ store.Known object e n) ↔
            (store.Live p e ∧ now.Known object e n)))
      exact ⟨hc.wanted, hc.left, hc.shape, hc.nodup⟩
    · obtain ⟨hm, hin⟩ := h.counted.waits.sound hash waits hw
      refine ⟨?_, hin⟩
      by_cases heq : hash = name
      · exact heq ▸ hgone
      · exact (hmanifest hash heq).trans hm
    · exact h.counted.waits.all p e hp ((hsame p e hp).symm.trans hm)
  refine ⟨hcounted.same rfl rfl rfl rfl, fun n => ?_, fun n => ?_, ?_, nodup_fsetErase h.nodup.2 name⟩
  · show n ∈ (if name ∈ plan.wanted then fsetInsert plan.missing name else plan.missing) ↔
      n ∈ plan.wanted ∧ n ∉ now.held
    rw [hheld]
    split
    next hwanted =>
      rw [mem_fsetInsert, h.missing]
      constructor
      · rintro (⟨hn, hout⟩ | rfl)
        · exact ⟨hn, fun hin => hout hin.1⟩
        · exact ⟨hwanted, fun hin => hin.2 rfl⟩
      · rintro ⟨hn, hout⟩
        by_cases heq : n = name
        · exact Or.inr heq
        · exact Or.inl ⟨hn, fun hin => hout ⟨hin, heq⟩⟩
    next hwanted =>
      rw [h.missing]
      refine and_congr_right (fun hn => not_congr ?_)
      rw [and_iff_left]
      rintro rfl
      exact hwanted hn
  · show n ∈ fsetErase plan.extras name ↔
      (plan.others.lookup n).isSome ∧ n ∉ plan.wanted ∧ n ∈ now.held
    rw [mem_fsetErase, h.extras, hheld]
    tauto
  · show (if name ∈ plan.wanted then fsetInsert plan.missing name else plan.missing).Nodup
    split
    · exact nodup_fsetInsert h.nodup.1 name
    · exact h.nodup.1

end Exact

/-! ## A store over time -/

/-- `(store-set store name hash size from deleted [copies])`: as that of `Store`, and what the share
    is is to be worked out again. -/
def set (name hash : Str) (size : ℕ) (was : Option Str) (deleted : Bool) (copies : Option ℕ) :
    Wrote × Keeper :=
  match store.toStore.set name hash size was deleted copies with
  | (.ok entry, after) => (.ok entry, { store with toStore := after, plan := none })
  | (wrote, _) => (wrote, store)

/-- `(store-commit store path names size [from])`, of blocks that are kept already. -/
def commit (room : Str → Bool) (name : Str) (names : List Str) (size : ℕ) (was : Option Str) :
    Wrote × Keeper :=
  if store.isStale name was then (.stale (store.stat name), store)
  else
    let text := storeManifestText size names
    let store := store.blockPut sha256 object (room (sha256 text)) text
    if store.blockHas (sha256 text) then store.set name (sha256 text) size was false none
    else (.full, store)

/-- `(store-put store path data [from])`: each block that there is room for is kept, and the path
    set if all of them are. -/
def put (room : Str → Bool) (name data : Str) (was : Option Str) : Wrote × Keeper :=
  if store.isStale name was then (.stale (store.stat name), store)
  else
    let blocks := storeCut store.blockSize data
    let store := blocks.foldl
      (fun store block => store.blockPut sha256 object (room (sha256 block)) block) store
    if blocks.all (fun block => store.blockHas (sha256 block)) then
      store.commit sha256 object room name (blocks.map sha256) data.length was
    else (.full, store)

/-- `(store-delete store path [from])`. -/
def delete (name : Str) (was : Option Str) : Wrote × Keeper :=
  match store.stat name with
  | none => (.none, store)
  | some _ => store.set name [] 0 was true none

/-- `(store-copies store path copies)`. -/
def copiesSet (name : Str) (copies : ℤ) : Wrote × Keeper :=
  match store.stat name with
  | none => (.none, store)
  | some entry => store.set name entry.hash entry.bytes none false (some copies.toNat)

/-- `(store-meet store entries)`: what the share is is to be worked out again if a path is not as it
    was. -/
def meet (theirs : List Entry) : Keeper :=
  let (after, changed) := store.toStore.meet theirs
  { store with toStore := after, plan := if changed = [] then store.plan else none }

/-- What happens to a store that keeps a plan. -/
inductive PlanEvent where
  | block (room : Bool) (data : Str)
  | drop (name : Str)
  | put (room : Str → Bool) (name data : Str) (was : Option Str)
  | delete (name : Str) (was : Option Str)
  | copies (name : Str) (copies : ℤ)
  | meet (theirs : List Entry)
  /-- who the members are, and who is retired, is now so -/
  | join (members retired : List Str)
  | share (among : List Str)

/-- What an event does. -/
def planStep (store : Keeper) : PlanEvent → Keeper
  | .block room data => store.blockPut sha256 object room data
  | .drop name => store.blockDrop name
  | .put room name data was => (store.put sha256 object room name data was).2
  | .delete name was => (store.delete name was).2
  | .copies name copies => (store.copiesSet name copies).2
  | .meet theirs => store.meet theirs
  | .join members retired => { store with members := members, retired := retired }
  | .share among => (store.share sha256 object among).2

/-- The plan of a store, if it has one, is exact. -/
def PlanExact : Prop := ∀ plan, store.plan = some plan → Exact sha256 object store plan

/-- No block goes, while there is a plan, that is the manifest of a path and can be read. -/
def KeepsManifests (store : Keeper) : PlanEvent → Prop
  | .drop name => store.plan = none ∨
      ∀ path entry, store.Live path entry → entry.hash = name → store.manifest object name = none
  | _ => True

section Runs

variable {sha256} {object} {store}

/-- What is exact of a store is of the member, its pins and its copies, of the path map and of the
    blocks that are held, and of nothing else. -/
theorem Exact.of_same {now : Keeper} {plan : Plan} (h : Exact sha256 object store plan)
    (hmember : now.member = store.member) (hmap : now.map = store.map)
    (hcopies : now.copies = store.copies) (hpins : now.pins = store.pins)
    (hheld : now.held = store.held) : Exact sha256 object now plan := by
  obtain ⟨⟨member, members, retired, pinned, blockSize, map, digest⟩, copies, pins, held, kept⟩ := now
  obtain rfl : member = store.member := hmember
  obtain rfl : map = store.map := hmap
  obtain rfl : copies = store.copies := hcopies
  obtain rfl : pins = store.pins := hpins
  obtain rfl : held = store.held := hheld
  have hcounts := h.counted.counts
  have hwaits := h.counted.waits
  exact ⟨⟨⟨hcounts.wanted, hcounts.left, hcounts.shape, hcounts.nodup⟩, ⟨hwaits.sound, hwaits.all⟩⟩,
    h.missing, h.extras, h.nodup⟩

theorem planExact_of_none (h : store.plan = none) : store.PlanExact sha256 object := by
  intro plan hplan
  rw [h] at hplan
  exact absurd hplan (by simp)

theorem planExact_blockPut (h : store.PlanExact sha256 object) (room : Bool) (data : Str) :
    (store.blockPut sha256 object room data).PlanExact sha256 object := by
  unfold blockPut
  simp only
  split
  · exact h
  next hnew =>
    split
    · intro plan hplan
      obtain ⟨was, hwas, rfl⟩ := Option.map_eq_some_iff.1 hplan
      have hnot : sha256 data ∉ store.held := fun hin => hnew (decide_eq_true hin)
      have he := exact_planHeld (h was hwas) hnot
      exact he.of_same rfl rfl rfl rfl rfl
    · exact h

theorem planExact_blockDrop {name : Str} (h : store.PlanExact sha256 object)
    (hnot : store.plan = none ∨
      ∀ p e, store.Live p e → e.hash = name → store.manifest object name = none) :
    (store.blockDrop name).PlanExact sha256 object := by
  intro plan hplan
  obtain ⟨was, hwas, rfl⟩ := Option.map_eq_some_iff.1 hplan
  have hgoes := hnot.resolve_left (by rw [hwas]; simp)
  exact (exact_planDropped (h was hwas) hgoes).of_same rfl rfl rfl rfl rfl

theorem planExact_set (h : store.PlanExact sha256 object) (name hash : Str) (size : ℕ)
    (was : Option Str) (deleted : Bool) (copies : Option ℕ) :
    (store.set name hash size was deleted copies).2.PlanExact sha256 object := by
  unfold set
  split
  · exact planExact_of_none rfl
  · exact h

theorem planExact_commit (h : store.PlanExact sha256 object) (room : Str → Bool) (name : Str)
    (names : List Str) (size : ℕ) (was : Option Str) :
    (store.commit sha256 object room name names size was).2.PlanExact sha256 object := by
  unfold commit
  split
  · exact h
  · have hput := planExact_blockPut h (room (sha256 (storeManifestText size names)))
      (storeManifestText size names)
    simp only
    split
    · exact planExact_set hput _ _ _ _ _ _
    · exact hput

theorem planExact_put (h : store.PlanExact sha256 object) (room : Str → Bool) (name data : Str)
    (was : Option Str) : (store.put sha256 object room name data was).2.PlanExact sha256 object := by
  have hblocks : ∀ (blocks : List Str) (store : Keeper), store.PlanExact sha256 object →
      (blocks.foldl (fun store block => store.blockPut sha256 object (room (sha256 block)) block)
        store).PlanExact sha256 object := by
    intro blocks
    induction blocks with
    | nil => exact fun _ h => h
    | cons block blocks ih => exact fun store h => ih _ (planExact_blockPut h _ block)
  unfold put
  split
  · exact h
  · simp only
    split
    · exact planExact_commit (hblocks _ store h) _ _ _ _ _
    · exact hblocks _ store h

theorem planExact_meet (h : store.PlanExact sha256 object) (theirs : List Entry) :
    (store.meet theirs).PlanExact sha256 object := by
  intro plan hplan
  simp only [meet] at hplan
  split at hplan
  next hsame =>
    -- no path has changed, and the map is the one the plan is of
    have hmap : (store.meet theirs).map = store.map := meetAll_unchanged hsame
    exact (h plan hplan).of_same rfl hmap rfl rfl rfl
  · exact absurd hplan (by simp)

theorem planExact_share (h : store.PlanExact sha256 object) (among : List Str) :
    Exact sha256 object store (store.planFor sha256 object among) := by
  unfold planFor
  split
  next plan hplan =>
    split
    · exact h plan hplan
    · exact exact_planNew store among
  · exact exact_planNew store among

theorem planExact_step (h : store.PlanExact sha256 object) (e : PlanEvent)
    (hc : KeepsManifests object store e) : (planStep sha256 object store e).PlanExact sha256 object := by
  cases e with
  | block room data => exact planExact_blockPut h room data
  | drop name => exact planExact_blockDrop h hc
  | put room name data was => exact planExact_put h room name data was
  | delete name was =>
      show (store.delete name was).2.PlanExact sha256 object
      unfold delete
      split
      · exact h
      · exact planExact_set h _ _ _ _ _ _
  | copies name copies =>
      show (store.copiesSet name copies).2.PlanExact sha256 object
      unfold copiesSet
      split
      · exact h
      · exact planExact_set h _ _ _ _ _ _
  | meet theirs => exact planExact_meet h theirs
  | join members retired =>
      intro plan hplan
      exact (h plan hplan).of_same rfl rfl rfl rfl rfl
  | share among =>
      intro plan hplan
      obtain rfl := Option.some.inj hplan
      exact (planExact_share h among).of_same rfl rfl rfl rfl rfl

/-- **The plan that is kept gives the share that a plan made afresh would**, in every state of a run
    in which no manifest of a path goes while there is a plan. -/
theorem share_kept (hstart : store.plan = none) {es : List PlanEvent}
    (hes : Run.Each (planStep sha256 object) (KeepsManifests object) store es) (among : List Str) :
    let now := Run.run (planStep sha256 object) store es
    (now.share sha256 object among).1.1.Perm
        ({ now with plan := none }.share sha256 object among).1.1 ∧
      (now.share sha256 object among).1.2.Perm
        ({ now with plan := none }.share sha256 object among).1.2 := by
  intro now
  have hkept : now.PlanExact sha256 object :=
    Run.inv_of_each (I := fun store => store.PlanExact sha256 object)
      (fun _ e h hc => planExact_step h e hc) (planExact_of_none hstart) hes
  have hthis : Exact sha256 object now (now.planFor sha256 object among) :=
    planExact_share hkept among
  have hfresh : Exact sha256 object now ({ now with plan := none }.planFor sha256 object among) :=
    (planExact_share (planExact_of_none rfl) among).of_same rfl rfl rfl rfl rfl
  exact perm_of_exact hthis hfresh ((planFor_among among).trans (planFor_among among).symm)

end Runs

/-! ## The manifest of a song goes

`aaaa` has a song and its manifest, and one copy of the song is to be kept, by `bbbb`. It looks at
its share, lets go of the manifest, and looks again: what it had that was `bbbb`'s to keep it says
so of yet, and it knows no longer what the song is made of. -/

/-- `aaaa` looks at its share, and lets go of the manifest. -/
def songDropped : List PlanEvent :=
  [.share [asc "aaaa", asc "bbbb"], .drop Tending.songManifest]

/-- `aaaa` looks at its share, and lets go of the song. -/
def songLeft : List PlanEvent :=
  [.share [asc "aaaa", asc "bbbb"], .drop Tending.songBlock]

/-- **With the manifest gone the plan that is kept is not the plan there would be.** -/
theorem share_fails : ¬ ∀ (sha256 : Str → Str) (object : Str → Option (ℕ × List Str))
    (store : Keeper) (es : List PlanEvent) (among : List Str), store.plan = none →
    let now := Run.run (planStep sha256 object) store es
    (now.share sha256 object among).1.1.Perm
        ({ now with plan := none }.share sha256 object among).1.1 ∧
      (now.share sha256 object among).1.2.Perm
        ({ now with plan := none }.share sha256 object among).1.2 := by
  intro h
  have hover := (h Tending.rankSha256 Tending.songObject (Tending.keeperOfTwo (asc "aaaa"))
    songDropped [asc "aaaa", asc "bbbb"] rfl).2.length_eq
  revert hover
  decide +kernel

theorem share_kept_songLeft :
    let among := [asc "aaaa", asc "bbbb"]
    let now := Run.run (planStep Tending.rankSha256 Tending.songObject)
      (Tending.keeperOfTwo (asc "aaaa")) songLeft
    (now.share Tending.rankSha256 Tending.songObject among).1.1.Perm
        ({ now with plan := none }.share Tending.rankSha256 Tending.songObject among).1.1 ∧
      (now.share Tending.rankSha256 Tending.songObject among).1.2.Perm
        ({ now with plan := none }.share Tending.rankSha256 Tending.songObject among).1.2 := by
  refine @share_kept Tending.rankSha256 Tending.songObject (Tending.keeperOfTwo (asc "aaaa")) rfl
    songLeft ?_ _
  refine ⟨trivial, Or.inr (fun p e _ _ => ?_), trivial⟩
  decide +kernel

end Keeper

end ChrysaLisp
