import ChrysaLisp.Library.Run
import ChrysaLisp.Storage.Mesh
import ChrysaLisp.Storage.Share
import Mathlib.Data.Fintype.Basic
import Mathlib.Data.Finset.Max
import Mathlib.Logic.Function.Basic

set_option autoImplicit false

/-! # Tenders, and the blocks they let go of

Any number of members, each with a store and a tender. A look of a tender counts who is there, asks
its own service for its share among them, asks each peer which of the blocks that are others' to
keep it has, and tells its service to drop those that every one of the others says it has. Each of
these is an event of its own, so an answer may be as old as it likes by the time it is acted on,
and a drop may come as late as it likes after it was sent; and between any two of them the members,
the path map, the pins and the blocks of any store may change.

A block some member holds is not let go of by all (`held_of_counted`), if whoever asks about it
with a mind to let go of it comes, in the block's order, after one of those it counts on: the first
in that order of those that have had it never lets go of it. It does come after them where it is
itself among those it counts as there. A member that is retired in its own view is not, and it and
another may let go of a block each for the other (`dropped_by_both`). -/

namespace ChrysaLisp

/-- A tender's question, which of these blocks the peers have, and the answers there are to it. -/
structure Ask (ι : Type) where
  asker : ι
  peers : List ι
  /-- what is others' to keep, with who they are -/
  extras : List (Str × List Str)
  answers : ι → Option (List Bool)
  done : Bool

/-- Members with their stores, who each tender counts as there, what has been asked, and the drops
    that are on their way to the services of their own tenders. -/
structure Tending (ι : Type) where
  stores : ι → Keeper
  there : ι → List Str
  asks : List (Ask ι)
  drops : List (ι × Str)

/-- What can happen among tenders. -/
inductive TendEvent (ι : Type) where
  /-- who the members of a store are, and who is retired, is now so -/
  | join (i : ι) (members retired : List Str)
  | paths (i : ι) (map : PathMap)
  | pin (i : ι) (pins : List Str)
  | put (i : ι) (room : Bool) (data : Str)
  /-- a tender counts who is there, of those it has heard of late -/
  | look (i : ι) (heard : List Str)
  | share (i : ι) (peers : List ι)
  | answer (ask : ℕ) (j : ι)
  | decide (ask : ℕ)
  | drop (place : ℕ)

/-- `+share_most`: no more than so many at a time. -/
def shareMost : ℕ := 64

namespace Ask

variable {ι : Type} (ask : Ask ι) (member : ι → Str)

/-- Did the peer that is this holder say that it has the block at a place of the question. -/
def has (place : ℕ) (holder : Str) : Bool :=
  match ask.peers.find? (fun j => decide (member j = holder)) with
  | some j => decide (((ask.answers j).bind (fun has => has[place]?)) = some true)
  | none => false

/-- The blocks that every one of their holders has. -/
def lets : List Str :=
  (ask.extras.zipIdx.filter (fun x => x.1.2.all (ask.has member x.2))).map (fun x => x.1.1)

/-- `storage_type_has`: the service of a peer says which of the blocks it has. -/
def answer [DecidableEq ι] (j : ι) (store : Keeper) : Ask ι :=
  let told := ask.extras.map (fun x => store.blockHas x.1)
  { ask with answers := Function.update ask.answers j (some told) }

variable {ask member}

theorem has_imp {place : ℕ} {holder : Str} (h : ask.has member place holder = true) :
    ∃ j told, member j = holder ∧ ask.answers j = some told ∧ told[place]? = some true := by
  unfold has at h
  split at h
  next j hj =>
    obtain ⟨told, htold, hplace⟩ := Option.bind_eq_some_iff.1 (of_decide_eq_true h)
    exact ⟨j, told, by simpa using List.find?_some hj, htold, hplace⟩
  · exact absurd h (by simp)

theorem mem_lets {name : Str} (h : name ∈ ask.lets member) :
    ∃ (place : ℕ) (holders : List Str), ask.extras[place]? = some (name, holders) ∧
      ∀ holder ∈ holders, ask.has member place holder = true := by
  obtain ⟨⟨⟨n, holders⟩, place⟩, hmem, rfl⟩ := List.mem_map.1 h
  obtain ⟨hidx, hall⟩ := List.mem_filter.1 hmem
  exact ⟨place, holders, List.mem_zipIdx_iff_getElem?.1 hidx, fun holder hh =>
    List.all_eq_true.1 hall holder hh⟩

end Ask

namespace Tending

variable {ι : Type} [DecidableEq ι] (sha256 : Str → Str) (object : Str → Option (ℕ × List Str))

/-- One store is now so. -/
def setStore (t : Tending ι) (i : ι) (store : Keeper) : Tending ι :=
  { t with stores := Function.update t.stores i store }

/-- What each member is called. -/
def member (t : Tending ι) (i : ι) : Str := (t.stores i).member

/-- The question a tender asks of its peers, of its share. -/
def ask (t : Tending ι) (i : ι) (peers : List ι) : Ask ι where
  asker := i
  peers := peers
  extras := ((t.stores i).share sha256 object (t.there i)).1.2.take shareMost
  answers := fun _ => none
  done := false

/-- What an event does. -/
def step (t : Tending ι) : TendEvent ι → Tending ι
  | .join i members retired =>
      t.setStore i { t.stores i with members := members, retired := retired }
  | .paths i map => t.setStore i { t.stores i with map := map, plan := none }
  | .pin i pins => t.setStore i { t.stores i with pins := pins, plan := none }
  | .put i room data => t.setStore i ((t.stores i).blockPut sha256 object room data)
  | .look i heard =>
      let there := ((t.stores i).member :: heard).filter
        (fun who => decide (who ∈ (t.stores i).memberList))
      { t with there := Function.update t.there i there }
  | .share i peers =>
      let asked := t.setStore i ((t.stores i).share sha256 object (t.there i)).2
      { asked with asks := t.asks ++ [t.ask sha256 object i peers] }
  | .answer a j =>
      match t.asks[a]? with
      | some ask =>
          if j ∈ ask.peers ∧ ask.answers j = none ∧ ask.done = false then
            { t with asks := t.asks.set a (ask.answer j (t.stores j)) }
          else t
      | none => t
  | .decide a =>
      match t.asks[a]? with
      | some ask =>
          if ask.done then t
          else
            { t with
              asks := t.asks.set a { ask with done := true }
              drops := t.drops ++ (ask.lets t.member).map (fun name => (ask.asker, name)) }
      | none => t
  | .drop d =>
      match t.drops[d]? with
      | some (i, name) =>
          { t.setStore i ((t.stores i).blockDrop name) with drops := t.drops.eraseIdx d }
      | none => t

/-- As it starts: nothing is asked, nothing is to be dropped, and no plan is made. -/
structure Started (t : Tending ι) : Prop where
  plan : ∀ i, (t.stores i).plan = none
  asks : t.asks = []
  drops : t.drops = []

/-- The block is one of the object of a live path, as the store has it. -/
def InMap (store : Keeper) (name : Str) : Prop :=
  ∃ path entry made, store.map.lookup path = some entry ∧ entry.deleted = false ∧
    object entry.hash = some made ∧ name ∈ made.2

/-- **Who asks comes after one it counts on.** A member that asks for its share is itself among
    those it counts as there, and none of those has its rank for the block; or, if the block is
    of those it would let go of, one of those that are to keep it comes before it in the block's
    order. -/
def Counted (name : Str) (t : Tending ι) : TendEvent ι → Prop
  | .share i peers =>
      (t.member i ∈ t.there i ∧ ∀ who ∈ t.there i,
        sha256 (name ++ who) = sha256 (name ++ t.member i) → who = t.member i) ∨
      ∀ holders, (name, holders) ∈ (t.ask sha256 object i peers).extras →
        ∃ who ∈ holders, sha256 (name ++ t.member i) < sha256 (name ++ who)
  | _ => True

/-- Some member holds the block. -/
def Held (t : Tending ι) (name : Str) : Prop := ∃ i, name ∈ (t.stores i).held

/-! ## The first of those that have had a block -/

/-- The rank of a member for a block. -/
def rank (name : Str) (t : Tending ι) (i : ι) : Str := sha256 (name ++ t.member i)

/-- What is so of a question: whoever asks comes after one of those it counts on, and no peer that
    said it has the block comes after the first. -/
structure AskSound (name : Str) (t : Tending ι) (top : ι) (ask : Ask ι) : Prop where
  counted : ∀ holders, (name, holders) ∈ ask.extras →
    ∃ who ∈ holders, rank sha256 name t ask.asker < sha256 (name ++ who)
  answered : ∀ j (told : List Bool) (place : ℕ) holders, ask.answers j = some told →
    ask.extras[place]? = some (name, holders) → told[place]? = some true →
    rank sha256 name t j ≤ rank sha256 name t top

/-- `top` holds the block, comes first in its order of all that hold it or have said they do, and
    is told to drop it by no one. -/
structure Top (name : Str) (t : Tending ι) (top : ι) : Prop where
  plan : ∀ i, (t.stores i).Sound sha256
  holds : name ∈ (t.stores top).held
  first : ∀ i, name ∈ (t.stores i).held → rank sha256 name t i ≤ rank sha256 name t top
  asks : ∀ ask ∈ t.asks, AskSound sha256 name t top ask
  drops : ∀ i, (i, name) ∈ t.drops → rank sha256 name t i < rank sha256 name t top

variable {sha256 object}

@[simp] theorem setStore_self (t : Tending ι) (i : ι) (s : Keeper) :
    (t.setStore i s).stores i = s := by
  simp [setStore]

theorem setStore_ne (t : Tending ι) {i j : ι} (s : Keeper) (h : j ≠ i) :
    (t.setStore i s).stores j = t.stores j := by
  simp [setStore, h]

theorem member_setStore (t : Tending ι) {i : ι} {s : Keeper}
    (hs : s.member = (t.stores i).member) : (t.setStore i s).member = t.member := by
  funext j
  unfold member
  by_cases hj : j = i
  · subst hj
    rw [setStore_self, hs]
  · rw [setStore_ne t s hj]

omit [DecidableEq ι] in
/-- What is said of a question is of the names of the members alone. -/
theorem AskSound.congr {name : Str} {t t' : Tending ι} {top : ι} {ask : Ask ι}
    (h : AskSound sha256 name t top ask) (hm : t'.member = t.member) :
    AskSound sha256 name t' top ask := by
  have hr : rank sha256 name t' = rank sha256 name t := by
    funext i
    unfold rank
    rw [hm]
  exact ⟨by rw [hr]; exact h.counted, by rw [hr]; exact h.answered⟩

omit [DecidableEq ι] in
theorem AskSound.mono {name : Str} {t : Tending ι} {top top' : ι} {ask : Ask ι}
    (h : AskSound sha256 name t top ask)
    (hle : rank sha256 name t top ≤ rank sha256 name t top') :
    AskSound sha256 name t top' ask :=
  ⟨h.counted, fun j told place holders ha hp hs => (h.answered j told place holders ha hp hs).trans
    hle⟩

/-- A store that is now so, its name as it was and its plan sound: the first is still the first, if
    what the store holds of the block it held before, and the first has not lost it. -/
theorem Top.setStore {name : Str} {t : Tending ι} {top i : ι} (h : Top sha256 name t top)
    {s : Keeper} (hm : s.member = (t.stores i).member) (hs : s.Sound sha256)
    (hheld : name ∈ s.held → name ∈ (t.stores i).held) (htop : i = top → name ∈ s.held) :
    Top sha256 name (t.setStore i s) top := by
  have hmember := member_setStore t hm
  have hr : rank sha256 name (t.setStore i s) = rank sha256 name t := by
    funext j
    unfold rank
    rw [hmember]
  refine ⟨fun j => ?_, ?_, fun j hj => ?_, fun ask ha => (h.asks ask ha).congr hmember, ?_⟩
  · by_cases hj : j = i
    · subst hj
      rwa [setStore_self]
    · rw [setStore_ne t s hj]
      exact h.plan j
  · by_cases hj : top = i
    · subst hj
      rw [setStore_self]
      exact htop rfl
    · rw [setStore_ne t s hj]
      exact h.holds
  · rw [hr]
    by_cases hji : j = i
    · subst hji
      rw [setStore_self] at hj
      exact h.first j (hheld hj)
    · rw [setStore_ne t s hji] at hj
      exact h.first j hj
  · rw [hr]
    exact h.drops

omit [DecidableEq ι] in
/-- A question that is asked is sound, if who asks is counted. -/
theorem askSound_ask {name : Str} {t : Tending ι} {top i : ι} {peers : List ι}
    (hplan : (t.stores i).Sound sha256) (hc : Counted sha256 object name t (.share i peers)) :
    AskSound sha256 name t top (t.ask sha256 object i peers) := by
  refine ⟨fun holders hx => ?_, fun j told place holders ha => absurd ha (by simp [ask])⟩
  rcases hc with ⟨hme, htie⟩ | hc
  · obtain ⟨hne, hnot, n, rfl⟩ := Keeper.share_extras hplan (List.mem_of_mem_take hx)
    obtain ⟨who, hwho⟩ := List.exists_mem_of_ne_nil _ hne
    exact ⟨who, hwho, outranked_of_mem hme htie hnot hwho⟩
  · exact hc holders hx

/-- A block that is put: whoever now has it is the first if it comes before the first there was. -/
theorem Top.put {name : Str} {t : Tending ι} {top i : ι} (h : Top sha256 name t top) (room : Bool)
    (data : Str) :
    ∃ top', Top sha256 name (t.setStore i ((t.stores i).blockPut sha256 object room data)) top' := by
  have hmember : ((t.stores i).blockPut sha256 object room data).member = (t.stores i).member := by
    unfold Keeper.blockPut
    simp only
    split
    · rfl
    · split <;> rfl
  have hsub : ∀ n ∈ (t.stores i).held, n ∈ ((t.stores i).blockPut sha256 object room data).held := by
    intro n hn
    unfold Keeper.blockPut
    simp only
    split
    · exact hn
    · split
      · exact mem_fsetInsert.2 (Or.inl hn)
      · exact hn
  have hsound : ((t.stores i).blockPut sha256 object room data).Sound sha256 :=
    Keeper.sound_blockPut (h.plan i) room data
  by_cases hheld : name ∈ ((t.stores i).blockPut sha256 object room data).held →
      name ∈ (t.stores i).held
  · exact ⟨top, h.setStore hmember hsound hheld (fun he => hsub _ (he ▸ h.holds))⟩
  push Not at hheld
  have hms := member_setStore t (i := i) hmember
  set t' := t.setStore i ((t.stores i).blockPut sha256 object room data) with ht'
  have hr : rank sha256 name t' = rank sha256 name t := by
    funext j
    unfold rank
    rw [hms]
  have hplan : ∀ j, (t'.stores j).Sound sha256 := by
    intro j
    by_cases hj : j = i
    · subst hj
      rw [ht', setStore_self]
      exact hsound
    · rw [ht', setStore_ne t _ hj]
      exact h.plan j
  have hfirst : ∀ j, name ∈ (t'.stores j).held → j = i ∨
      rank sha256 name t j ≤ rank sha256 name t top := by
    intro j hj
    by_cases hji : j = i
    · exact Or.inl hji
    · rw [ht', setStore_ne t _ hji] at hj
      exact Or.inr (h.first j hj)
  rcases le_total (rank sha256 name t i) (rank sha256 name t top) with hle | hle
  · have htop : top ≠ i := fun he => hheld.2 (he ▸ h.holds)
    refine ⟨top, hplan, ?_, fun j hj => ?_, fun ask ha => (h.asks ask ha).congr hms, ?_⟩
    · rw [ht', setStore_ne t _ htop]
      exact h.holds
    · rw [hr]
      rcases hfirst j hj with rfl | hj
      · exact hle
      · exact hj
    · rw [hr]
      exact h.drops
  · refine ⟨i, hplan, ?_, fun j hj => ?_, fun ask ha => ((h.asks ask ha).mono hle).congr hms, ?_⟩
    · rw [ht', setStore_self]
      exact hheld.1
    · rw [hr]
      rcases hfirst j hj with rfl | hj
      · exact le_rfl
      · exact hj.trans hle
    · rw [hr]
      exact fun j hj => (h.drops j hj).trans_le hle

/-- An answer that a block is had is of one that holds it, and so no later than the first. -/
theorem askSound_answer {name : Str} {t : Tending ι} {top : ι} (h : Top sha256 name t top)
    {ask : Ask ι} (ha : ask ∈ t.asks) (j : ι) :
    AskSound sha256 name t top (ask.answer j (t.stores j)) := by
  have hask := h.asks ask ha
  refine ⟨hask.counted, fun k told place holders hk hp hs => ?_⟩
  by_cases hkj : k = j
  · subst hkj
    simp only [Ask.answer, Function.update_self, Option.some.injEq] at hk
    subst hk
    rw [List.getElem?_map] at hs
    have hp' : ask.extras[place]? = some (name, holders) := hp
    rw [hp'] at hs
    simp only [Option.map_some, Option.some.injEq, Keeper.blockHas, decide_eq_true_eq] at hs
    exact h.first k hs
  · simp only [Ask.answer, ne_eq, hkj, not_false_eq_true, Function.update_of_ne] at hk
    exact hask.answered k told place holders hk hp hs

omit [DecidableEq ι] in
/-- What is decided: whoever is to let go of the block comes after one that said it has it. -/
theorem rank_lt_of_lets {name : Str} {t : Tending ι} {top : ι} {ask : Ask ι}
    (h : AskSound sha256 name t top ask) (hl : name ∈ ask.lets t.member) :
    rank sha256 name t ask.asker < rank sha256 name t top := by
  obtain ⟨place, holders, hp, hall⟩ := Ask.mem_lets hl
  obtain ⟨who, hwho, hlt⟩ := h.counted holders (List.mem_of_getElem? hp)
  obtain ⟨j, told, rfl, ha, hs⟩ := Ask.has_imp (hall who hwho)
  exact hlt.trans_le (h.answered j told place holders ha hp hs)

theorem top_step {name : Str} {t : Tending ι} {top : ι} (h : Top sha256 name t top)
    (e : TendEvent ι) (hc : Counted sha256 object name t e) :
    ∃ top', Top sha256 name (t.step sha256 object e) top' := by
  cases e with
  | join i members retired =>
      refine ⟨top, h.setStore rfl (h.plan i) id (fun he => he ▸ h.holds)⟩
  | paths i map =>
      exact ⟨top, h.setStore rfl (fun p hp => absurd hp (by simp)) id (fun he => he ▸ h.holds)⟩
  | pin i pins =>
      exact ⟨top, h.setStore rfl (fun p hp => absurd hp (by simp)) id (fun he => he ▸ h.holds)⟩
  | put i room data => exact h.put room data
  | look i heard =>
      exact ⟨top, h.plan, h.holds, h.first, fun ask ha => (h.asks ask ha).congr rfl, h.drops⟩
  | share i peers =>
      have hset := h.setStore (i := i) (s := ((t.stores i).share sha256 object (t.there i)).2) rfl
        (Keeper.sound_share (h.plan i) _) id (fun he => he ▸ h.holds)
      refine ⟨top, hset.plan, hset.holds, hset.first, fun ask ha => ?_, hset.drops⟩
      rcases List.mem_append.1 ha with ha | ha
      · exact (hset.asks ask ha).congr rfl
      · rw [List.mem_singleton.1 ha]
        refine (askSound_ask (h.plan i) hc).congr ?_
        exact member_setStore t rfl
  | answer a j =>
      simp only [step]
      split
      next ask hask =>
        split
        · refine ⟨top, h.plan, h.holds, h.first, fun ask' ha' => ?_, h.drops⟩
          rcases List.mem_or_eq_of_mem_set ha' with ha' | rfl
          · exact (h.asks ask' ha').congr rfl
          · exact (askSound_answer h (List.mem_of_getElem? hask) j).congr rfl
        · exact ⟨top, h⟩
      · exact ⟨top, h⟩
  | decide a =>
      simp only [step]
      split
      next ask hask =>
        split
        · exact ⟨top, h⟩
        · have hsound := h.asks ask (List.mem_of_getElem? hask)
          refine ⟨top, h.plan, h.holds, h.first, fun ask' ha' => ?_, fun i hi => ?_⟩
          · rcases List.mem_or_eq_of_mem_set ha' with ha' | rfl
            · exact (h.asks ask' ha').congr rfl
            · exact ⟨hsound.counted, hsound.answered⟩
          · rcases List.mem_append.1 hi with hi | hi
            · exact h.drops i hi
            · obtain ⟨n, hn, he⟩ := List.mem_map.1 hi
              obtain ⟨rfl, rfl⟩ := Prod.mk.injEq .. ▸ he
              have hlt : rank sha256 n t ask.asker < rank sha256 n t top :=
                rank_lt_of_lets hsound hn
              exact hlt
      · exact ⟨top, h⟩
  | drop d =>
      simp only [step]
      split
      next i n hd =>
        have hset : Top sha256 name (t.setStore i ((t.stores i).blockDrop n)) top := by
          refine h.setStore rfl (Keeper.sound_blockDrop (h.plan i) n)
            (fun hn => (mem_fsetErase.1 hn).1) (fun he => ?_)
          subst he
          -- the first is told to drop other blocks, but not this one
          refine mem_fsetErase.2 ⟨h.holds, fun hn => ?_⟩
          subst hn
          exact absurd (h.drops i (List.mem_of_getElem? hd)) (lt_irrefl _)
        refine ⟨top, hset.plan, hset.holds, hset.first, fun ask ha => (hset.asks ask ha).congr rfl,
          fun j hj => ?_⟩
        exact hset.drops j (List.mem_of_mem_eraseIdx hj)
      · exact ⟨top, h⟩

/-- **A block is not let go of by all**, of any number of members, whatever each thinks of who the
    members are and however late the answers and the drops are, if whoever asks comes after one it
    counts on. -/
theorem held_of_counted [Fintype ι] {name : Str} {t : Tending ι} (hstart : t.Started)
    (hheld : t.Held name) {es : List (TendEvent ι)}
    (hc : Run.Each (step sha256 object) (Counted sha256 object name) t es) :
    (Run.run (step sha256 object) t es).Held name := by
  classical
  obtain ⟨i, hi⟩ := hheld
  obtain ⟨top, htop, hmax⟩ := Finset.exists_max_image
    (Finset.univ.filter (fun i => name ∈ (t.stores i).held)) (rank sha256 name t)
    ⟨i, Finset.mem_filter.2 ⟨Finset.mem_univ i, hi⟩⟩
  have hfirst : ∃ top, Top sha256 name t top := by
    refine ⟨top, fun j p hp => ?_, (Finset.mem_filter.1 htop).2, fun j hj => ?_, ?_, ?_⟩
    · rw [hstart.plan] at hp
      exact absurd hp (by simp)
    · exact hmax j (Finset.mem_filter.2 ⟨Finset.mem_univ j, hj⟩)
    · rw [hstart.asks]
      exact fun ask ha => absurd ha List.not_mem_nil
    · rw [hstart.drops]
      exact fun j hj => absurd hj List.not_mem_nil
  obtain ⟨last, hlast⟩ := Run.inv_of_each (I := fun t => ∃ top, Top sha256 name t top)
    (fun _ e ⟨_, h⟩ hc => top_step h e hc) hfirst hc
  exact ⟨last, hlast.holds⟩

/-! ## Two members, one of them retired where it is

Both have `a song`, of which one copy is to be kept, and `bbbb` comes first in the order of its
block. It is retired, and has been told so, and `aaaa` has not heard of it. -/

/-- The name of the block that is `a song`. -/
def songBlock : Str := Mesh.songSha256 (asc "a song")

/-- The SHA-256 of the block's name with each member after it, and of the song. -/
def rankSha256 (data : Str) : Str :=
  if data = songBlock ++ asc "aaaa" then
    [58, 5, 153, 220, 0, 79, 220, 175, 207, 190, 161, 140, 94, 88, 93, 73,
      81, 51, 127, 88, 12, 201, 49, 253, 233, 229, 91, 137, 22, 36, 38, 208]
  else if data = songBlock ++ asc "bbbb" then
    [118, 204, 166, 51, 156, 5, 22, 16, 201, 138, 0, 19, 169, 35, 158, 40,
      170, 172, 237, 2, 184, 87, 204, 41, 127, 123, 48, 190, 41, 204, 234, 215]
  else Mesh.songSha256 data

/-- The name of the manifest of `a song`. -/
def songManifest : Str := Mesh.songSha256 (storeManifestText 6 [songBlock])

/-- What the manifest of `a song` says. -/
def songObject (hash : Str) : Option (ℕ × List Str) :=
  if hash = songManifest then some (6, [songBlock]) else none

/-- The path `song`, which is `a song`, of which one copy is to be kept. -/
def songPath : Entry where
  path := asc "song"
  hash := songManifest
  bytes := 6
  vv := [(asc "aaaa", 1)]
  writer := asc "aaaa"
  seen := [asc "aaaa", asc "bbbb"]
  deleted := false
  copies := 1

/-- A member of two that has the song. -/
def keeperOfTwo (member : Str) : Keeper where
  toStore := { Mesh.storeOfTwo member with map := PathMap.put ∅ songPath }
  copies := 3
  pins := []
  held := [songManifest, songBlock]
  plan := none

/-- The two. -/
def tendingOfTwo : Tending (Fin 2) where
  stores i := keeperOfTwo (if i = 0 then asc "aaaa" else asc "bbbb")
  there _ := []
  asks := []
  drops := []

/-- Each counts the other as there, asks it, and lets go of what it may. -/
def lookBoth : List (TendEvent (Fin 2)) :=
  [.look 0 [asc "bbbb"], .look 1 [asc "aaaa"], .share 0 [1], .share 1 [0], .answer 0 1,
    .answer 1 0, .decide 0, .decide 1, .drop 0, .drop 0]

theorem started_tendingOfTwo : tendingOfTwo.Started := ⟨fun _ => rfl, rfl, rfl⟩

/-- A block of the song is in the path map at every member, whatever event comes. -/
def InMaps (object : Str → Option (ℕ × List Str)) (name : Str) (t : Tending ι)
    (_ : TendEvent ι) : Prop :=
  ∀ i, InMap object (t.stores i) name

/-- **Each lets go of it for the other.** -/
theorem dropped_by_both : ¬ ∀ (t : Tending (Fin 2)) (es : List (TendEvent (Fin 2))) (name : Str),
    t.Started → t.Held name → Run.Each (step rankSha256 songObject) (InMaps songObject name) t es →
    (Run.run (step rankSha256 songObject) t es).Held name := by
  intro h
  have hmap : ∀ t : Tending (Fin 2), (∀ i, (t.stores i).map.lookup (asc "song") = some songPath) →
      ∀ e, InMaps songObject songBlock t e :=
    fun t ht _ i => ⟨asc "song", songPath, (6, [songBlock]), ht i, rfl, by decide +kernel,
      List.mem_singleton.2 rfl⟩
  have heach : Run.Each (step rankSha256 songObject) (InMaps songObject songBlock) tendingOfTwo
      (.join 1 [asc "aaaa", asc "bbbb"] [asc "bbbb"] :: lookBoth) := by
    refine ⟨hmap _ ?_ _, hmap _ ?_ _, hmap _ ?_ _, hmap _ ?_ _, hmap _ ?_ _, hmap _ ?_ _,
      hmap _ ?_ _, hmap _ ?_ _, hmap _ ?_ _, hmap _ ?_ _, hmap _ ?_ _, trivial⟩
    all_goals decide +kernel
  have hheld := h tendingOfTwo _ songBlock started_tendingOfTwo ⟨0, by decide +kernel⟩ heach
  obtain ⟨i, hi⟩ := hheld
  have hnone : ∀ i, songBlock ∉ ((Run.run (step rankSha256 songObject) tendingOfTwo
      (.join 1 [asc "aaaa", asc "bbbb"] [asc "bbbb"] :: lookBoth)).stores i).held := by
    decide +kernel
  exact hnone i hi

theorem held_lookBoth :
    (Run.run (step rankSha256 songObject) tendingOfTwo lookBoth).Held songBlock := by
  refine held_of_counted started_tendingOfTwo ⟨0, by decide +kernel⟩ ?_
  refine ⟨trivial, trivial, Or.inl ?_, Or.inl ?_, trivial, trivial, trivial, trivial, trivial,
    trivial, trivial⟩
  all_goals decide +kernel

end Tending

end ChrysaLisp
