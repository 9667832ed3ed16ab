import ChrysaLisp.Task.Jobs
import Mathlib.Data.List.Nodup
import Mathlib.Data.List.Perm.Basic

set_option autoImplicit false

/-! # No job is lost or counted twice

What is out is on the queue or in the hands of a child (`Jobs.held`). A job goes to a child, and back from
one that is told to go, with what is out the same (`Moved`); an answer, a failure or a clearing takes it
out, and what is let go of is then done with (`World.Kept`).

A child that is not up has no job, and a kernel answers for a child that is not up
(`Jobs.Sound`), so the word that one is up never takes a job out of its hands. -/

namespace ChrysaLisp.Task

open Run

/-! ## The entries of a farm -/

section Farm

variable {farm : List (ℤ × Val)} {key : ℤ} {val val' : Val}

theorem mem_of_find (h : find farm key = some val) : (key, val) ∈ farm := by
  unfold find at h
  obtain ⟨e, he, rfl⟩ := Option.map_eq_some_iff.mp h
  have hkey := List.find?_some he
  rw [← of_decide_eq_true hkey]
  exact List.mem_of_find?_eq_some he

/-- The entry of a key, and those before and after it. -/
theorem split_of_mem (hkeys : (farm.map Prod.fst).Nodup) (h : (key, val) ∈ farm) :
    ∃ l r, farm = l ++ (key, val) :: r ∧ (∀ e ∈ l, e.1 ≠ key) ∧ ∀ e ∈ r, e.1 ≠ key := by
  obtain ⟨l, r, rfl⟩ := List.append_of_mem h
  rw [List.map_append, List.map_cons, List.nodup_append, List.nodup_cons] at hkeys
  obtain ⟨-, ⟨hr, -⟩, hl⟩ := hkeys
  refine ⟨l, r, rfl, fun e he => ?_, fun e he heq => hr ?_⟩
  · exact hl e.1 (List.mem_map_of_mem he) key List.mem_cons_self
  · show key ∈ r.map Prod.fst
    rw [← heq]
    exact List.mem_map_of_mem he

theorem setVal_of_ne (val : Val) (h : ∀ e ∈ farm, e.1 ≠ key) : setVal key val farm = farm := by
  have hid : farm.map id = farm := List.map_id farm
  unfold setVal
  conv_rhs => rw [← hid]
  exact List.map_congr_left (fun e he => if_neg (h e he))

theorem setVal_split {l r : List (ℤ × Val)} (hl : ∀ e ∈ l, e.1 ≠ key) (hr : ∀ e ∈ r, e.1 ≠ key) :
    setVal key val' (l ++ (key, val) :: r) = l ++ (key, val') :: r := by
  have hleft := setVal_of_ne val' hl
  have hright := setVal_of_ne val' hr
  unfold setVal at *
  rw [List.map_append, List.map_cons, hleft, hright, if_pos rfl]

@[simp] theorem map_fst_setVal (key : ℤ) (val : Val) (farm : List (ℤ × Val)) :
    (setVal key val farm).map Prod.fst = farm.map Prod.fst := by
  unfold setVal
  rw [List.map_map]
  refine List.map_congr_left (fun e _ => ?_)
  by_cases he : e.1 = key
  · simp [he]
  · simp [he]

/-- The last in place of the one that goes. -/
theorem erase_split {l r : List (ℤ × Val)} (hl : ∀ e ∈ l, e.1 ≠ key) :
    (erase key (l ++ (key, val) :: r)).Perm (l ++ r) := by
  have hfind : (l ++ (key, val) :: r).findIdx? (fun e => decide (e.1 = key)) = some l.length := by
    rw [List.findIdx?_append, List.findIdx?_eq_none_iff.mpr (fun e he => decide_eq_false (hl e he))]
    simp [List.findIdx?_cons]
  unfold erase
  rw [hfind]
  rcases List.eq_nil_or_concat r with rfl | ⟨r, last, rfl⟩
  · simp
  · rw [List.concat_eq_append]
    have hlast : (l ++ (key, val) :: (r ++ [last])).getLast? = some last := by
      rw [← List.cons_append, ← List.append_assoc, List.getLast?_concat]
    rw [hlast]
    have hset : (l ++ (key, val) :: (r ++ [last])).set l.length last = l ++ last :: (r ++ [last]) := by
      simp
    simp only [hset]
    have hdrop : (l ++ last :: (r ++ [last])).dropLast = l ++ last :: r := by
      rw [← List.cons_append, ← List.append_assoc, List.dropLast_concat]
    rw [hdrop]
    exact (List.perm_append_singleton last r).symm.append_left l

theorem mem_setVal (hkeys : (farm.map Prod.fst).Nodup) (h : (key, val) ∈ farm) {e : ℤ × Val} :
    e ∈ setVal key val' farm ↔ e = (key, val') ∨ e ∈ farm ∧ e.1 ≠ key := by
  obtain ⟨l, r, rfl, hl, hr⟩ := split_of_mem hkeys h
  rw [setVal_split hl hr]
  simp only [List.mem_append, List.mem_cons]
  constructor
  · rintro (hmem | rfl | hmem)
    · exact Or.inr ⟨Or.inl hmem, hl e hmem⟩
    · exact Or.inl rfl
    · exact Or.inr ⟨Or.inr (Or.inr hmem), hr e hmem⟩
  · rintro (rfl | ⟨hmem | rfl | hmem, hne⟩)
    · exact Or.inr (Or.inl rfl)
    · exact Or.inl hmem
    · exact absurd rfl hne
    · exact Or.inr (Or.inr hmem)

theorem mem_erase (hkeys : (farm.map Prod.fst).Nodup) (h : (key, val) ∈ farm) {e : ℤ × Val} :
    e ∈ erase key farm ↔ e ∈ farm ∧ e.1 ≠ key := by
  obtain ⟨l, r, rfl, hl, hr⟩ := split_of_mem hkeys h
  rw [(erase_split hl).mem_iff]
  simp only [List.mem_append, List.mem_cons]
  constructor
  · rintro (hmem | hmem)
    · exact ⟨Or.inl hmem, hl e hmem⟩
    · exact ⟨Or.inr (Or.inr hmem), hr e hmem⟩
  · rintro ⟨hmem | rfl | hmem, hne⟩
    · exact Or.inl hmem
    · exact absurd rfl hne
    · exact Or.inr hmem

theorem nodup_erase (hkeys : (farm.map Prod.fst).Nodup) (h : (key, val) ∈ farm) :
    ((erase key farm).map Prod.fst).Nodup := by
  obtain ⟨l, r, rfl, hl, hr⟩ := split_of_mem hkeys h
  rw [((erase_split hl).map Prod.fst).nodup_iff]
  refine hkeys.sublist (List.Sublist.map _ ?_)
  exact (List.sublist_cons_self _ _).append_left l

theorem hands_append (l r : List (ℤ × Val)) : hands (l ++ r) = hands l ++ hands r := List.filterMap_append

theorem hands_cons (e : ℤ × Val) (r : List (ℤ × Val)) : hands (e :: r) = e.2.job.toList ++ hands r := by
  unfold hands
  cases hjob : e.2.job with
  | none => simp [hjob]
  | some job => simp [hjob]

/-- What a child had is out of its hands, and what it has now is in them. -/
theorem hands_setVal (val' : Val) (hkeys : (farm.map Prod.fst).Nodup) (h : (key, val) ∈ farm) :
    (val.job.toList ++ hands (setVal key val' farm)).Perm (val'.job.toList ++ hands farm) := by
  obtain ⟨l, r, rfl, hl, hr⟩ := split_of_mem hkeys h
  rw [setVal_split hl hr, hands_append, hands_append, hands_cons, hands_cons]
  refine List.perm_iff_count.mpr (fun job => ?_)
  simp only [List.count_append]
  omega

theorem hands_erase (hkeys : (farm.map Prod.fst).Nodup) (h : (key, val) ∈ farm) :
    (val.job.toList ++ hands (erase key farm)).Perm (hands farm) := by
  obtain ⟨l, r, rfl, hl, hr⟩ := split_of_mem hkeys h
  have herase : (hands (erase key (l ++ (key, val) :: r))).Perm (hands (l ++ r)) :=
    (erase_split hl).filterMap _
  refine (herase.append_left _).trans ?_
  rw [hands_append, hands_append, hands_cons]
  refine List.perm_iff_count.mpr (fun job => ?_)
  simp only [List.count_append]
  omega

end Farm

/-! ## What is kept of a `Jobs` -/

/-- Each key once, none that is yet to come; a child that is not up has no job, and one that a kernel has
    yet to answer for is not up. -/
structure Jobs.Sound (j : Jobs) : Prop where
  keys : (j.farm.map Prod.fst).Nodup
  asked : j.asked.Nodup
  farm_le : ∀ e ∈ j.farm, e.1 ≤ j.key
  asked_le : ∀ key ∈ j.asked, key ≤ j.key
  idle : ∀ e ∈ j.farm, e.2.child = none → e.2.job = none
  waiting : ∀ e ∈ j.farm, e.1 ∈ j.asked → e.2.child = none

/-- Jobs are put in other hands, and only the entry of that key is another. -/
structure Moved (key : ℤ) (j j' : Jobs) : Prop where
  held : j'.held.Perm j.held
  out : j'.out = j.out
  sound : j'.Sound
  others : ∀ e ∈ j.farm, e.1 ≠ key → e ∈ j'.farm

section Moves

variable {j j' : Jobs} {key now : ℤ} {val val' : Val}

theorem dispatch_fields (now : ℤ) (j : Jobs) (key : ℤ) (val : Val) :
    (j.dispatch now key val).out = j.out ∧ (j.dispatch now key val).key = j.key ∧
      (j.dispatch now key val).asked = j.asked ∧
      ∃ val', val'.child = val.child ∧ (j.dispatch now key val).farm = setVal key val' j.farm := by
  unfold Jobs.dispatch
  cases j.queue.getLast? with
  | none => exact ⟨rfl, rfl, rfl, ⟨val.child, none, none⟩, rfl, rfl⟩
  | some job => exact ⟨rfl, rfl, rfl, ⟨val.child, some job, some now⟩, rfl, rfl⟩

/-- The job a child had is out, and the next on the queue is in its hands. -/
theorem dispatch_held (hkeys : (j.farm.map Prod.fst).Nodup) (h : (key, val) ∈ j.farm) (now : ℤ)
    (val' : Val) : (val.job.toList ++ (j.dispatch now key val').held).Perm j.held := by
  unfold Jobs.dispatch Jobs.held
  cases hlast : j.queue.getLast? with
  | none =>
      have hqueue : j.queue = [] := List.getLast?_eq_none_iff.mp hlast
      simp only [hqueue, List.nil_append]
      exact hands_setVal _ hkeys h
  | some job =>
      have hqueue : j.queue.dropLast ++ [job] = j.queue := List.dropLast_append_getLast? job hlast
      have hhands := hands_setVal { val' with job := some job, timestamp := some now } hkeys h
      simp only
      refine List.perm_iff_count.mpr (fun a => ?_)
      have hcount := hhands.count_eq a
      have hcountq := congrArg (List.count a) hqueue
      simp only [List.count_append, Option.toList_some] at hcount hcountq ⊢
      omega

theorem dispatch_sound (h : j.Sound) (hmem : (key, val) ∈ j.farm) (hasked : key ∉ j.asked)
    (hchild : val'.child.isSome) (now : ℤ) : (j.dispatch now key val').Sound := by
  obtain ⟨-, hkey, hask, val'', hchild', hfarm⟩ := dispatch_fields now j key val'
  have hcases : ∀ e ∈ (j.dispatch now key val').farm, e = (key, val'') ∨ e ∈ j.farm ∧ e.1 ≠ key := by
    intro e he
    rw [hfarm] at he
    exact (mem_setVal h.keys hmem).mp he
  rw [← hchild'] at hchild
  refine ⟨?_, hask ▸ h.asked, fun e he => ?_, ?_, fun e he hnone => ?_, fun e he hin => ?_⟩
  · rw [hfarm, map_fst_setVal]
    exact h.keys
  · rw [hkey]
    rcases hcases e he with rfl | ⟨he, -⟩
    · exact h.farm_le (key, val) hmem
    · exact h.farm_le e he
  · rw [hask, hkey]
    exact h.asked_le
  · rcases hcases e he with rfl | ⟨he, -⟩
    · rw [hnone] at hchild
      exact absurd hchild (by simp)
    · exact h.idle e he hnone
  · rw [hask] at hin
    rcases hcases e he with rfl | ⟨he, -⟩
    · exact absurd hin hasked
    · exact h.waiting e he hin

/-- A child that is up, and has nothing to do, is given the next. -/
theorem dispatch_moved (h : j.Sound) (hmem : (key, val) ∈ j.farm) (hup : val.child.isSome)
    (hidle : val.job = none) (now : ℤ) : Moved key j (j.dispatch now key val) := by
  obtain ⟨hout, -, -, val', -, hfarm⟩ := dispatch_fields now j key val
  have hheld := dispatch_held h.keys hmem now val
  rw [hidle, Option.toList_none, List.nil_append] at hheld
  have hasked : key ∉ j.asked := by
    intro hin
    rw [h.waiting _ hmem hin] at hup
    exact absurd hup (by simp)
  refine ⟨hheld, hout, dispatch_sound h hmem hasked hup now, fun e he hne => ?_⟩
  rw [hfarm]
  exact (mem_setVal h.keys hmem).mpr (Or.inr ⟨he, hne⟩)

/-- A child is told to go, and its job is on the queue. -/
theorem stop_spec (hkeys : (j.farm.map Prod.fst).Nodup) (hmem : (key, val) ∈ j.farm) :
    (j.stop key val).held.Perm j.held ∧ (j.stop key val).out = j.out ∧
      (j.stop key val).key = j.key ∧ (j.stop key val).asked = j.asked ∧
      ((j.stop key val).farm.map Prod.fst).Nodup ∧
      ∀ e, e ∈ (j.stop key val).farm ↔ e ∈ j.farm ∧ e.1 ≠ key := by
  unfold Jobs.stop Jobs.destroy
  cases hjob : val.job with
  | none =>
      have hhands := hands_erase hkeys hmem
      rw [hjob, Option.toList_none, List.nil_append] at hhands
      exact ⟨hhands.append_left _, rfl, rfl, rfl, nodup_erase hkeys hmem, fun e => mem_erase hkeys hmem⟩
  | some job =>
      obtain ⟨farm, hfarm⟩ : ∃ farm, farm = setVal key { val with job := none } j.farm := ⟨_, rfl⟩
      have hkeys' : (farm.map Prod.fst).Nodup := by
        rw [hfarm, map_fst_setVal]
        exact hkeys
      have hmem' : (key, { val with job := none }) ∈ farm := by
        rw [hfarm]
        exact (mem_setVal hkeys hmem).mpr (Or.inl rfl)
      have hset := hands_setVal { val with job := none } hkeys hmem
      have herase := hands_erase hkeys' hmem'
      simp only [← hfarm, hjob, Option.toList_some, Option.toList_none, List.nil_append] at hset herase ⊢
      refine ⟨?_, trivial, trivial, trivial, nodup_erase hkeys' hmem', fun e => ?_⟩
      · unfold Jobs.held
        refine List.perm_iff_count.mpr (fun a => ?_)
        have hcount := hset.count_eq a
        have hcount' := herase.count_eq a
        simp only [List.count_append] at hcount ⊢
        omega
      · rw [mem_erase hkeys' hmem', hfarm, mem_setVal hkeys hmem]
        constructor
        · rintro ⟨rfl | hin, hne⟩
          · exact absurd rfl hne
          · exact hin
        · exact fun hin => ⟨Or.inr hin, hin.2⟩

theorem start_sound (h : j.Sound) (now : ℤ) : (j.start now).Sound := by
  have hnew : ∀ e ∈ j.farm, e.1 ≠ j.key + 1 := by
    intro e he
    have := h.farm_le e he
    omega
  have hnewasked : j.key + 1 ∉ j.asked := by
    intro hin
    have := h.asked_le _ hin
    omega
  unfold Jobs.start
  refine ⟨?_, ?_, fun e he => ?_, fun key hin => ?_, fun e he hnone => ?_, fun e he hin => ?_⟩
  · rw [List.map_append, List.nodup_append]
    refine ⟨h.keys, List.nodup_singleton _, fun key hin key' hin' heq => ?_⟩
    obtain ⟨e, he, rfl⟩ := List.mem_map.mp hin
    exact hnew e he (heq.trans (List.mem_singleton.mp hin'))
  · rw [List.nodup_append]
    refine ⟨h.asked, List.nodup_singleton _, fun key hin key' hin' heq => ?_⟩
    exact hnewasked (List.mem_singleton.mp hin' ▸ heq ▸ hin)
  · rcases List.mem_append.mp he with he | he
    · have := h.farm_le e he
      simp only
      omega
    · rw [List.mem_singleton.mp he]
  · rcases List.mem_append.mp hin with hin | hin
    · have := h.asked_le key hin
      simp only
      omega
    · rw [List.mem_singleton.mp hin]
  · rcases List.mem_append.mp he with he | he
    · exact h.idle e he hnone
    · rw [List.mem_singleton.mp he]
  · rcases List.mem_append.mp he with he | he
    · rcases List.mem_append.mp hin with hin | hin
      · exact h.waiting e he hin
      · exact absurd (List.mem_singleton.mp hin) (hnew e he)
    · rw [List.mem_singleton.mp he]

theorem start_held (now : ℤ) (j : Jobs) : (j.start now).held = j.held := by
  unfold Jobs.held Jobs.start
  simp only [hands_append, hands_cons]
  simp [hands]

/-- A child is told to go, and another is asked for under a key that is new. -/
theorem restartVal_moved (h : j.Sound) (hmem : (key, val) ∈ j.farm) (now : ℤ) :
    Moved key j (j.restartVal now key val) := by
  obtain ⟨hheld, hout, hkey, hasked, hkeys, hfarm⟩ := stop_spec h.keys hmem
  have hsound : (j.stop key val).Sound := by
    refine ⟨hkeys, hasked ▸ h.asked, fun e he => ?_, ?_, fun e he => ?_, fun e he hin => ?_⟩
    · rw [hkey]
      exact h.farm_le e ((hfarm e).mp he).1
    · rw [hasked, hkey]
      exact h.asked_le
    · exact h.idle e ((hfarm e).mp he).1
    · exact h.waiting e ((hfarm e).mp he).1 (hasked ▸ hin)
  refine ⟨?_, hout, start_sound hsound now, fun e he hne => ?_⟩
  · unfold Jobs.restartVal
    rw [start_held]
    exact hheld
  · exact List.mem_append_left _ ((hfarm e).mpr ⟨he, hne⟩)

/-- What is done to the entries there were, one after another. -/
theorem foldl_moved {f : Jobs → ℤ × Val → Jobs}
    (hf : ∀ j e, j.Sound → e ∈ j.farm → Moved e.1 j (f j e)) (l : List (ℤ × Val)) :
    ∀ {j : Jobs}, j.Sound → (l.map Prod.fst).Nodup → (∀ e ∈ l, e ∈ j.farm) →
      (l.foldl f j).held.Perm j.held ∧ (l.foldl f j).out = j.out ∧ (l.foldl f j).Sound := by
  induction l with
  | nil => exact fun h _ _ => ⟨List.Perm.refl _, rfl, h⟩
  | cons e l ih =>
      intro j h hkeys hmem
      rw [List.map_cons, List.nodup_cons] at hkeys
      have hmoved := hf j e h (hmem e List.mem_cons_self)
      obtain ⟨hheld, hout, hsound⟩ := ih hmoved.sound hkeys.2 (fun e' he' =>
        hmoved.others e' (hmem e' (List.mem_cons_of_mem _ he'))
          (fun heq => hkeys.1 (heq ▸ List.mem_map_of_mem he')))
      exact ⟨hheld.trans hmoved.held, hout.trans hmoved.out, hsound⟩

theorem Moved.refl (h : j.Sound) (key : ℤ) : Moved key j j := ⟨List.Perm.refl _, rfl, h, fun _ he _ => he⟩

end Moves

/-! ## The methods -/

section Methods

variable {j : Jobs} {key now : ℤ} {val : Val}

theorem idle_spec (h : j.Sound) (now : ℤ) :
    (j.idle now).held.Perm j.held ∧ (j.idle now).out = j.out ∧ (j.idle now).Sound := by
  refine foldl_moved (fun j e hj he => ?_) j.farm h h.keys (fun _ he => he)
  split_ifs with hidle
  · exact dispatch_moved hj he hidle.1 hidle.2 now
  · exact Moved.refl hj e.1

theorem starts_spec (now : ℤ) (n : ℕ) : ∀ {j : Jobs}, j.Sound →
    (Jobs.starts now n j).held = j.held ∧ (Jobs.starts now n j).out = j.out ∧
      (Jobs.starts now n j).Sound := by
  induction n with
  | zero => exact fun h => ⟨rfl, rfl, h⟩
  | succ n ih =>
      intro j h
      obtain ⟨hheld, hout, hsound⟩ := ih (start_sound h now)
      exact ⟨hheld.trans (start_held now j), hout, hsound⟩

theorem refresh_spec (h : j.Sound) (now : ℤ) (all_nodes worker_nodes : List ℕ) (timeout : Option ℤ) :
    (j.refresh now all_nodes worker_nodes timeout).1.held.Perm j.held ∧
      (j.refresh now all_nodes worker_nodes timeout).1.out = j.out ∧
      (j.refresh now all_nodes worker_nodes timeout).1.Sound := by
  obtain ⟨hheld, hout, hsound⟩ := foldl_moved
    (f := fun j e => if Jobs.due all_nodes timeout now e.2 then Jobs.restartVal now j e.1 e.2 else j)
    (fun j e hj he => by
      split_ifs
      · exact restartVal_moved hj he now
      · exact Moved.refl hj e.1)
    j.farm h h.keys (fun _ he => he)
  obtain ⟨hheld', hout', hsound'⟩ := starts_spec now _ hsound
  exact ⟨hheld' ▸ hheld, hout'.trans hout, hsound'⟩

/-- A kernel could not start a child: another is asked for, or nothing is done. -/
theorem reply_refused {msg : Reply} (h : j.Sound) (hid : msg.id = none) (now : ℤ) (all_nodes : List ℕ) :
    ∃ j', j.reply now all_nodes msg = (j', none) ∧ j'.held.Perm j.held ∧ j'.out = j.out ∧ j'.Sound := by
  unfold Jobs.reply
  rw [hid]
  cases hkind : j.kind with
  | herd _ _ _ => exact ⟨j, rfl, List.Perm.refl _, rfl, h⟩
  | farm =>
      cases hnode : msg.node with
      | none => exact ⟨j, rfl, List.Perm.refl _, rfl, h⟩
      | some node =>
          simp only
          generalize (if node ∈ j.refused then j.refused else j.refused ++ [node]) = refused
          have hsame : (Jobs.mk j.reply_mbox j.queue j.out j.tried j.tries .farm j.farm j.key refused
              j.asked j.sent).Sound := ⟨h.keys, h.asked, h.farm_le, h.asked_le, h.idle, h.waiting⟩
          cases hfind : find j.farm msg.key with
          | none => exact ⟨_, rfl, List.Perm.refl _, rfl, hsame⟩
          | some val =>
              have hmoved := restartVal_moved hsame (mem_of_find hfind) now
              simp only
              split_ifs
              · exact ⟨_, rfl, hmoved.held, hmoved.out, hmoved.sound⟩
              · exact ⟨_, rfl, List.Perm.refl _, rfl, hsame⟩

/-- A kernel has answered for a child. -/
theorem launched_spec {msg : Reply} (h : j.Sound) (hasked : msg.key ∉ j.asked)
    (hidle : ∀ e ∈ j.farm, e.1 = msg.key → e.2.job = none) (now : ℤ) (all_nodes : List ℕ) :
    (j.launched now all_nodes msg).held.Perm j.held ∧ (j.launched now all_nodes msg).out = j.out ∧
      (j.launched now all_nodes msg).Sound := by
  unfold Jobs.launched
  cases hid : msg.id with
  | some child =>
      have hreply : j.reply now all_nodes msg = (j, find j.farm msg.key) := by
        unfold Jobs.reply
        rw [hid]
      rw [hreply]
      cases hfind : find j.farm msg.key with
      | none => exact ⟨List.Perm.refl _, rfl, h⟩
      | some val =>
          have hmem := mem_of_find hfind
          have hheld := dispatch_held h.keys hmem now { val with child := some child }
          rw [hidle _ hmem rfl, Option.toList_none, List.nil_append] at hheld
          exact ⟨hheld, (dispatch_fields ..).1, dispatch_sound h hmem hasked rfl now⟩
  | none =>
      obtain ⟨j', hreply, hspec⟩ := reply_refused h hid now all_nodes
      rw [hreply]
      exact hspec

/-- The job a child had is out, whatever becomes of the child. -/
theorem answered_spec (h : j.Sound) (now key : ℤ) :
    (j.answered now key = (j, none)) ∨ ∃ job j' n, j.job key = some job ∧
      j.answered now key = (j', some n) ∧ (job :: j'.held).Perm j.held ∧ j'.out = j.out - 1 ∧ j'.Sound := by
  unfold Jobs.answered Jobs.job
  cases hfind : find j.farm key with
  | none => exact Or.inl rfl
  | some val =>
      cases hjob : val.job with
      | none => exact Or.inl (by simp [hjob])
      | some job =>
          have hmem := mem_of_find hfind
          have hsame : (Jobs.mk j.reply_mbox j.queue (j.out - 1) j.tried j.tries j.kind j.farm j.key j.refused
              j.asked j.sent).Sound := ⟨h.keys, h.asked, h.farm_le, h.asked_le, h.idle, h.waiting⟩
          have hup : val.child.isSome := by
            cases hchild : val.child with
            | none => exact absurd ((h.idle _ hmem hchild).symm.trans hjob) (by simp)
            | some child => rfl
          have hasked : key ∉ j.asked := by
            intro hin
            rw [h.waiting _ hmem hin] at hup
            exact absurd hup (by simp)
          have hheld := dispatch_held (j := Jobs.mk j.reply_mbox j.queue (j.out - 1) j.tried j.tries j.kind
            j.farm j.key j.refused j.asked j.sent) h.keys hmem now val
          rw [hjob] at hheld
          refine Or.inr ⟨job, _, _, hjob, if_pos (by simp [hjob]), hheld, ?_, ?_⟩
          · exact (dispatch_fields ..).1
          · exact dispatch_sound hsame hmem hasked hup now

theorem failed_spec (h : j.Sound) (now key : ℤ) :
    (j.failed now key = (j, none)) ∨ ∃ job j' n, j.job key = some job ∧
      j.failed now key = (j', some n) ∧ (job :: j'.held).Perm j.held ∧ j'.out = j.out - 1 ∧ j'.Sound := by
  unfold Jobs.failed Jobs.job
  cases hfind : find j.farm key with
  | none => exact Or.inl rfl
  | some val =>
      cases hjob : val.job with
      | none => exact Or.inl (by simp [hjob])
      | some job =>
          have hmem := mem_of_find hfind
          obtain ⟨val', hval'⟩ : ∃ val' : Val, val' = { val with job := none, timestamp := none } := ⟨_, rfl⟩
          obtain ⟨farm, hfarm⟩ : ∃ farm, farm = setVal key val' j.farm := ⟨_, rfl⟩
          have hmemiff : ∀ e, e ∈ farm ↔ e = (key, val') ∨ e ∈ j.farm ∧ e.1 ≠ key := by
            intro e
            rw [hfarm]
            exact mem_setVal h.keys hmem
          have hsame : (Jobs.mk j.reply_mbox j.queue (j.out - 1) j.tried j.tries j.kind farm j.key j.refused
              j.asked j.sent).Sound := by
            refine ⟨?_, h.asked, fun e he => ?_, h.asked_le, fun e he hnone => ?_, fun e he hin => ?_⟩
            · rw [hfarm, map_fst_setVal]
              exact h.keys
            · rcases (hmemiff e).mp he with rfl | ⟨he, -⟩
              · exact h.farm_le (key, val) hmem
              · exact h.farm_le e he
            · rcases (hmemiff e).mp he with rfl | ⟨he, -⟩
              · rw [hval']
              · exact h.idle e he hnone
            · rcases (hmemiff e).mp he with rfl | ⟨he, -⟩
              · rw [hval']
                exact h.waiting (key, val) hmem hin
              · exact h.waiting e he hin
          have hmoved := restartVal_moved hsame ((hmemiff _).mpr (Or.inl rfl)) now
          have hhands := hands_setVal val' h.keys hmem
          rw [← hfarm, hjob, hval', Option.toList_some, Option.toList_none, List.nil_append] at hhands
          have hfailed : Jobs.held j = j.queue ++ hands j.farm := rfl
          refine Or.inr ⟨job, _, _, hjob, if_pos (by simp [hjob]), ?_, ?_, ?_⟩
          · rw [← hval', ← hfarm]
            refine (hmoved.held.cons job).trans ?_
            have hmiddle := (hhands.append_left j.queue)
            exact List.perm_middle.symm.trans hmiddle
          · rw [← hval', ← hfarm]
            exact hmoved.out
          · rw [← hval', ← hfarm]
            exact hmoved.sound

theorem hands_none (f : Val → Val) (hf : ∀ val, (f val).job = none) (farm : List (ℤ × Val)) :
    hands (farm.map (fun e => (e.1, f e.2))) = [] := by
  induction farm with
  | nil => rfl
  | cons e farm ih => rw [List.map_cons, hands_cons, ih, hf]; rfl

/-- Entries with less in them. -/
theorem Jobs.Sound.map (h : j.Sound) (f : Val → Val) (hf : ∀ val, (f val).job = none)
    (hchild : ∀ val, (f val).child = val.child) :
    ({ j with farm := j.farm.map (fun e => (e.1, f e.2)) } : Jobs).Sound := by
  have hmem : ∀ e ∈ j.farm.map (fun e => (e.1, f e.2)), ∃ e' ∈ j.farm, e = (e'.1, f e'.2) := by
    intro e he
    obtain ⟨e', he', rfl⟩ := List.mem_map.mp he
    exact ⟨e', he', rfl⟩
  refine ⟨?_, h.asked, fun e he => ?_, h.asked_le, fun e he _ => ?_, fun e he hin => ?_⟩
  · rw [List.map_map]
    exact h.keys
  · obtain ⟨e', he', rfl⟩ := hmem e he
    exact h.farm_le e' he'
  · obtain ⟨e', -, rfl⟩ := hmem e he
    exact hf e'.2
  · obtain ⟨e', he', rfl⟩ := hmem e he
    exact (hchild e'.2).trans (h.waiting e' he' hin)

theorem Jobs.Sound.empty (h : j.Sound) (out : ℤ) : (j.empty out).Sound :=
  ⟨h.keys, h.asked, h.farm_le, h.asked_le, h.idle, h.waiting⟩

/-- With nothing in any hands, a child that is started again leaves nothing in any. -/
theorem restartVal_hands (hkeys : (j.farm.map Prod.fst).Nodup) (hmem : (key, val) ∈ j.farm)
    (hjob : val.job = none) (hhands : hands j.farm = []) (now : ℤ) :
    hands (j.restartVal now key val).farm = [] := by
  have herase := hands_erase hkeys hmem
  rw [hjob, hhands, Option.toList_none, List.nil_append] at herase
  unfold Jobs.restartVal Jobs.start Jobs.stop Jobs.destroy
  rw [hjob]
  simp only [hands_append, hands_cons]
  rw [List.perm_nil.mp herase]
  rfl

theorem restart_spec (h : j.Sound) (now : ℤ) :
    (j.restart now).held = [] ∧ (j.restart now).out = 0 ∧ (j.restart now).Sound := by
  obtain ⟨farm, hfarm⟩ : ∃ farm, farm = j.farm.map (fun e => (e.1, { e.2 with job := none })) := ⟨_, rfl⟩
  have hsound : ({ j with farm := farm } : Jobs).Sound := by
    rw [hfarm]
    exact h.map (fun val => { val with job := none }) (fun _ => rfl) (fun _ => rfl)
  have hjobs : ∀ e ∈ farm, e.2.job = none := by
    intro e he
    rw [hfarm] at he
    obtain ⟨e', -, rfl⟩ := List.mem_map.mp he
    rfl
  have hnone : hands farm = [] := by
    rw [hfarm]
    exact hands_none (fun val => { val with job := none }) (fun _ => rfl) j.farm
  -- every entry there was is one with nothing in its hands, when it is started again
  have hall : ∀ (l : List (ℤ × Val)) (j : Jobs), j.Sound → (l.map Prod.fst).Nodup → (∀ e ∈ l, e ∈ j.farm) →
      (∀ e ∈ l, e.2.job = none) → hands j.farm = [] →
      (l.foldl (fun j e => Jobs.restartVal now j e.1 e.2) j).Sound ∧
        hands (l.foldl (fun j e => Jobs.restartVal now j e.1 e.2) j).farm = [] := by
    intro l
    induction l with
    | nil => exact fun j hj _ _ _ hj' => ⟨hj, hj'⟩
    | cons e l ih =>
        intro j hj hkeys hmem hidle hj'
        rw [List.map_cons, List.nodup_cons] at hkeys
        have hin := hmem e List.mem_cons_self
        have hmoved := restartVal_moved hj hin now
        refine ih _ hmoved.sound hkeys.2 (fun e' he' => ?_)
          (fun e' he' => hidle e' (List.mem_cons_of_mem _ he'))
          (restartVal_hands hj.keys hin (hidle e List.mem_cons_self) hj' now)
        exact hmoved.others e' (hmem e' (List.mem_cons_of_mem _ he'))
          (fun heq => hkeys.1 (heq ▸ List.mem_map_of_mem he'))
  obtain ⟨hsound', hhands⟩ := hall farm _ hsound hsound.keys (fun _ he => he) hjobs hnone
  unfold Jobs.restart
  rw [← hfarm]
  exact ⟨hhands, rfl, hsound'.empty 0⟩

theorem replyTo_spec (h : j.Sound) (reply_mbox : ℕ) :
    (j.replyTo reply_mbox).held = [] ∧ (j.replyTo reply_mbox).out = 0 ∧ (j.replyTo reply_mbox).Sound := by
  have hsound := h.map (fun val => { val with job := none, timestamp := none }) (fun _ => rfl) (fun _ => rfl)
  exact ⟨hands_none (fun val => { val with job := none, timestamp := none }) (fun _ => rfl) j.farm, rfl,
    ⟨hsound.keys, hsound.asked, hsound.farm_le, hsound.asked_le, hsound.idle, hsound.waiting⟩⟩

theorem destroy_fields (j : Jobs) (key : ℤ) (val : Val) :
    (j.destroy key val).key = j.key ∧ (j.destroy key val).asked = j.asked := by
  unfold Jobs.destroy
  cases val.job with
  | none => exact ⟨rfl, rfl⟩
  | some job => exact ⟨rfl, rfl⟩

theorem close_spec (h : j.Sound) : j.close.held = [] ∧ j.close.out = 0 ∧ j.close.Sound := by
  have hall : ∀ (l : List (ℤ × Val)) (j : Jobs),
      (l.foldl (fun j e => Jobs.destroy j e.1 e.2) j).key = j.key ∧
        (l.foldl (fun j e => Jobs.destroy j e.1 e.2) j).asked = j.asked := by
    intro l
    induction l with
    | nil => exact fun j => ⟨rfl, rfl⟩
    | cons e l ih =>
        intro j
        obtain ⟨hkey, hasked⟩ := ih (j.destroy e.1 e.2)
        obtain ⟨hkey', hasked'⟩ := destroy_fields j e.1 e.2
        exact ⟨hkey.trans hkey', hasked.trans hasked'⟩
  obtain ⟨hkey, hasked⟩ := hall j.farm j
  refine ⟨rfl, rfl, List.nodup_nil, ?_, fun _ he => (nomatch he), ?_, fun _ he => (nomatch he),
    fun _ he => (nomatch he)⟩
  · exact hasked ▸ h.asked
  · unfold Jobs.close Jobs.empty
    simp only [hkey, hasked]
    exact h.asked_le

end Methods

/-! ## Every run -/

/-- What is out is counted, and of the jobs that were added each is out or done with, once. -/
structure World.Kept (w : World) : Prop where
  sound : w.jobs.Sound
  out : w.jobs.out = w.jobs.held.length
  once : ((w.jobs.held ++ w.done.map Prod.fst).map Job.id).Perm (List.range w.added)

section World

variable {w : World}

/-- Some of what was out is done with. -/
theorem World.Kept.gone (h : w.Kept) {j : Jobs} (gone : List Job) (how : Done)
    (hheld : (gone ++ j.held).Perm w.jobs.held) (hout : j.out = w.jobs.out - gone.length) (hsound : j.Sound) :
    (⟨j, w.added, w.done ++ gone.map (fun job => (job, how))⟩ : World).Kept := by
  have hlen := hheld.length_eq
  rw [List.length_append] at hlen
  refine ⟨hsound, ?_, ?_⟩
  · have := h.out
    simp only
    omega
  · refine List.Perm.trans (List.Perm.map _ ?_) h.once
    rw [List.map_append, List.map_map]
    have hgone : gone.map (Prod.fst ∘ fun job => (job, how)) = gone := List.map_id gone
    rw [hgone]
    refine List.perm_iff_count.mpr (fun job => ?_)
    have hcount := hheld.count_eq job
    simp only [List.count_append] at hcount ⊢
    omega

/-- Nothing is done with. -/
theorem World.Kept.moved (h : w.Kept) {j : Jobs} (hheld : j.held.Perm w.jobs.held)
    (hout : j.out = w.jobs.out) (hsound : j.Sound) : (⟨j, w.added, w.done⟩ : World).Kept := by
  have hgone := h.gone [] .cleared hheld (by simpa using hout) hsound
  rwa [List.map_nil, List.append_nil] at hgone

theorem map_id_number (bodies : List Str) :
    ∀ n, (number n bodies).map Job.id = List.range' n bodies.length := by
  induction bodies with
  | nil => exact fun _ => rfl
  | cons body rest ih =>
      intro n
      rw [number, List.map_cons, ih, List.length_cons, List.range'_succ]

theorem World.Kept.add (h : w.Kept) (bodies : List Str) (now : ℤ) :
    (⟨w.jobs.add now (number w.added bodies), w.added + bodies.length, w.done⟩ : World).Kept := by
  have hlen : (number w.added bodies).length = bodies.length := by
    rw [← List.length_map Job.id, map_id_number, List.length_range']
  have hsound : (Jobs.mk w.jobs.reply_mbox (w.jobs.queue ++ number w.added bodies)
      (w.jobs.out + (number w.added bodies).length) w.jobs.tried w.jobs.tries w.jobs.kind w.jobs.farm
      w.jobs.key w.jobs.refused w.jobs.asked w.jobs.sent).Sound :=
    ⟨h.sound.keys, h.sound.asked, h.sound.farm_le, h.sound.asked_le, h.sound.idle, h.sound.waiting⟩
  obtain ⟨hheld, hout, hsound'⟩ := idle_spec hsound now
  have hadded : (w.jobs.add now (number w.added bodies)).held.Perm
      (w.jobs.held ++ number w.added bodies) := by
    refine hheld.trans ?_
    unfold Jobs.held
    refine List.perm_iff_count.mpr (fun job => ?_)
    simp only [List.count_append]
    omega
  refine ⟨hsound', ?_, ?_⟩
  · have hcount := hadded.length_eq
    rw [List.length_append] at hcount
    have hout' : (w.jobs.add now (number w.added bodies)).out
        = w.jobs.out + (number w.added bodies).length := hout
    have := h.out
    simp only
    omega
  · have hrange : List.range (w.added + bodies.length)
        = List.range w.added ++ List.range' w.added bodies.length := by
      rw [List.range_eq_range', List.range_eq_range', ← List.range'_append_1, Nat.zero_add]
    rw [hrange, ← map_id_number]
    refine List.Perm.trans ?_ (h.once.append_right _)
    rw [← List.map_append]
    refine List.Perm.map _ (List.perm_iff_count.mpr fun job => ?_)
    have hcount := hadded.count_eq job
    simp only [List.count_append] at hcount ⊢
    omega

/-- Every event keeps it. -/
theorem World.Kept.step (h : w.Kept) (event : Event) : (step w event).Kept := by
  cases event with
  | add bodies now => exact h.add bodies now
  | launched msg all_nodes now =>
      simp only [Task.step]
      split_ifs with hin
      · have hsound : ({ w.jobs with asked := w.jobs.asked.erase msg.key } : Jobs).Sound :=
          ⟨h.sound.keys, h.sound.asked.erase _, h.sound.farm_le,
            fun key hkey => h.sound.asked_le key (List.mem_of_mem_erase hkey), h.sound.idle,
            fun e he hkey => h.sound.waiting e he (List.mem_of_mem_erase hkey)⟩
        have hidle : ∀ e ∈ w.jobs.farm, e.1 = msg.key → e.2.job = none := by
          intro e he heq
          exact h.sound.idle e he (h.sound.waiting e he (heq ▸ hin))
        obtain ⟨hheld, hout, hsound'⟩ :=
          launched_spec hsound (fun hkey => h.sound.asked.not_mem_erase hkey) hidle now all_nodes
        exact h.moved hheld hout hsound'
      · exact h
  | answered key now =>
      simp only [Task.step]
      rcases answered_spec h.sound now key with hnone | ⟨job, j', n, hjob, hsome, hheld, hout, hsound⟩
      · rw [hnone]
        exact h
      · rw [hsome, hjob]
        exact h.gone [job] .answered hheld hout hsound
  | failed key now =>
      simp only [Task.step]
      rcases failed_spec h.sound now key with hnone | ⟨job, j', n, hjob, hsome, hheld, hout, hsound⟩
      · rw [hnone]
        exact h
      · rw [hsome, hjob]
        exact h.gone [job] .failed hheld hout hsound
  | refresh all_nodes worker_nodes timeout now =>
      obtain ⟨hheld, hout, hsound⟩ := refresh_spec h.sound now all_nodes worker_nodes timeout
      exact h.moved hheld hout hsound
  | clear =>
      have hlen := h.out
      unfold Jobs.held at hlen
      rw [List.length_append] at hlen
      have hout : (w.jobs.clear).out = w.jobs.out - w.jobs.queue.length := by
        show ((hands w.jobs.farm).length : ℤ) = _
        omega
      exact h.gone (j := w.jobs.clear) w.jobs.queue .cleared (List.Perm.refl _) hout (h.sound.empty _)
  | restart now =>
      obtain ⟨hheld, hout, hsound⟩ := restart_spec h.sound now
      refine h.gone w.jobs.held .cleared ?_ ?_ hsound
      · rw [hheld, List.append_nil]
      · rw [hout, h.out, Int.sub_self]
  | replyTo reply_mbox =>
      obtain ⟨hheld, hout, hsound⟩ := replyTo_spec h.sound reply_mbox
      refine h.gone w.jobs.held .cleared ?_ ?_ hsound
      · rw [hheld, List.append_nil]
      · rw [hout, h.out, Int.sub_self]
  | close =>
      obtain ⟨hheld, hout, hsound⟩ := close_spec h.sound
      refine h.gone w.jobs.held .cleared ?_ ?_ hsound
      · rw [hheld, List.append_nil]
      · rw [hout, h.out, Int.sub_self]

end World

theorem kept_new (reply_mbox : ℕ) (kind : Kind) (size : ℕ) (worker_nodes : List ℕ) (now : ℤ) :
    (World.new reply_mbox kind size worker_nodes now).Kept := by
  have hsound : (Jobs.mk reply_mbox [] 0 (fun _ => 0) 0 kind [] (-1) [] [] []).Sound :=
    ⟨List.nodup_nil, List.nodup_nil, fun _ he => (nomatch he), fun _ he => (nomatch he),
      fun _ he => (nomatch he), fun _ he => (nomatch he)⟩
  have hnew : ∃ n, Jobs.new reply_mbox kind size worker_nodes now
      = Jobs.starts now n ⟨reply_mbox, [], 0, fun _ => 0, 0, kind, [], -1, [], [], []⟩ := by
    cases kind with
    | farm => exact ⟨_, rfl⟩
    | herd _ _ _ => exact ⟨_, rfl⟩
  obtain ⟨n, hn⟩ := hnew
  obtain ⟨hheld, hout, hsound'⟩ := starts_spec now n hsound
  unfold World.new
  rw [hn]
  refine ⟨hsound', ?_, ?_⟩
  · simp only [hheld, hout]
    rfl
  · simp only [hheld]
    exact List.Perm.refl _

/-- After any events, in any order, what is said to be out is what is on the queue and in the hands of
    children; each job that was ever added is on the queue, in one child's hands or done with, and that
    but once; and none has been taken as answered twice. -/
theorem jobs_once (reply_mbox : ℕ) (kind : Kind) (size : ℕ) (worker_nodes : List ℕ) (now : ℤ)
    (events : List Event) :
    let w := run step (World.new reply_mbox kind size worker_nodes now) events
    w.jobs.out = w.jobs.queue.length + (hands w.jobs.farm).length ∧
      ((w.jobs.queue ++ hands w.jobs.farm ++ w.done.map Prod.fst).map Job.id).Perm (List.range w.added) ∧
      ((w.done.filter (fun d => decide (d.2 = .answered))).map (fun d => d.1.id)).Nodup := by
  intro w
  have hkept : w.Kept := inv_of_step (I := World.Kept) (fun _ event h => h.step event)
    (kept_new reply_mbox kind size worker_nodes now) events
  have hout := hkept.out
  unfold Jobs.held at hout
  rw [List.length_append, Nat.cast_add] at hout
  refine ⟨hout, hkept.once, ?_⟩
  have hnodup := hkept.once.nodup_iff.mpr List.nodup_range
  rw [List.map_append, List.nodup_append, List.map_map] at hnodup
  exact hnodup.2.1.sublist (List.filter_sublist.map _)

end ChrysaLisp.Task
