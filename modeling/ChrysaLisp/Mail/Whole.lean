import ChrysaLisp.Mail.Parcel
import Mathlib.Data.List.Perm.Basic
import Mathlib.Algebra.BigOperators.Group.List.Basic

set_option autoImplicit false

/-! # A parcel comes whole, and once

A parcel has an id no other has, its node's session having gone on for it. Of each there is what has yet to
come, which is some of its fragments, each once (`Progress`): all of them, and nothing is known of it where
it is for; or some, and there is a message that has its bytes in all places but those of what has yet to
come, and as many still to count (`Partly`); or none, and the message is posted. A fragment that is sent
on by a node it is not for, or one of another parcel, changes nothing of that. -/

namespace ChrysaLisp.Parcels

open Run

/-- Mail for another node. Its length is a `uint`. -/
structure Message where
  dest : NetId
  data : Str
  fits : data.length < uint

/-- The nodes: the session of each, the mail that waits for its `:sys_mail :out`, and what has come; the
    fragments, each at a node it is to go off; and, of each parcel that was ever made, its id. -/
structure Net where
  session : ℕ → ℕ
  outbox : ℕ → List Message
  flying : List (ℕ × Frag)
  mail : ℕ → Mail
  packets : ℕ → List Frag
  sent : List (NetId × Message)

/-- What can happen: a message is sent off a node, with whatever a message has as its source that is no
    parcel; `:sys_mail :out` takes the next; a ping takes a session; and any fragment goes over any link. -/
inductive Act where
  | send (node : ℕ) (m : Message) (src : NetId)
  | out (node : ℕ)
  | ping (node : ℕ)
  | hop (node next : ℕ) (f : Frag)

/-- The fragments of a parcel. -/
def partsOf (e : NetId × Message) : List Frag := fragments e.2.dest e.1 e.2.data.length 0 e.2.data

def step (net : Net) : Act → Net
  | .send node m src =>
      -- mail for the node itself is not of a link, and that of one buffer is no parcel
      if m.dest.node = node then net
      else if lkDataSize < m.data.length then
        { net with outbox := fun n => if n = node then net.outbox n ++ [m] else net.outbox n }
      else { net with flying := net.flying ++ [(node, ⟨m.dest, src, 0, 0, m.data⟩)] }
  | .out node =>
      match net.outbox node with
      | [] => net
      | m :: rest =>
          let net := { net with outbox := fun n => if n = node then rest else net.outbox n }
          if m.dest.node = node then net
          else
            let id : NetId := ⟨net.session node + 1, node⟩
            { net with
              session := fun n => if n = node then net.session node + 1 else net.session n
              flying := net.flying ++ (partsOf (id, m)).map (fun f => (node, f))
              sent := net.sent ++ [(id, m)] }
  | .ping node => { net with session := fun n => if n = node then net.session n + 1 else net.session n }
  | .hop node next f =>
      if (node, f) ∈ net.flying then
        let net := { net with flying := net.flying.erase (node, f) }
        if f.total ≠ 0 ∧ f.dest.node = next then
          { net with mail := fun n => if n = next then mailIn (net.mail n) f else net.mail n }
        else if f.dest.node = next then
          { net with packets := fun n => if n = next then net.packets n ++ [f] else net.packets n }
        else { net with flying := net.flying ++ [(next, f)] }
      else net

/-- Nodes that nothing has been sent off yet. -/
def start : Net := ⟨fun _ => 0, fun _ => [], [], fun _ => ⟨[], [], false⟩, fun _ => [], []⟩

/-- What has yet to come of a parcel. -/
def rest (id : NetId) (flying : List (ℕ × Frag)) : List Frag :=
  (flying.map Prod.snd).filter (fun f => decide (f.src = id ∧ f.total ≠ 0))

/-- The message as it is posted. -/
def whole (e : NetId × Message) : Parcel := ⟨e.2.dest, e.1, 0, e.2.data.map some⟩

/-! ## The message that is being made -/

/-- It has all the bytes but those that have yet to come, and counts them. -/
structure Partly (e : NetId × Message) (rest : List Frag) (p : Parcel) : Prop where
  dest : p.dest = e.2.dest
  src : p.src = e.1
  total : p.total = (rest.map (fun f => f.data.length)).sum
  fits : p.total < uint
  length : p.data.length = e.2.data.length
  bytes : ∀ i, p.data[i]? = (e.2.data[i]?).map some ∨
    ∃ f ∈ rest, f.offset ≤ i ∧ i < f.offset + f.data.length

section Parts

variable {e : NetId × Message} {left : List Frag} {p : Parcel} {f : Frag}

/-- What a fragment of a parcel is. -/
theorem mem_partsOf (hdata : e.2.data ≠ []) (hf : f ∈ partsOf e) : f.dest = e.2.dest ∧ f.src = e.1 ∧
    f.total = e.2.data.length ∧ f.data ≠ [] ∧ f.offset + f.data.length ≤ e.2.data.length ∧
    f.data = (e.2.data.drop f.offset).take f.data.length := by
  obtain ⟨hdest, hsrc, htotal, hne, -, hend, -, hpart⟩ := (fragments_spec _ _ _ _ _ hdata).1 f hf
  rw [Nat.zero_add] at hend
  exact ⟨hdest, hsrc, htotal, hne, hend, hpart⟩

theorem nodup_partsOf (hdata : e.2.data ≠ []) : (partsOf e).Nodup :=
  (fragments_spec _ _ _ _ _ hdata).2.2.2.of_map

/-- As many are still to come as none, only if none is. -/
theorem sum_eq_zero (hdata : e.2.data ≠ []) (hsub : ∀ f ∈ left, f ∈ partsOf e) :
    (left.map (fun f => f.data.length)).sum = 0 ↔ left = [] := by
  cases left with
  | nil => simp
  | cons f left =>
      have hne := (mem_partsOf hdata (hsub f List.mem_cons_self)).2.2.2.1
      have hpos := List.length_pos_iff.mpr hne
      rw [List.map_cons, List.sum_cons]
      simp only [reduceCtorEq, iff_false]
      omega

/-- The first fragment to come has the message made. -/
theorem Partly.new (hdata : e.2.data ≠ []) (hf : f ∈ partsOf e) (hleft : left.Perm (partsOf e)) :
    Partly e left (Parcel.new f) := by
  obtain ⟨hdest, hsrc, htotal, -, -, -⟩ := mem_partsOf hdata hf
  obtain ⟨-, hcover, hsum, -⟩ := fragments_spec e.2.dest e.1 e.2.data.length 0 e.2.data hdata
  refine ⟨hdest, hsrc, ?_, htotal.trans_lt e.2.fits, ?_, fun i => ?_⟩
  · rw [(hleft.map _).sum_eq]
    exact htotal.trans hsum.symm
  · exact List.length_replicate.trans htotal
  · by_cases hi : i < e.2.data.length
    · obtain ⟨g, hg, hin⟩ := hcover i (Nat.zero_le i) (by omega)
      exact Or.inr ⟨g, hleft.mem_iff.mpr hg, hin⟩
    · refine Or.inl ?_
      rw [List.getElem?_eq_none (by omega : e.2.data.length ≤ i)]
      exact List.getElem?_eq_none (by rw [Parcel.new, List.length_replicate]; omega)

/-- A fragment is put in its place. -/
theorem Partly.receive (hdata : e.2.data ≠ []) (h : Partly e left p) (hsub : ∀ f ∈ left, f ∈ partsOf e)
    (hf : f ∈ left) : Partly e (left.erase f) (p.receive f) := by
  obtain ⟨-, -, -, -, hend, hpart⟩ := mem_partsOf hdata (hsub f hf)
  have hperm := List.perm_cons_erase hf
  have hsum : (left.map (fun f => f.data.length)).sum
      = f.data.length + ((left.erase f).map (fun f => f.data.length)).sum := by
    rw [(hperm.map _).sum_eq, List.map_cons, List.sum_cons]
  have htotal : (p.receive f).total = ((left.erase f).map (fun f => f.data.length)).sum := by
    have hfits := h.fits
    show (p.total + (uint - f.data.length)) % uint = _
    rw [h.total, hsum] at *
    unfold uint at *
    omega
  refine ⟨h.dest, h.src, htotal, ?_, ?_, fun i => ?_⟩
  · have hfits := h.fits
    rw [h.total, hsum] at hfits
    omega
  · exact (length_overlay ..).trans h.length
  · unfold Parcel.receive
    simp only
    rw [getElem?_overlay]
    by_cases hin : f.offset ≤ i ∧ i < f.offset + f.data.length
    · refine Or.inl ?_
      have hi : i < p.data.length := by rw [h.length]; omega
      have hbyte : f.data[i - f.offset]? = e.2.data[i]? := by
        rw [hpart, List.getElem?_take_of_lt (by omega), List.getElem?_drop]
        congr 1
        omega
      rw [List.getElem?_eq_getElem hi, Option.map_some, if_pos hin, hbyte,
        List.getElem?_eq_getElem (h.length ▸ hi), Option.map_some]
    · simp only [if_neg hin, Option.map_id']
      rcases h.bytes i with hi | ⟨g, hg, hcov⟩
      · exact Or.inl hi
      · have hne : g ≠ f := fun heq => hin (heq ▸ hcov)
        exact Or.inr ⟨g, (List.mem_erase_of_ne hne).mpr hg, hcov⟩

/-- With nothing to come it is the message. -/
theorem Partly.whole (h : Partly e [] p) : p = whole e := by
  obtain ⟨pdest, psrc, ptotal, pdata⟩ := p
  obtain ⟨hdest, hsrc, htotal, -, -, hbytes⟩ := h
  simp only at hdest hsrc htotal hbytes
  have hall : pdata = e.2.data.map some := by
    refine List.ext_getElem? (fun i => ?_)
    rw [List.getElem?_map]
    rcases hbytes i with hi | ⟨g, hg, -⟩
    · exact hi
    · exact absurd hg List.not_mem_nil
  rw [hdest, hsrc, htotal, hall]
  rfl

end Parts

/-! ## Of each parcel, what has yet to come -/

/-- What there is of a parcel where it is for, with what has yet to come. -/
structure Progress (e : NetId × Message) (left : List Frag) (mail : ℕ → Mail) : Prop where
  data : e.2.data ≠ []
  sub : ∀ f ∈ left, f ∈ partsOf e
  nodup : left.Nodup
  others : ∀ n, n ≠ e.2.dest.node → (mail n).openOf e.1 = [] ∧ (mail n).postsOf e.1 = []
  here : left.Perm (partsOf e) ∧ (mail e.2.dest.node).openOf e.1 = [] ∧
        (mail e.2.dest.node).postsOf e.1 = [] ∨
      left ≠ [] ∧ (∃ p, Partly e left p ∧ (mail e.2.dest.node).openOf e.1 = [p]) ∧
        (mail e.2.dest.node).postsOf e.1 = [] ∨
      left = [] ∧ (mail e.2.dest.node).openOf e.1 = [] ∧ (mail e.2.dest.node).postsOf e.1 = [whole e]

section Steps

variable {e : NetId × Message} {left left' : List Frag} {mail mail' : ℕ → Mail} {f : Frag}

theorem partly_perm {p : Parcel} (h : Partly e left p) (hperm : left.Perm left') : Partly e left' p :=
  ⟨h.dest, h.src, by rw [h.total, (hperm.map _).sum_eq], h.fits, h.length, fun i =>
    (h.bytes i).imp id (fun ⟨f, hf, hcov⟩ => ⟨f, hperm.mem_iff.mp hf, hcov⟩)⟩

/-- Another order of what has yet to come, and mail with the same of this parcel. -/
theorem Progress.congr (h : Progress e left mail) (hperm : left.Perm left')
    (hmail : ∀ n, (mail' n).openOf e.1 = (mail n).openOf e.1 ∧ (mail' n).postsOf e.1 = (mail n).postsOf e.1) :
    Progress e left' mail' := by
  refine ⟨h.data, fun f hf => h.sub f (hperm.mem_iff.mpr hf), hperm.nodup_iff.mp h.nodup, fun n hn => ?_, ?_⟩
  · rw [(hmail n).1, (hmail n).2]
    exact h.others n hn
  · rw [(hmail _).1, (hmail _).2]
    rcases h.here with ⟨hall, hhere⟩ | ⟨hne, ⟨p, hp, hopen⟩, hposts⟩ | ⟨hnil, hhere⟩
    · exact Or.inl ⟨hperm.symm.trans hall, hhere⟩
    · refine Or.inr (Or.inl ⟨fun hnil => hne ?_, ⟨p, partly_perm hp hperm, hopen⟩, hposts⟩)
      rw [hnil] at hperm
      exact List.perm_nil.mp hperm
    · rw [hnil] at hperm
      exact Or.inr (Or.inr ⟨List.nil_perm.mp hperm, hhere⟩)

/-- A fragment comes where its parcel is for. -/
theorem Progress.arrive (h : Progress e left mail) (hf : f ∈ left)
    (hmail : ∀ n, mail' n = if n = e.2.dest.node then mailIn (mail n) f else mail n) :
    Progress e (left.erase f) mail' := by
  have hpart := h.sub f hf
  obtain ⟨-, hsrc, -, -, -, -⟩ := mem_partsOf h.data hpart
  have hsub : ∀ g ∈ left.erase f, g ∈ partsOf e := fun g hg => h.sub g (List.mem_of_mem_erase hg)
  have hhere : mail' e.2.dest.node = mailIn (mail e.2.dest.node) f := by rw [hmail, if_pos rfl]
  -- the message this one goes in is that of the parcel, made now or before
  have hmade : Partly e left ((mail e.2.dest.node).parcel f) ∧
      ((mail e.2.dest.node).openOf e.1).tail = [] ∧ (mail e.2.dest.node).postsOf e.1 = [] := by
    rw [parcel_eq, hsrc]
    rcases h.here with ⟨hall, hopen, hposts⟩ | ⟨-, ⟨p, hp, hopen⟩, hposts⟩ | ⟨hnil, -⟩
    · rw [hopen]
      exact ⟨Partly.new h.data hpart hall, rfl, hposts⟩
    · rw [hopen]
      exact ⟨hp, rfl, hposts⟩
    · rw [hnil] at hf
      exact absurd hf List.not_mem_nil
  obtain ⟨hpartly, htail, hposts⟩ := hmade
  have hnext := hpartly.receive h.data h.sub hf
  have hopen' := openOf_mailIn_self (mail e.2.dest.node) f
  have hposts' := postsOf_mailIn_self (mail e.2.dest.node) f
  rw [hsrc, htail, List.append_nil] at hopen'
  rw [hsrc, hposts, List.nil_append] at hposts'
  refine ⟨h.data, hsub, h.nodup.erase f, fun n hn => ?_, ?_⟩
  · rw [hmail, if_neg hn]
    exact h.others n hn
  · rw [hhere, hopen', hposts']
    by_cases hnil : left.erase f = []
    · have hzero : (((mail e.2.dest.node).parcel f).receive f).total = 0 := by
        rw [hnext.total]
        exact (sum_eq_zero h.data hsub).mpr hnil
      rw [if_pos hzero, if_pos hzero]
      rw [hnil] at hnext
      exact Or.inr (Or.inr ⟨hnil, rfl, by rw [hnext.whole]⟩)
    · have hpos : ((mail e.2.dest.node).parcel f |>.receive f).total ≠ 0 := by
        rw [hnext.total]
        exact fun hzero => hnil ((sum_eq_zero h.data hsub).mp hzero)
      rw [if_neg hpos, if_neg hpos]
      exact Or.inr (Or.inl ⟨hnil, ⟨_, hnext, rfl⟩, rfl⟩)

theorem rest_append (id : NetId) (l r : List (ℕ × Frag)) : rest id (l ++ r) = rest id l ++ rest id r := by
  unfold rest
  rw [List.map_append, List.filter_append]

theorem mem_rest {id : NetId} {flying : List (ℕ × Frag)} : f ∈ rest id flying ↔
    (∃ n, (n, f) ∈ flying) ∧ f.src = id ∧ f.total ≠ 0 := by
  unfold rest
  rw [List.mem_filter, List.mem_map]
  simp

/-- A fragment that goes on is of what has yet to come of its own parcel, once less. -/
theorem rest_erase (id : NetId) {flying : List (ℕ × Frag)} {n : ℕ} (hin : (n, f) ∈ flying) :
    (rest id (flying.erase (n, f))).Perm
      (if f.src = id ∧ f.total ≠ 0 then (rest id flying).erase f else rest id flying) := by
  have hperm : (rest id flying).Perm (rest id ((n, f) :: flying.erase (n, f))) :=
    ((List.perm_cons_erase hin).map _).filter _
  have hcons : rest id ((n, f) :: flying.erase (n, f)) = (if f.src = id ∧ f.total ≠ 0 then [f] else [])
      ++ rest id (flying.erase (n, f)) := by
    unfold rest
    rw [List.map_cons, List.filter_cons]
    split_ifs with hf hf' hf'
    · rfl
    · exact absurd (of_decide_eq_true hf) hf'
    · exact absurd (decide_eq_true hf') hf
    · rfl
  rw [hcons] at hperm
  split_ifs at hperm ⊢ with hf
  · have herase := hperm.erase f
    rw [List.singleton_append, List.erase_cons_head] at herase
    exact herase.symm
  · exact hperm.symm

end Steps

/-! ## Every run -/

/-- Of every id there is. -/
structure Net.Kept (net : Net) : Prop where
  ids : (net.sent.map Prod.fst).Nodup
  session : ∀ e ∈ net.sent, e.1.mbox ≤ net.session e.1.node
  outbox : ∀ n, ∀ m ∈ net.outbox n, m.data ≠ []
  frags : ∀ n f, (n, f) ∈ net.flying → f.total ≠ 0 → ∃ e ∈ net.sent, f ∈ partsOf e
  progress : ∀ e ∈ net.sent, Progress e (rest e.1 net.flying) net.mail
  strange : ∀ id, id ∉ net.sent.map Prod.fst → ∀ n,
    (net.mail n).openOf id = [] ∧ (net.mail n).postsOf id = []

theorem kept_start : start.Kept :=
  ⟨List.nodup_nil, fun _ he => (nomatch he), fun _ _ hm => (nomatch hm), fun _ _ hf => (nomatch hf),
    fun _ he => (nomatch he), fun _ _ _ => ⟨rfl, rfl⟩⟩

section Kept

variable {net : Net}

theorem Net.Kept.out (h : net.Kept) (node : ℕ) : (step net (.out node)).Kept := by
  simp only [step]
  cases hbox : net.outbox node with
  | nil => exact h
  | cons m waiting =>
      have hm : m.data ≠ [] := h.outbox node m (hbox ▸ List.mem_cons_self)
      have houtbox : ∀ n, ∀ m' ∈ (if n = node then waiting else net.outbox n), m'.data ≠ [] := by
        intro n m' hm'
        split_ifs at hm' with hn
        · exact h.outbox node m' (hbox ▸ List.mem_cons_of_mem _ hm')
        · exact h.outbox n m' hm'
      simp only
      split_ifs with hjunk
      · exact ⟨h.ids, h.session, houtbox, h.frags, h.progress, h.strange⟩
      · obtain ⟨id, hid⟩ : ∃ id : NetId, id = ⟨net.session node + 1, node⟩ := ⟨_, rfl⟩
        rw [← hid]
        have hnew : id ∉ net.sent.map Prod.fst := by
          intro hin
          obtain ⟨e, he, heq⟩ := List.mem_map.mp hin
          have hle := h.session e he
          rw [heq, hid] at hle
          simp only at hle
          omega
        have hparts : ∀ f ∈ partsOf (id, m), f.src = id ∧ f.total ≠ 0 := by
          intro f hf
          obtain ⟨-, hsrc, htotal, -, -, -⟩ := mem_partsOf (e := (id, m)) hm hf
          exact ⟨hsrc, fun hzero => hm (List.length_eq_zero_iff.mp (htotal.symm.trans hzero))⟩
        have hmap : ∀ id', rest id' ((partsOf (id, m)).map (fun f => (node, f)))
            = if id' = id then partsOf (id, m) else [] := by
          intro id'
          unfold rest
          rw [List.map_map]
          have hfst : (partsOf (id, m)).map (Prod.snd ∘ fun f => (node, f)) = partsOf (id, m) :=
            List.map_id _
          rw [hfst]
          split_ifs with heq
          · refine List.filter_eq_self.mpr (fun f hf => decide_eq_true ?_)
            rw [heq]
            exact hparts f hf
          · refine List.filter_eq_nil_iff.mpr (fun f hf htrue => heq ?_)
            exact (of_decide_eq_true htrue).1.symm.trans (hparts f hf).1
        have hnone : rest id net.flying = [] := by
          refine List.eq_nil_iff_forall_not_mem.mpr (fun f hf => hnew ?_)
          obtain ⟨⟨n, hin⟩, hsrc, htotal⟩ := mem_rest.mp hf
          obtain ⟨e, he, hpart⟩ := h.frags n f hin htotal
          obtain ⟨-, hsrc', -, -, -, -⟩ := mem_partsOf (h.progress e he).data hpart
          rw [← hsrc, hsrc']
          exact List.mem_map_of_mem he
        refine ⟨?_, fun e he => ?_, houtbox, fun n f hin htotal => ?_, fun e he => ?_, fun id' hid' n => ?_⟩
        · rw [List.map_append, List.nodup_append]
          refine ⟨h.ids, List.nodup_singleton _, fun a ha b hb hab => hnew ?_⟩
          have hb : b = id := List.mem_singleton.mp hb
          rw [← hb, ← hab]
          exact ha
        · rcases List.mem_append.mp he with he | he
          · have hle := h.session e he
            simp only
            split_ifs with hn
            · rw [hn] at hle
              omega
            · exact hle
          · rw [List.mem_singleton.mp he, hid]
            simp
        · rcases List.mem_append.mp hin with hin | hin
          · obtain ⟨e, he, hpart⟩ := h.frags n f hin htotal
            exact ⟨e, List.mem_append_left _ he, hpart⟩
          · obtain ⟨f', hf', heq⟩ := List.mem_map.mp hin
            cases heq
            exact ⟨(id, m), List.mem_append_right _ (List.mem_singleton_self _), hf'⟩
        · simp only [rest_append, hmap]
          rcases List.mem_append.mp he with he | he
          · have hne : e.1 ≠ id := fun heq => hnew (heq ▸ List.mem_map_of_mem he)
            rw [if_neg hne, List.append_nil]
            exact h.progress e he
          · rw [List.mem_singleton.mp he]
            simp only [if_true]
            rw [hnone, List.nil_append]
            have hstrange := h.strange id hnew
            exact ⟨hm, fun _ hf => hf, nodup_partsOf (e := (id, m)) hm, fun n _ => hstrange n,
              Or.inl ⟨List.Perm.refl _, hstrange _⟩⟩
        · rw [List.map_append, List.mem_append, not_or] at hid'
          exact h.strange id' hid'.1 n

theorem Net.Kept.send (h : net.Kept) (node : ℕ) (m : Message) (src : NetId) :
    (step net (.send node m src)).Kept := by
  simp only [step]
  split_ifs with hhere hlong
  · exact h
  · refine ⟨h.ids, h.session, fun n m' hm' => ?_, h.frags, h.progress, h.strange⟩
    simp only at hm'
    split_ifs at hm'
    · rcases List.mem_append.mp hm' with hm' | hm'
      · exact h.outbox n m' hm'
      · rw [List.mem_singleton.mp hm']
        exact List.ne_nil_of_length_pos (by omega)
    · exact h.outbox n m' hm'
  · have hrest : ∀ id, rest id (net.flying ++ [(node, ⟨m.dest, src, 0, 0, m.data⟩)])
        = rest id net.flying := by
      intro id
      rw [rest_append]
      simp [rest]
    refine ⟨h.ids, h.session, h.outbox, fun n f hin htotal => ?_, fun e he => ?_, h.strange⟩
    · rcases List.mem_append.mp hin with hin | hin
      · exact h.frags n f hin htotal
      · cases List.mem_singleton.mp hin
        exact absurd rfl htotal
    · rw [hrest]
      exact h.progress e he

theorem Net.Kept.ping (h : net.Kept) (node : ℕ) : (step net (.ping node)).Kept := by
  refine ⟨h.ids, fun e he => ?_, h.outbox, h.frags, h.progress, h.strange⟩
  have hle := h.session e he
  simp only [step]
  split_ifs
  · omega
  · exact hle

/-- A fragment goes over a link. -/
theorem Net.Kept.hop (h : net.Kept) (node next : ℕ) (f : Frag) : (step net (.hop node next f)).Kept := by
  simp only [step]
  split_ifs with hin hcome hpacket
  · -- it comes where its parcel is for
    obtain ⟨e₀, he₀, hpart₀⟩ := h.frags node f hin hcome.1
    obtain ⟨-, hsrc₀, -, -, -, -⟩ := mem_partsOf (h.progress e₀ he₀).data hpart₀
    refine ⟨h.ids, h.session, h.outbox, fun n g hg => h.frags n g (List.mem_of_mem_erase hg),
      fun e he => ?_, fun id hid n => ?_⟩
    · have herase := rest_erase e.1 hin
      have hprogress := h.progress e he
      by_cases hsrc : f.src = e.1
      · rw [if_pos ⟨hsrc, hcome.1⟩] at herase
        have hleft : f ∈ rest e.1 net.flying := mem_rest.mpr ⟨⟨node, hin⟩, hsrc, hcome.1⟩
        obtain ⟨hdest, -, -, -, -, -⟩ := mem_partsOf hprogress.data (hprogress.sub f hleft)
        have harrive : Progress e ((rest e.1 net.flying).erase f)
            (fun n => if n = next then mailIn (net.mail n) f else net.mail n) :=
          hprogress.arrive hleft (fun n => by rw [← hcome.2, hdest])
        exact harrive.congr herase.symm (fun n => ⟨rfl, rfl⟩)
      · rw [if_neg (fun hh => hsrc hh.1)] at herase
        refine hprogress.congr herase.symm (fun n => ?_)
        simp only
        split_ifs
        · exact mailIn_of_ne hsrc
        · exact ⟨rfl, rfl⟩
    · have hne : f.src ≠ id := fun heq => hid (heq ▸ hsrc₀ ▸ List.mem_map_of_mem he₀)
      simp only
      split_ifs
      · rw [(mailIn_of_ne hne).1, (mailIn_of_ne hne).2]
        exact h.strange id hid n
      · exact h.strange id hid n
  · -- it is no parcel's
    have hzero : f.total = 0 := by
      by_contra htotal
      exact hcome ⟨htotal, hpacket⟩
    refine ⟨h.ids, h.session, h.outbox, fun n g hg => h.frags n g (List.mem_of_mem_erase hg),
      fun e he => ?_, h.strange⟩
    have herase := rest_erase e.1 hin
    rw [if_neg (fun hh => hh.2 hzero)] at herase
    exact (h.progress e he).congr herase.symm (fun n => ⟨rfl, rfl⟩)
  · -- it is sent on
    have hmoved : ∀ id, (rest id net.flying).Perm (rest id (net.flying.erase (node, f) ++ [(next, f)])) := by
      intro id
      have hall := (((List.perm_cons_erase hin).map Prod.snd).filter
        (fun f => decide (f.src = id ∧ f.total ≠ 0)))
      refine hall.trans ?_
      have hswap : ((next, f) :: net.flying.erase (node, f)).Perm
          (net.flying.erase (node, f) ++ [(next, f)]) := (List.perm_append_singleton _ _).symm
      exact (hswap.map Prod.snd).filter _
    refine ⟨h.ids, h.session, h.outbox, fun n g hg htotal => ?_, fun e he => ?_, h.strange⟩
    · rcases List.mem_append.mp hg with hg | hg
      · exact h.frags n g (List.mem_of_mem_erase hg) htotal
      · cases List.mem_singleton.mp hg
        exact h.frags node f hin htotal
    · exact (h.progress e he).congr (hmoved e.1) (fun n => ⟨rfl, rfl⟩)
  · exact h

theorem Net.Kept.step (h : net.Kept) (act : Act) : (step net act).Kept := by
  cases act with
  | send node m src => exact h.send node m src
  | out node => exact h.out node
  | ping node => exact h.ping node
  | hop node next f => exact h.hop node next f

end Kept

end ChrysaLisp.Parcels
