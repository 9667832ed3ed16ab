import Mathlib.Data.Nat.Bitwise
import ChrysaLisp.Lisp.Str
import ChrysaLisp.Library.Run

set_option autoImplicit false

/-! # The door of a link

`service/net/door.inc`. Any number of sessions of `door-shake` run at once, at either end of
connections, under one key. What the other end of a connection gives a session is anything it can
make: what was said before, by this session or another, or what it makes up, but for the tag of a
text that no session has said. -/

namespace ChrysaLisp.Door

open Run

def doorWord : Str := asc "CLDOOR1"

def nonceSize : ℕ := 16

def helloSize : ℕ := 23

def tagSize : ℕ := 32

section

variable (hmac_sha256 : Str → Str → Str) (key : Str)

/-- What `door-tag` is the tag of. -/
def tagText (dialler : Bool) (dial_nonce listen_nonce : Str) : Str :=
  doorWord ++ (asc (if dialler then "D" else "L") ++ (dial_nonce ++ listen_nonce))

def doorTag (dialler : Bool) (dial_nonce listen_nonce : Str) : Str :=
  hmac_sha256 key (tagText dialler dial_nonce listen_nonce)

/-- `door-same?` -/
def doorSame (a b : Str) : Bool :=
  a.length == b.length && ((a.zip b).foldl (fun differ p => differ ||| (p.1.val ^^^ p.2.val)) 0) == 0

/-! ## A session -/

/-- What `net-send` gives, the bytes it took or what is not a number or below 0, and what
    `net-recv` gives, if anything, each with if it is too late by then. -/
inductive Reply
  | sent (n : Option ℤ) (late : Bool)
  | part (bytes : Option Str) (late : Bool)

/-- Where `door-shake` is, with what is sent or has come so far. -/
inductive Stage
  | helloOut (at_ : ℕ)
  | helloIn (got : Str)
  | tagOut (at_ : ℕ)
  | tagIn (got : Str)
  | ended (through : Bool)
  deriving DecidableEq

/-- A run of `door-shake`. `told` is if its tag has been sent, all of it. -/
structure Session where
  dialler : Bool
  mine : Str
  theirs : Option Str
  told : Bool
  stage : Stage
  deriving DecidableEq

/-- A turn of `door-send`: how far it is, if it goes on. -/
def doorSend (at_ : ℕ) : Option ℤ → Bool → Option ℕ
  | none, _ => none
  | some n, late =>
      if n < 0 then none
      else if 0 < n then some (at_ + n.toNat)
      else if late then none
      else some at_

/-- A turn of `door-recv`: what it has, if it goes on. -/
def doorRecv (got : Str) : Option Str → Bool → Option Str
  | none, _ => none
  | some part, late =>
      if part ≠ [] then some (got ++ part)
      else if late then none
      else some got

variable (a : Session)

def Session.dialNonce (theirs : Str) : Str := if a.dialler then a.mine else theirs

def Session.listenNonce (theirs : Str) : Str := if a.dialler then theirs else a.mine

/-- What the tag of this end is of. -/
def Session.text (theirs : Str) : Str :=
  tagText a.dialler (a.dialNonce theirs) (a.listenNonce theirs)

/-- What the tag of the other end is of. -/
def Session.otherText (theirs : Str) : Str :=
  tagText (!a.dialler) (a.dialNonce theirs) (a.listenNonce theirs)

def Session.fail : Session := { a with stage := .ended false }

/-- The hello of the other end, all of it. -/
def Session.heard (hello : Str) : Session :=
  if hello.take doorWord.length = doorWord then
    let theirs := hello.drop doorWord.length
    -- the two nonces must not be the one, or an end could be answered with itself
    if doorSame a.mine theirs then { a with theirs := some theirs, stage := .ended false }
    else { a with theirs := some theirs, stage := .tagOut 0 }
  else a.fail

/-- A turn of `door-shake`. -/
def Session.turn (r : Reply) : Session :=
  match a.stage, r with
  | .helloOut at_, .sent n late =>
      match doorSend at_ n late with
      | none => a.fail
      | some at_ => { a with stage := if at_ < helloSize then .helloOut at_ else .helloIn [] }
  | .helloIn got, .part bytes late =>
      match doorRecv got bytes late with
      | none => a.fail
      | some got => if got.length < helloSize then { a with stage := .helloIn got } else a.heard got
  | .tagOut at_, .sent n late =>
      match doorSend at_ n late with
      | none => a.fail
      | some at_ =>
          if at_ < tagSize then { a with stage := .tagOut at_ }
          else { a with told := true, stage := .tagIn [] }
  | .tagIn got, .part bytes late =>
      match doorRecv got bytes late with
      | none => a.fail
      | some got =>
          if got.length < tagSize then { a with stage := .tagIn got }
          else
            let theirs := a.theirs.getD []
            { a with stage := .ended (doorSame got
              (doorTag hmac_sha256 key (!a.dialler) (a.dialNonce theirs) (a.listenNonce theirs))) }
  | _, _ => a

/-! ## All of them -/

/-- A session begun, with the nonce it makes up, and a turn of one. -/
inductive Event
  | start (dialler : Bool) (nonce : Str)
  | turn (i : ℕ) (r : Reply)

abbrev State := List Session

def step (s : State) : Event → State
  | .start dialler nonce => s ++ [⟨dialler, nonce, none, false, .helloOut 0⟩]
  | .turn i r =>
      match s[i]? with
      | none => s
      | some a => s.set i (a.turn hmac_sha256 key r)

/-- A session has said the tag of this text. -/
def Said (s : State) (text : Str) : Prop :=
  ∃ b ∈ s, b.told = true ∧ ∃ theirs, b.theirs = some theirs ∧ b.text theirs = text

/-- What can be: a nonce is never made twice, no more comes than was asked for, and what has come
    for a tag is that of the text it is checked against only if that was said. -/
def Can (s : State) : Event → Prop
  | .start _ nonce => nonce.length = nonceSize ∧ ∀ b ∈ s, b.mine ≠ nonce
  | .turn i (.part (some bytes) _) =>
      ∀ a, s[i]? = some a →
        (∀ got, a.stage = .helloIn got → got.length + bytes.length ≤ helloSize) ∧
        (∀ got theirs, a.stage = .tagIn got → a.theirs = some theirs →
          got ++ bytes = hmac_sha256 key (a.otherText theirs) → Said s (a.otherText theirs))
  | .turn _ _ => True

end

/-- This session, if it is through, is through by that one. -/
def Answers (a b : Session) : Prop :=
  b.dialler = !a.dialler ∧ a.theirs = some b.mine ∧ b.theirs = some a.mine ∧ b.told = true

/-! ## Tags -/

theorem xor_eq_zero {m n : ℕ} : m ^^^ n = 0 ↔ m = n := by
  constructor
  · intro h
    calc m = m ^^^ n ^^^ n := by rw [Nat.xor_assoc, Nat.xor_self, Nat.xor_zero]
      _ = n := by rw [h, Nat.zero_xor]
  · rintro rfl
    exact Nat.xor_self m

/-- No byte differs. -/
theorem foldl_differ_eq_zero (l : List (Byte × Byte)) (n : ℕ) :
    l.foldl (fun differ p => differ ||| (p.1.val ^^^ p.2.val)) n = 0 ↔
      n = 0 ∧ ∀ p ∈ l, p.1 = p.2 := by
  induction l generalizing n with
  | nil => simp
  | cons p l ih =>
    rw [List.foldl_cons, ih, Nat.or_eq_zero_iff, xor_eq_zero, Fin.val_inj, and_assoc,
      List.forall_mem_cons]

theorem doorSame_iff {a b : Str} : doorSame a b = true ↔ a = b := by
  rw [doorSame, Bool.and_eq_true, beq_iff_eq, beq_iff_eq, foldl_differ_eq_zero]
  constructor
  · rintro ⟨hlen, -, hsame⟩
    refine List.ext_getElem hlen (fun i hi hi' => ?_)
    refine hsame (a[i], b[i]) (List.mem_iff_getElem.2 ⟨i, ?_, List.getElem_zip⟩)
    rw [List.length_zip]
    exact lt_min hi hi'
  · rintro rfl
    refine ⟨rfl, rfl, fun p hp => ?_⟩
    obtain ⟨i, hi, rfl⟩ := List.mem_iff_getElem.1 hp
    rw [List.getElem_zip]

theorem asc_part_length (dialler : Bool) : (asc (if dialler then "D" else "L")).length = 1 := by
  cases dialler <;> rfl

/-- What a tag is of says whose it is and of which nonces. -/
theorem tagText_inj {d d' : Bool} {m n m' n' : Str} (hm : m.length = m'.length)
    (h : tagText d m n = tagText d' m' n') : d = d' ∧ m = m' ∧ n = n' := by
  have hparts := List.append_cancel_left h
  obtain ⟨hd, hnonces⟩ := List.append_inj hparts
    ((asc_part_length d).trans (asc_part_length d').symm)
  obtain ⟨hm, hn⟩ := List.append_inj hnonces hm
  refine ⟨?_, hm, hn⟩
  cases d <;> cases d' <;> first | rfl | exact absurd hd (by decide)

/-! ## A turn -/

variable {hmac_sha256 : Str → Str → Str} {key : Str}

/-- What a turn can make of a session. -/
inductive Turned (hmac_sha256 : Str → Str → Str) (key : Str) (a : Session) (r : Reply) :
    Session → Prop
  | same : Turned hmac_sha256 key a r a
  | fail : Turned hmac_sha256 key a r a.fail
  | helloOut {n n' : ℕ} (h : a.stage = .helloOut n) :
      Turned hmac_sha256 key a r { a with stage := .helloOut n' }
  | helloSent {n : ℕ} (h : a.stage = .helloOut n) :
      Turned hmac_sha256 key a r { a with stage := .helloIn [] }
  | helloIn {got bytes : Str} {late : Bool} (h : a.stage = .helloIn got)
      (hr : r = .part (some bytes) late) :
      Turned hmac_sha256 key a r { a with stage := .helloIn (got ++ bytes) }
  | heard {got bytes : Str} {late : Bool} (h : a.stage = .helloIn got)
      (hr : r = .part (some bytes) late) (hsize : helloSize ≤ (got ++ bytes).length) :
      Turned hmac_sha256 key a r (a.heard (got ++ bytes))
  | tagOut {n n' : ℕ} (h : a.stage = .tagOut n) :
      Turned hmac_sha256 key a r { a with stage := .tagOut n' }
  | tagSent {n : ℕ} (h : a.stage = .tagOut n) :
      Turned hmac_sha256 key a r { a with told := true, stage := .tagIn [] }
  | tagIn {got bytes : Str} {late : Bool} (h : a.stage = .tagIn got)
      (hr : r = .part (some bytes) late) :
      Turned hmac_sha256 key a r { a with stage := .tagIn (got ++ bytes) }
  | checked {got bytes : Str} {late : Bool} (h : a.stage = .tagIn got)
      (hr : r = .part (some bytes) late) :
      Turned hmac_sha256 key a r { a with stage := .ended (doorSame (got ++ bytes)
        (hmac_sha256 key (a.otherText (a.theirs.getD [])))) }

theorem doorRecv_cases (got : Str) (part : Option Str) (late : Bool) :
    doorRecv got part late = none ∨
      ∃ bytes, part = some bytes ∧ doorRecv got part late = some (got ++ bytes) := by
  cases part with
  | none => exact Or.inl rfl
  | some bytes =>
    rw [doorRecv]
    split_ifs with hbytes hlate
    · exact Or.inr ⟨bytes, rfl, rfl⟩
    · exact Or.inl rfl
    · exact Or.inr ⟨bytes, rfl, by rw [not_not.1 hbytes, List.append_nil]⟩

theorem turned (a : Session) (r : Reply) :
    Turned hmac_sha256 key a r (a.turn hmac_sha256 key r) := by
  cases hstage : a.stage with
  | helloOut n =>
    cases r with
    | part bytes late => simpa only [Session.turn, hstage] using Turned.same
    | sent m late =>
      simp only [Session.turn, hstage]
      cases doorSend n m late with
      | none => exact .fail
      | some n' =>
        dsimp only
        split_ifs
        · exact .helloOut hstage
        · exact .helloSent hstage
  | helloIn got =>
    cases r with
    | sent m late => simpa only [Session.turn, hstage] using Turned.same
    | part bytes late =>
      simp only [Session.turn, hstage]
      rcases doorRecv_cases got bytes late with hnone | ⟨bytes, rfl, hsome⟩
      · rw [hnone]
        exact .fail
      · rw [hsome]
        dsimp only
        split_ifs with hsize
        · exact .helloIn hstage rfl
        · exact .heard hstage rfl (not_lt.1 hsize)
  | tagOut n =>
    cases r with
    | part bytes late => simpa only [Session.turn, hstage] using Turned.same
    | sent m late =>
      simp only [Session.turn, hstage]
      cases doorSend n m late with
      | none => exact .fail
      | some n' =>
        dsimp only
        split_ifs
        · exact .tagOut hstage
        · exact .tagSent hstage
  | tagIn got =>
    cases r with
    | sent m late => simpa only [Session.turn, hstage] using Turned.same
    | part bytes late =>
      simp only [Session.turn, hstage]
      rcases doorRecv_cases got bytes late with hnone | ⟨bytes, rfl, hsome⟩
      · rw [hnone]
        exact .fail
      · rw [hsome]
        dsimp only
        split_ifs with hsize
        · exact .tagIn hstage rfl
        · exact .checked hstage rfl
  | ended through => cases r <;> simpa only [Session.turn, hstage] using Turned.same

/-! ## What holds of every run -/

/-- What a session has by each stage. -/
structure Session.Good (s : State) (a : Session) : Prop where
  mine : a.mine.length = nonceSize
  theirs : ∀ t, a.theirs = some t → t.length = nonceSize
  early : ∀ n got, a.stage = .helloOut n ∨ a.stage = .helloIn got → a.told = false
  late : ∀ n got, a.stage = .tagOut n ∨ a.stage = .tagIn got → ∃ t, a.theirs = some t
  through : a.stage = .ended true → ∃ t, a.theirs = some t ∧ Said s (a.otherText t)

/-- What a session is and has said, it is and has said for good. -/
structure Session.Kept (a a' : Session) : Prop where
  dialler : a'.dialler = a.dialler
  mine : a'.mine = a.mine
  told : a.told = true → a'.told = true ∧ a'.theirs = a.theirs

theorem heard_cases (a : Session) (hello : Str) : a.heard hello = a.fail ∨
    ∃ stage, (stage = .ended false ∨ stage = .tagOut 0) ∧
      a.heard hello = { a with theirs := some (hello.drop doorWord.length), stage := stage } := by
  by_cases hword : hello.take doorWord.length = doorWord
  · by_cases hsame : doorSame a.mine (hello.drop doorWord.length) = true
    · exact Or.inr ⟨_, Or.inl rfl, by simp only [Session.heard, hword, hsame, if_true]⟩
    · exact Or.inr ⟨_, Or.inr rfl, by simp only [Session.heard, hword, hsame, if_true]; rfl⟩
  · exact Or.inl (by simp only [Session.heard, hword, if_false])

theorem Turned.kept {s : State} {a a' : Session} {r : Reply} (h : Turned hmac_sha256 key a r a')
    (ha : a.Good s) : a.Kept a' := by
  cases h with
  | heard h hr hsize =>
    have htold := ha.early 0 _ (Or.inr h)
    rcases heard_cases a _ with hfail | ⟨stage, -, hheard⟩
    · rw [hfail]
      exact ⟨rfl, rfl, fun ht => ⟨ht, rfl⟩⟩
    · rw [hheard]
      exact ⟨rfl, rfl, fun ht => absurd (htold.symm.trans ht) (by decide)⟩
  | tagSent => exact ⟨rfl, rfl, fun _ => ⟨rfl, rfl⟩⟩
  | _ => exact ⟨rfl, rfl, fun ht => ⟨ht, rfl⟩⟩

/-- Only a part that comes can be more than was asked for, or a tag no one said. -/
def Fed (hmac_sha256 : Str → Str → Str) (key : Str) (s : State) (a : Session) (r : Reply) : Prop :=
  ∀ bytes late, r = .part (some bytes) late →
    (∀ got, a.stage = .helloIn got → got.length + bytes.length ≤ helloSize) ∧
    (∀ got theirs, a.stage = .tagIn got → a.theirs = some theirs →
      got ++ bytes = hmac_sha256 key (a.otherText theirs) → Said s (a.otherText theirs))

theorem Turned.good {s : State} {a a' : Session} {r : Reply} (h : Turned hmac_sha256 key a r a')
    (ha : a.Good s) (hfed : Fed hmac_sha256 key s a r) : a'.Good s := by
  cases h with
  | same => exact ha
  | fail => exact ⟨ha.mine, ha.theirs, by simp [Session.fail], by simp [Session.fail],
      by simp [Session.fail]⟩
  | helloOut h | helloSent h =>
    exact ⟨ha.mine, ha.theirs, fun _ _ _ => ha.early _ [] (Or.inl h), by simp, by simp⟩
  | helloIn h hr =>
    exact ⟨ha.mine, ha.theirs, fun _ _ _ => ha.early 0 _ (Or.inr h), by simp, by simp⟩
  | heard h hr hsize =>
    rename_i got bytes late
    rcases heard_cases a (got ++ bytes) with hfail | ⟨stage, hstage, hheard⟩
    · rw [hfail]
      exact ⟨ha.mine, ha.theirs, by simp [Session.fail], by simp [Session.fail],
        by simp [Session.fail]⟩
    · rw [hheard]
      have hbound := (hfed bytes late hr).1 got h
      have htheirs : ((got ++ bytes).drop doorWord.length).length = nonceSize := by
        rw [List.length_drop, le_antisymm (List.length_append ▸ hbound) hsize]
        rfl
      refine ⟨ha.mine, ?_, ?_, fun _ _ _ => ⟨_, rfl⟩, ?_⟩
      · rintro t ⟨⟩
        exact htheirs
      all_goals rcases hstage with rfl | rfl <;> simp
  | tagOut h =>
    exact ⟨ha.mine, ha.theirs, by simp, fun _ _ _ => ha.late _ [] (Or.inl h), by simp⟩
  | tagSent h =>
    exact ⟨ha.mine, ha.theirs, by simp, fun _ _ _ => ha.late _ [] (Or.inl h), by simp⟩
  | tagIn h hr =>
    exact ⟨ha.mine, ha.theirs, by simp, fun _ _ _ => ha.late 0 _ (Or.inr h), by simp⟩
  | checked h hr =>
    rename_i got bytes late
    obtain ⟨t, ht⟩ := ha.late 0 _ (Or.inr h)
    refine ⟨ha.mine, ha.theirs, by simp, by simp, fun hthrough => ⟨t, ht, ?_⟩⟩
    rw [Stage.ended.injEq, doorSame_iff, ht, Option.getD_some] at hthrough
    exact (hfed bytes late hr).2 got t h ht hthrough

/-! ## All sessions -/

structure Inv (s : State) : Prop where
  good : ∀ a ∈ s, a.Good s
  nodup : (s.map Session.mine).Nodup

theorem Session.Kept.text {a a' : Session} (h : a.Kept a') (theirs : Str) :
    a'.text theirs = a.text theirs := by
  rw [Session.text, Session.text, Session.dialNonce, Session.dialNonce, Session.listenNonce,
    Session.listenNonce, h.dialler, h.mine]

theorem Session.Good.mono {s s' : State} {a : Session} (h : a.Good s)
    (hsaid : ∀ text, Said s text → Said s' text) : a.Good s' :=
  ⟨h.mine, h.theirs, h.early, h.late, fun hthrough =>
    let ⟨t, ht, hs⟩ := h.through hthrough
    ⟨t, ht, hsaid _ hs⟩⟩

/-- What is said stays said, whatever session goes on. -/
theorem Said.set {s : State} {i : ℕ} {a a' : Session} (hi : s[i]? = some a) (h : a.Kept a')
    (text : Str) (hs : Said s text) : Said (s.set i a') text := by
  obtain ⟨b, hb, htold, t, ht, htext⟩ := hs
  obtain ⟨j, hj⟩ := List.mem_iff_getElem?.1 hb
  by_cases hij : i = j
  · subst hij
    obtain rfl : a = b := Option.some.inj (hi.symm.trans hj)
    obtain ⟨htold', htheirs'⟩ := h.told htold
    refine ⟨a', List.mem_iff_getElem?.2 ⟨i, ?_⟩, htold', t, htheirs'.trans ht, ?_⟩
    · rw [List.getElem?_set_self (List.getElem?_eq_some_iff.1 hi).1]
    · rw [h.text, htext]
  · refine ⟨b, List.mem_iff_getElem?.2 ⟨j, ?_⟩, htold, t, ht, htext⟩
    rw [List.getElem?_set_ne hij, hj]

theorem map_mine_set {s : State} {i : ℕ} {a a' : Session} (hi : s[i]? = some a)
    (h : a'.mine = a.mine) : (s.set i a').map Session.mine = s.map Session.mine := by
  have hlen := (List.getElem?_eq_some_iff.1 hi).1
  refine List.ext_getElem? (fun j => ?_)
  rw [List.getElem?_map, List.getElem?_map]
  by_cases hij : i = j
  · rw [← hij, List.getElem?_set_self hlen, hi, Option.map_some, Option.map_some, h]
  · rw [List.getElem?_set_ne hij]

theorem Can.fed {s : State} {i : ℕ} {r : Reply} {a : Session}
    (h : Can hmac_sha256 key s (.turn i r)) (hi : s[i]? = some a) : Fed hmac_sha256 key s a r := by
  rintro bytes late rfl
  exact h a hi

theorem inv_step (s : State) (e : Event) (hs : Inv s) (hcan : Can hmac_sha256 key s e) :
    Inv (step hmac_sha256 key s e) := by
  cases e with
  | start dialler nonce =>
    have hsaid : ∀ text, Said s text → Said (s ++ [⟨dialler, nonce, none, false, .helloOut 0⟩]) text :=
      fun text ⟨b, hb, hrest⟩ => ⟨b, List.mem_append_left _ hb, hrest⟩
    refine ⟨fun a ha => ?_, ?_⟩
    · rcases List.mem_append.1 ha with ha | ha
      · exact (hs.good a ha).mono hsaid
      · obtain rfl := List.mem_singleton.1 ha
        exact ⟨hcan.1, by simp, by simp, by simp, by simp⟩
    · rw [step, List.map_append, List.nodup_append]
      refine ⟨hs.nodup, List.nodup_singleton _, ?_⟩
      rintro _ hm _ hn rfl
      obtain ⟨b, hb, hmine⟩ := List.mem_map.1 hm
      exact hcan.2 b hb (hmine.trans (List.mem_singleton.1 hn))
  | turn i r =>
    rw [step]
    cases hi : s[i]? with
    | none => exact hs
    | some a =>
      have hturned : Turned hmac_sha256 key a r (a.turn hmac_sha256 key r) := turned a r
      have ha := hs.good a (List.mem_of_getElem? hi)
      have hkept := hturned.kept ha
      refine ⟨fun b hb => Session.Good.mono ?_ (Said.set hi hkept), ?_⟩
      · rcases List.mem_or_eq_of_mem_set hb with hb | rfl
        · exact hs.good b hb
        · exact hturned.good ha (hcan.fed hi)
      · rw [map_mine_set hi hkept.mine]
        exact hs.nodup

/-! ## Through -/

theorem Session.Good.answers {s : State} {a : Session} (ha : a.Good s) (hs : Inv s)
    (hthrough : a.stage = .ended true) : ∃ b ∈ s, Answers a b := by
  obtain ⟨t, ht, b, hb, htold, t', ht', htext⟩ := ha.through hthrough
  have hlen : (b.dialNonce t').length = (a.dialNonce t).length := by
    have hb16 := (hs.good b hb).mine
    have ht16 := (hs.good b hb).theirs t' ht'
    rw [Session.dialNonce, Session.dialNonce, apply_ite List.length, apply_ite List.length, hb16,
      ht16, ha.mine, ha.theirs t ht, ite_self, ite_self]
  obtain ⟨hpart, hdial, hlisten⟩ := tagText_inj hlen htext
  rw [Session.dialNonce, Session.dialNonce, hpart] at hdial
  rw [Session.listenNonce, Session.listenNonce, hpart] at hlisten
  refine ⟨b, hb, hpart, ?_, ?_, htold⟩
  · cases hd : a.dialler <;> simp_all
  · cases hd : a.dialler <;> simp_all

theorem eq_of_mine_eq {s : State} (hs : Inv s) {i j : ℕ} {a b : Session} (hi : s[i]? = some a)
    (hj : s[j]? = some b) (h : a.mine = b.mine) : i = j := by
  have hi' : (s.map Session.mine)[i]? = some a.mine := by rw [List.getElem?_map, hi, Option.map_some]
  have hj' : (s.map Session.mine)[j]? = some a.mine := by
    rw [List.getElem?_map, hj, Option.map_some, h]
  obtain ⟨hi, hget⟩ := List.getElem?_eq_some_iff.1 hi'
  obtain ⟨hj, hget'⟩ := List.getElem?_eq_some_iff.1 hj'
  exact hs.nodup.getElem_inj_iff.1 (hget.trans hget'.symm)

theorem inv_run {es : List Event} (hes : Each (step hmac_sha256 key) (Can hmac_sha256 key) [] es) :
    Inv (run (step hmac_sha256 key) [] es) :=
  inv_of_each inv_step ⟨fun _ ha => absurd ha List.not_mem_nil, List.nodup_nil⟩ hes

/-- Who is through was answered by a session of the other part that holds the key, and has it to
    itself among its own part. -/
theorem door_agreement (hmac_sha256 : Str → Str → Str) (key : Str) (es : List Event)
    (hes : Each (step hmac_sha256 key) (Can hmac_sha256 key) [] es) (i : ℕ) (a : Session)
    (ha : (run (step hmac_sha256 key) [] es)[i]? = some a) (hthrough : a.stage = .ended true) :
    (∃ b ∈ run (step hmac_sha256 key) [] es, Answers a b) ∧
      ∀ (j : ℕ) (a' b : Session), (run (step hmac_sha256 key) [] es)[j]? = some a' →
        a'.stage = .ended true → a'.dialler = a.dialler → Answers a b → Answers a' b → j = i := by
  have hinv := inv_run hes
  refine ⟨(hinv.good a (List.mem_of_getElem? ha)).answers hinv hthrough, ?_⟩
  intro j a' b ha' _ _ hb hb'
  exact eq_of_mine_eq hinv ha' ha (Option.some.inj (hb'.2.2.1.symm.trans hb.2.2.1))

/-! Two sessions that shake, where what comes is what was sent, with the text of a tag, from its part
on, for its tag. -/

def toyTag (_ text : Str) : Str := (text.drop doorWord.length).take tagSize

def toyNonce (b : Byte) : Str := List.replicate nonceSize b

def shakeEvents : List Event :=
  let m := toyNonce 1
  let n := toyNonce 2
  [.start true m, .start false n,
    .turn 0 (.sent (some 23) false), .turn 1 (.sent (some 20) false), .turn 1 (.sent (some 3) false),
    .turn 0 (.part (some (doorWord ++ n)) false), .turn 1 (.part (some (doorWord ++ m)) false),
    .turn 1 (.sent (some 32) false), .turn 0 (.sent (some 32) false),
    .turn 0 (.part (some (toyTag [] (tagText false m n))) false),
    .turn 1 (.part (some (toyTag [] (tagText true m n))) false)]

theorem can_heard {s : State} {i : ℕ} {a : Session} (got : Str) {bytes : Str} {late : Bool}
    (hi : s[i]? = some a) (h : a.stage = .helloIn got)
    (hsize : got.length + bytes.length ≤ helloSize) :
    Can hmac_sha256 key s (.turn i (.part (some bytes) late)) := by
  intro a' ha'
  obtain rfl := Option.some.inj (hi.symm.trans ha')
  refine ⟨fun got' h' => ?_, fun got' _ h' => ?_⟩
  · obtain rfl := Stage.helloIn.inj (h.symm.trans h')
    exact hsize
  · exact absurd (h.symm.trans h') (by simp)

theorem can_tag {s : State} {i : ℕ} {a : Session} (got : Str) {bytes t : Str} {late : Bool}
    (hi : s[i]? = some a) (h : a.stage = .tagIn got) (ht : a.theirs = some t)
    (hsaid : Said s (a.otherText t)) : Can hmac_sha256 key s (.turn i (.part (some bytes) late)) := by
  intro a' ha'
  obtain rfl := Option.some.inj (hi.symm.trans ha')
  refine ⟨fun got' h' => absurd (h.symm.trans h') (by simp), fun got' t' _ ht' _ => ?_⟩
  obtain rfl := Option.some.inj (ht.symm.trans ht')
  exact hsaid

theorem shakeEvents_can : Each (step toyTag []) (Can toyTag []) [] shakeEvents := by
  refine ⟨⟨rfl, by simp⟩, ⟨rfl, ?_⟩, trivial, trivial, trivial, ?_, ?_, trivial, trivial, ?_, ?_,
    trivial⟩
  · rintro b hb
    rw [List.mem_singleton.1 hb]
    decide
  · exact can_heard [] rfl rfl (by decide)
  · exact can_heard [] rfl rfl (by decide)
  · exact can_tag [] rfl rfl rfl ⟨_, List.mem_cons_of_mem _ List.mem_cons_self, rfl, _, rfl, rfl⟩
  · exact can_tag [] rfl rfl rfl ⟨_, List.mem_cons_self, rfl, _, rfl, rfl⟩

theorem door_agreement_shake :
    ∃ b ∈ run (step toyTag []) [] shakeEvents,
      Answers ⟨true, toyNonce 1, some (toyNonce 2), true, .ended true⟩ b :=
  (door_agreement toyTag [] shakeEvents shakeEvents_can 0 _ (by decide) rfl).1

end ChrysaLisp.Door
