import Mathlib.Data.List.Basic

set_option autoImplicit false

/-! # Lines, and a piece of text among them

A text as a list of lines, each with the one end of line, at its end. A piece of it is within one line
or goes from one line to another (`Piece`), and a list of lines with a piece in it between two parts
of a line is that without it (`Piece.between`). Any text is such a piece (`exists_piece`), and what is
from one place to another of a list of lines is one (`exists_between`). -/

namespace Lines

variable {α : Type*} {nl : α}

/-- A line: its end is at its end and nowhere else. -/
def IsLine (nl : α) (line : List α) : Prop := ∃ body, nl ∉ body ∧ line = body ++ [nl]

theorem IsLine.length_pos {line : List α} (h : IsLine nl line) : 0 < line.length := by
  obtain ⟨body, -, rfl⟩ := h
  simp

/-- Text before a line, with no end of line in it, makes a line of it still. -/
theorem IsLine.append {u line : List α} (hu : nl ∉ u) (h : IsLine nl line) : IsLine nl (u ++ line) := by
  obtain ⟨body, hbody, rfl⟩ := h
  refine ⟨u ++ body, ?_, by simp⟩
  rw [List.mem_append]
  exact fun hin => hin.elim hu hbody

theorem IsLine.getLast? {line : List α} (h : IsLine nl line) : line.getLast? = some nl := by
  obtain ⟨body, -, rfl⟩ := h
  simp

/-- A line is cut anywhere before its end. -/
theorem IsLine.cut {line : List α} {x : ℕ} (h : IsLine nl line) (hx : x < line.length) :
    ∃ u v, line = u ++ v ∧ u.length = x ∧ nl ∉ u ∧ IsLine nl v := by
  obtain ⟨body, hbody, rfl⟩ := h
  have hle : x ≤ body.length := by
    rw [List.length_append, List.length_singleton] at hx
    omega
  refine ⟨body.take x, body.drop x ++ [nl], ?_, List.length_take_of_le hle, ?_, ?_⟩
  · rw [← List.append_assoc, List.take_append_drop]
  · exact fun hin => hbody (List.mem_of_mem_take hin)
  · exact ⟨body.drop x, fun hin => hbody (List.mem_of_mem_drop hin), rfl⟩

/-- A piece of text: of one line, or what is left of the first line, the lines between, and what there
    is of the last. -/
inductive Piece (α : Type*) where
  | one (text : List α)
  | more (first : List α) (mid : List (List α)) (last : List α)

namespace Piece

/-- Its text. -/
def text : Piece α → List α
  | one t => t
  | more first mid last => first ++ mid.flatten ++ last

/-- It is in lines as it says. -/
def Ok (nl : α) : Piece α → Prop
  | one t => nl ∉ t
  | more first mid last => IsLine nl first ∧ (∀ l ∈ mid, IsLine nl l) ∧ nl ∉ last

/-- The lines there are with it between two parts of a line. -/
def between (u v : List α) : Piece α → List (List α)
  | one t => [u ++ t ++ v]
  | more first mid last => (u ++ first) :: mid ++ [last ++ v]

/-- Where it ends if it starts at a column of a line. -/
def endAt (x y : ℕ) : Piece α → ℕ × ℕ
  | one t => (x + t.length, y)
  | more _ mid last => (last.length, y + mid.length + 1)

variable {p : Piece α} {u v : List α}

theorem length_between_pos : 0 < (p.between u v).length := by
  cases p <;> simp [between]

/-- With it between them there are lines still. -/
theorem isLine_between (hp : p.Ok nl) (hu : nl ∉ u) (hv : IsLine nl v) :
    ∀ l ∈ p.between u v, IsLine nl l := by
  cases p with
  | one t =>
      intro l hl
      rw [between, List.mem_singleton] at hl
      rw [hl]
      refine hv.append ?_
      rw [List.mem_append]
      exact fun hin => hin.elim hu hp
  | more first mid last =>
      obtain ⟨hfirst, hmid, hlast⟩ := hp
      intro l hl
      rw [between, List.cons_append, List.mem_cons, List.mem_append, List.mem_singleton] at hl
      rcases hl with rfl | hl | rfl
      · exact hfirst.append hu
      · exact hmid l hl
      · exact hv.append hlast

end Piece

/-- Any text is a piece. -/
theorem exists_piece (nl : α) (t : List α) : ∃ p : Piece α, p.Ok nl ∧ p.text = t := by
  classical
  induction t with
  | nil => exact ⟨.one [], List.not_mem_nil, rfl⟩
  | cons c t ih =>
      obtain ⟨p, hp, rfl⟩ := ih
      by_cases hc : c = nl
      · -- a line of nothing first
        have hline : IsLine nl [c] := ⟨[], List.not_mem_nil, by rw [hc]; rfl⟩
        cases p with
        | one t => exact ⟨.more [c] [] t, ⟨hline, by simp, hp⟩, rfl⟩
        | more first mid last =>
            refine ⟨.more [c] (first :: mid) last, ⟨hline, ?_, hp.2.2⟩, ?_⟩
            · intro l hl
              rcases List.mem_cons.1 hl with rfl | hl
              · exact hp.1
              · exact hp.2.1 l hl
            · simp [Piece.text]
      · have hone : nl ∉ [c] := by
          rw [List.mem_singleton]
          exact fun heq => hc heq.symm
        cases p with
        | one t =>
            refine ⟨.one (c :: t), ?_, rfl⟩
            show nl ∉ c :: t
            rw [List.mem_cons]
            exact fun hin => hin.elim (fun heq => hc heq.symm) hp
        | more first mid last =>
            exact ⟨.more (c :: first) mid last, ⟨hp.1.append hone, hp.2⟩, rfl⟩

/-- A place in a list of lines: a column of a line, before its end or at it. -/
def Place (ls : List (List α)) (x y : ℕ) : Prop := ∃ l, ls[y]? = some l ∧ x < l.length

/-- One place comes before another, or is it. -/
def Le (x y x' y' : ℕ) : Prop := y < y' ∨ (y = y' ∧ x ≤ x')

/-- What is from one place of a list of lines to another is a piece of it. -/
theorem exists_between {ls : List (List α)} (hls : ∀ l ∈ ls, IsLine nl l) {x y x' y' : ℕ}
    (hxy : Place ls x y) (hxy' : Place ls x' y') (hle : Le x y x' y') :
    ∃ (as bs : List (List α)) (u v : List α) (p : Piece α), ls = as ++ p.between u v ++ bs ∧
      as.length = y ∧ u.length = x ∧ p.endAt x y = (x', y') ∧ p.Ok nl ∧ nl ∉ u ∧ IsLine nl v := by
  obtain ⟨l, hl, hx⟩ := hxy
  obtain ⟨l', hl', hx'⟩ := hxy'
  have hsplit : ∀ {n : ℕ} {k : List α}, ls[n]? = some k → ls = ls.take n ++ k :: ls.drop (n + 1) ∧
      (ls.take n).length = n := by
    intro n k hk
    obtain ⟨hlt, rfl⟩ := List.getElem?_eq_some_iff.1 hk
    rw [← List.drop_eq_getElem_cons hlt]
    exact ⟨(List.take_append_drop n ls).symm, List.length_take_of_le (Nat.le_of_lt hlt)⟩
  obtain ⟨hsp, hlen⟩ := hsplit hl
  have hline := hls l (List.mem_of_getElem? hl)
  rcases hle with hlt | ⟨rfl, hxle⟩
  · -- of two lines
    obtain ⟨u, v, rfl, hu, hnu, hv⟩ := hline.cut hx
    obtain ⟨u', v', rfl, hu', hnu', hv'⟩ := (hls l' (List.mem_of_getElem? hl')).cut hx'
    have hrest : (ls.drop (y + 1))[y' - y - 1]? = some (u' ++ v') := by
      rw [List.getElem?_drop, ← hl']
      congr 1
      omega
    obtain ⟨hlt', heq⟩ := List.getElem?_eq_some_iff.1 hrest
    have hsp' : ls.drop (y + 1) = (ls.drop (y + 1)).take (y' - y - 1) ++ (u' ++ v') ::
        (ls.drop (y + 1)).drop (y' - y - 1 + 1) := by
      rw [← heq, ← List.drop_eq_getElem_cons hlt', List.take_append_drop]
    refine ⟨ls.take y, (ls.drop (y + 1)).drop (y' - y - 1 + 1), u, v',
      .more v ((ls.drop (y + 1)).take (y' - y - 1)) u', ?_, hlen, hu, ?_, ⟨hv, ?_, hnu'⟩, hnu, hv'⟩
    · rw [Piece.between, List.append_assoc, List.append_assoc, List.singleton_append,
        List.cons_append, ← hsp', ← hsp]
    · rw [Piece.endAt, hu', List.length_take_of_le (Nat.le_of_lt hlt')]
      congr 1
      omega
    · exact fun k hk => hls k (List.mem_of_mem_drop (List.mem_of_mem_take hk))
  · -- of one
    obtain rfl : l = l' := Option.some.inj (hl.symm.trans hl')
    obtain ⟨w, v, rfl, hw, hnw, hv⟩ := hline.cut hx'
    refine ⟨ls.take y, ls.drop (y + 1), w.take x, v, .one (w.drop x), ?_, hlen, ?_, ?_, ?_, ?_, hv⟩
    · rw [Piece.between, List.take_append_drop, List.append_assoc, List.singleton_append, ← hsp]
    · exact List.length_take_of_le (hw ▸ hxle)
    · rw [Piece.endAt, List.length_drop, hw, Nat.add_sub_cancel' hxle]
    · exact fun hin => hnw (List.mem_of_mem_drop hin)
    · exact fun hin => hnw (List.mem_of_mem_take hin)

/-! ## Places -/

variable {as bs : List (List α)} {u v : List α} {p : Piece α}

/-- A place is between two parts of a line. -/
theorem exists_place {ls : List (List α)} (hls : ∀ l ∈ ls, IsLine nl l) {x y : ℕ}
    (h : Place ls x y) : ∃ (as bs : List (List α)) (u v : List α), ls = as ++ (u ++ v) :: bs ∧
      as.length = y ∧ u.length = x ∧ nl ∉ u ∧ IsLine nl v := by
  obtain ⟨as, bs, u, v, p, hsp, hy, hx, hend, -, hu, hv⟩ :=
    exists_between hls h h (Or.inr ⟨rfl, Nat.le_refl x⟩)
  cases p with
  | one t =>
      have hzero : t.length = 0 := by
        have hcol : x + t.length = x := congrArg Prod.fst hend
        omega
      rw [List.length_eq_zero_iff.1 hzero] at hsp
      refine ⟨as, bs, u, v, ?_, hy, hx, hu, hv⟩
      rw [hsp, Piece.between, List.append_nil, List.append_assoc, List.singleton_append]
  | more first mid last =>
      have hrow : y + mid.length + 1 = y := congrArg Prod.snd hend
      omega

theorem place_start (hv : IsLine nl v) :
    Place (as ++ (u ++ v) :: bs) u.length as.length := by
  refine ⟨u ++ v, by simp, ?_⟩
  have hpos := hv.length_pos
  rw [List.length_append]
  omega

theorem place_between_start (hp : p.Ok nl) (hv : IsLine nl v) :
    Place (as ++ p.between u v ++ bs) u.length as.length := by
  have hpos := hv.length_pos
  cases p with
  | one t =>
      refine ⟨u ++ t ++ v, by simp [Piece.between], ?_⟩
      rw [List.length_append, List.length_append]
      omega
  | more first mid last =>
      have hfirst := hp.1.length_pos
      refine ⟨u ++ first, by simp [Piece.between], ?_⟩
      rw [List.length_append]
      omega

theorem place_between_end (hv : IsLine nl v) : Place (as ++ p.between u v ++ bs)
    (p.endAt u.length as.length).1 (p.endAt u.length as.length).2 := by
  have hpos := hv.length_pos
  cases p with
  | one t =>
      refine ⟨u ++ t ++ v, by simp [Piece.between, Piece.endAt], ?_⟩
      simp only [Piece.endAt, List.length_append]
      omega
  | more first mid last =>
      have hcat : as ++ ((u ++ first) :: mid ++ [last ++ v]) ++ bs
          = (as ++ (u ++ first) :: mid) ++ (last ++ v) :: bs := by simp
      have hlen : as.length + mid.length + 1 = (as ++ (u ++ first) :: mid).length := by
        simp [Nat.add_assoc]
      refine ⟨last ++ v, ?_, ?_⟩
      · show (as ++ ((u ++ first) :: mid ++ [last ++ v]) ++ bs)[as.length + mid.length + 1]? = _
        rw [hcat, hlen]
        simp
      · simp only [Piece.endAt, List.length_append]
        omega

/-- A piece with some text in it ends after it starts. -/
theorem endAt_of_ne (h : p.text ≠ []) (x y : ℕ) :
    Le x y (p.endAt x y).1 (p.endAt x y).2 ∧ ¬ (x = (p.endAt x y).1 ∧ y = (p.endAt x y).2) := by
  cases p with
  | one t =>
      have hpos : 0 < t.length := List.length_pos_iff.2 h
      refine ⟨Or.inr ⟨rfl, Nat.le_add_right _ _⟩, fun hxy => ?_⟩
      have hx : x = x + t.length := hxy.1
      omega
  | more first mid last =>
      refine ⟨Or.inl ?_, fun hxy => ?_⟩
      · show y < y + mid.length + 1
        omega
      · have hy : y = y + mid.length + 1 := hxy.2
        omega

/-- A piece that ends where it does not start has some text in it. -/
theorem text_ne_nil (hp : p.Ok nl) {x y : ℕ}
    (h : ¬ (x = (p.endAt x y).1 ∧ y = (p.endAt x y).2)) : p.text ≠ [] := by
  intro hnil
  cases p with
  | one t =>
      have ht : t = [] := hnil
      exact h ⟨by simp [Piece.endAt, ht], rfl⟩
  | more first mid last =>
      have hpos := hp.1.length_pos
      have hlen := congrArg List.length hnil
      simp only [Piece.text, List.length_append, List.length_nil] at hlen
      omega

end Lines
