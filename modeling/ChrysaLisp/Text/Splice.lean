import ChrysaLisp.Library.Lines
import ChrysaLisp.Text.Buffer

set_option autoImplicit false

/-! # An insert and a delete take each other back

Of lines, what `insertText` does with a text is to put a piece of lines between two parts of a line
(`insertText_eq`), and what `deleteText` does is to take one from between them (`deleteText_eq`), of
which `icopy` is the text. So each takes the other back, whatever lines there are before and after. -/

namespace ChrysaLisp

open Lines

variable {as bs : List Str} {u v : Str} {p : Piece Byte}

theorem getElem?_line (line : Str) : (as ++ line :: bs)[as.length]? = some line := by simp

theorem set_line (line new : Str) : (as ++ line :: bs).set as.length new = as ++ new :: bs := by simp

theorem insertIdx_line (as : List Str) (w a : Str) (xs : List Str) :
    (as ++ w :: xs).insertIdx (as.length + 1) a = as ++ w :: a :: xs := by
  induction as with
  | nil => rfl
  | cons b as ih => rw [List.cons_append, List.length_cons, List.insertIdx_succ_cons, ih, List.cons_append]

/-! ## Insert -/

theorem breaksFrom_append_of_not_mem {t : Str} (h : (10 : Byte) ∉ t) (rest : Str) (i : ℕ) :
    breaksFrom (t ++ rest) i = breaksFrom rest (i + t.length) := by
  induction t generalizing i with
  | nil => rfl
  | cons c t ih =>
      rw [List.mem_cons, not_or] at h
      rw [List.cons_append, breaksFrom, if_neg (fun heq => h.1 heq.symm), ih h.2, List.length_cons]
      congr 1
      omega

theorem breaksFrom_line {l : Str} (h : IsLine 10 l) (rest : Str) (i : ℕ) :
    breaksFrom (l ++ rest) i = (i + l.length) :: breaksFrom rest (i + l.length) := by
  obtain ⟨body, hbody, rfl⟩ := h
  rw [List.append_assoc, breaksFrom_append_of_not_mem hbody, List.singleton_append, breaksFrom,
    if_pos rfl, List.length_append, List.length_singleton, Nat.add_assoc]

theorem breaksFrom_of_not_mem {t : Str} (h : (10 : Byte) ∉ t) (i : ℕ) : breaksFrom t i = [] := by
  have heq := breaksFrom_append_of_not_mem h [] i
  rwa [List.append_nil] at heq

/-- The lines with so many cut off a line of them, and where the first of those cut off starts. -/
def cutOff (as bs : List Str) (w rest : Str) (x stop : ℕ) : List Str → List Str × ℕ
  | [] => (as ++ w :: bs, stop)
  | l :: ls => (as ++ w :: (ls ++ [rest] ++ bs), x + l.length)

/-- The lines that are cut off a line, the last first, of lines and what is left over in it. -/
theorem foldr_cut {ls : List Str} {last : Str} (hls : ∀ l ∈ ls, IsLine 10 l) (hlast : (10 : Byte) ∉ last)
    (line pre : Str) (x i : ℕ) (hline : line = pre ++ (ls.flatten ++ (last ++ v)))
    (hpre : pre.length = x + i) (w : Str) :
    (breaksFrom (ls.flatten ++ last) i).foldr (fun b (acc : List Str × ℕ) =>
      (acc.1.insertIdx (as.length + 1) ((line.take acc.2).drop (x + b)), x + b))
      (as ++ w :: bs, line.length) = cutOff as bs w (last ++ v) (x + i) line.length ls := by
  induction ls generalizing pre i with
  | nil =>
      rw [List.flatten_nil, List.nil_append, breaksFrom_of_not_mem hlast]
      rfl
  | cons l ls ih =>
      have hrest : line = (pre ++ l) ++ (ls.flatten ++ (last ++ v)) := by
        rw [hline, List.flatten_cons]
        simp only [List.append_assoc]
      have hlen : (pre ++ l).length = x + (i + l.length) := by
        rw [List.length_append, hpre, Nat.add_assoc]
      rw [List.flatten_cons, List.append_assoc,
        breaksFrom_line (hls l List.mem_cons_self), List.foldr_cons,
        ih (fun k hk => hls k (List.mem_cons_of_mem _ hk)) (pre ++ l) (i + l.length) hrest hlen]
      cases ls with
      | nil =>
          have hcut : (line.take line.length).drop (x + (i + l.length)) = last ++ v := by
            rw [List.take_length, hrest, ← hlen, List.flatten_nil, List.nil_append, List.drop_left]
          simp only [cutOff, insertIdx_line, hcut, List.nil_append, List.singleton_append, Nat.add_assoc]
      | cons k ls =>
          have hcut : (line.take (x + (i + l.length) + k.length)).drop (x + (i + l.length)) = k := by
            have hk : line = (pre ++ l) ++ k ++ (ls.flatten ++ (last ++ v)) := by
              rw [hrest, List.flatten_cons]
              simp only [List.append_assoc]
            have hsum : x + (i + l.length) + k.length = (pre ++ l ++ k).length := by
              rw [List.length_append, hlen]
            rw [hsum, hk, List.take_left, ← hlen, List.drop_left]
          simp only [cutOff, insertIdx_line, hcut, List.cons_append]
          rw [Nat.add_assoc x]

/-- **What an insert does.** -/
theorem insertText_eq (hp : p.Ok 10) :
    insertText (as ++ (u ++ v) :: bs) u.length as.length p.text = as ++ p.between u v ++ bs := by
  unfold insertText
  simp only [getElem?_line, Option.getD_some, List.take_left, List.drop_left, set_line]
  cases p with
  | one t =>
      rw [Piece.text, breaksFrom_of_not_mem hp, List.foldr_nil, List.take_length, set_line]
      simp [Piece.between]
  | more first mid last =>
      have hls : ∀ l ∈ first :: mid, IsLine 10 l := by
        intro l hl
        rcases List.mem_cons.1 hl with rfl | hl
        · exact hp.1
        · exact hp.2.1 l hl
      have htext : (Piece.more first mid last).text = (first :: mid).flatten ++ last := by
        simp [Piece.text]
      have hline : u ++ (Piece.more first mid last).text ++ v
          = u ++ ((first :: mid).flatten ++ (last ++ v)) := by
        rw [htext, List.append_assoc, List.append_assoc]
      have hfold := @foldr_cut as bs v (first :: mid) last hls hp.2.2 _ u u.length 0 hline rfl
        (u ++ (Piece.more first mid last).text ++ v)
      rw [← htext] at hfold
      rw [hfold]
      simp only [cutOff, set_line]
      have htake : (u ++ (Piece.more first mid last).text ++ v).take (u.length + 0 + first.length)
          = u ++ first := by
        rw [hline, List.flatten_cons, List.append_assoc, ← List.append_assoc u,
          List.take_left' (by simp)]
      rw [htake]
      simp [Piece.between]

theorem insertEnd_eq (hp : p.Ok 10) (x y : ℕ) : insertEnd x y p.text = p.endAt x y := by
  unfold insertEnd
  cases p with
  | one t => rw [Piece.text, breaksFrom_of_not_mem hp]; rfl
  | more first mid last =>
      have hall : ∀ (ls : List Str) (l : Str) (i : ℕ), IsLine 10 l → (∀ k ∈ ls, IsLine 10 k) →
          (breaksFrom (l ++ ls.flatten ++ last) i).getLast? = some (i + (l ++ ls.flatten).length) ∧
          (breaksFrom (l ++ ls.flatten ++ last) i).length = ls.length + 1 := by
        intro ls
        induction ls with
        | nil =>
            intro l i hl _
            rw [List.flatten_nil, List.append_nil, breaksFrom_line hl, breaksFrom_of_not_mem hp.2.2]
            exact ⟨rfl, rfl⟩
        | cons k ls ih =>
            intro l i hl hls
            obtain ⟨hget, hlen⟩ := ih k (i + l.length) (hls k List.mem_cons_self)
              (fun k' hk' => hls k' (List.mem_cons_of_mem _ hk'))
            rw [List.append_assoc, List.flatten_cons, breaksFrom_line hl]
            constructor
            · rw [List.getLast?_cons, hget]
              simp [Nat.add_assoc]
            · rw [List.length_cons, hlen, List.length_cons]
      obtain ⟨hget, hlen⟩ := hall mid first 0 hp.1 hp.2.1
      simp only [Piece.text, hget, hlen, Piece.endAt]
      congr 1
      rw [List.length_append]
      omega

/-! ## Delete -/

theorem iterate_eraseIdx (as bs ls : List Str) :
    (fun l => List.eraseIdx l as.length)^[ls.length] (as ++ (ls ++ bs)) = as ++ bs := by
  induction ls with
  | nil => rfl
  | cons l ls ih =>
      have hone : (as ++ (l :: ls ++ bs)).eraseIdx as.length = as ++ (ls ++ bs) := by
        rw [List.eraseIdx_append_of_length_le (Nat.le_refl _)]
        simp
      rw [List.length_cons, Function.iterate_succ_apply, hone, ih]

/-- **What a delete does.** -/
theorem deleteText_eq :
    deleteText (as ++ p.between u v ++ bs) u.length as.length (p.endAt u.length as.length).1
      (p.endAt u.length as.length).2 = as ++ (u ++ v) :: bs := by
  cases p with
  | one t =>
      show deleteText (as ++ [u ++ t ++ v] ++ bs) u.length as.length (u.length + t.length) as.length = _
      unfold deleteText
      rw [if_pos rfl, List.append_assoc as, List.singleton_append, getElem?_line, Option.getD_some, set_line,
        List.append_assoc u, List.take_left, ← List.append_assoc, List.drop_left' (by simp)]
  | more first mid last =>
      show deleteText (as ++ ((u ++ first) :: mid ++ [last ++ v]) ++ bs) u.length as.length last.length
        (as.length + mid.length + 1) = _
      unfold deleteText
      have hcount : as.length + mid.length + 1 - as.length = ((u ++ first) :: mid).length := by
        rw [List.length_cons]
        omega
      have hfirst : (as ++ ((u ++ first) :: mid ++ [last ++ v]) ++ bs)[as.length]? = some (u ++ first) := by
        rw [List.append_assoc, List.append_assoc, List.cons_append, getElem?_line]
      have hrest : (fun ls => List.eraseIdx ls as.length)^[as.length + mid.length + 1 - as.length]
          (as ++ ((u ++ first) :: mid ++ [last ++ v]) ++ bs) = as ++ (last ++ v) :: bs := by
        rw [hcount, List.append_assoc, List.append_assoc, iterate_eraseIdx]
        rfl
      rw [if_neg (by omega)]
      simp only [hfirst, hrest, getElem?_line, set_line, Option.getD_some, List.take_left, List.drop_left]

theorem icopy_eq (hne : p.text ≠ []) :
    icopy (as ++ p.between u v ++ bs) u.length as.length (p.endAt u.length as.length).1
      (p.endAt u.length as.length).2 = p.text := by
  cases p with
  | one t =>
      have hpos : 0 < t.length := List.length_pos_iff.2 hne
      show icopy (as ++ [u ++ t ++ v] ++ bs) u.length as.length (u.length + t.length) as.length = t
      unfold icopy
      rw [if_neg (by omega), if_pos rfl, List.append_assoc as, List.singleton_append, getElem?_line,
        Option.getD_some, List.take_left' (by simp), List.drop_left]
  | more first mid last =>
      show icopy (as ++ ((u ++ first) :: mid ++ [last ++ v]) ++ bs) u.length as.length last.length
        (as.length + mid.length + 1) = first ++ mid.flatten ++ last
      unfold icopy
      rw [if_neg (by omega), if_neg (by omega)]
      have hdrop : (as ++ ((u ++ first) :: mid ++ [last ++ v]) ++ bs).drop (as.length + 1)
          = mid ++ (last ++ v) :: bs := by
        rw [List.append_assoc, List.append_assoc, List.cons_append, List.append_cons,
          List.drop_left' (by simp)]
        simp
      have hlast : (as ++ ((u ++ first) :: mid ++ [last ++ v]) ++ bs)[as.length + mid.length + 1]?
          = some (last ++ v) := by
        have hcat : as ++ ((u ++ first) :: mid ++ [last ++ v]) ++ bs
            = (as ++ (u ++ first) :: mid) ++ (last ++ v) :: bs := by simp
        have hlen : as.length + mid.length + 1 = (as ++ (u ++ first) :: mid).length := by
          simp [Nat.add_assoc]
        rw [hcat, hlen, getElem?_line]
      have hfirst : (as ++ ((u ++ first) :: mid ++ [last ++ v]) ++ bs)[as.length]?
          = some (u ++ first) := by
        rw [List.append_assoc, List.append_assoc, List.cons_append, getElem?_line]
      have hcount : as.length + mid.length + 1 - as.length - 1 = mid.length := by omega
      rw [hdrop, hlast, hfirst, hcount, Option.getD_some, Option.getD_some, List.drop_left,
        List.take_left, List.take_left]

end ChrysaLisp
