import ChrysaLisp.Lisp.Text

set_option autoImplicit false

/-! # Names like paths

A thing has a name like a path, `a/b/c`: parts with something in them and a `/` between each and the
next (`Proper`). It is in a folder, the path up to its last `/`, `""` if it has none, and so is each
folder but `""` in one above. A path and a folder are the one string, so what is cut of a path by its
last `/` is put together again by `under`, and of a proper path nothing is lost (`under_eq`). -/

namespace ChrysaLisp

/-- `(rfind c str)`: where the last `c` is, counted from one. -/
def rfindByte (c : Byte) (s : Str) : Option ℕ :=
  (s.reverse.findIdx? (fun b => decide (b = c))).map (fun i => s.length - i)

/-- The folder of a path. -/
def folderOf (path : Str) : Str :=
  match rfindByte 47 path with
  | some i => path.take (i - 1)
  | none => []

/-- The name a path has in its folder. -/
def nameOf (path : Str) : Str :=
  match rfindByte 47 path with
  | some i => path.drop i
  | none => path

/-- The path of a name in a folder. -/
def under (folder name : Str) : Str := if folder = [] then name else folder ++ asc "/" ++ name

/-- A path of parts with something in them, a `/` between each and the next. -/
def Proper (path : Str) : Prop := path ≠ [] ∧ join (split path 47) (asc "/") = path

instance (path : Str) : Decidable (Proper path) := inferInstanceAs (Decidable (_ ∧ _))

/-- How far down a path is. -/
def depth (path : Str) : ℕ := (split path 47).length

example : (folderOf (asc "le/q/s"), nameOf (asc "le/q/s")) = (asc "le/q", asc "s") := by decide

/-! ## Cutting a path and putting it together -/

section Path

variable {folder name path : Str}

theorem rfindByte_none {c : Byte} {s : Str} (h : c ∉ s) : rfindByte c s = none := by
  unfold rfindByte
  rw [Option.map_eq_none_iff, List.findIdx?_eq_none_iff]
  intro b hb
  rw [decide_eq_false_iff_not]
  rintro rfl
  exact h (List.mem_reverse.1 hb)

theorem rfindByte_append {c : Byte} {s t : Str} (h : c ∉ t) :
    rfindByte c (s ++ c :: t) = some (s.length + 1) := by
  have hrev : (s ++ c :: t).reverse = t.reverse ++ c :: s.reverse := by simp
  have ht : t.reverse.findIdx? (fun b => decide (b = c)) = none := by
    rw [List.findIdx?_eq_none_iff]
    intro b hb
    rw [decide_eq_false_iff_not]
    rintro rfl
    exact h (List.mem_reverse.1 hb)
  unfold rfindByte
  rw [hrev, List.findIdx?_append, ht]
  simp only [List.findIdx?_cons, decide_true, if_true, Option.map_some, Option.none_or,
    List.length_append, List.length_cons, List.length_reverse]
  congr 1
  omega

theorem under_of_ne (h : folder ≠ []) : under folder name = folder ++ 47 :: name := by
  unfold under
  rw [if_neg h, List.append_assoc]
  rfl

theorem folderOf_under (h : (47 : Byte) ∉ name) : folderOf (under folder name) = folder := by
  by_cases hnil : folder = []
  · rw [hnil, under, if_pos rfl, folderOf, rfindByte_none h]
  · rw [under_of_ne hnil, folderOf, rfindByte_append h]
    exact List.take_left

theorem nameOf_under (h : (47 : Byte) ∉ name) : nameOf (under folder name) = name := by
  by_cases hnil : folder = []
  · rw [hnil, under, if_pos rfl, nameOf, rfindByte_none h]
  · rw [under_of_ne hnil, nameOf, rfindByte_append h]
    show List.drop (folder.length + 1) (folder ++ 47 :: name) = name
    rw [List.append_cons]
    exact List.drop_left' (by simp)

/-- A proper path is of its parts. -/
theorem proper_iff : Proper path ↔
    ∃ parts : List Str, parts ≠ [] ∧ (∀ t ∈ parts, Part 47 t) ∧ path = join parts (asc "/") := by
  constructor
  · rintro ⟨hne, hjoin⟩
    refine ⟨split path 47, fun hnil => ?_, fun t ht => part_of_mem_split ht, hjoin.symm⟩
    rw [hnil] at hjoin
    exact hne hjoin.symm
  · rintro ⟨parts, hne, hparts, rfl⟩
    have hsplit : split (join parts (asc "/")) 47 = parts := split_join hparts
    refine ⟨fun hnil => ?_, by rw [hsplit]⟩
    rw [hnil] at hsplit
    exact hne hsplit.symm

theorem join_concat {parts : List Str} (hparts : ∀ t ∈ parts, Part 47 t) :
    join (parts ++ [name]) (asc "/") = under (join parts (asc "/")) name := by
  unfold under
  by_cases hnil : parts = []
  · rw [hnil]
    rfl
  · have hne : join parts (asc "/") ≠ [] := by
      intro heq
      have hsplit : split (join parts (asc "/")) 47 = parts := split_join hparts
      rw [heq] at hsplit
      exact hnil hsplit.symm
    rw [if_neg hne, join_append hnil (List.cons_ne_nil _ _)]
    rfl

/-- A proper path is a name in its folder, and the folder is `""` or a proper path too. -/
theorem Proper.cut (h : Proper path) : (folderOf path = [] ∨ Proper (folderOf path)) ∧
    Part 47 (nameOf path) ∧ under (folderOf path) (nameOf path) = path ∧
    depth path = depth (folderOf path) + 1 := by
  obtain ⟨parts, hne, hparts, rfl⟩ := proper_iff.1 h
  obtain ⟨init, last, rfl⟩ := (List.eq_nil_or_concat' parts).resolve_left hne
  have hinit : ∀ t ∈ init, Part 47 t := fun t ht => hparts t (List.mem_append_left _ ht)
  have hlast : Part 47 last := hparts last (by simp)
  have hdepth : depth (join (init ++ [last]) (asc "/")) = init.length + 1 := by
    have hsplit : split (join (init ++ [last]) (asc "/")) 47 = init ++ [last] := split_join hparts
    rw [depth, hsplit, List.length_append]
    rfl
  have hdepth' : depth (join init (asc "/")) = init.length := by
    have hsplit : split (join init (asc "/")) 47 = init := split_join hinit
    rw [depth, hsplit]
  rw [hdepth, join_concat hinit, folderOf_under hlast.2, nameOf_under hlast.2, hdepth']
  refine ⟨?_, hlast, rfl, rfl⟩
  by_cases hnil : init = []
  · exact Or.inl (by rw [hnil]; rfl)
  · exact Or.inr (proper_iff.2 ⟨init, hnil, hinit, rfl⟩)

/-- A name in a folder is a proper path. -/
theorem proper_under (hfolder : folder = [] ∨ Proper folder) (hname : Part 47 name) :
    Proper (under folder name) := by
  rcases hfolder with rfl | hfolder
  · exact proper_iff.2 ⟨[name], List.cons_ne_nil _ _, by simpa using hname, rfl⟩
  · obtain ⟨parts, -, hparts, rfl⟩ := proper_iff.1 hfolder
    refine proper_iff.2 ⟨parts ++ [name], by simp, fun t ht => ?_, (join_concat hparts).symm⟩
    rcases List.mem_append.1 ht with ht | ht
    · exact hparts t ht
    · exact List.mem_singleton.1 ht ▸ hname

theorem length_lt_under (hname : name ≠ []) : folder.length < (under folder name).length := by
  have hpos : 0 < name.length := List.length_pos_iff.2 hname
  unfold under
  split
  next hnil => rwa [hnil]
  · simp only [List.length_append]
    omega

theorem length_folderOf_lt (h : path ≠ []) : (folderOf path).length < path.length := by
  have hpos : 0 < path.length := List.length_pos_iff.2 h
  unfold folderOf
  split
  next i hi =>
    unfold rfindByte at hi
    obtain ⟨k, hk, rfl⟩ := Option.map_eq_some_iff.1 hi
    rw [List.length_take]
    omega
  · exact hpos

end Path

/-! ## The folders a path is in -/

/-- The folders a path is in, from its own up to `""`. -/
def folders (path : Str) : List Str :=
  if path = [] then [] else folderOf path :: folders (folderOf path)
termination_by path.length
decreasing_by exact length_folderOf_lt (by assumption)

theorem folders_nil : folders [] = [] := by rw [folders, if_pos rfl]

theorem folders_of_ne {path : Str} (h : path ≠ []) :
    folders path = folderOf path :: folders (folderOf path) := by rw [folders, if_neg h]

theorem mem_folders {path folder : Str} (h : path ≠ []) :
    folder ∈ folders path ↔ folder = folderOf path ∨ folder ∈ folders (folderOf path) := by
  rw [folders_of_ne h, List.mem_cons]

end ChrysaLisp
