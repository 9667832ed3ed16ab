import ChrysaLisp.Hash.Path
import Mathlib.Data.List.AList

set_option autoImplicit false

/-! # A tree of hashes

Things have names like paths, a hash each, and a word of what else is to be said of them. A folder
has a hash of its own, that of what is in it, the kind, the hash, the word and the name of each thing
and folder, and so on up: the hash of the top says all of it.

Two trees are compared a folder at a time from the top down, going into the folders that both have
and whose hashes differ (`walkLoop`, the loop of `sync-push` and of `ht-walk`). How many turns that
loop and that of `hash-tree-under` may take is a number here, the source has no such bound. -/

namespace ChrysaLisp

/-- A thing: its path, its hash, and the word if there is one. -/
structure Thing where
  path : Str
  hash : Str
  word : Option Str

/-- `"f"` a thing or `"d"` a folder. -/
inductive HashKind where
  | f
  | d
  deriving DecidableEq

def HashKind.text : HashKind → Str
  | .f => asc "f"
  | .d => asc "d"

/-- What is in a folder, each one of these, `+hash_kid`. -/
structure HashKid where
  name : Str
  kind : HashKind
  hash : Str
  word : Str
  deriving DecidableEq

/-- A line of a folder's text. -/
def HashKid.line (kid : HashKid) : Str :=
  kid.kind.text ++ asc " " ++ kid.hash ++ asc " " ++ kid.word ++ asc " " ++ kid.name ++ [10]

/-- `(hash-tree-text kids)`. -/
def hashTreeText (kids : List HashKid) : Str := (kids.map HashKid.line).flatten

/-- `(to-lower str)`. -/
def toLower (s : Str) : Str :=
  s.map (fun c => if 65 ≤ c.val ∧ c.val ≤ 90 then Fin.ofNat 256 (c.val + 32) else c)

/-! ## Making a tree -/

/-- Folders by their paths, with what is in each. -/
abbrev HashFolders := AList (fun _ : Str => List HashKid)

/-- A tree: folders by their paths, each with its hash and what is in it. -/
abbrev HashTree := AList (fun _ : Str => Str × List HashKid)

/-- A thing in its folder. -/
def Thing.kid (thing : Thing) : HashKid :=
  ⟨nameOf thing.path, .f, thing.hash, thing.word.getD (asc "-")⟩

/-- A folder in the one above, its hash not known yet. -/
def folderKid (folder : Str) : HashKid := ⟨nameOf folder, .d, [], asc "-"⟩

/-- Each folder on the way up in the one above, the once. If it is there the ones above are too. -/
def climb (all : HashFolders) (folder : Str) : HashFolders :=
  if folder = [] then all
  else
    let above := folderOf folder
    let made := (all.lookup above).getD []
    if made.any (fun kid => decide (kid.kind = .d ∧ kid.name = nameOf folder)) then all
    else climb (all.insert above (made ++ [folderKid folder])) above
termination_by folder.length
decreasing_by exact length_folderOf_lt (by assumption)

/-- A thing goes in its folder. -/
def addThing (all : HashFolders) (thing : Thing) : HashFolders :=
  let folder := folderOf thing.path
  climb (all.insert folder ((all.lookup folder).getD [] ++ [thing.kid])) folder

/-- The folders of things, what is in each in no order. -/
def hashTreeFolders (things : List Thing) : HashFolders :=
  things.foldl addThing (AList.singleton [] [])

/-- A folder of those whose folders have their hashes: what is in it in the order of their names,
    and its own hash. -/
def hashFolder (sha256 : Str → Str) (all : HashFolders) (tree : HashTree) (path : Str) : HashTree :=
  let kids := ((all.lookup path).getD []).insertionSort (fun a b => a.name ≤ b.name)
  let kids := kids.map (fun kid =>
    match kid.kind with
    | .d => { kid with hash := ((tree.lookup (under path kid.name)).map Prod.fst).getD [] }
    | .f => kid)
  tree.insert path (toLower (hexEncode (sha256 (hashTreeText kids))), kids)

/-- `(hash-tree things)`: the deepest folders first. -/
def hashTree (sha256 : Str → Str) (things : List Thing) : HashTree :=
  let all := hashTreeFolders things
  (all.keys.insertionSort (fun a b => depth b ≤ depth a)).foldl (hashFolder sha256 all) ∅

/-- `(hash-tree-root tree)`. -/
def hashTreeRoot (tree : HashTree) : Str := ((tree.lookup []).map Prod.fst).getD []

/-- `(hash-tree-kids tree folder)`. -/
def hashTreeKids (tree : HashTree) (folder : Str) : List HashKid :=
  ((tree.lookup folder).map Prod.snd).getD []

/-! ## Comparing -/

/-- The paths of the folders in a folder on the stack, those of the things out. -/
def underStep (folder : Str) (acc : List Str × List Str) (kid : HashKid) : List Str × List Str :=
  match kid.kind with
  | .d => (under folder kid.name :: acc.1, acc.2)
  | .f => (acc.1, acc.2 ++ [under folder kid.name])

/-- The loop of `hash-tree-under`, of so many turns at most. -/
def underLoop (tree : HashTree) : ℕ → List Str → List Str → Option (List Str)
  | _, [], out => some out
  | 0, _ :: _, _ => none
  | turns + 1, folder :: stack, out =>
      let (stack, out) := (hashTreeKids tree folder).foldl (underStep folder) (stack, out)
      underLoop tree turns stack out

/-- `(hash-tree-under tree folder)`: the path of every thing in a folder and in those below it. -/
def hashTreeUnder (tree : HashTree) (turns : ℕ) (folder : Str) : Option (List Str) :=
  (underLoop tree turns [folder] []).map sortStr

/-- One folder compared with the same folder of another. -/
structure HashCompared where
  differ : List Str
  words : List (Str × Str)
  gone : List Str
  into : List Str
  onlyMine : List Str
  onlyTheirs : List Str

/-- `(cat kind name)`. -/
def HashKid.key (kid : HashKid) : Str := kid.kind.text ++ kid.name

/-- One of mine, against what they have. -/
def compareMine (haves : AList (fun _ : Str => Str × Str)) (out : HashCompared) (kid : HashKid) :
    HashCompared :=
  match kid.kind, haves.lookup kid.key with
  | .d, none => { out with onlyMine := out.onlyMine ++ [kid.name] }
  | .d, some there =>
      if kid.hash ≠ there.1 then { out with into := out.into ++ [kid.name] } else out
  | .f, none => { out with differ := out.differ ++ [kid.name] }
  | .f, some there =>
      if kid.hash ≠ there.1 then { out with differ := out.differ ++ [kid.name] }
      else if kid.word ≠ there.2 then { out with words := out.words ++ [(kid.name, kid.word)] }
      else out

/-- One of theirs, against those I have. -/
def compareTheirs (keep : List Str) (out : HashCompared) (kid : HashKid) : HashCompared :=
  if kid.key ∈ keep then out
  else
    match kid.kind with
    | .d => { out with onlyTheirs := out.onlyTheirs ++ [kid.name] }
    | .f => { out with gone := out.gone ++ [kid.name] }

/-- `(hash-tree-compare mine theirs)`. -/
def hashTreeCompare (mine theirs : List HashKid) : HashCompared :=
  let haves : AList (fun _ : Str => Str × Str) :=
    theirs.foldl (fun map kid => map.insert kid.key (kid.hash, kid.word)) ∅
  let out := mine.foldl (compareMine haves) ⟨[], [], [], [], [], []⟩
  theirs.foldl (compareTheirs (mine.map HashKid.key)) out

/-- What two trees are found to differ in: the things I have that they have not, or not the same,
    those that are the same but for the word, and those they have and I have not. -/
structure HashDiffer where
  differ : List Str
  words : List Str
  gone : List Str

/-- The folders of a list, each with every thing under it. -/
def underAll (tree : HashTree) (turns : ℕ) (folder : Str) (names : List Str) : Option (List Str) :=
  (names.mapM (fun name => hashTreeUnder tree turns (under folder name))).map List.flatten

/-- The loop of two trees compared, of so many turns at most. -/
def walkLoop (mine theirs : HashTree) : ℕ → List Str → HashDiffer → Option HashDiffer
  | _, [], out => some out
  | 0, _ :: _, _ => none
  | turns + 1, folder :: stack, out =>
      let found := hashTreeCompare (hashTreeKids mine folder) (hashTreeKids theirs folder)
      match underAll mine turns folder found.onlyMine, underAll theirs turns folder found.onlyTheirs with
      | some new, some old =>
          walkLoop mine theirs turns (found.into.foldl (fun st name => under folder name :: st) stack)
            { differ := out.differ ++ found.differ.map (under folder) ++ new
              words := out.words ++ found.words.map (fun x => under folder x.1)
              gone := out.gone ++ found.gone.map (under folder) ++ old }
      | _, _ => none

/-- Two trees compared from the top down. -/
def hashTreeWalk (mine theirs : HashTree) (turns : ℕ) : Option HashDiffer :=
  walkLoop mine theirs turns [[]] ⟨[], [], []⟩

end ChrysaLisp
