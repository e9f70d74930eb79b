/-
Donkeyji.Tools.Rename — the scripts that number the files of a directory
(tools/rename.py and tools/new_rename.py).

Files and directories are those of `FileTree`; there are no links. In which
order `os.listdir` gives the names is up to the system (`FileTree.Listing`).
`none` is an exception or too little fuel; where an exception leaves something
behind, the tree is returned with it.
-/
import Donkeyji.Lib.FileMoves

namespace Donkeyji.Tools

open FileTree

/-- A name in a directory. -/
abbrev Name := List Char

variable {β : Type} [DecidableEq β]

/-- `os.path.exists`. -/
def pathExists (t : FileTree Name β) (path : List Name) : Bool := t.get path ≠ none

/-- `os.path.isdir`. -/
def isdir (t : FileTree Name β) (path : List Name) : Bool := t.get path = some .dir

/-- `os.path.splitext` of a name: the last dot begins the extension, unless there are only dots
before it. -/
def splitext (name : Name) : Name × Name :=
  match name.reverse.dropWhile (· ≠ '.') with
  | [] => (name, [])
  | dot :: before =>
    if before.all (· = '.') then (name, [])
    else (before.reverse, dot :: (name.reverse.takeWhile (· ≠ '.')).reverse)

/-- `"%d" % (count,) + extends`. -/
def numbered (count : Nat) (ext : Name) : Name := Nat.toDigits 10 count ++ ext

/-! ## rename.py -/

/-- The variables of `rename`, with the tree. -/
structure Renaming (β : Type) where
  tree : FileTree Name β
  count : Nat
  newNameExist : List (List Name)

/-- The loop `while os.path.exists(new)`: the count and `newNameExist` after it. -/
def passExisting (t : FileTree Name β) (dir : List Name) (ext : Name) :
    Nat → Nat → List (List Name) → Option (Nat × List (List Name))
  | 0, _, _ => none
  | fuel + 1, count, newNameExist =>
    let new := numbered count ext :: dir
    if pathExists t new then passExisting t dir ext fuel (count + 1) (newNameExist ++ [new])
    else some (count, newNameExist)

/-- `os.rename(old, new)` at the end of a turn, where `count` goes up. -/
def Renaming.move (s : Renaming β) (old : List Name) (dir : List Name) (ext : Name) :
    Option (Renaming β) := do
  let tree ← s.tree.rename old (numbered s.count ext :: dir)
  return { s with tree, count := s.count + 1 }

/-- A turn of the loop on a file. -/
def Renaming.renameFile (s : Renaming β) (dir : List Name) (file : Name) : Option (Renaming β) :=
  let ext := (splitext file).2
  let old := file :: dir
  let new := numbered s.count ext :: dir
  if old ∈ s.newNameExist then
    let newNameExist := s.newNameExist.erase old
    some { s with
      newNameExist := if pathExists s.tree new then newNameExist ++ [new] else newNameExist }
  else if pathExists s.tree new then
    if new = old then some { s with count := s.count + 1 }
    else do
      let (count, newNameExist) ←
        passExisting s.tree dir ext (s.tree.nodes.keys.length + 1) s.count s.newNameExist
      { s with count, newNameExist }.move old dir ext
  else s.move old dir ext

/-- A turn of the loop; `below` is what `rename` does to a subdirectory. -/
def Renaming.turn (below : FileTree Name β → List Name → Option (FileTree Name β))
    (dir : List Name) (s : Renaming β) (file : Name) : Option (Renaming β) :=
  if isdir s.tree (file :: dir) then
    (below s.tree (file :: dir)).map fun tree => { s with tree }
  else s.renameFile dir file

/-- `rename`, with a bound on how deep the directories are. -/
def renameBelow (ls : Listing Name β) : Nat → FileTree Name β → List Name → Option (FileTree Name β)
  | 0, _, _ => none
  | fuel + 1, t, dir =>
    if isdir t dir then
      ((ls.names t dir).foldlM (Renaming.turn (renameBelow ls fuel) dir) ⟨t, 0, []⟩).map (·.tree)
    else none

/-- `rename` of rename.py. -/
def rename (ls : Listing Name β) (t : FileTree Name β) (dir : List Name) :
    Option (FileTree Name β) := renameBelow ls t.height t dir

/-! ## new_rename.py -/

/-- `'_pre_%d_%s' % (count, name) + extends`. -/
def preName (count : Nat) (name ext : Name) : Name :=
  ['_', 'p', 'r', 'e', '_'] ++ Nat.toDigits 10 count ++ '_' :: name ++ ext

/-- The loop `while os.path.exists(new_path)`: the count after it. -/
def passPre (t : FileTree Name β) (dir : List Name) (name ext : Name) :
    Nat → Nat → Option Nat
  | 0, _ => none
  | fuel + 1, count =>
    if pathExists t (preName count name ext :: dir) then
      passPre t dir name ext fuel (count + 1)
    else some count

/-- A turn of `pre_proc` on a file. -/
def preFile (dir : List Name) (t : FileTree Name β) (file : Name) : Option (FileTree Name β) := do
  let name := (splitext file).1
  let ext := (splitext file).2
  let count ← passPre t dir name ext (t.nodes.keys.length + 1) 0
  t.rename (file :: dir) (preName count name ext :: dir)

/-- A turn of `pre_proc`; `below` is what it does to a subdirectory. -/
def preTurn (below : FileTree Name β → List Name → Option (FileTree Name β)) (dir : List Name)
    (t : FileTree Name β) (file : Name) : Option (FileTree Name β) :=
  if isdir t (file :: dir) then below t (file :: dir) else preFile dir t file

/-- `pre_proc`, with a bound on how deep the directories are. -/
def preProc (ls : Listing Name β) : Nat → FileTree Name β → List Name → Option (FileTree Name β)
  | 0, _, _ => none
  | fuel + 1, t, dir =>
    if isdir t dir then (ls.names t dir).foldlM (preTurn (preProc ls fuel) dir) t else none

/-- The exceptions of `really_rename`. -/
inductive RenameError where
  | nameError
  | osError
deriving DecidableEq, Repr

/-- The loop of `really_rename`. For a directory it calls `rename`, and this module has no such
name. -/
def numberLoop (dir : List Name) : Nat → FileTree Name β → List Name →
    FileTree Name β × Option RenameError
  | _, t, [] => (t, none)
  | count, t, file :: files =>
    if isdir t (file :: dir) then (t, some .nameError)
    else
      match t.rename (file :: dir) (numbered count (splitext file).2 :: dir) with
      | some t => numberLoop dir (count + 1) t files
      | none => (t, some .osError)

/-- `really_rename`. -/
def reallyRename (ls : Listing Name β) (t : FileTree Name β) (dir : List Name) :
    FileTree Name β × Option RenameError := numberLoop dir 0 t (ls.names t dir)

/-- `rename_by_num`. -/
def renameByNum (ls : Listing Name β) (t : FileTree Name β) (dir : List Name) :
    Option (FileTree Name β × Option RenameError) := do
  let t ← preProc ls t.height t dir
  return reallyRename ls t dir

end Donkeyji.Tools
