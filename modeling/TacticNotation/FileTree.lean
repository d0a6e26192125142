import TacticNotation.Config

/-!
# Trees of files

A tree of files held as a list, in which a directory exists if it is listed or
if something in it is, and of two entries under the same names the later one
counts.  Paths are relative to the top of the tree; one that leaves the tree
leads nowhere.
-/

namespace TacticNotation

/-- Files and directories, each under the names that lead to it. -/
abbrev FileTree := List (List String × Config.FileState)

namespace FileTree

/-- The names that a path consists of. -/
def components (path : String) : List String :=
  (path.splitOn "/").filter (· ≠ "")

/-- What stands under a list of names. -/
def stateOf (tree : FileTree) (names : List String) : Config.FileState :=
  match tree.reverse.find? (·.1 = names) with
  | some entry => entry.2
  | none =>
      if names = [] ∨ tree.any (fun entry => names.isPrefixOf entry.1) then .directory
      else .missing

/-- Whether a directory stands under a list of names. -/
def isDirectory (tree : FileTree) (names : List String) : Bool :=
  match tree.stateOf names with
  | .directory => true
  | .missing | .file _ => false

/-- Follow one more name from a place in the tree. -/
def follow (tree : FileTree) (place : List String) (name : String) : Option (List String) :=
  if !tree.isDirectory place then none
  else if name = "." then some place
  else if name = ".." then
    if place.isEmpty then none else some place.dropLast
  else some (place ++ [name])

/-- The directory at the end of a path. -/
def under (tree : FileTree) (root : String) : Config.Directory := fun name =>
  if root.startsWith "/" then .missing
  else
    match (components root ++ components name).foldlM tree.follow [] with
    | none => .missing
    | some place => tree.stateOf place

end FileTree
end TacticNotation
