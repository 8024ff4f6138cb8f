import PugShorthand.Text.Basic

namespace PugShorthand

-- Files and directories below a top directory, each by the names on the way to it.
structure FileTree where
  directories : List (List String) := []
  files : List (List String × Text) := []
  deriving DecidableEq, Repr

namespace FileTree

def isDirectory (tree : FileTree) (place : List String) : Bool :=
  place.isEmpty || tree.directories.contains place

def enter? (place : List String) (part : String) : Option (List String) :=
  if part = "" ∨ part = "." then some place
  else if part = ".." then if place.isEmpty then none else some place.dropLast
  else some (place ++ [part])

def parts? (path : String) : Option (List String) :=
  match path.splitOn "/" with
  | "" :: _ :: _ => none
  | parts => some parts

-- Every part but the last has to be a directory for the next one to mean anything.
def resolve? (tree : FileTree) (path : String) : Option (List String) := do
  (← parts? path).foldlM
    (fun place part => if tree.isDirectory place then enter? place part else none) []

def read? (tree : FileTree) (path : String) : Option Text := do
  tree.files.lookup (← tree.resolve? path)

def addDirectory (tree : FileTree) (place : List String) : FileTree :=
  if tree.isDirectory place then tree
  else { tree with directories := place :: tree.directories }

def makeDirectories (tree : FileTree) (parts : List String) : FileTree :=
  go tree [] parts
where
  go (tree : FileTree) (place : List String) : List String → FileTree
    | [] => tree
    | part :: rest =>
      match enter? place part with
      | some place => go (tree.addDirectory place) place rest
      | none => tree

def makeDirectory (tree : FileTree) (path : String) : FileTree :=
  tree.makeDirectories ((parts? path).getD [])

def write (tree : FileTree) (path : String) (content : Text) : FileTree :=
  let tree := tree.makeDirectories ((parts? path).getD []).dropLast
  match tree.resolve? path with
  | some place => { tree with files := (place, content) :: tree.files }
  | none => tree

end FileTree

end PugShorthand
