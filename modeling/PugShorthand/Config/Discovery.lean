import PugShorthand.Config.Decode
import PugShorthand.FileTree

namespace PugShorthand.Config

def candidates : List String :=
  ["apug.toml", ".apug.toml", ".config/apug.toml"]

def join (root path : String) : String :=
  if root = "" then path else root ++ "/" ++ path

def locate? (tree : FileTree) (root : String) : Option String :=
  candidates.find? fun path => (tree.read? (join root path)).isSome

def load (tree : FileTree) (root : String) : Except Fault (Option Config) :=
  match (locate? tree root).bind fun path => tree.read? (join root path) with
  | none => .ok none
  | some content =>
    match content.toString? with
    | none => .error .notUtf8
    | some source => (parse source).map some

end PugShorthand.Config
