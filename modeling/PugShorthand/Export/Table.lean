import PugShorthand.Export.Naming

namespace PugShorthand

-- An attribute made a property of the component: its public name, and what its local binding is
-- initialised with, if anything.
structure Export where
  name : Text
  initial : Option Text
  deriving DecidableEq, Repr

namespace Export

structure Table where
  entries : List Export := []
  deriving DecidableEq, Repr

namespace Table

/-- A name that is there already keeps its place and takes the new initial value. -/
def insert (table : Table) (e : Export) : Table :=
  ⟨go e table.entries⟩
where
  go (e : Export) : List Export → List Export
    | [] => [e]
    | x :: rest => if x.name = e.name then e :: rest else x :: go e rest

def insertAll (table : Table) (es : List Export) : Table :=
  es.foldl insert table

def isEmpty (table : Table) : Bool :=
  table.entries.isEmpty

def size (table : Table) : Nat :=
  table.entries.length

def declaration (naming : Naming) (e : Export) : Text :=
  let binding := naming.binding e.name
  match e.initial with
  | some initial =>
    Text.ofString "let " ++ binding ++ Text.ofString " = " ++ initial ++ Text.ofString ";\n"
  | none => Text.ofString "let " ++ binding ++ Text.ofString ";\n"

-- The semicolon in front ends whatever statement the declarations are put behind.
def declarations (naming : Naming) (table : Table) : Text :=
  Text.ofString ";" ++ table.entries.flatMap (declaration naming)

def specifier (naming : Naming) (e : Export) : Text :=
  naming.binding e.name ++ Text.ofString " as " ++ e.name

def specifiers (naming : Naming) (table : Table) : Text :=
  (Text.ofString ", ").intercalate (table.entries.map (specifier naming))

end Table

end Export

end PugShorthand
