import PugShorthand.Attribute.Expander

namespace PugShorthand.Template

inductive Element where
  | unclosed (tag : Text)
  | expanded (tag : Text) (list : Span) (expansion : Attribute.Expansion)
  deriving DecidableEq, Repr

namespace Element

def isNameByte (b : UInt8) : Bool :=
  Text.isUpper b || Text.isLower b || Text.isDigit b || b == '_'.toUInt8 || b == ':'.toUInt8 ||
    b == '#'.toUInt8 || b == '.'.toUInt8 || b == '-'.toUInt8

def nameLength? (t : Text) : Option Nat :=
  let length := Text.run isNameByte t
  if length = 0 ∨ t.head?.any Text.isDigit ∨ t[length]? ≠ some '('.toUInt8 then none
  else some length

def headOffset? : Text → Option Nat
  | [] => none
  | b :: rest =>
    if b = '\n'.toUInt8 then some (1 + Text.indentation rest)
    else if b = '#'.toUInt8 ∧ rest.head? = some '['.toUInt8 then some 2
    else none

def tag? (t : Text) : Option Span := do
  let offset ← headOffset? t
  let length ← nameLength? (t.drop offset)
  return ⟨offset, offset + length⟩

def read (naming : Export.Naming) (t : Text) (tag : Span) : Except Fault (Element × Nat) := do
  match ← Nesting.find t tag.stop '('.toUInt8 ')'.toUInt8 with
  | none => return (.unclosed (← tag.text t), tag.stop)
  | some list =>
    let expansion ← Attribute.expand naming (← list.inner t)
    return (.expanded (← tag.text t) list expansion, list.stop)

/-- The elements of a template, in order. Nothing inside an attribute list is an element. -/
def scan (naming : Export.Naming) (t : Text) : Except Fault (List Element) :=
  go 0 0 t
where
  -- `rest` is what stands at `pos`; the bytes before `resume` belong to the last element.
  go (pos resume : Nat) (rest : Text) : Except Fault (List Element) :=
    match rest with
    | [] => .ok []
    | b :: rest =>
      if pos < resume then go (pos + 1) resume rest
      else
        match tag? (b :: rest) with
        | none => go (pos + 1) resume rest
        | some tag => do
          let (element, stop) ← read naming t (tag.shift pos)
          return element :: (← go (pos + 1) stop rest)

def edit? : Element → Option Edit
  | unclosed _ => none
  | expanded _ list expansion =>
    some ⟨list.start, list.stop,
      '('.toUInt8 :: expansion.rendering.text ++ [')'.toUInt8]⟩

def edits (elements : List Element) : List Edit :=
  elements.filterMap edit?

def exports : Element → List Export
  | unclosed _ => []
  | expanded _ _ expansion => expansion.rendering.exports

-- The exports of one list after the other are entered into the table of the document.
def record (initial : Export.Table) (elements : List Element) : Export.Table :=
  elements.foldl (fun table element => table.insertAll element.exports) initial

def table (elements : List Element) : Export.Table :=
  record {} elements

def expandInto (naming : Export.Naming) (initial : Export.Table) (t : Text) :
    Except Fault (List Edit × Export.Table) := do
  let elements ← scan naming t
  return (edits elements, record initial elements)

end Element

end PugShorthand.Template
