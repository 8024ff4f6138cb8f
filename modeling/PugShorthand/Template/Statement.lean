import PugShorthand.Edit
import PugShorthand.Span
import PugShorthand.Text.Line

namespace PugShorthand.Template

inductive Statement where
  | opening (kind arguments : Text)
  | closing (kind : Text)
  deriving DecidableEq, Repr

namespace Statement

def opening? (inside : Text) : Option Statement :=
  let kind := inside.takeWhile (!Text.isBlank ·)
  let gap := inside.drop kind.length
  if kind.isEmpty ∨ gap.length < 2 then none
  else some (.opening kind (gap.dropWhile Text.isBlank))

def closing? (inside : Text) : Option Statement :=
  if inside.isEmpty ∨ inside.any Text.isBlank then none else some (.closing inside)

def read? : Text → Option (Statement × Nat)
  | brace :: sigil :: rest => do
    let inside := rest.takeWhile (· != '}'.toUInt8)
    guard (brace = '{'.toUInt8 ∧ inside.length < rest.length)
    let statement ←
      if sigil = '#'.toUInt8 ∨ sigil = '@'.toUInt8 then opening? inside
      else if sigil = '/'.toUInt8 then closing? inside
      else none
    return (statement, inside.length + 3)
  | _ => none

-- An opening becomes a call with one literal argument; a closing becomes nothing, for calls are
-- closed by indentation.
def text : Statement → Text
  | opening kind arguments =>
    '+'.toUInt8 :: kind ++ Text.ofString "(`" ++ Text.escape '`'.toUInt8 arguments
      ++ Text.ofString "`)"
  | closing _ => []

def isExpanded (closes : Text → Bool) : Statement → Bool
  | opening .. => true
  | closing kind => closes kind

structure Occurrence where
  span : Span
  statement : Statement
  deriving DecidableEq, Repr

def Occurrence.edit (o : Occurrence) : Edit :=
  ⟨o.span.start, o.span.stop, o.statement.text⟩

/-- The statements to expand. A statement can hold newlines, and the lines inside it begin none. -/
def scan (closes : Text → Bool) (t : Text) : List Occurrence :=
  go 0 (Text.lineBodies t)
where
  go (resume : Nat) : List Nat → List Occurrence
    | [] => []
    | body :: rest =>
      if body < resume then go resume rest
      else
        match read? (t.drop body) with
        | none => go resume rest
        | some (statement, length) =>
          if statement.isExpanded closes then
            ⟨⟨body, body + length⟩, statement⟩ :: go (body + length) rest
          else go resume rest

def edits (occurrences : List Occurrence) : List Edit :=
  occurrences.map Occurrence.edit

end Statement

end PugShorthand.Template
