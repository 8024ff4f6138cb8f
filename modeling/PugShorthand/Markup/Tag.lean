import PugShorthand.QualifiedName

namespace PugShorthand.Markup.Tag

def edit? : Text → Option Edit
  | [] => none
  | b :: rest =>
    if b = '<'.toUInt8 then
      let offset := if rest.head? = some '/'.toUInt8 then 1 else 0
      (QualifiedName.coloned.rejoin? '.'.toUInt8 (rest.drop offset)).map (·.shift (1 + offset))
    else none

/-- The edits that restore every tag of a text. A name can hold a `<`, which begins no other tag. -/
def edits (t : Text) : List Edit :=
  go 0 0 t
where
  -- The bytes before `resume` belong to the last tag.
  go (pos resume : Nat) : Text → List Edit
    | [] => []
    | b :: rest =>
      if pos < resume then go (pos + 1) resume rest
      else
        match edit? (b :: rest) with
        | none => go (pos + 1) resume rest
        | some e => e.shift pos :: go (pos + 1) (pos + e.stop) rest

def restore (t : Text) : Except Fault Text :=
  Edit.applyAll (edits t) t

end PugShorthand.Markup.Tag
