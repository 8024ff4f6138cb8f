import PugShorthand.Attribute.Value
import PugShorthand.Edit
import PugShorthand.Text.Line

namespace PugShorthand.Attribute.Comment

def mark : Text :=
  Text.ofString "//-"

def blockLength (depth : Nat) : Text → Nat
  | [] => 0
  | b :: rest =>
    if b = '\n'.toUInt8 ∧ Text.indentation rest ≤ depth then 0 else blockLength depth rest + 1

-- How many bytes of `lines`, which begins with a line, belong to a comment on that line: the line,
-- a value that can be read one byte past the mark and the word glued to it, and what is indented
-- deeper than the mark.
def length? (lines : Text) : Except Fault (Option Nat) :=
  let depth := Text.indentation lines
  match Text.after? mark (lines.drop depth) with
  | none => .ok none
  | some afterMark => do
    let word := depth + mark.length + Text.run (!Text.isBlank ·) afterMark
    let covered :=
      match ← Assignment.find lines (word + 1) with
      | some found => found.span.stop
      | none => word
    return some (covered + blockLength depth (lines.drop covered))

def blocks (t : Text) : Except Fault (List Span) :=
  go 0 0 t
where
  -- The bytes before `resume` belong to the last comment.
  go (pos resume : Nat) : Text → Except Fault (List Span)
    | [] => .ok []
    | b :: rest =>
      if pos < resume || b ≠ '\n'.toUInt8 then go (pos + 1) resume rest
      else do
        match ← length? rest with
        | none => go (pos + 1) resume rest
        | some length =>
          let stop := pos + 1 + length
          return ⟨pos, stop⟩ :: (← go (pos + 1) stop rest)

def deletions (blocks : List Span) : List Edit :=
  blocks.map fun s => .deletion s.start s.stop

def strip (t : Text) : Except Fault Text := do
  Edit.applyAll (deletions (← blocks t)) t

end PugShorthand.Attribute.Comment
