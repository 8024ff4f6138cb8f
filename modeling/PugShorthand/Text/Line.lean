import PugShorthand.Text.Basic

namespace PugShorthand.Text

def isIndent (b : UInt8) : Bool :=
  b == '\t'.toUInt8 || b == ' '.toUInt8

def indentation (t : Text) : Nat :=
  run isIndent t

-- Where the body of each line begins: past the newline in front of the line and past its
-- indentation. What stands before the first newline is no line in this sense.
def lineBodies (t : Text) : List Nat :=
  go 0 t
where
  go (pos : Nat) : Text → List Nat
    | [] => []
    | b :: rest =>
      if b = '\n'.toUInt8 then (pos + 1 + indentation rest) :: go (pos + 1) rest
      else go (pos + 1) rest

end PugShorthand.Text
