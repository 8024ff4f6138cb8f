import PugShorthand.Text.Basic

namespace PugShorthand.Attribute

def leadingQuote? : Text → Option UInt8
  | [] => none
  | b :: _ =>
    if b = '\''.toUInt8 ∨ b = '"'.toUInt8 ∨ b = '`'.toUInt8 then some b else none

def templateLiteral (t : Text) : Text :=
  '`'.toUInt8 :: Text.escape '`'.toUInt8 t ++ ['`'.toUInt8]

def isDigits (t : Text) : Bool :=
  !t.isEmpty && t.all Text.isDigit

def isNumeric (t : Text) : Bool :=
  match t.findIdx? (· == '.'.toUInt8) with
  | none => isDigits t
  | some k => isDigits (t.take k) && isDigits (t.drop (k + 1))

def isTruthValue (t : Text) : Bool :=
  t == Text.ofString "true" || t == Text.ofString "false"

def startsWith (b : UInt8) (t : Text) : Bool :=
  t.head? == some b

-- Lists, numbers, expressions and truth values would be read as plain text behind an expanded
-- attribute, so they become template literals that hold an expression.
def rewrap (value : Text) : Text :=
  if startsWith '['.toUInt8 value || isNumeric value || isTruthValue value then
    templateLiteral (Text.braced value)
  else if startsWith '{'.toUInt8 value then templateLiteral value
  else value

def normaliseName (name : Text) : Text :=
  let quoted (t : Text) : Text := '\''.toUInt8 :: t ++ ['\''.toUInt8]
  if (Text.ofString "...").isPrefixOf name then quoted (Text.braced name)
  else if startsWith '{'.toUInt8 name && name.getLast? == some '}'.toUInt8 then quoted name
  else name

end PugShorthand.Attribute
