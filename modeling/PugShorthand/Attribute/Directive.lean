import PugShorthand.Attribute.Literal
import PugShorthand.Attribute.Token

namespace PugShorthand.Attribute

def emptyLiteral : Text :=
  Text.ofString "''"

-- What is known of the `class` or of the `style` of one element: its own value, and what was
-- folded into it. While it is open, attributes with a colon in front fold into it.
structure Directive where
  value : Option Text := none
  isOpen : Bool := false
  fragments : Text := []
  deriving DecidableEq, Repr

namespace Directive

def isUsed (d : Directive) : Bool :=
  d.value.isSome || !d.fragments.isEmpty

def append (d : Directive) (fragment : Text) : Directive :=
  { d with fragments := d.fragments ++ fragment }

def close (d : Directive) : Directive :=
  { d with isOpen := false }

def assign (d : Directive) (value : Option Text) : Directive :=
  { d with value, isOpen := true }

def consolidate (d : Directive) : Text :=
  let value := d.value.getD emptyLiteral
  let (value, quote) :=
    match leadingQuote? value with
    | some quote => (value, quote)
    | none => (templateLiteral (Text.braced value), '`'.toUInt8)
  Text.dropTrailing quote value ++ Text.ofString " " ++ Text.escape quote d.fragments ++ [quote]

-- The value is a finished literal, hence `!=`.
def render (name : Text) (d : Directive) : Text :=
  if d.isUsed then Text.ofString " " ++ name ++ Text.ofString "!=" ++ d.consolidate else []

end Directive

namespace Token

def conditional? (k : Token) : Option Text :=
  Text.after? (Text.ofString ":") k.name

def isCustomProperty (k : Token) : Bool :=
  (Text.ofString "--").isPrefixOf k.name

def styleValue (k : Token) : Except Fault Text :=
  match k.value with
  | some value => if value.delimiter.isQuote then value.inner else .ok value.raw
  | none => .ok []

def styleFragment (k : Token) : Except Fault Text := do
  let property := k.conditional?.getD k.name
  return Text.ofString ";" ++ property ++ Text.ofString ": " ++ (← k.styleValue)
    ++ Text.ofString ";"

def classFragment (k : Token) (name : Text) : Except Fault Text := do
  let condition ←
    match k.value with
    | some value => value.inner
    | none => .ok name
  return Text.ofString " " ++ Text.braced
    (condition ++ Text.ofString " ? ' " ++ name ++ Text.ofString "' : ''")

end Token

end PugShorthand.Attribute
