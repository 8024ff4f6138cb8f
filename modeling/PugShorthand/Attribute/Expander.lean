import PugShorthand.Attribute.Comment
import PugShorthand.Attribute.Directive
import PugShorthand.Export.Table

namespace PugShorthand.Attribute

def exportInitial (value : Text) : Text :=
  let isExpression := startsWith '{'.toUInt8 value && value.getLast? == some '}'.toUInt8
  if (leadingQuote? value).isSome then Text.ofString "\"\""
  else if isExpression then value.tail.dropLast
  else value

def exportReference (binding : Text) (isStyle : Bool) (value : Text) : Text :=
  match leadingQuote? value with
  | some quote =>
    let separator := if isStyle then Text.ofString ";" else []
    Text.dropTrailing quote value ++ Text.ofString " " ++ separator ++ Text.braced binding
      ++ separator ++ [quote]
  | none => Text.braced binding

namespace Token

def isClass (k : Token) : Bool :=
  k.name == Text.ofString "class"

def isStyle (k : Token) : Bool :=
  k.name == Text.ofString "style"

def written? (k : Token) : Option Text :=
  (k.value.map Value.raw).or (if k.isClass || k.isStyle then some emptyLiteral else none)

def export? (k : Token) : Option Export :=
  if k.exported then some ⟨normaliseName k.name, k.written?.map exportInitial⟩ else none

def expanded? (naming : Export.Naming) (k : Token) : Option Text :=
  let reference := exportReference (naming.binding (normaliseName k.name)) k.isStyle
  (if k.exported then k.written?.map reference else k.written?).map rewrap

-- An attribute of its own in the expanded dialect, where `=` and `!=` have changed places.
def setting (naming : Export.Naming) (k : Token) : Text :=
  match k.operator, k.expanded? naming with
  | some operator, some value => normaliseName k.name ++ operator.inverted.text ++ value
  | _, _ => normaliseName k.name

end Token

structure Expander where
  naming : Export.Naming
  output : Text := []
  classes : Directive := {}
  styles : Directive := {}
  -- In the order in which they came up, repetitions included.
  exports : List Export := []
  deriving DecidableEq, Repr

namespace Expander

def emit (r : Expander) (written : Text) : Expander :=
  { r with output := r.output ++ Text.ofString " " ++ written }

def pushSetting (r : Expander) (k : Token) : Expander :=
  let closed : Expander :=
    { r with
      classes := r.classes.close
      styles := r.styles.close
      exports := r.exports ++ k.export?.toList }
  if k.isClass then { closed with classes := closed.classes.assign (k.expanded? r.naming) }
  else if k.isStyle then { closed with styles := closed.styles.assign (k.expanded? r.naming) }
  else closed.emit (k.setting r.naming)

def push (r : Expander) (k : Token) : Except Fault Expander :=
  if k.verbatim then .ok (r.emit k.display)
  else if k.isCustomProperty || (r.styles.isOpen && k.conditional?.isSome) then do
    return { r with styles := r.styles.append (← k.styleFragment) }
  else
    match k.conditional? with
    | some name =>
      if r.classes.isOpen then do
        return { r with classes := r.classes.append (← k.classFragment name) }
      else .ok (r.pushSetting k)
    | none => .ok (r.pushSetting k)

def finish (r : Expander) : Text :=
  r.output ++ r.classes.render (Text.ofString "class")
    ++ r.styles.render (Text.ofString "style")

end Expander

structure Rendering where
  text : Text
  exports : List Export
  deriving DecidableEq, Repr

-- `class` and `style` depend on all attributes, so nothing is rendered before the last is in.
def render (naming : Export.Naming) (tokens : List Token) : Except Fault Rendering := do
  let r ← tokens.foldlM Expander.push { naming }
  return ⟨r.finish, r.exports⟩

structure Expansion where
  comments : List Span
  tokens : List Token
  rendering : Rendering
  deriving DecidableEq, Repr

/-- The attribute list `source` in the expanded dialect. Comments are taken out before the tokens
are read, so a token can end where a comment began. -/
def expand (naming : Export.Naming) (source : Text) : Except Fault Expansion := do
  let comments ← Comment.blocks source
  let tokens ← Token.scan (← Edit.applyAll (Comment.deletions comments) source)
  return { comments, tokens, rendering := ← render naming tokens }

end PugShorthand.Attribute
