import PugShorthand.Attribute.Value

namespace PugShorthand.Attribute

inductive Operator where
  | assign
  | verbatim
  deriving DecidableEq, Repr

namespace Operator

def inverted : Operator → Operator
  | assign => verbatim
  | verbatim => assign

def text : Operator → Text
  | assign => Text.ofString "="
  | verbatim => Text.ofString "!="

end Operator

-- One attribute of a list. `verbatim` attributes are passed on as they are written.
structure Token where
  name : Text
  operator : Option Operator := none
  value : Option Value := none
  exported : Bool := false
  verbatim : Bool := false
  deriving DecidableEq, Repr

def exportMark : Text :=
  Text.ofString "export:"

namespace Token

def named (written : Text) : Token :=
  match Text.after? exportMark written with
  | some name => { name, exported := true }
  | none => { name := written }

def bare (written : Text) : Token :=
  named written

def assigned (written : Text) (value : Value) : Token :=
  { named written with operator := some .assign, value := some value }

-- An attribute assigned with `!=`; here the export mark is part of the name.
def escaped (name : Text) (value : Value) : Token :=
  { name, operator := some .verbatim, value := some value, verbatim := true }

def display (k : Token) : Text :=
  match k.operator, k.value with
  | some operator, some value => k.name ++ operator.text ++ value.raw
  | _, _ => k.name

def read (t : Text) (start : Nat) : Except Fault (Token × Nat) := do
  match ← Assignment.find t start with
  | some found =>
    let value := ⟨← found.span.text t, found.delimiter⟩
    let equals := found.span.start - 1
    if found.verbatim then
      return (escaped (← Text.slice t start (equals - 1)) value, found.span.stop)
    else
      return (assigned (← Text.slice t start equals) value, found.span.stop)
  | none =>
    let stop := start + Text.run (!Text.isBlank ·) (t.drop start)
    return (bare (← Text.slice t start stop), stop)

def scan (t : Text) : Except Fault (List Token) :=
  go 0 0 t
where
  -- `rest` is what stands at `pos`; the bytes before `resume` belong to the last token.
  go (pos resume : Nat) (rest : Text) : Except Fault (List Token) :=
    match rest with
    | [] => .ok []
    | b :: rest =>
      if pos < resume || Text.isBlank b then go (pos + 1) resume rest
      else do
        let (token, stop) ← read t pos
        return token :: (← go (pos + 1) stop rest)

end Token

end PugShorthand.Attribute
