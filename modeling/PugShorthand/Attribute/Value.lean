import PugShorthand.Nesting

namespace PugShorthand.Attribute

inductive Delimiter where
  | single
  | double
  | backtick
  | brace
  | bracket
  | bare
  deriving DecidableEq, Repr

namespace Delimiter

def ofOpening (b : UInt8) : Delimiter :=
  if b = '\''.toUInt8 then single
  else if b = '"'.toUInt8 then double
  else if b = '`'.toUInt8 then backtick
  else if b = '{'.toUInt8 then brace
  else if b = '['.toUInt8 then bracket
  else bare

def closing? : Delimiter → Option UInt8
  | single => some '\''.toUInt8
  | double => some '"'.toUInt8
  | backtick => some '`'.toUInt8
  | brace => some '}'.toUInt8
  | bracket => some ']'.toUInt8
  | bare => none

def isQuote : Delimiter → Bool
  | single | double | backtick => true
  | brace | bracket | bare => false

end Delimiter

structure Value where
  -- The value as written, with its delimiters.
  raw : Text
  delimiter : Delimiter
  deriving DecidableEq, Repr

def Value.inner (v : Value) : Except Fault Text :=
  if v.delimiter = .bare ∨ v.raw.length < 2 then .ok v.raw
  else Text.slice v.raw 1 (v.raw.length - 1)

structure Assignment where
  span : Span
  delimiter : Delimiter
  verbatim : Bool
  deriving DecidableEq, Repr

namespace Assignment

def equals? (pos : Nat) : Text → Option Nat
  | [] => none
  | b :: rest =>
    if b = '='.toUInt8 then some pos
    else if Text.isBlank b then none
    else equals? (pos + 1) rest

def value (t : Text) (start : Nat) : Except Fault (Option (Span × Delimiter)) :=
  let rest := t.drop start
  let opening := rest.headD 0
  let delimiter := Delimiter.ofOpening opening
  match delimiter.closing? with
  | some closing => do
    return (← Nesting.find t start opening closing).map (·, delimiter)
  | none =>
    match Text.run (!Text.isBlank ·) rest with
    | 0 => .ok none
    | length => .ok (some (⟨start, start + length⟩, delimiter))

def find (t : Text) (pos : Nat) : Except Fault (Option Assignment) :=
  match equals? pos (t.drop pos) with
  | none => .ok none
  | some equals => do
    let verbatim := 0 < equals ∧ t[equals - 1]? = some '!'.toUInt8
    return (← value t (equals + 1)).map fun (span, delimiter) => { span, delimiter, verbatim }

end Assignment

end PugShorthand.Attribute
