namespace PugShorthand.Toml

structure Decimal where
  digits : Nat
  exponent : Int
  deriving DecidableEq, Repr

-- Whether the number is beyond the largest double by half a unit in its last place or more, so
-- that it has no finite double next to it.
def Decimal.overflows (d : Decimal) : Bool :=
  let limit := (Nat.pow 2 54 - 1) * Nat.pow 2 970
  let places := (Nat.toDigits 10 d.digits).length + d.exponent
  -- The limit has 309 places, so the powers below stay small.
  if d.digits = 0 ∨ places < 309 then false
  else if 309 < places then true
  else limit * Nat.pow 10 (-d.exponent).toNat ≤ d.digits * Nat.pow 10 d.exponent.toNat

-- How a table came about, which decides what may still be added to it.
inductive Origin where
  -- Written in braces: complete as it stands.
  | inline
  -- Named by a header of its own.
  | header
  -- Passed through by a header on the way to another table.
  | implied
  -- Passed through by a dotted key, whether or not by a header before.
  | dotted
  deriving DecidableEq, Repr

inductive Value where
  | string (s : String)
  -- A numeral that turns out to be none has no number.
  | integer (n : Option Int)
  -- Infinities and what is not a number have no magnitude.
  | float (magnitude : Option Decimal)
  | boolean (b : Bool)
  | datetime
  -- `grows` tells the tables of double-bracket headers from a list in brackets.
  | array (grows : Bool) (items : List Value)
  | table (origin : Origin) (entries : List (String × Value))
  deriving Repr

abbrev Entries := List (String × Value)

mutual

def Value.isRepresentable : Value → Bool
  | .integer (some n) => -2 ^ 127 ≤ n && n < 2 ^ 128
  | .integer none => false
  | .float (some d) => !d.overflows
  | .array _ items => itemsRepresentable items
  | .table _ entries => entriesRepresentable entries
  | .string _ | .float none | .boolean _ | .datetime => true

def itemsRepresentable : List Value → Bool
  | [] => true
  | v :: rest => v.isRepresentable && itemsRepresentable rest

def entriesRepresentable : List (String × Value) → Bool
  | [] => true
  | (_, v) :: rest => v.isRepresentable && entriesRepresentable rest

end

end PugShorthand.Toml
