import PugShorthand.Toml.Quoted
import PugShorthand.Toml.Scalar
import PugShorthand.Toml.Tree

namespace PugShorthand.Toml

namespace Parser

def maxDepth : Nat := 80

def maxParts : Nat := 80

def checkedKey : Parser (List String × String) := do
  let (path, last) ← key
  guard (path.length < maxParts)
  return (path, last)

def array (item : Parser Value) : Parser Value := do
  return .array false (← bounded loop)
where
  loop : Nat → Parser (List Value)
    | 0 => failure
    | n + 1 => do
      gap
      if ← accept "]" then return []
      let v ← item
      gap
      if ← accept "," then return v :: (← loop n)
      else
        expect "]"
        return [v]

def keyValue (space : Parser Unit) (value : Parser Value)
    (assign : List String → String → Value → Option Entries) : Parser Entries := do
  let (path, last) ← checkedKey
  space
  expect "="
  space
  assign path last (← value)

-- The rest of a table in braces, in which any two parts may be lines apart, but not those of a key.
-- A comma may follow the last entry.
def inlineTable (value : Parser Value) : Parser Value := do
  return .table .inline (← bounded (loop []))
where
  loop (entries : Entries) : Nat → Parser Entries
    | 0 => failure
    | n + 1 => do
      gap
      if ← accept "\x7d" then return entries
      let entries ← keyValue gap value (entries.assign · · ·)
      gap
      if ← accept "," then loop entries n
      else
        expect "\x7d"
        return entries

def value : Nat → Parser Value
  | 0 => flat
  | depth + 1 => do
    if ← accept "[" then array (value depth)
    else if ← accept "\x7b" then inlineTable (value depth)
    else flat
where
  flat : Parser Value := do
    match ← string? with
    | some s => return .string s
    | none => Scalar.parse

end Parser

structure Document where
  entries : Entries := []
  current : List String := []

namespace Document

open Toml.Parser

def insert (d : Document) (path : List String) (key : String) (v : Value) : Option Entries :=
  d.entries.descend false (fun _ entries => entries.assign path key v) d.current .header

def header (d : Document) : Parser Document := do
  let double ← accept "["
  blanks
  let (path, key) ← checkedKey
  blanks
  expect (if double then "]]" else "]")
  let opened ← if double then d.entries.pushTable path key else d.entries.openTable path key
  return ⟨opened, path ++ [key]⟩

def line (d : Document) : Parser Document := do
  blanks
  match ← peek? with
  | none | some '#' | some '\n' | some '\r' => return d
  | some '[' =>
    skip 1
    d.header
  | some _ => return { d with entries := ← keyValue blanks (value maxDepth) d.insert }

def lines (d : Document) : Nat → Parser Document
  | 0 => failure
  | n + 1 => do
    let d ← d.line
    endOfLine
    if (← get).isEmpty then return d else d.lines n

/-- The entries of a whole text. A byte order mark in front is no part of it. -/
def parse? (text : String) : Option Entries := do
  let chars := text.toList
  let chars := if chars.head? = some '\ufeff' then chars.tail else chars
  let (document, _) ← (bounded (lines {})).run chars
  return document.entries

end Document

end PugShorthand.Toml
