import PugShorthand.Toml.Value

namespace PugShorthand.Toml.Entries

def update (key : String) (f : Option Value → Option Value) : Entries → Option Entries
  | [] => (f none).map fun v => [(key, v)]
  | (k, v) :: rest =>
    if k = key then (f (some v)).map fun v => (k, v) :: rest
    else (update key f rest).map ((k, v) :: ·)

-- Acts on the table that `path` leads to. Missing tables are made on the way, and of the tables of
-- double-bracket headers the last is meant. A table in braces cannot be entered, and a dotted key
-- cannot enter one with a header of its own. One that it enters counts as made by it from then on.
def descend (dotted : Bool) (act : Origin → Entries → Option Entries) :
    List String → Origin → Entries → Option Entries
  | [], origin, entries => act origin entries
  | key :: path, _, entries =>
    let fresh := if dotted then Origin.dotted else Origin.implied
    update key (fun
      | none => (descend dotted act path fresh []).map (.table fresh)
      | some (.table origin inner) =>
        if origin = .inline ∨ (dotted ∧ origin = .header) then none
        else
          let entered := if dotted then Origin.dotted else origin
          (descend dotted act path entered inner).map (.table entered)
      | some (.array true items) =>
        match items.getLast? with
        | some (.table origin inner) =>
          (descend dotted act path origin inner).map fun inner =>
            .array true (items.dropLast ++ [.table origin inner])
        | _ => none
      | some _ => none) entries

-- Gives `key` in the table behind `path` a value. No key has two values, and `path` cannot end at
-- one of the tables of a double-bracket header.
def assign (path : List String) (key : String) (value : Value) (entries : Entries) :
    Option Entries :=
  descend true
    (fun origin entries =>
      if path ≠ [] ∧ origin ≠ .dotted then none
      else
        update key (fun
          | none => some value
          | some _ => none) entries)
    path .header entries

def openTable (path : List String) (key : String) : Entries → Option Entries :=
  descend false
    (fun _ => update key (fun
      | none => some (.table .header [])
      | some (.table .implied inner) => some (.table .header inner)
      | some _ => none))
    path .header

def pushTable (path : List String) (key : String) : Entries → Option Entries :=
  descend false
    (fun _ => update key (fun
      | none => some (.array true [.table .header []])
      | some (.array true items) => some (.array true (items ++ [.table .header []]))
      | some _ => none))
    path .header

end PugShorthand.Toml.Entries
