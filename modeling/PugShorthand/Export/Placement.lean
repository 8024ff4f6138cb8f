import PugShorthand.Edit
import PugShorthand.Export.Table
import PugShorthand.Span
import PugShorthand.Text.WhiteSpace

namespace PugShorthand.Export

inductive Placement where
  -- The document has an export statement; `block` reaches from its keyword through its brace.
  | extend (block : Span)
  -- `offset` is that of the first end of a script.
  | append (offset : Nat)
  -- There is no script, so one is put in front of all else.
  | create
  deriving DecidableEq, Repr

namespace Placement

def keyword : Text :=
  Text.ofString "export"

def braceLength? (t : Text) : Option Nat :=
  let white := Text.WhiteSpace.leading t
  if (t.drop white).head? = some '{'.toUInt8 then some (white + 1) else none

-- The first export keyword with nothing but white space between itself and a brace.
def block? (code : Text) : Option Span :=
  go 0 0 code
where
  -- The bytes before `resume` belong to a keyword that no brace follows.
  go (pos resume : Nat) : Text → Option Span
    | [] => none
    | b :: rest =>
      if pos < resume then go (pos + 1) resume rest
      else
        match Text.after? keyword (b :: rest) with
        | none => go (pos + 1) resume rest
        | some afterKeyword =>
          match braceLength? afterKeyword with
          | some length => some ⟨pos, pos + keyword.length + length⟩
          | none => go (pos + 1) (pos + keyword.length) rest

def scriptEnd : Text :=
  Text.ofString "</script>"

def find (code : Text) : Placement :=
  match block? code, Text.find? scriptEnd code with
  | some block, _ => extend block
  | none, some offset => append offset
  | none, none => create

def statements (naming : Naming) (table : Table) : Text :=
  table.declarations naming ++ keyword ++ Text.ofString " "
    ++ Text.braced (Text.ofString " " ++ table.specifiers naming ++ Text.ofString " ")
    ++ Text.ofString ";\n"

def edits (naming : Naming) (table : Table) : Placement → List Edit
  | extend block =>
    [.insertion block.stop (table.specifiers naming ++ Text.ofString ", "),
      .insertion block.start (table.declarations naming)]
  | append offset => [.insertion offset (Text.ofString "\n" ++ statements naming table)]
  | create =>
    [.insertion 0 (Text.ofString "<script>\n" ++ statements naming table
      ++ Text.ofString "</script>\n")]

end Placement

def Table.placement? (table : Table) (code : Text) : Option Placement :=
  if table.isEmpty then none else some (Placement.find code)

def Table.inject (naming : Naming) (table : Table) (code : Text) : Except Fault Text :=
  match table.placement? code with
  | some placement => Edit.applyAll (placement.edits naming table) code
  | none => .ok code

end PugShorthand.Export
