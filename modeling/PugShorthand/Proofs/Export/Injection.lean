import PugShorthand.Proofs.Export.Placement

namespace PugShorthand.Export

variable {table : Table} {naming : Naming} {code : Text}

theorem Table.declarations_eq : table.declarations naming = Text.ofString ";" ++
    table.entries.flatMap fun e =>
      Text.ofString "let " ++ naming.binding e.name ++ e.initial.elim [] (Text.ofString " = " ++ ·)
        ++ Text.ofString ";\n" := by
  refine congrArg _ (congrArg₂ List.flatMap ?_ rfl)
  funext e
  cases he : e.initial <;> simp [declaration, he]

def exportStatement (declarations specifiers : Text) : Text :=
  declarations ++ Text.ofString "export "
    ++ Text.braced (Text.ofString " " ++ specifiers ++ Text.ofString " ") ++ Text.ofString ";\n"

def Placement.inserted (declarations specifiers code : Text) : Placement → Text
  | extend block =>
    code.take block.start ++ declarations ++ (code.take block.stop).drop block.start
      ++ specifiers ++ Text.ofString ", " ++ code.drop block.stop
  | append offset =>
    code.take offset ++ Text.ofString "\n" ++ exportStatement declarations specifiers
      ++ code.drop offset
  | create =>
    Text.ofString "<script>\n" ++ exportStatement declarations specifiers
      ++ Text.ofString "</script>\n" ++ code

theorem spliceFrom_edits (placement : Placement) :
    Edit.spliceFrom code 0 (placement.edits naming table).reverse =
      placement.inserted (table.declarations naming) (table.specifiers naming) code := by
  have hk : Placement.keyword ++ Text.ofString " " = Text.ofString "export " := by decide
  cases placement <;>
    simp [Placement.edits, Placement.inserted, Placement.statements, exportStatement, ← hk,
      Edit.spliceFrom, Edit.insertion]

theorem Table.inject_eq (h : table.IsWhole) (hn : naming.IsWhole) (hc : code.IsUtf8)
    (he : table.isEmpty = false) :
    table.inject naming code = .ok ((Placement.find code).inserted (table.declarations naming)
      (table.specifiers naming) code) := by
  have hd := Placement.reverse_disciplined naming table hc
  have hw : ∀ e ∈ ((Placement.find code).edits naming table).reverse, e.text.IsUtf8 := fun e hm =>
    Placement.isUtf8_of_mem_edits h hn (List.mem_reverse.mp hm)
  have ha := hd.applyAll_perm (List.reverse_perm _).symm hc hw
  simp only [inject, placement?, he, Bool.false_eq_true, if_false, ha, spliceFrom_edits]

end PugShorthand.Export
