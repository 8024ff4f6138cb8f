import PugShorthand.Log
import PugShorthand.Proofs.Attribute.ReadBack
import PugShorthand.Proofs.Document.Exports
import PugShorthand.Proofs.Document.Shape
import PugShorthand.Proofs.Markup.Qualifier
import PugShorthand.Proofs.QualifiedName.Segment
import PugShorthand.Proofs.Template.Qualified
import PugShorthand.Proofs.Document.Names
import PugShorthand.Proofs.Nesting.Balance
import PugShorthand.Proofs.Template.Interior
import PugShorthand.Proofs.Template.QuotedList
import PugShorthand.Proofs.Nesting.Depth
import PugShorthand.Proofs.Attribute.Layout
import PugShorthand.Proofs.Attribute.WellFormed
import PugShorthand.Proofs.QualifiedName.Shape
import PugShorthand.Proofs.Template.Shape
import PugShorthand.Proofs.Document.PassThrough
import PugShorthand.Proofs.Attribute.Comment.Lines
import PugShorthand.Proofs.Edit.Undo
import PugShorthand.Proofs.Template.Component.Bytes
import PugShorthand.Proofs.Export.Insertion
import PugShorthand.Proofs.Template.Anchor
import PugShorthand.Proofs.Template.NestedStatement
import PugShorthand.Proofs.Template.Statement.Lines
import PugShorthand.Proofs.Nesting.Position
import PugShorthand.Proofs.Attribute.Consolidation
import PugShorthand.Proofs.Attribute.Exported
import PugShorthand.Proofs.Attribute.Repetition
