import PugShorthand.Config.Basic
import PugShorthand.Export.Placement
import PugShorthand.Markup.Tag
import PugShorthand.Template.Component
import PugShorthand.Template.Element
import PugShorthand.Template.Region
import PugShorthand.Template.Statement

namespace PugShorthand.Document

open Template

-- The findings in a template region, layer by layer: each is made in the text that the edits of
-- the layer before it leave.
structure Layers where
  components : List Edit
  elements : List Element
  statements : List Statement.Occurrence
  -- The region with all three layers expanded.
  text : Text
  deriving DecidableEq, Repr

def Layers.exports (l : Layers) : Export.Table :=
  Element.table l.elements

def layers (config : Config) (region : Text) : Except Fault Layers := do
  let components := Component.edits config.fragmentTag region
  let qualified ← Edit.applyAll components region
  let elements ← Element.scan config.naming qualified
  let listed ← Edit.applyAll (Element.edits elements) qualified
  let statements := Statement.scan config.closes listed
  let text ← Edit.applyAll (Statement.edits statements) listed
  return { components, elements, statements, text }

inductive Outcome where
  -- It has no region of the language in question and stays as it is.
  | untouched (content lang : Text)
  | expanded (layers : Layers) (placement : Option Export.Placement) (code : Text)
  deriving DecidableEq, Repr

def Outcome.code : Outcome → Text
  | untouched content _ => content
  | expanded _ _ code => code

/-- Expands the shorthand in the template region of `content`, and declares the exports found there
in its script. -/
def expand (config : Config) (content : Text) : Except Fault Outcome :=
  match region? config.templateLang content with
  | none => .ok (.untouched content config.templateLang)
  | some region => do
    let layers ← layers config (← region.text content)
    let front ← Text.slice content 0 region.start
    let back ← Text.slice content region.stop content.length
    let code := front ++ layers.text ++ back
    let placement := layers.exports.placement? code
    return .expanded layers placement (← layers.exports.inject config.naming code)

/-- Gives the component names of rendered markup their dots back. -/
def restore (content : Text) : Except Fault Text :=
  Markup.Tag.restore content

end PugShorthand.Document
