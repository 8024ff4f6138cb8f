import PugShorthand.Proofs.Document

namespace PugShorthand

theorem Config.isWhole_default : Config.IsWhole {} where
  fragmentTag := Text.isUtf8_ofString _
  naming := ⟨Text.isUtf8_ofString _, Text.isUtf8_ofString _⟩

namespace Document

open Template

def Outcome.summary : Outcome → Bool × Text
  | untouched content _ => (true, content)
  | expanded layers _ code => (layers.exports.isEmpty, code)

variable {config : Config} {content region : Text} {l : Layers}

-- The texts that the layers of a template leave, each spliced together from the one before it.
structure Passes (config : Config) (region : Text) (l : Layers) (qualified listed : Text) :
    Prop where
  components : l.components = Component.edits config.fragmentTag region
  first : qualified = Edit.spliceFrom region 0 l.components
  elements : Element.scan config.naming qualified = .ok l.elements
  second : listed = Edit.spliceFrom qualified 0 (Element.edits l.elements)
  statements : l.statements = Statement.scan config.closes listed
  third : l.text = Edit.spliceFrom listed 0 (Statement.edits l.statements)
  qualified_whole : qualified.IsUtf8
  listed_whole : listed.IsUtf8
  text_whole : l.text.IsUtf8
  exports_whole : l.exports.IsWhole

theorem exists_passes (hc : config.IsWhole) (hr : region.IsUtf8) :
    ∃ l qualified listed, layers config region = .ok l ∧
      Passes config region l qualified listed := by
  let components := Component.edits config.fragmentTag region
  have hcd : Edit.Disciplined region components := Component.edits_disciplined hr
  have hcw : ∀ e ∈ components, e.text.IsUtf8 := fun _ =>
    Component.isUtf8_of_mem_edits hc.fragmentTag hr
  have hqu := hcd.isUtf8_spliceFrom hr hcw
  have ⟨elements, he, hed, hew⟩ := Element.exists_scan config.naming hqu
  have hew := hew hc.naming
  have hex : ∀ e ∈ Element.edits elements, e.text.IsUtf8 := fun _ =>
    Element.isUtf8_of_mem_edits hew
  let listed := Edit.spliceFrom (Edit.spliceFrom region 0 components) 0 (Element.edits elements)
  have hlu : Text.IsUtf8 listed := hed.isUtf8_spliceFrom hqu hex
  let statements := Statement.scan config.closes listed
  have hsd : Edit.Disciplined listed (Statement.edits statements) :=
    Statement.edits_disciplined config.closes hlu
  have hsw : ∀ e ∈ Statement.edits statements, e.text.IsUtf8 := fun _ =>
    Statement.isUtf8_of_mem_edits hlu
  let l : Layers :=
    ⟨components, elements, statements, Edit.spliceFrom listed 0 (Statement.edits statements)⟩
  refine ⟨l, _, listed, ?_, rfl, rfl, he, rfl, rfl, rfl, hqu, hlu,
    hsd.isUtf8_spliceFrom hlu hsw, Element.isWhole_table hew⟩
  have h₁ := hcd.applyAll hr hcw
  have h₂ := hed.applyAll hqu hex
  have h₃ := hsd.applyAll hlu hsw
  simp only [components, listed, statements] at h₁ h₂ h₃ he
  simp only [Document.layers, h₁, he, h₂, h₃, bind, Except.bind, pure, Except.pure, l, components,
    listed, statements]

theorem exists_expansion {span : Span} (hc : config.IsWhole) (ht : content.IsUtf8)
    (hr : region? config.templateLang content = some span) :
    ∃ l qualified listed, Passes config ((content.take span.stop).drop span.start) l qualified
        listed ∧
      let code : Text := content.take span.start ++ l.text ++ content.drop span.stop
      code.IsUtf8 ∧ expand config content =
        (l.exports.inject config.naming code).map (.expanded l (l.exports.placement? code)) := by
  have ⟨hfront, hregion, hback⟩ := isRange_region? ht hr
  have ⟨l, qualified, listed, hl, passes⟩ := exists_passes hc (ht.slice hregion)
  refine ⟨l, qualified, listed, passes, ?_, ?_⟩
  · have hf := ht.slice hfront
    have hb := ht.slice hback
    rw [List.take_length] at hb
    exact (hf.append passes.text_whole).append hb
  · simp only [expand, hr, Span.text, Text.slice_eq hfront, Text.slice_eq hregion,
      Text.slice_eq hback, hl, bind, Except.bind, List.drop_zero, List.take_length]
    cases l.exports.inject config.naming
      (content.take span.start ++ l.text ++ content.drop span.stop) <;> rfl

end Document

end PugShorthand
