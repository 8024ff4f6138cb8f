import PugShorthand.Proofs.Attribute.Reference
import PugShorthand.Proofs.Document.Layers
import PugShorthand.Proofs.Export.Injection
import PugShorthand.Proofs.Export.Table

namespace PugShorthand

namespace Template.Element

open Attribute

variable {naming : Export.Naming} {t : Text} {elements : List Element}

structure ExportsAgree (naming : Export.Naming) (elements : List Element) : Prop where
  names_nodup : ((table elements).entries.map Export.name).Nodup
  -- The names stand in the order in which they first came up.
  names : (table elements).entries.map Export.name =
    ((elements.flatMap exports).map Export.name).eraseDups
  latest : ∀ e ∈ (table elements).entries,
    Export.latest? (elements.flatMap exports) e.name = some e
  bindings_nodup : ((table elements).entries.map fun e => naming.binding e.name).Nodup
  lists : ∀ tag list x, .expanded tag list x ∈ elements →
    x.rendering = ⟨closedForm naming.binding x.tokens, Token.exports x.tokens⟩
  -- What a list refers to has one entry.
  references : ∀ tag list x, .expanded tag list x ∈ elements → ∀ name ∈ Token.referenced x.tokens,
    ∃! e, e ∈ (table elements).entries ∧ naming.binding e.name = naming.binding name
  -- No list depends on a binding that has none.
  closed : ∀ tag list x, .expanded tag list x ∈ elements → ∀ bind : Text → Text,
    (∀ e ∈ (table elements).entries, bind e.name = naming.binding e.name) →
      x.rendering.text = closedForm bind x.tokens

theorem exportsAgree (ht : t.IsUtf8) (h : scan naming t = .ok elements) :
    ExportsAgree naming elements := by
  have lists : ∀ tag list x, .expanded tag list x ∈ elements →
      x.rendering = ⟨closedForm naming.binding x.tokens, Token.exports x.tokens⟩ := by
    intro tag list x hx
    have ⟨source, origin⟩ := exists_origin h hx
    exact expand_eq_closedForm (origin.isUtf8 ht) origin.expansion
  have exported : ∀ tag list x, .expanded tag list x ∈ elements →
      ∀ name ∈ Token.referenced x.tokens, ∃ e ∈ elements.flatMap exports, e.name = name := by
    intro tag list x hx name hn
    have ⟨e, he, hen⟩ := Token.exists_export_of_referenced hn
    refine ⟨e, List.mem_flatMap.mpr ⟨_, hx, ?_⟩, hen⟩
    simpa only [exports, lists tag list x hx] using he
  have ht := @table_eq_insertAll elements
  constructor
  case names_nodup    => exact ht ▸ Export.Table.nodup_insertAll
  case names          => exact ht ▸ Export.Table.map_name_insertAll
  case latest         => exact fun e he => Export.Table.latest?_of_mem_insertAll (ht ▸ he)
  case bindings_nodup => exact ht ▸ Export.Table.nodup_bindings naming
  case lists          => exact lists
  case references =>
    intro tag list x hx name hn
    obtain ⟨e, he, rfl⟩ := exported tag list x hx name hn
    exact ht ▸ Export.Table.existsUnique_of_mem naming he
  case closed =>
    intro tag list x hx bind hb
    rw [lists tag list x hx]
    apply Token.closedForm_congr
    intro name hn
    obtain ⟨e, he, rfl⟩ := exported tag list x hx name hn
    obtain ⟨e', ⟨he', hb'⟩, -⟩ := Export.Table.existsUnique_of_mem naming he
    have hn := naming.binding_injective hb'
    rw [← hn, hb e' (ht ▸ he')]

end Template.Element

namespace Document

open Template

variable {config : Config} {content t : Text} {naming : Export.Naming}

-- Every name has one entry in the table of the exports, with the initial value that was given
-- last, and all that the expanded lists refer to is there. So what is put into a document, wherever
-- that is, declares each local name that is referred to once, and exports it once.
theorem exports_declared_once (ht : t.IsUtf8) (hc : config.IsWhole) (hd : content.IsUtf8) :
    (∃ elements, Element.scan naming t = .ok elements ∧ Element.ExportsAgree naming elements) ∧
    ∀ span, region? config.templateLang content = some span →
      ∃ l placement code, expand config content = .ok (.expanded l placement code) ∧
        Element.ExportsAgree config.naming l.elements ∧
        (l.exports.isEmpty = false → ∃ p, placement = some p ∧
          let binding (e : Export) : Text := config.naming.binding e.name
          let declarations : Text := Text.ofString ";" ++ l.exports.entries.flatMap fun e =>
            Text.ofString "let " ++ binding e ++ e.initial.elim [] (Text.ofString " = " ++ ·)
              ++ Text.ofString ";\n"
          let specifiers : Text := (Text.ofString ", ").intercalate <|
            l.exports.entries.map fun e => binding e ++ Text.ofString " as " ++ e.name
          code = p.inserted declarations specifiers
            (content.take span.start ++ l.text ++ content.drop span.stop)) := by
  constructor
  case left =>
    have ⟨elements, he, _⟩ := Element.exists_scan naming ht
    exact ⟨elements, he, Element.exportsAgree ht he⟩
  case right =>
    intro span hr
    have ⟨l, qualified, listed, passes, hcode, hx⟩ := exists_expansion hc hd hr
    have ⟨code, hi, _⟩ := Export.Table.exists_inject passes.exports_whole hc.naming hcode
    refine ⟨l, _, code, by rw [hx, hi]; rfl,
      Element.exportsAgree passes.qualified_whole passes.elements, fun he => ?_⟩
    refine ⟨Export.Placement.find _, by rw [Export.Table.placement?, he]; rfl, ?_⟩
    rw [Export.Table.inject_eq passes.exports_whole hc.naming hcode he] at hi
    rw [← Except.ok.inj hi, Export.Table.declarations_eq]
    rfl

theorem exports_declared_once_of_repeated :
    let content := Text.ofString ("<script>\n</script>\n<template lang='pug'>\n" ++
      "p(export:a='1' export:class)\nq(export:b export:a=2)\n</template>")
    let declarations := Text.ofString (";let __export_a__ = 2;\n" ++
      "let __export_class__ = \"\";\nlet __export_b__;\n")
    let specifiers := Text.ofString
      "__export_a__ as a, __export_class__ as class, __export_b__ as b"
    let base := Text.ofString ("<script>\n</script>\n<template lang='pug'>\n" ++
      "p( a!='1 \x7b__export_a__\x7d' class!=' \x7b__export_class__\x7d ')\n" ++
      "q( b a!=`\x7b__export_a__\x7d`)\n</template>")
    region? (.ofString "pug") content = some ⟨40, 93⟩ ∧
      ∃ l placement code, expand {} content = .ok (.expanded l placement code) ∧
        Element.ExportsAgree {} l.elements ∧ l.exports.isEmpty = false ∧
        code = Export.Placement.inserted declarations specifiers base (.append 9) := by
  intro content declarations specifiers base
  have hu : content.IsUtf8 := Text.isUtf8_ofString _
  have hr : region? (.ofString "pug") content = some ⟨40, 93⟩ := by decide +kernel
  have ⟨_, h⟩ := @exports_declared_once {} content content {} hu Config.isWhole_default hu
  have ⟨l, placement, code, hx, ha, _⟩ := h _ hr
  have ho : (expand {} content).map Outcome.summary =
      .ok (false, Export.Placement.inserted declarations specifiers base (.append 9)) := by
    decide +kernel
  rw [hx] at ho
  have ⟨he, hcode⟩ := Prod.mk.inj (Except.ok.inj ho)
  exact ⟨hr, l, placement, code, hx, ha, he, hcode⟩

end Document

end PugShorthand
