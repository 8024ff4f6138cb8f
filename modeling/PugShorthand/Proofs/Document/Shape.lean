import PugShorthand.Proofs.Document.Layers
import PugShorthand.Proofs.Export.Table
import PugShorthand.Proofs.Template.Seamless

namespace PugShorthand.Document

open Template

variable {config : Config} {content region qualified listed : Text} {l : Layers}

theorem Passes.tagFree (h : Passes config region l qualified listed) (hr : region.IsUtf8)
    (ht : TagFree region) (hf : TagFree config.fragmentTag) (hx : l.exports.isEmpty = true) :
    TagFree l.text := by
  have hq : TagFree qualified := by
    rw [h.first, h.components]
    exact tagFree_component hf hr ht
  have hl : TagFree listed := by
    rw [Layers.exports, Element.table_eq_insertAll] at hx
    rw [h.second]
    exact tagFree_element h.qualified_whole hq h.elements (Export.Table.eq_nil_of_isEmpty hx)
  rw [h.third, h.statements]
  exact tagFree_statement config.closes h.listed_whole hl

-- A document without exports changes in its template only, which stays one: nothing in it is moved
-- or left out in such a way that it comes to hold a closing tag, so it is found again where it was.
theorem expand_keeps_shape {span : Span} (hc : config.IsWhole) (ht : content.IsUtf8)
    (hf : ¬closingTag <:+: config.fragmentTag)
    (hr : region? config.templateLang content = some span) :
    ∃ l placement code, expand config content = .ok (.expanded l placement code) ∧
      (l.exports.isEmpty = true →
        code = content.take span.start ++ l.text ++ content.drop span.stop ∧
        ¬closingTag <:+: l.text ∧
        region? config.templateLang code = some ⟨span.start, span.start + l.text.length⟩) := by
  have ⟨l, qualified, listed, passes, hcode, hx⟩ := exists_expansion hc ht hr
  have ⟨code, hi, _⟩ := Export.Table.exists_inject passes.exports_whole hc.naming hcode
  refine ⟨l, _, code, by rw [hx, hi]; rfl, fun he => ?_⟩
  have hregion := (isRange_region? ht hr).right.left
  have htext : TagFree l.text :=
    passes.tagFree (ht.slice hregion) (tagFree_region hr) hf he
  have hinject : code = content.take span.start ++ l.text ++ content.drop span.stop := by
    simpa [Export.Table.inject, Export.Table.placement?, he, eq_comm] using hi
  exact ⟨hinject, htext, hinject ▸ region?_splice hr htext⟩

theorem expand_keeps_shape_of_parts :
    let content := Text.ofString ("<template lang=\"pug\">\n" ++
      "A.B(class='</templ' :c='a>'\n//- x\n</template)\n</temp\n\x7b/if\x7dlate>\n" ++
      "(d=</)\n\x7b#if </\x7dtemplate>\n</template>\n")
    let code := Text.ofString ("<template lang=\"pug\">\n" ++
      "A:B( </template class!='</templ  \x7ba> ? \\' c\\' : \\'\\'\x7d')\n</temp\nlate>\n" ++
      "svelte:fragment( d!=</)\n+if(`</`)template>\n</template>\n")
    ¬closingTag <:+: ({} : Config).fragmentTag ∧
      region? (.ofString "pug") content = some ⟨21, 111⟩ ∧
      ∃ l placement, expand {} content = .ok (.expanded l placement code) ∧
        l.exports.isEmpty = true ∧ code = content.take 21 ++ l.text ++ content.drop 111 ∧
        ¬closingTag <:+: l.text ∧
        region? (.ofString "pug") code = some ⟨21, 21 + l.text.length⟩ := by
  intro content code
  have hf : ¬closingTag <:+: ({} : Config).fragmentTag := fun h =>
    absurd (h.subset (by decide : '<'.toUInt8 ∈ closingTag)) (by decide)
  have hr : region? (.ofString "pug") content = some ⟨21, 111⟩ := by decide +kernel
  have ⟨l, placement, code', hx, hs⟩ :=
    expand_keeps_shape Config.isWhole_default (Text.isUtf8_ofString _) hf hr
  have ho : (expand {} content).map Outcome.summary = .ok (true, code) := by decide +kernel
  rw [hx] at ho
  have ⟨he, hcode⟩ := Prod.mk.inj (Except.ok.inj ho)
  have hs := hs he
  rw [hcode] at hx hs
  exact ⟨hf, hr, l, placement, hx, he, hs⟩

end PugShorthand.Document
