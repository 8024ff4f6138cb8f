import PugShorthand.Document
import PugShorthand.Proofs.Export.Placement
import PugShorthand.Proofs.Markup.Tag
import PugShorthand.Proofs.Template.Component
import PugShorthand.Proofs.Template.Element
import PugShorthand.Proofs.Template.Region
import PugShorthand.Proofs.Template.Statement

namespace PugShorthand

-- Every list of edits that is recorded anywhere can be made without a check: each edit starts
-- behind the start and not before the end of the one before it, and cuts the text only between
-- characters. Where exports are placed this holds of the edits in the order of the text.
theorem every_edit_list_disciplined (s : String) (fragmentTag : Text) (closes : Text → Bool)
    (table : Export.Table) (naming : Export.Naming) :
    Edit.Disciplined (.ofString s) (Template.Component.edits fragmentTag (.ofString s)) ∧
    (∃ elements, Template.Element.scan naming (.ofString s) = .ok elements ∧
      Edit.Disciplined (.ofString s) (Template.Element.edits elements)) ∧
    Edit.Disciplined (.ofString s)
      (Template.Statement.edits (Template.Statement.scan closes (.ofString s))) ∧
    (∃ comments, Attribute.Comment.blocks (.ofString s) = .ok comments ∧
      Edit.Disciplined (.ofString s) (Attribute.Comment.deletions comments)) ∧
    Edit.Disciplined (.ofString s) (Markup.Tag.edits (.ofString s)) ∧
    (∃ es, es.Perm ((Export.Placement.find (.ofString s)).edits naming table) ∧
      Edit.Disciplined (.ofString s) es) := by
  have ht := Text.isUtf8_ofString s
  have ⟨elements, he, hd, _⟩ := Template.Element.exists_scan naming ht
  exact ⟨Template.Component.edits_disciplined ht, ⟨elements, he, hd⟩,
    Template.Statement.edits_disciplined closes ht, Attribute.Comment.exists_blocks ht,
    Markup.Tag.edits_disciplined ht, Export.Placement.exists_perm_disciplined naming table ht⟩

-- The language and the kinds of blocks are only compared with, so nothing is asked of them.
structure Config.IsWhole (config : Config) : Prop where
  fragmentTag : config.fragmentTag.IsUtf8
  naming : config.naming.IsWhole

namespace Document

open Template

variable {config : Config} {content region : Text} {l : Layers}

-- A template with the texts its layers leave, and what each layer relies on in its text.
structure Stages (config : Config) (region : Text) (l : Layers) (qualified listed : Text) :
    Prop where
  layers : Document.layers config region = .ok l
  first : Edit.applyAll l.components region = .ok qualified
  second : Edit.applyAll (Element.edits l.elements) qualified = .ok listed
  third : Edit.applyAll (Statement.edits l.statements) listed = .ok l.text
  components : Component.Cuts config.fragmentTag region
  elements : Element.Cuts qualified
  -- An attribute list is scanned as it stands, and once more without its comments.
  attributes : ∀ pos tag list source, Element.tag? (qualified.drop pos) = some tag →
    Nesting.find qualified (tag.shift pos).stop '('.toUInt8 ')'.toUInt8 = .ok (some list) →
    list.inner qualified = .ok source →
      ∃ stripped, Attribute.Comment.strip source = .ok stripped ∧ Attribute.Cuts source ∧
        Attribute.Cuts stripped
  statements : Statement.Cuts listed

theorem exists_edited {t : Text} {edits : List Edit} (ht : t.IsUtf8) (h : Edit.Disciplined t edits)
    (hw : ∀ e ∈ edits, e.text.IsUtf8) : ∃ s, Edit.applyAll edits t = .ok s ∧ s.IsUtf8 :=
  ⟨_, h.applyAll ht hw, h.isUtf8_spliceFrom ht hw⟩

theorem attribute_cuts {t source : Text} {pos : Nat} {tag list : Span} (ht : t.IsUtf8)
    (h : Element.tag? (t.drop pos) = some tag)
    (hf : Nesting.find t (tag.shift pos).stop '('.toUInt8 ')'.toUInt8 = .ok (some list))
    (hs : list.inner t = .ok source) :
    ∃ stripped, Attribute.Comment.strip source = .ok stripped ∧ Attribute.Cuts source ∧
      Attribute.Cuts stripped := by
  have ⟨_, rest, hd⟩ := Element.opens_of_tag? h
  rcases Nesting.find_cases ')'.toUInt8 ht hd (by decide) (by decide) with
    hn | ⟨list', source', hf', -, -, -, hs', hu⟩
  case inl => simp [hf] at hn
  case inr =>
    obtain rfl : list' = list := by simpa [hf] using hf'.symm
    obtain rfl : source' = source := by simpa [hs] using hs'.symm
    have ⟨stripped, hst, hus⟩ := Attribute.Comment.exists_strip hu
    exact ⟨stripped, hst, Attribute.cuts hu, Attribute.cuts hus⟩

theorem exists_stages (hc : config.IsWhole) (hr : region.IsUtf8) :
    ∃ l qualified listed, Stages config region l qualified listed ∧ l.text.IsUtf8 ∧
      l.exports.IsWhole := by
  have ⟨qualified, hq, hqu⟩ := exists_edited hr (Component.edits_disciplined hr)
    fun _ => Component.isUtf8_of_mem_edits hc.fragmentTag hr
  have ⟨elements, he, hed, hew⟩ := Element.exists_scan config.naming hqu
  have hew := hew hc.naming
  have ⟨listed, hl, hlu⟩ := exists_edited hqu hed fun _ => Element.isUtf8_of_mem_edits hew
  have ⟨text, htext, hu⟩ := exists_edited hlu (Statement.edits_disciplined config.closes hlu)
    fun _ => Statement.isUtf8_of_mem_edits hlu
  let l : Layers := {
    components := Component.edits config.fragmentTag region
    elements
    statements := Statement.scan config.closes listed
    text }
  have stages : Stages config region l qualified listed := {
    layers := by
      simp [Document.layers, hq, he, hl, htext, l, bind, Except.bind, pure, Except.pure]
    first := hq
    second := hl
    third := htext
    components := Component.cuts hr
    elements := Element.cuts hqu
    attributes := fun _ _ _ _ h hf hs => attribute_cuts hqu h hf hs
    statements := Statement.cuts hlu }
  exact ⟨l, qualified, listed, stages, hu, Element.isWhole_table hew⟩

-- No document faults, whatever it holds and whatever the configuration is: every search for the
-- end of a region begins where the region opens, and every piece that is cut out or replaced is
-- there and consists of whole characters.
theorem expand_never_faults (hc : config.IsWhole) (ht : content.IsUtf8) :
    ∃ o, expand config content = .ok o ∧ o.code.IsUtf8 ∧
      ∀ span, region? config.templateLang content = some span →
        ∃ region l qualified listed, span.text content = .ok region ∧
          Stages config region l qualified listed ∧
          Export.Placement.Cuts (content.take span.start ++ l.text ++ content.drop span.stop) := by
  cases hr : region? config.templateLang content
  case none => exact ⟨.untouched content config.templateLang, by simp [expand, hr], ht, by simp⟩
  case some span =>
    have ⟨hfront, hregion, hback⟩ := isRange_region? ht hr
    have ⟨l, qualified, listed, stages, hl, he⟩ := exists_stages hc (ht.slice hregion)
    let code : Text := content.take span.start ++ l.text ++ content.drop span.stop
    have hcode : code.IsUtf8 := by
      have hf := ht.slice hfront
      have hb := ht.slice hback
      rw [List.take_length] at hb
      exact (hf.append hl).append hb
    have ⟨out, ho, hu⟩ := Export.Table.exists_inject he hc.naming hcode
    refine ⟨.expanded l (l.exports.placement? code) out, ?_, hu, ?_⟩
    · simp only [expand, hr, Span.text, Text.slice_eq hfront, Text.slice_eq hregion,
        Text.slice_eq hback, stages.layers, bind, Except.bind, List.drop_zero, List.take_length]
      simp only [code] at ho ⊢
      rw [ho]
      rfl
    · intro span' hs
      cases hs
      exact ⟨_, l, qualified, listed, Text.slice_eq hregion, stages, Export.Placement.cuts hcode⟩

theorem expand_never_faults_of_malformed :
    let content := Text.ofString
      "<template lang=\"pug\">\na(é='1'!=2 = \n  //-)\nB.C(x=\x7b y!='ü\n</template>"
    Template.region? (Text.ofString "pug") content = some ⟨21, 59⟩ ∧
      ∃ o, expand {} content = .ok o ∧ o.code.IsUtf8 :=
  have hc : Config.IsWhole {} :=
    ⟨Text.isUtf8_ofString _, ⟨Text.isUtf8_ofString _, Text.isUtf8_ofString _⟩⟩
  have ⟨o, ho, hu, _⟩ := expand_never_faults hc (Text.isUtf8_ofString _)
  ⟨by decide +kernel, o, ho, hu⟩

end Document

end PugShorthand
