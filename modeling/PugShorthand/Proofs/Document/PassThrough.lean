import PugShorthand.Document
import PugShorthand.Proofs.QualifiedName.Shape
import PugShorthand.Proofs.Template.Region
import PugShorthand.Proofs.Template.Shape

namespace PugShorthand

namespace Template

variable {fragmentTag t : Text} {closes : Text → Bool}

theorem Component.edits_eq_nil
    (h : ∀ body ∈ Text.lineBodies t, edit? fragmentTag (t.drop body) = none) :
    edits fragmentTag t = [] :=
  List.filterMap_eq_nil_iff.mpr fun body hb => by rw [h body hb, Option.map_none]

theorem Statement.scan_eq_nil (h : ∀ body ∈ Text.lineBodies t, ∀ x ∈ read? (t.drop body),
    x.1.isExpanded closes = false) : scan closes t = [] := by
  refine List.eq_nil_iff_forall_not_mem.mpr fun o ho => ?_
  have ⟨body, hb, n, hr, _, hx⟩ := exists_read_of_mem_go ho
  simp [h body hb _ hr] at hx

namespace Element

theorem exists_scan_of_open (naming : Export.Naming) (ht : t.IsUtf8)
    (h : ∀ head, IsHead t head → ∀ n ∈ nameLength? (t.drop head),
      Nesting.find t (head + n) '('.toUInt8 ')'.toUInt8 = .ok none) :
    ∃ elements, scan naming t = .ok elements ∧ edits elements = [] ∧
      (table elements).isEmpty = true := by
  have ⟨elements, hs, _⟩ := exists_scan naming ht
  have hn : ∀ x ∈ elements, x.edit? = none ∧ x.exports = [] := fun x hx => by
    have ⟨_, tag, stop, _, htag, hread⟩ := exists_read_of_mem_go rfl hs hx
    have ⟨hh, n, hn, hstop⟩ := isHead_of_tag? htag
    have hf := h _ hh n hn
    rw [Nat.add_assoc, ← hstop] at hf
    have ⟨he, hx, _⟩ := unclosed_of_read hf hread
    exact ⟨he, hx⟩
  refine ⟨elements, hs, List.filterMap_eq_nil_iff.mpr fun x hx => (hn x hx).left, ?_⟩
  rw [table_eq_insertAll, List.flatMap_eq_nil_iff.mpr fun x hx => (hn x hx).right]
  rfl

end Element

end Template

theorem Markup.Tag.edits_eq_nil {t : Text} (ht : t.IsUtf8) (h : ∀ i, ¬shape.Begins (t.drop i)) :
    edits t = [] := by
  refine List.eq_nil_iff_forall_not_mem.mpr fun e he => ?_
  have ⟨i, e', he', _⟩ := exists_of_mem_go rfl he
  have hb := (edit?_cases he').left
  rw [List.head?_drop] at hb
  have hd := (ht.cut (ht.isBoundary_of_ascii hb (by decide)).left).right
  exact h i ((begins_shape_iff hd).mpr (Option.isSome_of_eq_some he'))

namespace Document

open Template

variable {config : Config} {content region : Text}

structure ShorthandFree (config : Config) (region : Text) : Prop where
  components : ∀ body ∈ Text.lineBodies region, ¬Component.head.Begins (region.drop body)
  openings : ∀ body ∈ Text.lineBodies region, ¬Statement.openingShape.Begins (region.drop body)
  closings : ∀ body ∈ Text.lineBodies region,
    ¬(Statement.closingShape config.closingBlocks).Begins (region.drop body)
  lists : ∀ head, Element.IsHead region head → ∀ w ∈ Element.shape, ∀ rest,
    region.drop head = w ++ rest →
      Nesting.find region (head + (w.length - 1)) '('.toUInt8 ')'.toUInt8 = .ok none

theorem shorthandFree_iff (hr : region.IsUtf8) : ShorthandFree config region ↔
    (∀ body ∈ Text.lineBodies region,
      Component.edit? config.fragmentTag (region.drop body) = none) ∧
    (∀ body ∈ Text.lineBodies region, ∀ x ∈ Statement.read? (region.drop body),
      x.1.isExpanded config.closes = false) ∧
    ∀ head, Element.IsHead region head → ∀ n ∈ Element.nameLength? (region.drop head),
      Nesting.find region (head + n) '('.toUInt8 ')'.toUInt8 = .ok none := by
  have hl : ∀ body ∈ Text.lineBodies region, Text.IsUtf8 (region.drop body) := fun body hb =>
    (hr.cut (hr.isBoundary_lineBodies hb)).right
  have components (body : Nat) (hb : body ∈ Text.lineBodies region) :
      ¬Component.head.Begins (region.drop body) ↔
        Component.edit? config.fragmentTag (region.drop body) = none := by
    rw [Component.begins_head_iff config.fragmentTag (hl body hb), Option.not_isSome_iff_eq_none]
  have statements (body : Nat) (hb : body ∈ Text.lineBodies region) :=
    @Statement.forall_not_isExpanded_iff _ config.closingBlocks (hl body hb)
  constructor
  case mp =>
    intro h
    refine ⟨fun body hb => (components body hb).mp (h.components body hb), fun body hb => ?_,
      fun head hh n hn => ?_⟩
    · exact (statements body hb).mpr ⟨h.openings body hb, h.closings body hb⟩
    · have ⟨w, hw, rest, hd, hl⟩ := Element.nameLength?_eq_some_iff_shape.mp hn
      exact hl ▸ h.lists head hh w hw rest hd
  case mpr =>
    intro ⟨hc, hs, he⟩
    constructor
    case components => exact fun body hb => (components body hb).mpr (hc body hb)
    case openings   => exact fun body hb => ((statements body hb).mp (hs body hb)).left
    case closings   => exact fun body hb => ((statements body hb).mp (hs body hb)).right
    case lists =>
      intro head hh w hw rest hd
      exact he head hh _ (Element.nameLength?_eq_some_iff_shape.mpr ⟨w, hw, rest, hd, rfl⟩)

theorem ShorthandFree.exists_layers (h : ShorthandFree config region) (hr : region.IsUtf8) :
    ∃ l, layers config region = .ok l ∧ l.text = region ∧ l.exports.isEmpty = true := by
  have ⟨hc, hs, he⟩ := (shorthandFree_iff hr).mp h
  have ⟨elements, hscan, hed, hex⟩ := Element.exists_scan_of_open config.naming hr he
  have hnil : Edit.applyAll [] region = .ok region := rfl
  refine ⟨⟨[], elements, [], region⟩, ?_, rfl, hex⟩
  simp [layers, Component.edits_eq_nil hc, hnil, hscan, hed, Statement.scan_eq_nil hs,
    Statement.edits, bind, Except.bind, pure, Except.pure]

theorem expand_of_shorthandFree {span : Span} (ht : content.IsUtf8)
    (hr : region? config.templateLang content = some span) (hs : span.text content = .ok region)
    (h : ShorthandFree config region) :
    ∃ l, expand config content = .ok (.expanded l none content) := by
  have ⟨hfront, hregion, hback⟩ := isRange_region? ht hr
  cases hs.symm.trans (Text.slice_eq hregion)
  have ⟨l, hl, htext, hx⟩ := h.exists_layers (ht.slice hregion)
  have hcode : content.take span.start ++ l.text ++ content.drop span.stop = content := by
    have ⟨hle, _⟩ := Text.isRange_iff.mp hregion
    rw [htext, ← Text.take_eq_append hle, List.take_append_drop]
  refine ⟨l, ?_⟩
  simp only [expand, hr, Span.text, Text.slice_eq hfront, Text.slice_eq hregion,
    Text.slice_eq hback, hl, bind, Except.bind, List.drop_zero, List.take_length, hcode,
    Export.Table.placement?, Export.Table.inject, hx, if_true, pure, Except.pure]

end Document

-- A document without a template, or with a template in which nothing is written in shorthand, is
-- left as it is; and so is rendered markup in which no tag has a coloned name.
theorem Document.shorthand_free_unchanged (config : Config) (s rendered : String) :
    ((∀ span region, Template.region? config.templateLang (.ofString s) = some span →
        span.text (.ofString s) = .ok region → ShorthandFree config region) →
      ∃ o, expand config (.ofString s) = .ok o ∧ o.code = .ofString s) ∧
    ((∀ i, ¬Markup.Tag.shape.Begins ((Text.ofString rendered).drop i)) →
      restore (.ofString rendered) = .ok (.ofString rendered)) := by
  refine ⟨fun h => ?_, fun h => ?_⟩
  case refine_1 =>
    have ht := Text.isUtf8_ofString s
    cases hr : Template.region? config.templateLang (.ofString s)
    case none => exact ⟨.untouched (.ofString s) config.templateLang, by simp [expand, hr], rfl⟩
    case some span =>
      have hregion := Text.slice_eq (Template.isRange_region? ht hr).right.left
      have ⟨l, hl⟩ := expand_of_shorthandFree ht hr hregion (h span _ hr hregion)
      exact ⟨_, hl, rfl⟩
  case refine_2 =>
    have he := Markup.Tag.edits_eq_nil (Text.isUtf8_ofString rendered) h
    rw [restore, Markup.Tag.restore, he]
    rfl

theorem Document.shorthand_free_unchanged_of_open_lists :
    let content := "<template lang='pug'>\np(export:a=(1)\\)\n Forms.input é\n\x7b/snippet\x7d\n" ++
      "\x7b#if\x7d\nb #[q(\n</template>"
    let rendered := "<div:x <Forms.Input </a:B <A:b"
    Template.region? (Text.ofString "pug") (.ofString content) = some ⟨21, 79⟩ ∧
      (∃ o, expand {} (.ofString content) = .ok o ∧ o.code = .ofString content) ∧
      restore (.ofString rendered) = .ok (.ofString rendered) := by
  intro content rendered
  let region := Text.ofString <| "\np(export:a=(1)\\)\n Forms.input é\n\x7b/snippet\x7d\n" ++
    "\x7b#if\x7d\nb #[q(\n"
  have hspan : Template.region? (Text.ofString "pug") (.ofString content) = some ⟨21, 79⟩ := by
    decide +kernel
  have hregion : Span.text ⟨21, 79⟩ (.ofString content) = .ok region := by decide +kernel
  have free : ShorthandFree {} region := by
    have hopen : ∀ head < region.length + 1, ∀ n ∈ Template.Element.nameLength? (region.drop head),
        Nesting.find region (head + n) '('.toUInt8 ')'.toUInt8 = .ok none := by
      decide +kernel
    refine (shorthandFree_iff (Text.isUtf8_ofString _)).mpr
      ⟨by decide +kernel, by decide +kernel, ?_⟩
    exact fun head hh => hopen head (Nat.lt_succ_of_le hh.le_length)
  have ⟨hexpand, hrestore⟩ := shorthand_free_unchanged {} content rendered
  refine ⟨hspan, hexpand fun span _ hs ht => ?_, hrestore fun i hb => ?_⟩
  · cases hspan.symm.trans hs
    cases hregion.symm.trans ht
    exact free
  · have hascii : ∀ b ∈ Text.ofString rendered, b < 0x80 := Text.ascii_of_all (by decide +kernel)
    have hu : Text.IsUtf8 ((Text.ofString rendered).drop i) :=
      .of_ascii fun b hb => hascii b (List.mem_of_mem_drop hb)
    have hnone : ∀ j < (Text.ofString rendered).length,
        Markup.Tag.edit? ((Text.ofString rendered).drop j) = none := by decide +kernel
    have hsome := (Markup.Tag.begins_shape_iff hu).mp hb
    by_cases hi : i < (Text.ofString rendered).length
    case pos => simp [hnone i hi] at hsome
    case neg => simp [List.drop_eq_nil_of_le (Nat.le_of_not_lt hi), Markup.Tag.edit?] at hsome

end PugShorthand
