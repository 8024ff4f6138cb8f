import PugShorthand.Proofs.Attribute.Reference
import PugShorthand.Proofs.Attribute.TagFree
import PugShorthand.Proofs.Template.Component
import PugShorthand.Proofs.Template.Element
import PugShorthand.Proofs.Template.Region
import PugShorthand.Proofs.Template.Statement

namespace PugShorthand.Template

variable {t : Text} {e : Edit}

namespace Component

variable {fragmentTag : Text}

theorem edits_apart (fragmentTag t : Text) :
    (edits fragmentTag t).Pairwise fun a b => a.stop < b.start := by
  apply (Text.pairwise_lineBodies t).filterMap
  intro a b hab x hx y hy
  have ⟨x', hx', hx⟩ := Option.map_eq_some_iff.mp hx
  have ⟨y', _, hy⟩ := Option.map_eq_some_iff.mp hy
  have hs := stop_le_lineLength hx'
  subst hx hy
  simp only [Edit.shift]
  omega

theorem seamless (hf : TagFree fragmentTag) (ht : TagFree t) (h : e ∈ edits fragmentTag t) :
    Seamless t e := by
  have ⟨body, hb, e', he, hs⟩ := exists_of_mem_edits h
  subst hs
  rw [edit?] at he
  split at he
  case isTrue ho =>
    obtain ⟨x, hx, hblank⟩ := Text.exists_blank_of_mem_lineBodies hb
    cases he
    constructor
    case text => exact hf
    case opens =>
      left
      simpa [Edit.shift, Edit.insertion, hx] using isForeign_of_isBlank hblank
    case closes =>
      right
      simp +decide [Edit.shift, Edit.insertion, ho]
  case isFalse =>
    obtain ⟨hdot, hlt, hreach, htext⟩ := QualifiedName.rejoin?_spec QualifiedName.dotted_isPlain he
    constructor
    case text =>
      have hl : TagFree (t.drop body) := ht.mono (List.drop_suffix ..).isInfix
      exact htext ▸ hl.slice.replace (by decide)
    case opens =>
      right
      have hh : ((t.drop body).take e'.stop |>.drop e'.start).head? = some '.'.toUInt8 := by
        rw [List.head?_drop, List.getElem?_take, if_pos hlt, hdot]
        rfl
      refine ⟨':'.toUInt8, ?_, by decide⟩
      rw [Edit.shift, htext, Text.replace, List.head?_map, hh]
      rfl
    case closes =>
      right
      simp only [Edit.shift, ← List.drop_drop, hreach]
      intro b hb
      cases QualifiedName.head?_drop_reach b hb
      case inl hb => exact hb ▸ by decide
      case inr hb =>
        have hb : Text.isBlank b = true ∨ b = '('.toUInt8 := by
          simpa [QualifiedName.dotted] using hb
        cases hb
        case inl hb => exact isForeign_of_isBlank hb
        case inr hb => exact hb ▸ by decide

end Component

theorem tagFree_component {fragmentTag : Text} (hf : TagFree fragmentTag) (hu : t.IsUtf8)
    (ht : TagFree t) : TagFree (Edit.spliceFrom t 0 (Component.edits fragmentTag t)) :=
  ht.spliceFrom (Component.edits_disciplined hu) (fun _ => Component.seamless hf ht)
    ((Component.edits_apart fragmentTag t).imp .inr)

namespace Statement

variable {closes : Text → Bool} {o : Occurrence}

theorem isInfix_of_opening? {inside kind arguments : Text}
    (h : opening? inside = some (.opening kind arguments)) :
    kind <:+: inside ∧ arguments <:+: inside := by
  simp only [opening?, Option.ite_none_left_eq_some, Option.some.injEq, opening.injEq] at h
  obtain ⟨-, hk, ha⟩ := h
  constructor
  case left  => exact hk ▸ (List.takeWhile_prefix _).isInfix
  case right =>
    exact ha ▸ (List.dropWhile_suffix _).isInfix.trans (List.drop_suffix ..).isInfix

theorem tagFree_text {s : Statement} {n : Nat} (ht : TagFree t) (h : read? t = some (s, n)) :
    TagFree s.text := by
  have ⟨sigil, inside, rest, hr, _, _, hi⟩ := read?_cases h
  have hin : TagFree inside :=
    ht.mono ⟨['{'.toUInt8, sigil], '}'.toUInt8 :: rest, by simp [hr]⟩
  cases s
  case closing => exact .nil
  case opening kind arguments =>
    have ⟨hk, ha⟩ := isInfix_of_opening? (hi.resolve_right (by simp [closing?]))
    have hk : TagFree ('+'.toUInt8 :: kind) := (hin.mono hk).cons (by decide)
    have ha : TagFree (Text.escape '`'.toUInt8 arguments) := (hin.mono ha).escape (by decide)
    exact (hk.between (by decide) (by decide) ha).append_foreign (by decide)

theorem shut (o : Occurrence) : Shut o.edit := by
  have hl : (Text.ofString "`)").getLast? = some ')'.toUInt8 := rfl
  cases hs : o.statement
  case closing => simp [Shut, Occurrence.edit, hs, text]
  case opening =>
    simp only [Shut, Occurrence.edit, hs, text, List.getLast?_append, hl, Option.some_or,
      Option.mem_def, Option.some.injEq, forall_eq']
    decide

theorem seamless (ht : TagFree t) (h : o ∈ scan closes t) : Seamless t o.edit := by
  have ⟨body, hb, n, hr, hs⟩ := exists_of_mem_go h
  have ⟨x, hx, hblank⟩ := Text.exists_blank_of_mem_lineBodies hb
  constructor
  case text => exact tagFree_text (ht.mono (List.drop_suffix ..).isInfix) hr
  case opens =>
    left
    simpa [Occurrence.edit, hs, hx] using isForeign_of_isBlank hblank
  case closes => exact .inl (shut o)

end Statement

theorem tagFree_statement (closes : Text → Bool) (hu : t.IsUtf8) (ht : TagFree t) :
    TagFree (Edit.spliceFrom t 0 (Statement.edits (Statement.scan closes t))) := by
  apply ht.spliceFrom_shut (Statement.edits_disciplined closes hu)
  intro e he
  have ⟨o, ho, he⟩ := List.mem_map.mp he
  exact he ▸ ⟨Statement.seamless ht ho, Statement.shut o⟩

namespace Element

variable {naming : Export.Naming}

theorem Origin.tagFree {list : Span} {x : Attribute.Expansion} {source : Text}
    (h : Origin naming t list x source) (hu : t.IsUtf8) (ht : TagFree t)
    (hx : x.rendering.exports = []) : TagFree x.rendering.text := by
  have hsu := h.isUtf8 hu
  have hs : TagFree source := ht.inner h.inner
  have ⟨stripped, hst, _, hk, _⟩ := Attribute.expand_cases hsu h.expansion
  have hst : TagFree stripped := Attribute.Comment.tagFree_strip hsu hs hst
  have he := Attribute.expand_eq_closedForm hsu h.expansion
  rw [he] at hx ⊢
  exact Attribute.Token.tagFree_closedForm (hk.isTagFree hst) hx

end Element

theorem tagFree_element {naming : Export.Naming} {elements : List Element} (hu : t.IsUtf8)
    (ht : TagFree t) (h : Element.scan naming t = .ok elements)
    (hx : elements.flatMap Element.exports = []) :
    TagFree (Edit.spliceFrom t 0 (Element.edits elements)) := by
  have ⟨elements', h', hd, _⟩ := Element.exists_scan naming hu
  cases h.symm.trans h'
  apply ht.spliceFrom_shut hd
  intro e he
  have ⟨element, hm, he⟩ := List.mem_filterMap.mp he
  cases element
  case unclosed => contradiction
  case expanded tag list x =>
    cases he
    have ⟨source, origin⟩ := Element.exists_origin h hm
    have hx : x.rendering.exports = [] := List.flatMap_eq_nil_iff.mp hx _ hm
    have hs : Shut ⟨list.start, list.stop, '('.toUInt8 :: x.rendering.text ++ [')'.toUInt8]⟩ := by
      intro b hb
      rw [List.getLast?_concat] at hb
      cases hb
      decide
    constructor
    case right => exact hs
    case left =>
      constructor
      case text => exact ((origin.tagFree hu ht hx).concat (by decide)).cons (by decide)
      case opens => exact .inr ⟨'('.toUInt8, rfl, by decide⟩
      case closes => exact .inl hs

section

variable {lang content back : Text} {span : Span}

theorem tagFree_region (h : region? lang content = some span) :
    TagFree ((content.take span.stop).drop span.start) :=
  not_infix_region h

-- The first byte of a closing tag does not come again in it, so none begins in front of another
-- and reaches into it.
theorem not_prefix_append (ht : TagFree t) (hne : t ≠ []) :
    ¬closingTag <+: t ++ (closingTag ++ back) := by
  intro ⟨rest, hr⟩
  cases List.append_eq_append_iff.mp hr
  case inl hc =>
    have ⟨s, hs, _⟩ := hc
    exact ht ⟨[], s, by simp [hs]⟩
  case inr hc =>
    have ⟨s, hs, hb⟩ := hc
    cases s
    case nil => exact ht ⟨[], [], by simp [hs]⟩
    case cons x s =>
      have ⟨y, t', ht'⟩ := List.exists_cons_of_ne_nil hne
      have hx : '<'.toUInt8 = x := Option.some.inj (congrArg List.head? hb)
      have hm : x ∈ closingTag.tail := by simp [hs, ht']
      exact absurd (hx ▸ hm : '<'.toUInt8 ∈ closingTag.tail) (by decide)

theorem not_prefix_drop {j : Nat} (ht : TagFree t) (hj : j < t.length) :
    ¬closingTag <+: (t ++ (closingTag ++ back)).drop j := by
  rw [List.drop_append_of_le_length (Nat.le_of_lt hj)]
  apply not_prefix_append (ht.mono (List.drop_suffix ..).isInfix)
  simpa using hj

theorem region?_splice (h : region? lang content = some span) (ht : TagFree t) :
    region? lang (content.take span.start ++ t ++ content.drop span.stop) =
      some ⟨span.start, span.start + t.length⟩ := by
  have ⟨i, hi, ho, hf, hs, hle, ⟨back, hc⟩, _⟩ := region?_eq_some_iff.mp h
  have hstop := le_length_of_closingTag ⟨back, hc⟩
  rw [List.append_assoc, ← hc]
  -- Up to the end of its opening tag the document is as it was.
  have opens {j : Nat} (hj : j ≤ i) :
      Opens lang (content.take span.start ++ (t ++ (closingTag ++ back))) j ↔
        Opens lang content j := by
    have hq (quote : UInt8) : j + (openingTag quote lang).length ≤ span.start := by
      rw [length_openingTag]
      omega
    rw [Opens, Opens, prefix_drop_iff (hq _) (by omega), prefix_drop_iff (hq _) (by omega)]
  have behind (k : Nat) : (content.take span.start ++ (t ++ (closingTag ++ back))).drop
      (span.start + k) = (t ++ (closingTag ++ back)).drop k := by
    have hl : (content.take span.start).length = span.start :=
      List.length_take_of_le (by omega)
    rw [← List.drop_drop, List.drop_left' hl]
  apply region?_eq_some_iff.mpr
  refine ⟨i, ?_, (opens (Nat.le_refl _)).mpr ho,
    fun j hj ho => hf j hj ((opens (Nat.le_of_lt hj)).mp ho), hs, Nat.le_add_right .., ?_, ?_⟩
  · simp only [List.length_append, List.length_take]
    omega
  · exact ⟨back, by rw [behind, List.drop_left]⟩
  · intro j hj hlt
    obtain ⟨k, rfl⟩ := Nat.exists_eq_add_of_le hj
    rw [behind]
    exact not_prefix_drop ht (Nat.lt_of_add_lt_add_left hlt)

end

end PugShorthand.Template
