import PugShorthand.Proofs.Attribute.Expander
import PugShorthand.Proofs.Export.Placement
import PugShorthand.Template.Element

namespace PugShorthand.Template.Element

variable {t rest : Text} {tag : Span} {offset length pos resume : Nat}
variable {naming : Export.Naming}

theorem ascii_of_isNameByte : ∀ {b : UInt8}, isNameByte b = true → b < 0x80 :=
  fun {b} => Text.forall_byte (p := fun b => isNameByte b = true → b < 0x80) (by decide +kernel) b

theorem headOffset?_cases (h : headOffset? t = some offset) :
    ∃ front rest, t = front ++ rest ∧ front ≠ [] ∧ (∀ b ∈ front, b < 0x80) ∧
      offset = front.length := by
  cases t
  case nil => simp [headOffset?] at h
  case cons b s =>
    rw [headOffset?] at h
    split at h
    case isTrue hb =>
      cases h
      refine ⟨b :: s.takeWhile Text.isIndent, s.dropWhile Text.isIndent, by simp, by simp, ?_, ?_⟩
      · simp only [List.mem_cons, forall_eq_or_imp]
        exact ⟨by rw [hb]; decide, fun x hx => Text.ascii_of_isIndent (List.mem_takeWhile_imp hx)⟩
      · simp [Text.indentation, Text.run, Nat.add_comm]
    case isFalse =>
      split at h
      case isFalse => contradiction
      case isTrue hs =>
        obtain ⟨rest, hr⟩ := List.head?_eq_some_iff.mp hs.right
        cases h
        exact ⟨['#'.toUInt8, '['.toUInt8], rest, by simp [hs.left, hr], by simp,
          Text.ascii_of_all rfl, rfl⟩

theorem nameLength?_eq_some_iff : nameLength? t = some length ↔
    ∃ name rest, t = name ++ '('.toUInt8 :: rest ∧ (∀ b ∈ name, isNameByte b = true) ∧
      (∃ b ∈ name.head?, Text.isDigit b = false) ∧ length = name.length := by
  simp only [nameLength?, Option.ite_none_left_eq_some, not_or, Decidable.not_not, ne_eq,
    Option.some.injEq]
  constructor
  case mp =>
    intro ⟨⟨hne, hd, hb⟩, hl⟩
    have hs : t = t.takeWhile isNameByte ++ '('.toUInt8 :: t.drop (Text.run isNameByte t + 1) := by
      have ⟨hlt, hx⟩ := List.getElem?_eq_some_iff.mp hb
      rw [← hx, ← List.drop_eq_getElem_cons hlt, Text.drop_run, List.takeWhile_append_dropWhile]
    refine ⟨_, _, hs, fun _ hx => List.mem_takeWhile_imp hx, ?_, hl.symm⟩
    cases hw : t.takeWhile isNameByte
    case nil => simp [Text.run, hw] at hne
    case cons b name =>
      rw [hw] at hs
      rw [hs] at hd
      exact ⟨b, rfl, by simpa using hd⟩
  case mpr =>
    rintro ⟨name, rest, rfl, hn, ⟨b, hb, hd⟩, rfl⟩
    have hr : Text.run isNameByte (name ++ '('.toUInt8 :: rest) = name.length :=
      Text.run_append hn (by simp; decide)
    obtain ⟨name, rfl⟩ := List.head?_eq_some_iff.mp hb
    rw [hr]
    simp [hd]

theorem nameLength?_cases (h : nameLength? t = some length) :
    ∃ name rest, t = name ++ '('.toUInt8 :: rest ∧ (∀ b ∈ name, b < 0x80) ∧
      length = name.length := by
  have ⟨name, rest, ht, hn, _, hl⟩ := nameLength?_eq_some_iff.mp h
  exact ⟨name, rest, ht, fun b hb => ascii_of_isNameByte (hn b hb), hl⟩

theorem tag?_eq_some_iff : tag? t = some tag ↔
    ∃ offset length, headOffset? t = some offset ∧ nameLength? (t.drop offset) = some length ∧
      tag = ⟨offset, offset + length⟩ := by
  simp only [tag?, Option.bind_eq_bind, Option.bind_eq_some_iff, Option.pure_def,
    Option.some.injEq]
  grind

theorem tag?_cases (h : tag? t = some tag) :
    ∃ front name rest, t = front ++ (name ++ '('.toUInt8 :: rest) ∧ front ≠ [] ∧
      (∀ b ∈ front, b < 0x80) ∧ (∀ b ∈ name, b < 0x80) ∧
      tag = ⟨front.length, front.length + name.length⟩ := by
  obtain ⟨offset, length, ho, hl, ht⟩ := tag?_eq_some_iff.mp h
  obtain ⟨front, rest, rfl, hne, hf, rfl⟩ := headOffset?_cases ho
  rw [List.drop_left] at hl
  obtain ⟨name, rest', rfl, hn, rfl⟩ := nameLength?_cases hl
  exact ⟨front, name, rest', rfl, hne, hf, hn, ht⟩

def IsWhole : Element → Prop
  | unclosed _ => True
  | expanded _ _ x => x.rendering.text.IsUtf8 ∧ ∀ e ∈ x.rendering.exports, e.IsWhole

theorem opens_of_tag? (h : tag? (t.drop pos) = some tag) :
    pos < (tag.shift pos).stop ∧ ∃ rest, t.drop (tag.shift pos).stop = '('.toUInt8 :: rest := by
  obtain ⟨front, name, rest, hd, hne, _, _, rfl⟩ := tag?_cases h
  have := List.length_pos_iff.mpr hne
  refine ⟨by simp only [Span.shift]; omega, rest, ?_⟩
  rw [Span.shift, ← List.drop_drop, hd, ← List.drop_drop, List.drop_left, List.drop_left]

theorem isBoundary_front {front : Text} (ht : t.IsUtf8) (hd : t.drop pos = front ++ rest)
    (hne : front ≠ []) (hf : ∀ b ∈ front, b < 0x80) : t.isBoundary pos = true := by
  obtain ⟨b, front', rfl⟩ := List.exists_cons_of_ne_nil hne
  have hp : t[pos]? = some b := by rw [← List.head?_drop, hd]; rfl
  exact (ht.isBoundary_of_ascii hp (hf b (by simp))).left

theorem isRange_of_tag? (ht : t.IsUtf8) (h : tag? (t.drop pos) = some tag) :
    t.isRange (tag.shift pos).start (tag.shift pos).stop = true := by
  obtain ⟨front, name, rest, hd, hne, hf, hn, rfl⟩ := tag?_cases h
  have hb := isBoundary_front ht hd hne hf
  have hu := (ht.cut hb).right
  rw [hd] at hu
  refine ht.isRange_add hb ?_
  rw [hd]
  exact Text.isRange_append (.of_ascii hn) (hu.of_ascii_append hf |>.of_ascii_append hn)

def IsHead (t : Text) (head : Nat) : Prop :=
  head ∈ Text.lineBodies t ∨
    ∃ front rest, t = front ++ (Text.ofString "#[" ++ rest) ∧ head = front.length + 2

theorem isHead_of_headOffset? {offset : Nat} (h : headOffset? (t.drop pos) = some offset) :
    IsHead t (pos + offset) := by
  cases hd : t.drop pos
  case nil => simp [hd, headOffset?] at h
  case cons b rest =>
    have ht : t.take pos ++ b :: rest = t := hd ▸ List.take_append_drop pos t
    have hl : (t.take pos).length = pos := by
      have hlen := congrArg List.length hd
      simp only [List.length_drop, List.length_cons] at hlen
      exact List.length_take_of_le (by omega)
    rw [hd, headOffset?] at h
    split at h
    case isTrue hb =>
      cases h
      have hm := @Text.mem_lineBodies rest (t.take pos)
      rw [← hb, ht, hl, Nat.add_assoc] at hm
      exact .inl hm
    case isFalse =>
      split at h
      case isFalse => contradiction
      case isTrue hs =>
        have ⟨rest', hr⟩ := List.head?_eq_some_iff.mp hs.right
        cases h
        refine .inr ⟨t.take pos, rest', ?_, by rw [hl]⟩
        rw [hs.left, hr] at ht
        exact ht.symm

theorem IsHead.le_length {head : Nat} (h : IsHead t head) : head ≤ t.length := by
  cases h
  case inl h => exact (Text.bounds_of_mem_lineBodies h).right
  case inr h =>
    have ⟨front, rest, ht, hl⟩ := h
    have hm : (Text.ofString "#[").length = 2 := rfl
    rw [ht, hl, List.length_append, List.length_append, hm]
    omega

theorem isHead_of_tag? (h : tag? (t.drop pos) = some tag) :
    IsHead t (pos + tag.start) ∧ ∃ length, nameLength? (t.drop (pos + tag.start)) = some length ∧
      tag.stop = tag.start + length := by
  obtain ⟨offset, length, ho, hl, rfl⟩ := tag?_eq_some_iff.mp h
  exact ⟨isHead_of_headOffset? ho, length, by rwa [List.drop_drop] at hl, rfl⟩

theorem exists_read (naming : Export.Naming) (ht : t.IsUtf8) (h : tag? (t.drop pos) = some tag) :
    ∃ element stop, read naming t (tag.shift pos) = .ok (element, stop) ∧ pos < stop ∧
      (∀ e ∈ element.edit?, t.isRange e.start e.stop = true ∧ pos < e.start ∧ e.start < stop ∧
        e.stop = stop) ∧
      (naming.IsWhole → element.IsWhole) := by
  have ⟨hstop, rest, hopen⟩ := opens_of_tag? h
  obtain ⟨name, hname⟩ : ∃ name, (tag.shift pos).text t = .ok name :=
    ⟨_, Text.slice_eq (isRange_of_tag? ht h)⟩
  rcases Nesting.find_cases ')'.toUInt8 ht hopen (by decide) (by decide) with
    hfind | ⟨list, source, hfind, hs, hlt, hrange, hinner, hu⟩
  case inl =>
    refine ⟨.unclosed name, (tag.shift pos).stop, ?_, hstop, by simp [edit?], fun _ => trivial⟩
    simp [read, hfind, hname, bind, Except.bind, pure, Except.pure]
  case inr =>
    have ⟨x, hx, hw⟩ := Attribute.exists_expand naming hu
    refine ⟨.expanded name list x, list.stop, ?_, by omega, ?_, hw⟩
    · simp [read, hfind, hname, hinner, hx, bind, Except.bind, pure, Except.pure]
    · simpa [edit?] using ⟨hrange, by omega, by omega⟩

theorem unclosed_of_read {element : Element} {stop : Nat}
    (hf : Nesting.find t tag.stop '('.toUInt8 ')'.toUInt8 = .ok none)
    (h : read naming t tag = .ok (element, stop)) :
    element.edit? = none ∧ element.exports = [] ∧ stop = tag.stop := by
  have ⟨found, hf', h⟩ := Fault.exists_of_bind h
  cases hf.symm.trans hf'
  have ⟨name, _, h⟩ := Fault.exists_of_bind h
  cases h
  exact ⟨rfl, rfl, rfl⟩

theorem exists_go (ht : t.IsUtf8) (hr : t.drop pos = rest) :
    ∃ elements, scan.go naming t pos resume rest = .ok elements ∧
      Edit.DisciplinedFrom t (max pos resume) (edits elements) ∧
      (naming.IsWhole → ∀ x ∈ elements, x.IsWhole) := by
  induction rest generalizing pos resume
  case nil => exact ⟨[], by simp [scan.go], .nil, by simp⟩
  case cons b rest hi =>
    have hr' : t.drop (pos + 1) = rest := Text.drop_succ hr
    have skip : ∃ elements, scan.go naming t (pos + 1) resume rest = .ok elements ∧
        Edit.DisciplinedFrom t (max pos resume) (edits elements) ∧
        (naming.IsWhole → ∀ x ∈ elements, x.IsWhole) := by
      have ⟨elements, hg, hd, hw⟩ := @hi _ resume hr'
      exact ⟨elements, hg, hd.of_le (by omega), hw⟩
    rw [scan.go]
    split
    case isTrue => exact skip
    case isFalse hp =>
      split
      case h_1 => exact skip
      case h_2 tag htag =>
        have ⟨element, stop, hread, hlt, he, hw⟩ := exists_read naming ht (hr ▸ htag)
        have ⟨elements, hg, hd, hws⟩ := @hi _ stop hr'
        refine ⟨element :: elements, ?_, ?_, fun hn => ?_⟩
        · simp [hread, hg, bind, Except.bind, pure, Except.pure]
        · cases hedit : element.edit?
          case none =>
            simpa only [edits, List.filterMap_cons, hedit] using hd.of_le (by omega)
          case some e =>
            have ⟨hrange, hs, hlt', hstop⟩ := he e hedit
            have hd' : Edit.DisciplinedFrom t (max pos resume) (e :: edits elements) :=
              hd.cons hrange (by omega) (by omega) (by omega)
            simpa only [edits, List.filterMap_cons, hedit] using hd'
        · simpa using ⟨hw hn, hws hn⟩

theorem exists_scan (naming : Export.Naming) (ht : t.IsUtf8) :
    ∃ elements, scan naming t = .ok elements ∧ Edit.Disciplined t (edits elements) ∧
      (naming.IsWhole → ∀ x ∈ elements, x.IsWhole) :=
  have ⟨elements, hs, hd, hw⟩ := exists_go ht rfl
  ⟨elements, hs, hd.toDisciplined, hw⟩

structure Origin (naming : Export.Naming) (t : Text) (list : Span) (x : Attribute.Expansion)
    (source : Text) : Prop where
  opens : ∃ rest, t.drop list.start = '('.toUInt8 :: rest
  found : Nesting.find t list.start '('.toUInt8 ')'.toUInt8 = .ok (some list)
  inner : list.inner t = .ok source
  expansion : Attribute.expand naming source = .ok x

theorem exists_origin_of_read {name : Text} {list : Span} {x : Attribute.Expansion} {stop : Nat}
    (ht : tag? (t.drop pos) = some tag)
    (h : read naming t (tag.shift pos) = .ok (.expanded name list x, stop)) :
    ∃ source, Origin naming t list x source := by
  have ⟨_, rest, ho⟩ := opens_of_tag? ht
  have ⟨found, hf, h⟩ := Fault.exists_of_bind h
  cases found
  case none =>
    have ⟨_, _, h⟩ := Fault.exists_of_bind h
    simp [pure, Except.pure] at h
  case some list' =>
    have ⟨source, hs, h⟩ := Fault.exists_of_bind h
    have ⟨x', hx, h⟩ := Fault.exists_of_bind h
    have ⟨_, _, h⟩ := Fault.exists_of_bind h
    simp only [pure, Except.pure, Except.ok.injEq, Prod.mk.injEq, expanded.injEq] at h
    obtain ⟨⟨-, rfl, rfl⟩, -⟩ := h
    have hl := Nesting.start_of_find ho hf
    exact ⟨source, ⟨rest, hl ▸ ho⟩, hl ▸ hf, hs, hx⟩

theorem exists_read_of_mem_go {element : Element} {elements : List Element}
    (hr : t.drop pos = rest) (h : scan.go naming t pos resume rest = .ok elements)
    (hm : element ∈ elements) : ∃ anchor tag stop, max pos resume ≤ anchor ∧
      tag? (t.drop anchor) = some tag ∧
      read naming t (tag.shift anchor) = .ok (element, stop) := by
  induction rest generalizing pos resume elements
  case nil =>
    cases h
    cases hm
  case cons b rest hi =>
    have hr' : t.drop (pos + 1) = rest := Text.drop_succ hr
    have skip {elements' : List Element} {resume' : Nat}
        (h : scan.go naming t (pos + 1) resume' rest = .ok elements') (hm : element ∈ elements')
        (hle : max pos resume ≤ max (pos + 1) resume') :
        ∃ anchor tag stop, max pos resume ≤ anchor ∧ tag? (t.drop anchor) = some tag ∧
          read naming t (tag.shift anchor) = .ok (element, stop) :=
      have ⟨anchor, tag, stop, hle', htag⟩ := hi hr' h hm
      ⟨anchor, tag, stop, Nat.le_trans hle hle', htag⟩
    rw [scan.go] at h
    split at h
    case isTrue => exact skip h hm (by omega)
    case isFalse =>
      split at h
      case h_1 => exact skip h hm (by omega)
      case h_2 tag htag =>
        have ⟨⟨element, stop⟩, hread, h⟩ := Fault.exists_of_bind h
        have ⟨elements', hg, h⟩ := Fault.exists_of_bind h
        cases h
        cases hm
        case head => exact ⟨pos, tag, stop, by omega, hr ▸ htag, hread⟩
        case tail hm => exact skip hg hm (by omega)

theorem exists_origin {name : Text} {list : Span} {x : Attribute.Expansion}
    {elements : List Element} (h : scan naming t = .ok elements)
    (hm : .expanded name list x ∈ elements) : ∃ source, Origin naming t list x source :=
  have ⟨_, _, _, _, ht, hr⟩ := exists_read_of_mem_go rfl h hm
  exists_origin_of_read ht hr

theorem exists_origin_of_mem_edits {elements : List Element} {e : Edit}
    (h : scan naming t = .ok elements) (he : e ∈ edits elements) :
    ∃ x source, Origin naming t ⟨e.start, e.stop⟩ x source := by
  have ⟨element, hx, hxe⟩ := List.mem_filterMap.mp he
  cases element
  case unclosed => simp [edit?] at hxe
  case expanded tag list x =>
    have ⟨source, origin⟩ := exists_origin h hx
    simp only [edit?, Option.some.injEq] at hxe
    subst hxe
    exact ⟨x, source, origin⟩

theorem Origin.isUtf8 {list : Span} {x : Attribute.Expansion} {source : Text}
    (h : Origin naming t list x source) (ht : t.IsUtf8) : source.IsUtf8 := by
  have ⟨rest, ho⟩ := h.opens
  cases Nesting.find_cases ')'.toUInt8 ht ho (by decide) (by decide)
  case inl hn => simp [h.found] at hn
  case inr hs =>
    have ⟨list', source', hf, _, _, _, hi, hu⟩ := hs
    cases h.found.symm.trans hf
    cases h.inner.symm.trans hi
    exact hu

theorem isUtf8_of_mem_edits {elements : List Element} {e : Edit}
    (h : ∀ x ∈ elements, x.IsWhole) (he : e ∈ edits elements) : e.text.IsUtf8 := by
  have ⟨x, hx, hxe⟩ := List.mem_filterMap.mp he
  cases x <;> simp only [edit?, Option.some.injEq, reduceCtorEq] at hxe
  case expanded tag list expansion =>
    have ht := (h _ hx).left
    exact hxe ▸ Text.IsUtf8.cons (by decide) (ht.append (.cons (by decide) .nil))

theorem record_eq_insertAll {initial : Export.Table} {elements : List Element} :
    record initial elements = initial.insertAll (elements.flatMap exports) := by
  induction elements generalizing initial
  case nil => rfl
  case cons x elements hi =>
    rw [record, List.foldl_cons, ← record, hi, List.flatMap_cons]
    exact List.foldl_append.symm

theorem table_eq_insertAll {elements : List Element} :
    table elements = ({} : Export.Table).insertAll (elements.flatMap exports) :=
  record_eq_insertAll

theorem isWhole_table {elements : List Element} (h : ∀ x ∈ elements, x.IsWhole) :
    (table elements).IsWhole := by
  rw [table_eq_insertAll]
  refine Export.Table.IsWhole.insertAll (by simp [Export.Table.IsWhole]) fun e he => ?_
  have ⟨x, hx, hxe⟩ := List.mem_flatMap.mp he
  cases x
  case unclosed => simp [exports] at hxe
  case expanded => exact (h _ hx).right e hxe

structure Cuts (t : Text) : Prop where
  head : ∀ pos offset, headOffset? (t.drop pos) = some offset →
    t.isBoundary pos = true ∧ t.isBoundary (pos + offset) = true
  opens : ∀ pos tag, tag? (t.drop pos) = some tag → t[(tag.shift pos).stop]? = some '('.toUInt8

theorem cuts (ht : t.IsUtf8) : Cuts t where
  head pos offset h := by
    obtain ⟨front, rest, hd, hne, hf, rfl⟩ := headOffset?_cases h
    have hb := isBoundary_front ht hd hne hf
    have hu := (ht.cut hb).right
    rw [hd] at hu
    refine ⟨hb, ht.isBoundary_add hb ?_⟩
    rw [hd]
    exact Text.isBoundary_append (hu.of_ascii_append hf)
  opens pos tag h := by
    have ⟨_, rest, hd⟩ := opens_of_tag? h
    rw [← List.head?_drop, hd]
    rfl

end PugShorthand.Template.Element
