import PugShorthand.Proofs.Template.Shape

namespace PugShorthand

namespace Attribute

variable {naming : Export.Naming} {source : Text} {x : Expansion}

-- All that the expansion of a list depends on is the list and the names of the bindings.
def rewritten (naming : Export.Naming) (source : Text) : Except Fault Rendering := do
  let tokens ← Token.scan (← Comment.strip source)
  render naming tokens

theorem rewritten_of_expand (hs : source.IsUtf8) (h : expand naming source = .ok x) :
    rewritten naming source = .ok x.rendering := by
  have ⟨stripped, hst, hu, hk, hr⟩ := expand_cases hs h
  simp [rewritten, hst, Token.scan_eq hk hu, hr, bind, Except.bind]

end Attribute

namespace Template.Element

variable {t u inner rest : Text} {naming : Export.Naming} {tag tag' : Span}
variable {element : Element} {elements : List Element} {e : Edit}
variable {pos resume stop offset anchor anchor' opening : Nat}

-- The newline in front of an element that stands first on its line, or the `#[` in front of one
-- that does not. `opening` is where the attribute list of the element opens.
def IsAnchor (t : Text) (anchor opening : Nat) : Prop :=
  ∃ head,
    (t[anchor]? = some '\n'.toUInt8 ∧
        head = anchor + 1 + Text.indentation (t.drop (anchor + 1)) ∨
      Text.ofString "#[" <+: t.drop anchor ∧ head = anchor + 2) ∧
    ∃ w ∈ shape, w <+: t.drop head ∧ opening + 1 = head + w.length

theorem headOffset?_eq_some_iff : headOffset? u = some offset ↔
    u.head? = some '\n'.toUInt8 ∧ offset = 1 + Text.indentation u.tail ∨
      Text.ofString "#[" <+: u ∧ offset = 2 := by
  have hm : Text.ofString "#[" = ['#'.toUInt8, '['.toUInt8] := by decide
  have hne : '#'.toUInt8 ≠ '\n'.toUInt8 := by decide
  rw [hm]
  cases u
  case nil => simp [headOffset?]
  case cons b u =>
    rw [headOffset?, List.cons_prefix_cons]
    cases u <;> grind

theorem length_pos_of_mem_shape {w : Text} (h : w ∈ shape) : 0 < w.length := by
  have ⟨name, hw, _⟩ := mem_shape.mp h
  rw [hw, List.length_append]
  exact Nat.succ_pos _

theorem isAnchor_iff : IsAnchor t anchor opening ↔
    ∃ tag, tag? (t.drop anchor) = some tag ∧ opening = (tag.shift anchor).stop := by
  have hhead (offset : Nat) : headOffset? (t.drop anchor) = some offset ↔
      t[anchor]? = some '\n'.toUInt8 ∧
          anchor + offset = anchor + 1 + Text.indentation (t.drop (anchor + 1)) ∨
        Text.ofString "#[" <+: t.drop anchor ∧ anchor + offset = anchor + 2 := by
    rw [headOffset?_eq_some_iff, List.head?_drop, List.tail_drop, Nat.add_assoc,
      Nat.add_left_cancel_iff, Nat.add_left_cancel_iff]
  constructor
  case mp =>
    intro ⟨head, ha, w, hw, ⟨rest, hrest⟩, ho⟩
    obtain ⟨offset, rfl⟩ : ∃ offset, head = anchor + offset :=
      Nat.exists_eq_add_of_le (by omega)
    have hl := length_pos_of_mem_shape hw
    refine ⟨_, tag?_eq_some_iff.mpr ⟨offset, w.length - 1, (hhead offset).mpr ha, ?_, rfl⟩, ?_⟩
    · rw [List.drop_drop, nameLength?_eq_some_iff_shape]
      exact ⟨w, hw, rest, hrest.symm, rfl⟩
    · simp only [Span.shift]
      omega
  case mpr =>
    rintro ⟨tag, htag, ho⟩
    obtain ⟨offset, length, hoff, hl, rfl⟩ := tag?_eq_some_iff.mp htag
    rw [List.drop_drop, nameLength?_eq_some_iff_shape] at hl
    obtain ⟨w, hw, rest, hrest, hlength⟩ := hl
    have hl := length_pos_of_mem_shape hw
    refine ⟨anchor + offset, (hhead offset).mp hoff, w, hw, ⟨rest, hrest.symm⟩, ?_⟩
    simp only [Span.shift] at ho
    omega

theorem headOffset?_plain (h : ∀ b ∈ inner, b ≠ '\n'.toUInt8 ∧ b ≠ '['.toUInt8) :
    headOffset? (inner ++ '('.toUInt8 :: rest) = none := by
  cases inner
  case nil => rfl
  case cons b inner =>
    have hb := (h b (by simp)).left
    cases inner
    case nil => simp +decide [headOffset?, hb]
    case cons c inner =>
      have hc := (h c (by simp)).right
      simp [headOffset?, hb, hc]

theorem plain_of_isNameByte : ∀ {b : UInt8}, isNameByte b = true →
    b ≠ '\n'.toUInt8 ∧ b ≠ '['.toUInt8 :=
  fun {b} => Text.forall_byte
    (p := fun b => isNameByte b = true → b ≠ '\n'.toUInt8 ∧ b ≠ '['.toUInt8) (by decide +kernel) b

theorem plain_of_isIndent : ∀ {b : UInt8}, Text.isIndent b = true →
    b ≠ '\n'.toUInt8 ∧ b ≠ '['.toUInt8 :=
  fun {b} => Text.forall_byte
    (p := fun b => Text.isIndent b = true → b ≠ '\n'.toUInt8 ∧ b ≠ '['.toUInt8)
    (by decide +kernel) b

theorem exists_plain_of_tag? (h : tag? u = some tag) :
    ∃ front inner rest, u = front ++ (inner ++ '('.toUInt8 :: rest) ∧
      (front = Text.ofString "\n" ∨ front = Text.ofString "#[") ∧
      (∀ b ∈ inner, b ≠ '\n'.toUInt8 ∧ b ≠ '['.toUInt8) ∧
      tag.stop = front.length + inner.length := by
  obtain ⟨offset, length, ho, hl, rfl⟩ := tag?_eq_some_iff.mp h
  obtain ⟨name, rest, hd, hn, _, rfl⟩ := nameLength?_eq_some_iff.mp hl
  have hn := fun b hb => plain_of_isNameByte (hn b hb)
  rcases headOffset?_eq_some_iff.mp ho with ⟨hb, rfl⟩ | ⟨⟨u', rfl⟩, rfl⟩
  case inl =>
    obtain ⟨u', rfl⟩ := List.head?_eq_some_iff.mp hb
    rw [Nat.add_comm, List.drop_succ_cons, List.tail_cons, Text.indentation, Text.drop_run] at hd
    refine ⟨Text.ofString "\n", u'.takeWhile Text.isIndent ++ name, rest, ?_, .inl rfl, ?_, ?_⟩
    · rw [List.append_assoc, ← hd, List.takeWhile_append_dropWhile]
      rfl
    · intro b hb
      rcases List.mem_append.mp hb with hb | hb
      · exact plain_of_isIndent (List.mem_takeWhile_imp hb)
      · exact hn b hb
    · have hm : (Text.ofString "\n").length = 1 := by decide
      simp [Text.indentation, Text.run, hm, Nat.add_assoc]
  case inr =>
    have hm : (Text.ofString "#[").length = 2 := by decide
    rw [← hm, List.drop_left] at hd
    exact ⟨Text.ofString "#[", name, rest, by rw [hd], .inr rfl, hn, by rw [hm]⟩

theorem tag?_drop_eq_none {i : Nat} (h : tag? u = some tag) (hi : 0 < i) (hs : i ≤ tag.stop) :
    tag? (u.drop i) = none := by
  have none_of_head {v : Text} (hv : headOffset? v = none) : tag? v = none := by
    simp [tag?, hv]
  refine none_of_head ?_
  obtain ⟨front, inner, rest, rfl, hf, hp, hstop⟩ := exists_plain_of_tag? h
  by_cases hl : i < front.length
  case pos =>
    rcases hf with rfl | rfl
    · have hm : (Text.ofString "\n").length = 1 := by decide
      omega
    · have hm : (Text.ofString "#[").length = 2 := by decide
      obtain rfl : i = 1 := by omega
      rfl
  case neg =>
    obtain ⟨k, rfl⟩ := Nat.exists_eq_add_of_le (Nat.not_lt.mp hl)
    rw [← List.drop_drop, List.drop_left, List.drop_append_of_le_length (by omega)]
    exact headOffset?_plain fun b hb => hp b (List.mem_of_mem_drop hb)

theorem opening_lt_of_lt (h : tag? (t.drop anchor) = some tag)
    (h' : tag? (t.drop anchor') = some tag') (hlt : anchor < anchor') :
    (tag.shift anchor).stop < anchor' := by
  refine Nat.lt_of_not_le fun hle => ?_
  simp only [Span.shift] at hle
  have hn := @tag?_drop_eq_none _ _ (anchor' - anchor) h (by omega) (by omega)
  rw [List.drop_drop, Nat.add_sub_cancel' (Nat.le_of_lt hlt), h'] at hn
  cases hn

structure Rewrites (naming : Export.Naming) (t : Text) (e : Edit) (exports : List Export) :
    Prop where
  closed : Nesting.find t e.start '('.toUInt8 ')'.toUInt8 = .ok (some ⟨e.start, e.stop⟩)
  text : ∃ source text, Span.inner ⟨e.start, e.stop⟩ t = .ok source ∧
    Attribute.rewritten naming source = .ok ⟨text, exports⟩ ∧
    e.text = '('.toUInt8 :: text ++ [')'.toUInt8]

theorem read_cases (ht : t.IsUtf8) (htag : tag? (t.drop anchor) = some tag)
    (hr : read naming t (tag.shift anchor) = .ok (element, stop)) :
    (Nesting.find t (tag.shift anchor).stop '('.toUInt8 ')'.toUInt8 = .ok none ∧
      element.edit? = none ∧ element.exports = [] ∧ stop = (tag.shift anchor).stop) ∨
    ∃ e, element.edit? = some e ∧ e.start = (tag.shift anchor).stop ∧ e.stop = stop ∧
      Rewrites naming t e element.exports := by
  have ⟨_, rest, hopen⟩ := opens_of_tag? htag
  rcases Nesting.find_cases ')'.toUInt8 ht hopen (by decide) (by decide) with
    hfind | ⟨list, source, hfind, hs, _, _, hinner, hu⟩
  case inl => exact .inl ⟨hfind, unclosed_of_read hfind hr⟩
  case inr =>
    have ⟨_, hf, hr⟩ := Fault.exists_of_bind hr
    cases hfind.symm.trans hf
    have ⟨_, hi, hr⟩ := Fault.exists_of_bind hr
    cases hinner.symm.trans hi
    have ⟨x, hx, hr⟩ := Fault.exists_of_bind hr
    have ⟨_, _, hr⟩ := Fault.exists_of_bind hr
    cases hr
    have hclosed : Nesting.find t list.start '('.toUInt8 ')'.toUInt8 = .ok (some list) := by
      rw [hs, hfind]
    have htext := Attribute.rewritten_of_expand hu hx
    exact .inr ⟨_, rfl, hs, rfl, hclosed, source, _, hinner, htext, rfl⟩

theorem exists_anchor_of_mem_go (ht : t.IsUtf8) (hr : t.drop pos = rest)
    (h : scan.go naming t pos resume rest = .ok elements) (he : e ∈ edits elements) :
    ∃ anchor tag, max pos resume ≤ anchor ∧ tag? (t.drop anchor) = some tag ∧
      e.start = (tag.shift anchor).stop ∧ ∃ exports, Rewrites naming t e exports := by
  have ⟨element, hm, hedit⟩ := List.mem_filterMap.mp he
  have ⟨anchor, tag, stop, hle, htag, hread⟩ := exists_read_of_mem_go hr h hm
  rcases read_cases ht htag hread with ⟨_, hn, _⟩ | ⟨e', he', hs, _, hrw⟩
  case inl => cases hn.symm.trans hedit
  case inr =>
    cases he'.symm.trans hedit
    exact ⟨anchor, tag, hle, htag, hs, _, hrw⟩

theorem exists_recorded (ht : t.IsUtf8) (h : scan naming t = .ok elements) :
    ∃ recorded, List.Forall₂ (Rewrites naming t) (edits elements) recorded ∧
      recorded.flatten = elements.flatMap exports := by
  have hread : ∀ x ∈ elements, (x.edit? = none ∧ x.exports = []) ∨
      ∃ e, x.edit? = some e ∧ Rewrites naming t e x.exports := fun x hx => by
    obtain ⟨anchor, tag, stop, _, htag, hread⟩ := exists_read_of_mem_go rfl h hx
    cases read_cases ht htag hread
    case inl hn => exact .inl ⟨hn.right.left, hn.right.right.left⟩
    case inr he =>
      obtain ⟨e, he, _, _, hrw⟩ := he
      exact .inr ⟨e, he, hrw⟩
  clear h
  induction elements
  case nil => exact ⟨[], .nil, rfl⟩
  case cons x elements hi =>
    obtain ⟨recorded, hrw, hflat⟩ := hi fun y hy => hread y (List.mem_cons_of_mem x hy)
    cases hread x List.mem_cons_self
    case inl hn =>
      rw [edits, List.filterMap_cons_none hn.left, List.flatMap_cons, hn.right]
      exact ⟨recorded, hrw, hflat⟩
    case inr he =>
      obtain ⟨e, he, hx⟩ := he
      rw [edits, List.filterMap_cons_some he, List.flatMap_cons, ← hflat]
      exact ⟨x.exports :: recorded, .cons hx hrw, rfl⟩

-- The list of an anchor, which opens at `opening`, is replaced by one of the edits exactly if the
-- anchor does not lie within a list that is replaced.
def Accounted (anchor opening : Nat) (edits : List Edit) : Prop :=
  (∃ e ∈ edits, e.start = opening) ↔ ∀ e ∈ edits, ¬(e.start ≤ anchor ∧ anchor < e.stop)

def AnchoredFrom (t : Text) (resume : Nat) (edits : List Edit) : Prop :=
  ∀ e ∈ edits, ∃ anchor tag, resume ≤ anchor ∧ tag? (t.drop anchor) = some tag ∧
    e.start = (tag.shift anchor).stop

theorem AnchoredFrom.of_le {edits : List Edit} (h : AnchoredFrom t resume edits)
    (hle : pos ≤ resume) : AnchoredFrom t pos edits := fun e he =>
  have ⟨anchor, tag, hle', htag⟩ := h e he
  ⟨anchor, tag, Nat.le_trans hle hle', htag⟩

theorem accounted_here {edits : List Edit} (htag : tag? (t.drop anchor) = some tag)
    (hs : e.start = (tag.shift anchor).stop) (hfrom : AnchoredFrom t (anchor + 1) edits) :
    Accounted anchor (tag.shift anchor).stop (e :: edits) := by
  refine iff_of_true ⟨e, by simp, hs⟩ fun x hx => ?_
  cases hx
  case head =>
    have := (opens_of_tag? htag).left
    omega
  case tail hx =>
    have ⟨anchor', tag', hle, htag', hs'⟩ := hfrom x hx
    have := (opens_of_tag? htag').left
    omega

theorem accounted_behind {edits : List Edit} (htag : tag? (t.drop anchor) = some tag)
    (hlt : e.start < anchor) (hfrom : AnchoredFrom t e.stop edits)
    (h : e.stop ≤ anchor → Accounted anchor (tag.shift anchor).stop edits) :
    Accounted anchor (tag.shift anchor).stop (e :: edits) := by
  have hopen := (opens_of_tag? htag).left
  by_cases hin : anchor < e.stop
  case pos =>
    refine iff_of_false (fun ⟨x, hx, hs⟩ => ?_) fun hn => hn e (by simp) ⟨by omega, hin⟩
    cases hx
    case head => omega
    case tail hx =>
      have ⟨anchor', tag', hle, htag', hs'⟩ := hfrom x hx
      have := opening_lt_of_lt htag htag' (by omega)
      have := (opens_of_tag? htag').left
      omega
  case neg =>
    have h := h (by omega)
    simp only [Accounted, List.exists_mem_cons_iff, List.forall_mem_cons] at h ⊢
    rw [← h]
    constructor
    case mp =>
      rintro (hs | hx)
      · omega
      · exact ⟨by omega, hx⟩
    case mpr => exact fun hx => .inr hx.right

theorem accounted_of_go {list : Span} (ht : t.IsUtf8) (hr : t.drop pos = rest)
    (h : scan.go naming t pos resume rest = .ok elements)
    (htag : tag? (t.drop anchor) = some tag) (hle : max pos resume ≤ anchor)
    (hf : Nesting.find t (tag.shift anchor).stop '('.toUInt8 ')'.toUInt8 = .ok (some list)) :
    Accounted anchor (tag.shift anchor).stop (edits elements) := by
  -- By induction on the rest of the text. An anchor that the scan has not gone past yet is either
  -- where the scan is, or behind the parenthesis of the list that opens there: then it is passed
  -- over with this list, or it is left to the rest of the scan.
  induction rest generalizing pos resume elements
  case nil =>
    have hlen := List.drop_eq_nil_iff.mp hr
    rw [List.drop_eq_nil_of_le (by omega)] at htag
    cases htag
  case cons b rest hi =>
    have hr' : t.drop (pos + 1) = rest := Text.drop_succ hr
    rw [scan.go] at h
    split at h
    case isTrue => exact hi hr' h (by omega)
    case isFalse =>
      split at h
      case h_1 hn =>
        have hne : anchor ≠ pos := by
          rintro rfl
          rw [hr, hn] at htag
          cases htag
        exact hi hr' h (by omega)
      case h_2 tag' htag' =>
        rw [← hr] at htag'
        obtain ⟨⟨element, stop⟩, hread, h⟩ := Fault.exists_of_bind h
        obtain ⟨others, hg, h⟩ := Fault.exists_of_bind h
        cases h
        have hfrom : AnchoredFrom t (max (pos + 1) stop) (edits others) := fun e he => by
          obtain ⟨anchor, tag, hle, htag, hs, _⟩ := exists_anchor_of_mem_go ht hr' hg he
          exact ⟨anchor, tag, hle, htag, hs⟩
        rcases read_cases ht htag' hread with ⟨hn, he, _, hstop⟩ | ⟨e, he, hs, hstop, _⟩
        case inl =>
          rw [edits, List.filterMap_cons_none he]
          have hne : anchor ≠ pos := by
            rintro rfl
            cases htag.symm.trans htag'
            cases hn.symm.trans hf
          have := opening_lt_of_lt htag' htag (by omega)
          exact hi hr' hg (by omega)
        case inr =>
          rw [edits, List.filterMap_cons_some he]
          rcases Nat.eq_or_lt_of_le (Nat.le_trans (Nat.le_max_left _ _) hle) with rfl | hlt
          · cases htag.symm.trans htag'
            exact accounted_here htag hs (hfrom.of_le (by omega))
          · have := opening_lt_of_lt htag' htag hlt
            exact accounted_behind htag (by omega) (hfrom.of_le (by omega)) fun hle =>
              hi hr' hg (by omega)

-- The edits of a template's lists, in the order of the text. There is one for every list that is
-- closed and introduced outside of the others, and none but for such a list.
structure Found (naming : Export.Naming) (t : Text) (found : List Edit)
    (recorded : List (List Export)) : Prop where
  ascending : found.Pairwise fun a b => a.start < b.start ∧ a.stop ≤ b.start
  anchored : ∀ e ∈ found, ∃ anchor, IsAnchor t anchor e.start
  rewrites : List.Forall₂ (Rewrites naming t) found recorded
  exists_iff : ∀ anchor opening, IsAnchor t anchor opening →
    ((∃ e ∈ found,
        Nesting.find t opening '('.toUInt8 ')'.toUInt8 = .ok (some ⟨e.start, e.stop⟩)) ↔
      (∃ list, Nesting.find t opening '('.toUInt8 ')'.toUInt8 = .ok (some list)) ∧
        ∀ e ∈ found, ¬(e.start ≤ anchor ∧ anchor < e.stop))

theorem found_of_scan {recorded : List (List Export)} (ht : t.IsUtf8)
    (h : scan naming t = .ok elements)
    (hrw : List.Forall₂ (Rewrites naming t) (edits elements) recorded) :
    Found naming t (edits elements) recorded where
  ascending := by
    have ⟨_, hs, hd, _⟩ := exists_scan naming ht
    cases h.symm.trans hs
    exact hd.ascending
  anchored e he := by
    have ⟨anchor, tag, _, htag, hs, _⟩ := exists_anchor_of_mem_go ht rfl h he
    exact ⟨anchor, isAnchor_iff.mpr ⟨tag, htag, hs⟩⟩
  rewrites := hrw
  exists_iff anchor opening ha := by
    obtain ⟨tag, htag, rfl⟩ := isAnchor_iff.mp ha
    have ⟨_, _, ho⟩ := opens_of_tag? htag
    constructor
    case mp =>
      intro ⟨e, he, hf⟩
      have hs : e.start = _ := Nesting.start_of_find ho hf
      exact ⟨⟨_, hf⟩, (accounted_of_go ht rfl h htag (Nat.zero_le _) hf).mp ⟨e, he, hs⟩⟩
    case mpr =>
      intro ⟨⟨list, hf⟩, hn⟩
      have ⟨e, he, hs⟩ := (accounted_of_go ht rfl h htag (Nat.zero_le _) hf).mpr hn
      have ⟨_, _, _, _, _, _, hrw⟩ := exists_anchor_of_mem_go ht rfl h he
      exact ⟨e, he, hs ▸ hrw.closed⟩

-- Which lists are expanded, to what, and which exports they record does not depend on what the
-- table holds. The exports are recorded list after list.
theorem lists_found_and_rewritten (naming : Export.Naming) (s : String) :
    ∃ found recorded, Found naming (.ofString s) found recorded ∧
      ∀ initial : Export.Table,
        expandInto naming initial (.ofString s) =
          .ok (found, initial.insertAll recorded.flatten) := by
  have ht := Text.isUtf8_ofString s
  have ⟨elements, hs, _⟩ := exists_scan naming ht
  have ⟨recorded, hrw, hflat⟩ := exists_recorded ht hs
  refine ⟨edits elements, recorded, found_of_scan ht hs hrw, fun initial => ?_⟩
  rw [expandInto, hs, hflat, ← record_eq_insertAll]
  rfl

end Template.Element

end PugShorthand
