import Mathlib.Data.List.Infix
import Mathlib.Order.Bounds.Basic
import PugShorthand.Proofs.Text.Boundary
import PugShorthand.Template.Region

namespace PugShorthand.Template

variable {lang content : Text} {region : Span}

def Opens (lang content : Text) (i : Nat) : Prop :=
  openingTag '"'.toUInt8 lang <+: content.drop i ∨ openingTag '\''.toUInt8 lang <+: content.drop i

theorem length_openingTag (quote : UInt8) :
    (openingTag quote lang).length = (openingTag '"'.toUInt8 lang).length := by
  simp [openingTag]

theorem merge_find?_eq_some_iff {a b t : Text} {i : Nat} :
    Option.merge min (Text.find? a t) (Text.find? b t) = some i ↔
      i ≤ t.length ∧ (a <+: t.drop i ∨ b <+: t.drop i) ∧
        ∀ j < i, ¬(a <+: t.drop j ∨ b <+: t.drop j) := by
  have absent {a : Text} (h : Text.find? a t = none) (j : Nat) : ¬a <+: t.drop j := fun hp =>
    Text.find?_eq_none_iff.mp h (Text.isInfix_of_drop hp)
  cases ha : Text.find? a t <;> cases hb : Text.find? b t
  case none.none => simp [Option.merge, absent ha, absent hb]
  case none.some y =>
    simp only [absent ha, false_or, Option.merge, ← hb, Text.find?_eq_some_iff]
    grind
  case some.none x =>
    simp only [absent hb, or_false, Option.merge, ← ha, Text.find?_eq_some_iff]
    grind
  case some.some x y =>
    have ⟨hx, hxl, hxf⟩ := Text.find?_eq_some_iff.mp ha
    have ⟨hy, hyl, hyf⟩ := Text.find?_eq_some_iff.mp hb
    simp only [Option.merge, Option.some.injEq]
    constructor
    case mp => grind
    case mpr =>
      intro ⟨_, hi, hf⟩
      have hxi : i ≤ x := Nat.le_of_not_lt fun h => hf x h (.inl hx)
      have hyi : i ≤ y := Nat.le_of_not_lt fun h => hf y h (.inr hy)
      cases hi
      case inl hi =>
        have : x ≤ i := Nat.le_of_not_lt fun h => hxf i h hi
        omega
      case inr hi =>
        have : y ≤ i := Nat.le_of_not_lt fun h => hyf i h hi
        omega

theorem region?_eq_some_iff : region? lang content = some region ↔
    ∃ i, i ≤ content.length ∧ Opens lang content i ∧ (∀ j < i, ¬Opens lang content j) ∧
      region.start = i + (openingTag '"'.toUInt8 lang).length ∧ region.start ≤ region.stop ∧
      closingTag <+: content.drop region.stop ∧
      ∀ j, region.start ≤ j → j < region.stop → ¬closingTag <+: content.drop j := by
  simp only [region?, Option.bind_eq_bind, Option.bind_eq_some_iff, Option.pure_def,
    Option.some.injEq, merge_find?_eq_some_iff, Text.find?_eq_some_iff, List.drop_drop]
  constructor
  case mp =>
    intro ⟨i, ⟨hi, ho, hf⟩, length, ⟨hc, _, hl⟩, hr⟩
    subst hr
    refine ⟨i, hi, ho, hf, rfl, Nat.le_add_right .., hc, fun j hj hlt => ?_⟩
    have := hl (j - (i + (openingTag '"'.toUInt8 lang).length)) (by simp at hj hlt; omega)
    rwa [Nat.add_sub_cancel' hj] at this
  case mpr =>
    intro ⟨i, hi, ho, hf, hs, hle, hc, hl⟩
    have hlen := hc.length_le
    have hpos : 0 < closingTag.length := by decide
    rw [List.length_drop] at hlen
    refine ⟨i, ⟨hi, ho, hf⟩, region.stop - region.start, ?_, ?_⟩
    · rw [← hs, Nat.add_sub_cancel' hle, List.length_drop]
      exact ⟨hc, by omega, fun j hj => hl _ (by omega) (by omega)⟩
    · rw [← hs, Nat.add_sub_cancel' hle]

theorem le_length_of_closingTag {i : Nat} (h : closingTag <+: content.drop i) :
    i ≤ content.length := by
  have hl := h.length_le
  have : 0 < closingTag.length := by decide
  rw [List.length_drop] at hl
  omega

theorem prefix_drop_iff {a t s : Text} {j n : Nat} (h : j + a.length ≤ n) (hn : n ≤ t.length) :
    a <+: (t.take n ++ s).drop j ↔ a <+: t.drop j := by
  have hl : a.length ≤ ((t.take n).drop j).length := by
    rw [List.length_drop, List.length_take, Nat.min_eq_left hn]
    omega
  have hj : j ≤ (t.take n).length := by
    rw [List.length_take, Nat.min_eq_left hn]
    omega
  have ht : t.drop j = (t.take n).drop j ++ t.drop n := Text.drop_eq_append (by omega)
  rw [List.drop_append_of_le_length hj, ht, List.isPrefix_append_of_length hl,
    List.isPrefix_append_of_length hl]

theorem isRange_region? (hc : content.IsUtf8) (h : region? lang content = some region) :
    content.isRange 0 region.start = true ∧ content.isRange region.start region.stop = true ∧
      content.isRange region.stop content.length = true := by
  have ⟨i, hi, ho, _, hs, hle, hclosing, _⟩ := region?_eq_some_iff.mp h
  have ⟨quote, back, hback⟩ : ∃ quote, openingTag quote lang <+: content.drop i :=
    ho.elim (⟨_, ·⟩) (⟨_, ·⟩)
  have ht : content.take i ++ openingTag quote lang ++ back = content := by
    rw [List.append_assoc, hback, List.take_append_drop]
  have hlen : (content.take i ++ openingTag quote lang).length = region.start := by
    rw [List.length_append, List.length_take_of_le hi, length_openingTag quote, hs]
  have hb : Text.IsUtf8 back := by
    rw [← ht, openingTag, show Text.ofString ">" = ['>'.toUInt8] from rfl,
      ← List.append_assoc (content.take i), List.append_assoc _ _ back] at hc
    exact (hc.around (by decide)).right
  have hstart : content.isBoundary region.start = true := by
    rw [← ht, ← hlen]
    exact Text.isBoundary_append hb
  have hstop : content.isBoundary region.stop = true := by
    refine (hc.isBoundary_of_ascii (x := '<'.toUInt8) ?_ (by decide)).left
    have ⟨after, hafter⟩ := hclosing
    rw [← List.head?_drop, ← hafter]
    rfl
  have := Text.le_length_of_isBoundary hstop
  simp [Text.isRange_iff, hstart, hstop, hle, this]

def IsOpening (lang content : Text) (tag : Span) : Prop :=
  ∃ quote ∈ Text.ofString "\"'", openingTag quote lang <+: content.drop tag.start ∧
    tag.stop = tag.start + (openingTag quote lang).length

theorem isOpening_iff {tag : Span} : IsOpening lang content tag ↔
    Opens lang content tag.start ∧ tag.stop = tag.start + (openingTag '"'.toUInt8 lang).length := by
  have hq : Text.ofString "\"'" = ['"'.toUInt8, '\''.toUInt8] := by decide
  simp only [IsOpening, hq, List.mem_cons, List.not_mem_nil, or_false, exists_eq_or_imp,
    exists_eq_left]
  rw [length_openingTag '\''.toUInt8, ← or_and_right]
  rfl

-- What follows some opening tag follows the first one as well, so nothing is lost by searching
-- behind the first one only.
theorem isSome_region?_iff : (region? lang content).isSome = true ↔
    ∃ tag i, IsOpening lang content tag ∧ tag.stop ≤ i ∧ closingTag <+: content.drop i := by
  constructor
  case mp =>
    intro h
    have ⟨region, hr⟩ := Option.isSome_iff_exists.mp h
    have ⟨i, _, ho, _, hs, hle, hc, _⟩ := region?_eq_some_iff.mp hr
    exact ⟨⟨i, region.start⟩, region.stop, isOpening_iff.mpr ⟨ho, hs⟩, hle, hc⟩
  case mpr =>
    intro ⟨tag, i, ht, hle, hc⟩
    have ⟨ho, hstop⟩ := isOpening_iff.mp ht
    rw [region?]
    cases hf : Option.merge min (Text.find? (openingTag '"'.toUInt8 lang) content)
      (Text.find? (openingTag '\''.toUInt8 lang) content)
    case none =>
      simp only [Option.merge_eq_none_iff, Text.find?_eq_none_iff] at hf
      cases ho
      case inl ho => exact absurd (Text.isInfix_of_drop ho) hf.left
      case inr ho => exact absurd (Text.isInfix_of_drop ho) hf.right
    case some first =>
      have ⟨_, _, hfirst⟩ := merge_find?_eq_some_iff.mp hf
      have hl : first ≤ tag.start := Nat.le_of_not_lt fun hlt => hfirst _ hlt ho
      let start := first + (openingTag '"'.toUInt8 lang).length
      have hi : content.drop i = (content.drop start).drop (i - start) := by
        rw [List.drop_drop, Nat.add_sub_cancel' (by omega)]
      have hn : Text.find? closingTag (content.drop start) ≠ none :=
        mt Text.find?_eq_none_iff.mp (not_not.mpr (Text.isInfix_of_drop (hi ▸ hc)))
      have ⟨length, hlength⟩ := Option.ne_none_iff_exists'.mp hn
      simp [start, hlength]

theorem not_infix_region (h : region? lang content = some region) :
    ¬closingTag <:+: (content.take region.stop).drop region.start := by
  have ⟨i, _, _, _, _, hle, hc, hl⟩ := region?_eq_some_iff.mp h
  have hstop := le_length_of_closingTag hc
  intro ⟨a, b, hab⟩
  have hlen := congrArg List.length hab
  have hpos : 0 < closingTag.length := by decide
  simp only [List.length_append, List.length_drop, List.length_take] at hlen
  have hd : content.drop (region.start + a.length) =
      closingTag ++ (b ++ content.drop region.stop) := by
    rw [← List.drop_drop, Text.drop_eq_append hle, ← hab, List.append_assoc, List.append_assoc,
      List.drop_left]
  exact hl (region.start + a.length) (by omega) (by omega) ⟨_, hd.symm⟩

theorem region_behind_earliest_opening (content lang : String) :
    let t := Text.ofString content
    let l := Text.ofString lang
    ((region? l t).isSome = true ↔
      ∃ tag i, IsOpening l t tag ∧ tag.stop ≤ i ∧ closingTag <+: t.drop i) ∧
    ∀ region ∈ region? l t,
      (∃ tag, IsOpening l t tag ∧ (∀ other, IsOpening l t other → tag.start ≤ other.start) ∧
        region.start = tag.stop) ∧
      IsLeast {i | region.start ≤ i ∧ closingTag <+: t.drop i} region.stop ∧
      ∃ text, region.text t = .ok text ∧ ¬closingTag <:+: text := by
  intro t l
  refine ⟨isSome_region?_iff, fun region hr => ?_⟩
  have ⟨i, _, ho, hfirst, hs, hle, hc, hl⟩ := region?_eq_some_iff.mp hr
  have ⟨_, hrange, _⟩ := isRange_region? (Text.isUtf8_ofString content) hr
  refine ⟨⟨⟨i, region.start⟩, isOpening_iff.mpr ⟨ho, hs⟩, fun other hother => ?_, rfl⟩,
    ⟨⟨hle, hc⟩, fun j ⟨hj, hcj⟩ => ?_⟩, _, Text.slice_eq hrange, not_infix_region hr⟩
  · exact Nat.le_of_not_lt fun hlt => hfirst _ hlt (isOpening_iff.mp hother).left
  · exact Nat.le_of_not_lt fun hlt => hl j hj hlt hcj

end PugShorthand.Template
