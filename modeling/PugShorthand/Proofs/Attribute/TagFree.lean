import PugShorthand.Proofs.Attribute.ClosedForm
import PugShorthand.Proofs.Template.TagFree

namespace PugShorthand.Attribute

open Template

variable {t : Text} {quote : UInt8}

theorem isForeign_of_leadingQuote? (h : leadingQuote? t = some quote) :
    isForeign quote = true := by
  have hf : ∀ quote, (Delimiter.ofOpening quote).isQuote = true → isForeign quote = true :=
    Text.forall_byte (by decide +kernel)
  exact hf quote (leadingQuote?_eq_some_iff.mp h).right

section

variable (h : TagFree t)
include h

theorem tagFree_templateLiteral : TagFree (templateLiteral t) :=
  ((h.escape (by decide)).concat (by decide)).cons (by decide)

theorem tagFree_rewrap : TagFree (rewrap t) := by
  unfold rewrap
  split
  case isTrue => exact tagFree_templateLiteral h.braced
  case isFalse =>
    split
    case isTrue  => exact tagFree_templateLiteral h
    case isFalse => exact h

theorem tagFree_normaliseName : TagFree (normaliseName t) := by
  have quoted {t : Text} (h : TagFree t) : TagFree ('\''.toUInt8 :: t ++ ['\''.toUInt8]) :=
    (h.concat (by decide)).cons (by decide)
  unfold normaliseName
  split
  case isTrue => exact quoted h.braced
  case isFalse =>
    split
    case isTrue  => exact quoted h
    case isFalse => exact h

end

theorem tagFree_append_directive {c : Bool} {name value : Text}
    (hn : name = Text.ofString " class!=" ∨ name = Text.ofString " style!=") (ht : TagFree t)
    (hv : TagFree value) : TagFree (t ++ if c then name ++ value else []) := by
  have ⟨hf, hl, hd⟩ : name.head? = some ' '.toUInt8 ∧ name.getLast? = some '='.toUInt8 ∧
      name.length < closingTag.length := by
    cases hn <;> subst_vars <;> decide
  have hn : TagFree name := fun hi => absurd hi.length_le (Nat.not_le_of_lt hd)
  cases c
  case false => simpa using ht
  case true =>
    have hv : TagFree (name ++ value) := hn.append hv (.inl (by simp +decide [hl]))
    exact ht.append hv (.inr (by simp +decide [List.head?_append, hf]))

namespace Directive

variable {d : Directive}

theorem tagFree_literal (h : TagFree t) (hf : TagFree d.fragments) (hq : isForeign quote = true) :
    TagFree (Text.dropTrailing quote t ++ Text.ofString " " ++ Text.escape quote d.fragments
      ++ [quote]) := by
  have hp : TagFree (Text.dropTrailing quote t) := by
    unfold Text.dropTrailing
    split
    case isTrue  => exact h.mono (List.dropLast_prefix _).isInfix
    case isFalse => exact h
  exact (hp.between (by decide) (by decide) (hf.escape hq)).concat hq

theorem tagFree_consolidate (hv : ∀ v ∈ d.value, TagFree v) (hf : TagFree d.fragments) :
    TagFree d.consolidate := by
  have hv : TagFree (d.value.getD emptyLiteral) := by
    cases he : d.value
    case none   => exact .of_foreign (List.all_eq_true.mp (by decide))
    case some v => exact hv v he
  cases hq : leadingQuote? (d.value.getD emptyLiteral) <;> simp only [consolidate, hq]
  case none       => exact tagFree_literal (tagFree_templateLiteral hv.braced) hf (by decide)
  case some quote => exact tagFree_literal hv hf (isForeign_of_leadingQuote? hq)

end Directive

theorem Comment.tagFree_strip {stripped : Text} (hu : t.IsUtf8) (ht : TagFree t)
    (h : Comment.strip t = .ok stripped) : TagFree stripped := by
  have ⟨found, hf, hd⟩ := Comment.exists_blocks hu
  have hw : ∀ e ∈ Comment.deletions found, e.text.IsUtf8 := fun _ =>
    Comment.isUtf8_of_mem_deletions
  have hs : Edit.spliceFrom t 0 (Comment.deletions found) = stripped := by
    simpa [Comment.strip, hf, hd.applyAll hu hw, bind, Except.bind] using h
  rw [← hs]
  apply ht.spliceFrom_deletions
  case ht =>
    intro e he
    obtain ⟨_, _, rfl⟩ := List.mem_map.mp he
    rfl
  case h =>
    intro e he b hb
    obtain ⟨s, hm, rfl⟩ := List.mem_map.mp he
    have hb := Comment.head?_of_mem_go rfl hf hm b hb
    exact hb ▸ by decide

namespace Token

variable {k : Token} {ks : List Token} {bind : Text → Text}

structure IsTagFree (k : Token) : Prop where
  name : TagFree k.name
  value : ∀ v ∈ k.value, TagFree v.raw

theorem tagFree_named {written : Text} (h : TagFree written) : TagFree (named written).name := by
  unfold named
  split
  case h_1 name hn => exact h.mono ⟨exportMark, [], by simp [Text.eq_of_after? hn]⟩
  case h_2         => exact h

theorem Reads.isTagFree {used rest : Text} (h : Reads used k rest) (ht : TagFree used) :
    k.IsTagFree := by
  cases h
  case bare => exact ⟨tagFree_named ht, by simp [Token.bare]⟩
  case assigned name v _ _ _ =>
    have hn : TagFree name := ht.mono ⟨[], '='.toUInt8 :: v.raw, by simp⟩
    have hv : TagFree v.raw := ht.mono ⟨name ++ ['='.toUInt8], [], by simp⟩
    exact ⟨tagFree_named hn, by simpa using hv⟩
  case escaped name v _ _ =>
    have hn : TagFree name := ht.mono ⟨[], '!'.toUInt8 :: '='.toUInt8 :: v.raw, by simp⟩
    have hv : TagFree v.raw := ht.mono ⟨name ++ ['!'.toUInt8, '='.toUInt8], [], by simp⟩
    exact ⟨hn, by simpa [Token.escaped] using hv⟩

theorem Scans.isTagFree (h : Scans t ks) (ht : TagFree t) : ∀ k ∈ ks, k.IsTagFree := by
  induction h
  case nil => simp
  case blank _ _ hi => exact hi (ht.mono (List.suffix_cons ..).isInfix)
  case token used rest k ks hk _ hi =>
    simp only [List.mem_cons, forall_eq_or_imp]
    exact ⟨hk.isTagFree (ht.mono (List.prefix_append ..).isInfix),
      hi (ht.mono (List.suffix_append ..).isInfix)⟩

namespace IsTagFree

theorem content (h : k.IsTagFree) : ∀ v ∈ k.value, TagFree v.content := by
  intro v hv
  unfold Value.content
  split
  case isTrue => exact h.value v hv
  case isFalse =>
    exact (h.value v hv).mono
      ((List.dropLast_prefix _).isInfix.trans (List.tail_suffix _).isInfix)

theorem display (h : k.IsTagFree) : TagFree k.display := by
  unfold Token.display
  split
  case h_2 => exact h.name
  case h_1 operator value _ hv =>
    cases operator <;> exact h.name.between (by decide) (by decide) (h.value _ hv)

theorem written? (h : k.IsTagFree) : ∀ w ∈ k.written?, TagFree w := by
  intro w hw
  cases hv : k.value
  case none =>
    simp only [Token.written?, hv, Option.map_none, Option.none_or, Option.mem_def,
      Option.ite_none_right_eq_some, Option.some.injEq] at hw
    exact hw.right ▸ .of_foreign (List.all_eq_true.mp (by decide))
  case some v =>
    simp only [Token.written?, hv, Option.map_some, Option.some_or, Option.mem_def,
      Option.some.injEq] at hw
    exact hw ▸ h.value v hv

theorem bound? (h : k.IsTagFree) (hx : k.exported = false) : ∀ w ∈ k.bound? bind, TagFree w := by
  simp only [Token.bound?, hx, Bool.false_eq_true, if_false, Option.mem_def,
    Option.map_eq_some_iff]
  intro _ ⟨w, hw, he⟩
  exact he ▸ tagFree_rewrap (h.written? w hw)

theorem classPart (h : k.IsTagFree) : TagFree k.classPart := by
  have hn : TagFree k.name.tail := h.name.mono (List.tail_suffix _).isInfix
  have hc : TagFree ((k.value.map Value.content).getD k.name.tail) := by
    cases hv : k.value
    case none   => exact hn
    case some v => exact h.content v hv
  have hp := (hc.between (s := Text.ofString " ? ' ") (by decide) (by decide) hn).append_foreign
    (s := Text.ofString "' : ''") (by decide)
  exact .foreign_append (by decide) hp.braced

theorem stylePart (h : k.IsTagFree) : TagFree k.stylePart := by
  have hn : TagFree (if k.isCustomProperty then k.name else k.name.tail) := by
    split
    case isTrue  => exact h.name
    case isFalse => exact h.name.mono (List.tail_suffix _).isInfix
  have hv : TagFree ((k.value.map fun v =>
      if v.delimiter.isQuote then v.content else v.raw).getD []) := by
    cases hv : k.value
    case none   => exact .nil
    case some v =>
      simp only [Option.map_some, Option.getD_some]
      split
      case isTrue  => exact h.content v hv
      case isFalse => exact h.value v hv
  have hp : TagFree (Text.ofString ";" ++ _) := .foreign_append (by decide) hn
  exact (hp.between (by decide) (by decide) hv).append_foreign (by decide)

theorem emission (h : k.IsTagFree) {mode : Target}
    (hx : isTaken (mode, k) = true → k.exported = false) :
    TagFree (emission bind (mode, k)) := by
  simp only [Token.emission]
  split
  case isTrue => exact .foreign_append (by decide) h.display
  case isFalse =>
    split
    case isFalse => exact .nil
    case isTrue ht =>
      have hx := hx (by simp_all)
      have hn : TagFree (Text.ofString " " ++ normaliseName k.name) :=
        .foreign_append (by decide) (tagFree_normaliseName h.name)
      unfold assignment
      split
      case h_2 => simpa using hn
      case h_1 operator value _ hv =>
        rw [← List.append_assoc]
        cases operator <;> exact hn.between (by decide) (by decide) (h.bound? hx _ hv)

end IsTagFree

theorem head?_emission (p : Target × Token) :
    ∀ b ∈ (emission bind p).head?, isForeign b = true := by
  simp only [emission, List.append_assoc]
  split
  case isTrue => exact TagFree.head?_append (by decide)
  case isFalse =>
    split
    case isTrue  => exact TagFree.head?_append (by decide)
    case isFalse => simp

theorem not_exported {p : Target × Token} (h : exports ks = []) (hp : p ∈ moded ks)
    (ht : isTaken p = true) : p.2.exported = false := by
  have he := List.flatMap_eq_nil_iff.mp h p (List.mem_filter.mpr ⟨hp, ht⟩)
  cases hx : p.2.exported
  case false => rfl
  case true  => simp [export?, hx] at he

section

variable (h : ∀ k ∈ ks, k.IsTagFree) (hx : exports ks = [])
include h hx

theorem tagFree_lastValue {p : Token → Bool} (hp : ∀ k, p k = true → k.isSetting = true) :
    ∀ v ∈ lastValue bind p ks, TagFree v := by
  intro v hv
  have ⟨k, hl, hv⟩ := Option.bind_eq_some_iff.mp hv
  have ⟨hm, hk⟩ := List.mem_filter.mp (List.mem_of_getLast? hl)
  have ⟨mode, hmode, ht⟩ := exists_isTaken hm (hp k hk)
  exact (h k hm).bound? (not_exported hx hmode ht) v hv

theorem tagFree_closedForm : TagFree (closedForm bind ks) := by
  have he : TagFree ((moded ks).flatMap (emission bind)) := by
    apply TagFree.flatMap
    case ht => exact fun p hp => (h p.2 (mem_of_mem_moded hp)).emission (not_exported hx hp)
    case h => exact fun p _ => head?_emission p
  have hc : TagFree (classDirective bind ks).consolidate := by
    apply Directive.tagFree_consolidate
    case hv => exact tagFree_lastValue h hx fun _ => isSetting_of_makesClass
    case hf =>
      apply TagFree.flatMap
      case ht => exact fun p hp => (h p.2 (mem_of_mem_moded (List.mem_filter.mp hp).left)).classPart
      case h => exact fun p _ => TagFree.head?_append (by decide)
  have hs : TagFree (styleDirective bind ks).consolidate := by
    apply Directive.tagFree_consolidate
    case hv => exact tagFree_lastValue h hx fun _ => isSetting_of_assignsStyle
    case hf =>
      apply TagFree.flatMap
      case ht => exact fun p hp => (h p.2 (mem_of_mem_moded (List.mem_filter.mp hp).left)).stylePart
      case h =>
        intro p _
        simp only [stylePart, List.append_assoc]
        exact TagFree.head?_append (by decide)
  exact tagFree_append_directive (.inr rfl) (tagFree_append_directive (.inl rfl) he hc) hs

end

end Token

end PugShorthand.Attribute
