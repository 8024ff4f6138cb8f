import PugShorthand.Proofs.Markup.Restore
import PugShorthand.Proofs.QualifiedName.Segment
import PugShorthand.Proofs.Template.Component
import PugShorthand.Proofs.Text.Shape

namespace PugShorthand

open Text (Shape)
open Text.Shape
open scoped Computability

namespace QualifiedName

variable {q : QualifiedName} {t w : Text} {b separator : UInt8} {e : Edit}

def segment (q : QualifiedName) : Shape :=
  many (byte Text.isUpper) * (byte fun b => b != q.separator && !q.isStop b)∗

def shape (q : QualifiedName) : Shape :=
  q.segment * many (mark q.separator * q.segment)

theorem admits_singleton (h : ∀ n : BitVec 8, Text.isUpper ⟨n⟩ = true →
    ⟨n⟩ ≠ q.separator ∧ q.isStop ⟨n⟩ = false) (b : UInt8) (hb : Text.isUpper b = true) :
    q.Admits [b] where
  upper := by simpa [startsUpper] using hb
  plain := by simpa using h b.toBitVec hb

theorem dotted_admits : ∀ b, Text.isUpper b = true → dotted.Admits [b] :=
  admits_singleton (by decide +kernel)

theorem coloned_admits : ∀ b, Text.isUpper b = true → coloned.Admits [b] :=
  admits_singleton (by decide +kernel)

theorem ascii_of_isUpper : Text.isUpper b = true → b < 0x80 :=
  Text.forall_byte (p := fun b => Text.isUpper b = true → b < 0x80) (by decide +kernel) b

theorem startsUpper_iff :
    startsUpper t = true ↔ ∃ b rest, Text.isUpper b = true ∧ t = b :: rest := by
  cases t <;> simp [startsUpper]

variable (hu : ∀ b, Text.isUpper b = true → q.Admits [b])

include hu

theorem mem_segment : w ∈ q.segment ↔ q.Admits w := by
  simp only [segment, Language.mem_mul, mem_many_byte, mem_byte_kstar, Bool.and_eq_true, bne_iff_ne,
    Bool.not_eq_true']
  constructor
  case mp =>
    rintro ⟨front, ⟨hne, hf⟩, back, hb, rfl⟩
    refine ⟨?_, fun x hx => ?_⟩
    · obtain ⟨b, front', rfl⟩ := List.exists_cons_of_ne_nil hne
      exact startsUpper_iff.mpr ⟨b, front' ++ back, hf b (by simp), rfl⟩
    · cases List.mem_append.mp hx
      case inl hx => exact (hu x (hf x hx)).plain x (by simp)
      case inr hx => exact hb x hx
  case mpr =>
    intro h
    obtain ⟨b, rest, hb, rfl⟩ := startsUpper_iff.mp h.upper
    exact ⟨[b], by simpa using hb, rest, fun x hx => h.plain x (by simp [hx]), rfl⟩

theorem exists_of_mem_shape (h : w ∈ q.shape) :
    ∃ front back, q.Admits front ∧ startsUpper back = true ∧ w = front ++ q.separator :: back := by
  simp only [shape, many, mul_assoc, Language.mem_mul (l := q.segment), mem_mark_mul,
    mem_segment hu] at h
  obtain ⟨front, hf, -, ⟨-, ⟨back, hb, more, -, rfl⟩, rfl⟩, rfl⟩ := h
  exact ⟨front, back ++ more, hf, startsUpper_append hb.upper, rfl⟩

theorem mem_shape {front back : Text} (hf : q.Admits front) (hb : q.Admits back) :
    front ++ q.separator :: back ∈ q.shape := by
  have hm : q.separator :: back ∈ mark q.separator * q.segment :=
    mem_mark_mul.mpr ⟨back, (mem_segment hu).mpr hb, rfl⟩
  have hm' := Language.append_mem_mul hm (Language.nil_mem_kstar (mark q.separator * q.segment))
  rw [List.append_nil] at hm'
  exact Language.append_mem_mul ((mem_segment hu).mpr hf) hm'

theorem admits_take_of_rejoin? (hq : q.IsPlain) (h : q.rejoin? separator t = some e) :
    q.Admits (t.take e.start) := by
  have ⟨hs, hlt, hstop, _⟩ := rejoin?_spec hq h
  have hn := not_mem_take_of_rejoin? h
  refine ⟨?_, fun b hb => ?_⟩
  · obtain ⟨b, rest, hb, rfl⟩ := startsUpper_iff.mp (take_append_rejoin? hq h).left
    cases hk : e.start
    case zero =>
      have hb' := ((hu b hb).plain b (by simp)).left
      simp [hk, hb'] at hs
    case succ k => exact startsUpper_iff.mpr ⟨b, rest.take k, hb, rfl⟩
  · have ⟨i, hi⟩ := List.mem_iff_getElem?.mp hb
    rw [List.getElem?_take] at hi
    split at hi
    case isFalse => contradiction
    case isTrue hlt' =>
      have hne : b ≠ q.separator := fun he => hn (he ▸ hb)
      exact ⟨hne, (not_stop_of_lt_reach (by omega) hi).resolve_left hne⟩

theorem begins_shape_iff (separator : UInt8) (hq : q.IsPlain) (ht : t.IsUtf8) :
    q.shape.Begins t ↔ (q.rejoin? separator t).isSome = true := by
  constructor
  case mp =>
    rintro ⟨w, hw, rest, rfl, -⟩
    obtain ⟨front, back, hf, hb, rfl⟩ := exists_of_mem_shape hu hw
    by_contra hn
    rw [Option.not_isSome_iff_eq_none] at hn
    have hm := not_mem_of_rejoin? (startsUpper_append (startsUpper_append hf.upper)) hn
    rw [List.append_assoc, List.cons_append, reach_append hf.plain,
      reach_separator (startsUpper_append hb), List.take_length_add_append] at hm
    simp at hm
  case mpr =>
    intro h
    have ⟨e, he⟩ := Option.isSome_iff_exists.mp h
    have ⟨hs, hlt, hstop, _⟩ := rejoin?_spec hq he
    have hf := admits_take_of_rejoin? hu hq he
    have ⟨b, rest, hb, hd⟩ := startsUpper_iff.mp (startsUpper_of_lt_reach (hstop ▸ hlt) hs)
    have hsplit : t = t.take e.start ++ q.separator :: b :: rest := by
      have ⟨hl, hx⟩ := List.getElem?_eq_some_iff.mp hs
      rw [← hd, ← hx, ← List.drop_eq_getElem_cons hl, List.take_append_drop]
    refine ⟨_, mem_shape hu hf (hu b hb), rest, by simpa using hsplit, ?_⟩
    rw [hsplit] at ht
    exact (ht.around hq.separator_ascii).right.tail (ascii_of_isUpper hb)

end QualifiedName

def Template.Component.head : Shape :=
  QualifiedName.dotted.shape + mark '('.toUInt8

theorem Template.Component.begins_head_iff {line : Text} (fragmentTag : Text) (hl : line.IsUtf8) :
    head.Begins line ↔ (edit? fragmentTag line).isSome = true := by
  rw [isSome_edit?_iff, ← QualifiedName.begins_shape_iff QualifiedName.dotted_admits ':'.toUInt8
    QualifiedName.dotted_isPlain hl]
  constructor
  case mp =>
    intro ⟨w, hw, rest, he, hr⟩
    cases hw
    case inl hw => exact .inr ⟨w, hw, rest, he, hr⟩
    case inr hw => exact .inl (by simp [he, mem_mark.mp hw])
  case mpr =>
    intro h
    cases h
    case inl h =>
      have ⟨rest, he⟩ := List.head?_eq_some_iff.mp h
      exact ⟨_, .inr (mem_mark.mpr rfl), rest, he, (he ▸ hl).tail (by decide)⟩
    case inr h =>
      have ⟨w, hw, rest, he, hr⟩ := h
      exact ⟨w, .inl hw, rest, he, hr⟩

namespace Markup.Tag

variable {t : Text}

def shape : Shape :=
  mark '<'.toUInt8 * ((1 + mark '/'.toUInt8) * QualifiedName.coloned.shape)

theorem begins_shape_cons : shape.Begins ('<'.toUInt8 :: t) ↔
    QualifiedName.coloned.shape.Begins (t.drop (nameOffset t)) := by
  simp only [shape, Begins, mem_mark_mul]
  simp only [Language.mem_mul, Language.mem_add, Language.mem_one, mem_mark]
  constructor
  case mp =>
    rintro ⟨-, ⟨-, ⟨a, ha, name, hn, rfl⟩, rfl⟩, rest, he, hr⟩
    obtain rfl : t = a ++ name ++ rest := by simpa using he
    refine ⟨name, hn, rest, ?_, hr⟩
    cases ha
    case inr ha => simp [ha, nameOffset]
    case inl ha =>
      obtain ⟨front, back, hf, -, rfl⟩ :=
        QualifiedName.exists_of_mem_shape QualifiedName.coloned_admits hn
      obtain ⟨b, front, hb, rfl⟩ := QualifiedName.startsUpper_iff.mp hf.upper
      have hb : b ≠ '/'.toUInt8 := by
        rintro rfl
        exact absurd hb (by decide)
      simp [ha, nameOffset, hb]
  case mpr =>
    rintro ⟨name, hn, rest, he, hr⟩
    refine ⟨_, ⟨_, ⟨t.take (nameOffset t), ?_, name, hn, rfl⟩, rfl⟩, rest, ?_, hr⟩
    · by_cases hs : t.head? = some '/'.toUInt8
      case neg => simp [nameOffset, hs]
      case pos =>
        obtain ⟨name', rfl⟩ := List.head?_eq_some_iff.mp hs
        simp [nameOffset]
    · rw [List.cons_append, List.append_assoc, ← he, List.take_append_drop]

theorem isUtf8_drop_nameOffset (ht : t.IsUtf8) : Text.IsUtf8 (t.drop (nameOffset t)) := by
  by_cases hs : t.head? = some '/'.toUInt8
  case neg => simpa [nameOffset, hs] using ht
  case pos =>
    obtain ⟨name, rfl⟩ := List.head?_eq_some_iff.mp hs
    simpa [nameOffset] using ht.tail (by decide)

theorem begins_shape_iff (ht : t.IsUtf8) : shape.Begins t ↔ (edit? t).isSome = true := by
  by_cases hb : t.head? = some '<'.toUInt8
  case pos =>
    obtain ⟨rest, rfl⟩ := List.head?_eq_some_iff.mp hb
    have hn := isUtf8_drop_nameOffset (ht.tail (by decide))
    rw [begins_shape_cons, edit?_eq, Option.isSome_map,
      QualifiedName.begins_shape_iff QualifiedName.coloned_admits '.'.toUInt8
        QualifiedName.coloned_isPlain hn]
  case neg =>
    refine iff_of_false ?_ fun h => ?_
    · rintro ⟨w, hw, rest, rfl, -⟩
      obtain ⟨v, -, rfl⟩ := mem_mark_mul.mp hw
      simp at hb
    · have ⟨e, he⟩ := Option.isSome_iff_exists.mp h
      exact hb (edit?_cases he).left

end Markup.Tag

end PugShorthand
