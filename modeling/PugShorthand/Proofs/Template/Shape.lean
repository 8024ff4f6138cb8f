import PugShorthand.Proofs.Template.Element
import PugShorthand.Proofs.Template.Statement
import PugShorthand.Proofs.Text.Shape

namespace PugShorthand.Template

open Text (Shape)
open Text.Shape
open scoped Computability

namespace Element

variable {t w : Text} {length : Nat}

def shape : Shape :=
  byte (fun b => isNameByte b && !Text.isDigit b) * ((byte isNameByte)∗ * mark '('.toUInt8)

theorem mem_shape : w ∈ shape ↔ ∃ name, w = name ++ ['('.toUInt8] ∧
    (∀ b ∈ name, isNameByte b = true) ∧ ∃ b ∈ name.head?, Text.isDigit b = false := by
  simp only [shape, mem_byte_mul]
  simp only [Language.mem_mul, mem_byte_kstar, mem_mark, Bool.and_eq_true, Bool.not_eq_true']
  constructor
  case mp =>
    rintro ⟨b, ⟨hb, hd⟩, -, ⟨name, hn, -, rfl, rfl⟩, rfl⟩
    exact ⟨b :: name, rfl, by simpa using ⟨hb, hn⟩, b, rfl, hd⟩
  case mpr =>
    rintro ⟨name, rfl, hn, b, hb, hd⟩
    obtain ⟨name, rfl⟩ := List.head?_eq_some_iff.mp hb
    have ⟨hb, hn⟩ := List.forall_mem_cons.mp hn
    exact ⟨b, ⟨hb, hd⟩, _, ⟨name, hn, _, rfl, rfl⟩, rfl⟩

theorem nameLength?_eq_some_iff_shape : nameLength? t = some length ↔
    ∃ w ∈ shape, ∃ rest, t = w ++ rest ∧ w.length - 1 = length := by
  rw [nameLength?_eq_some_iff]
  constructor
  case mp =>
    intro ⟨name, rest, ht, hn, hd, hl⟩
    exact ⟨_, mem_shape.mpr ⟨name, rfl, hn, hd⟩, rest, by simp [ht], by simp [hl]⟩
  case mpr =>
    intro ⟨w, hw, rest, ht, hl⟩
    have ⟨name, he, hn, hd⟩ := mem_shape.mp hw
    exact ⟨name, rest, by simp [ht, he], hn, hd, by simp [← hl, he]⟩

end Element

namespace Statement

variable {t inside : Text} {isSigil : UInt8 → Bool} {insides : Shape}

def isKindByte (b : UInt8) : Bool :=
  b != '}'.toUInt8 && !Text.isBlank b

def shape (isSigil : UInt8 → Bool) (insides : Shape) : Shape :=
  mark '{'.toUInt8 * (byte isSigil * (insides * mark '}'.toUInt8))

def openingShape : Shape :=
  shape (fun b => b == '#'.toUInt8 || b == '@'.toUInt8)
    (many (byte isKindByte) * (many (byte Text.isBlank) * many (byte (· != '}'.toUInt8))))

def kindIn (kinds : List Text) : Shape :=
  {kind | kind ∈ kinds ∧ kind ∈ many (byte isKindByte)}

def closingShape (kinds : List Text) : Shape :=
  shape (· == '/'.toUInt8) (kindIn kinds)

theorem begins_shape_iff (hs : ∀ b, isSigil b = true → b < 0x80) (ht : t.IsUtf8) :
    (shape isSigil insides).Begins t ↔ ∃ sigil inside rest,
      t = '{'.toUInt8 :: sigil :: (inside ++ '}'.toUInt8 :: rest) ∧ isSigil sigil = true ∧
        inside ∈ insides := by
  simp only [shape, Begins, mem_mark_mul, mem_byte_mul]
  simp only [Language.mem_mul, mem_mark]
  constructor
  case mp =>
    intro ⟨_, ⟨_, ⟨sigil, hsigil, _, ⟨inside, hi, _, hb, he⟩, he'⟩, he''⟩, rest, ht, _⟩
    subst hb he he' he''
    exact ⟨sigil, inside, rest, by simpa using ht, hsigil, hi⟩
  case mpr =>
    intro ⟨sigil, inside, rest, he, hsigil, hi⟩
    rw [he] at ht
    have hr := (((ht.tail (by decide)).tail (hs sigil hsigil)).around (by decide)).right
    exact ⟨_, ⟨_, ⟨sigil, hsigil, _, ⟨inside, hi, _, rfl, rfl⟩, rfl⟩, rfl⟩, rest, by simp [he], hr⟩

theorem ne_brace_of_isBlank {b : UInt8} (h : Text.isBlank b = true) : b ≠ '}'.toUInt8 := by
  intro hb
  exact absurd (hb ▸ h) (by decide)

theorem mem_insides_iff : inside ∈ many (byte isKindByte) *
      (many (byte Text.isBlank) * many (byte (· != '}'.toUInt8))) ↔
    '}'.toUInt8 ∉ inside ∧ (opening? inside).isSome = true := by
  simp only [Language.mem_mul, mem_many_byte, isKindByte, Bool.and_eq_true, bne_iff_ne,
    Bool.not_eq_true', isSome_opening?_iff]
  constructor
  case mp =>
    intro ⟨kind, ⟨hk, hkb⟩, _, ⟨gap, ⟨hg, hgb⟩, arguments, ⟨ha, hab⟩, hi'⟩, hi⟩
    subst hi' hi
    refine ⟨?_, ?_⟩
    · simp only [List.mem_append, not_or]
      exact ⟨fun hm => (hkb _ hm).left rfl, fun hm => ne_brace_of_isBlank (hgb _ hm) rfl,
        fun hm => hab _ hm rfl⟩
    · have ⟨b, gap', hb⟩ := List.exists_cons_of_ne_nil hg
      have ⟨c, arguments', hc⟩ := List.exists_cons_of_ne_nil
        (List.append_ne_nil_of_right_ne_nil gap' ha)
      exact ⟨kind, b, c, arguments', by rw [hb, List.cons_append, hc], hk,
        fun x hx => (hkb x hx).right, hgb b (by simp [hb])⟩
  case mpr =>
    intro ⟨hn, kind, b, c, arguments, hi, hne, hk, hb⟩
    subst hi
    have hx : ∀ x ∈ kind ++ b :: c :: arguments, x ≠ '}'.toUInt8 := fun x hx he => hn (he ▸ hx)
    refine ⟨kind, ⟨hne, fun x hm => ⟨hx x (by simp [hm]), hk x hm⟩⟩, b :: c :: arguments, ?_, rfl⟩
    exact ⟨[b], by simpa using hb, c :: arguments, ⟨by simp, fun x hm => hx x (by simp [hm])⟩, rfl⟩

theorem begins_openingShape_iff (ht : t.IsUtf8) : openingShape.Begins t ↔
    ∃ kind arguments n, read? t = some (opening kind arguments, n) := by
  have hs : ∀ b : UInt8, (b == '#'.toUInt8 || b == '@'.toUInt8) = true → b < 0x80 :=
    Text.forall_byte (by decide +kernel)
  rw [openingShape, begins_shape_iff hs ht]
  simp only [read?_eq_some_iff, mem_insides_iff, Bool.or_eq_true, beq_iff_eq]
  constructor
  case mp =>
    intro ⟨sigil, inside, rest, he, hsigil, hn, ho⟩
    have ⟨s, hs⟩ := Option.isSome_iff_exists.mp ho
    have ⟨kind, arguments, hk⟩ := exists_of_opening? hs
    exact ⟨kind, arguments, _, sigil, inside, rest, he, hn, rfl, .inl ⟨hsigil, hk ▸ hs⟩⟩
  case mpr =>
    intro ⟨kind, arguments, n, sigil, inside, rest, he, hn, _, h⟩
    cases h
    case inl h => exact ⟨sigil, inside, rest, he, h.left, hn, by simp [h.right]⟩
    case inr h => simp [closing?_eq_some_iff] at h

theorem begins_closingShape_iff {kinds : List Text} (ht : t.IsUtf8) :
    (closingShape kinds).Begins t ↔ ∃ kind ∈ kinds, ∃ n, read? t = some (closing kind, n) := by
  have hs : ∀ b : UInt8, (b == '/'.toUInt8) = true → b < 0x80 :=
    Text.forall_byte (by decide +kernel)
  rw [closingShape, begins_shape_iff hs ht]
  simp only [read?_eq_some_iff, beq_iff_eq]
  constructor
  case mp =>
    intro ⟨sigil, inside, rest, he, hsigil, hk, hm⟩
    have ⟨hne, hb⟩ := mem_many_byte.mp hm
    simp only [isKindByte, Bool.and_eq_true, bne_iff_ne, Bool.not_eq_true'] at hb
    have hc : closing? inside = some (closing inside) :=
      closing?_eq_some_iff.mpr ⟨⟨hne, fun b hx => (hb b hx).right⟩, rfl⟩
    exact ⟨inside, hk, _, sigil, inside, rest, he, fun hx => (hb _ hx).left rfl, rfl,
      .inr ⟨hsigil, hc⟩⟩
  case mpr =>
    intro ⟨kind, hk, n, sigil, inside, rest, he, hn, _, h⟩
    cases h
    case inl h =>
      have ⟨_, _, hs⟩ := exists_of_opening? h.right
      cases hs
    case inr h =>
      have ⟨⟨hne, hb⟩, hc⟩ := closing?_eq_some_iff.mp h.right
      cases hc
      refine ⟨sigil, kind, rest, he, h.left, hk, mem_many_byte.mpr ⟨hne, fun b hx => ?_⟩⟩
      have hx' : b ≠ '}'.toUInt8 := fun he => hn (he ▸ hx)
      simp [isKindByte, hb b hx, hx']

theorem forall_not_isExpanded_iff {kinds : List Text} (ht : t.IsUtf8) :
    (∀ x ∈ read? t, x.1.isExpanded kinds.contains = false) ↔
      ¬openingShape.Begins t ∧ ¬(closingShape kinds).Begins t := by
  rw [begins_openingShape_iff ht, begins_closingShape_iff ht]
  constructor
  case mp =>
    intro h
    refine ⟨fun ⟨kind, arguments, n, hx⟩ => ?_, fun ⟨kind, hk, n, hx⟩ => ?_⟩
    · simpa [isExpanded] using h _ hx
    · simpa [isExpanded, hk] using h _ hx
  case mpr =>
    intro ⟨ho, hc⟩ ⟨s, n⟩ hx
    cases s
    case opening kind arguments => exact absurd ⟨kind, arguments, n, hx⟩ ho
    case closing kind =>
      refine Bool.eq_false_iff.mpr fun hk => hc ⟨kind, ?_, n, hx⟩
      exact List.contains_iff_mem.mp hk

end Statement

end PugShorthand.Template
