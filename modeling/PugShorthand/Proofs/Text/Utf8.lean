import PugShorthand.Text.Basic
import Mathlib.Data.List.Basic
import Mathlib.Data.List.TakeWhile

namespace PugShorthand.Text

theorem forall_byte {p : UInt8 → Prop} (h : ∀ n : BitVec 8, p ⟨n⟩) (b : UInt8) : p b :=
  h b.toBitVec

theorem not_continuation_of_ascii {b : UInt8} : b < 0x80 → isContinuation b = false :=
  forall_byte (p := fun b => b < 0x80 → isContinuation b = false) (by decide +kernel) b

theorem ascii_of_all {t : Text} (h : t.all (· < 0x80) = true) : ∀ b ∈ t, b < 0x80 := by
  simpa using h

theorem isContinuation_or (b : UInt8) : isContinuation (b &&& 0x3f ||| 0x80) = true :=
  forall_byte (p := fun b => isContinuation (b &&& 0x3f ||| 0x80) = true) (by decide +kernel) b

-- How the bytes of one character look: a first byte that is no continuation, and behind it
-- continuations only, of which an ASCII character has none.
structure IsCharacter (lead : UInt8) (tail : Text) : Prop where
  lead_first : isContinuation lead = false
  tail_continues : ∀ b ∈ tail, isContinuation b = true
  ascii_alone : lead < 0x80 → tail = []

theorem long_lead {high : UInt8} (b : UInt8) (h : high ||| 0xc0 = high) :
    isContinuation (b ||| high) = false ∧ ¬b ||| high < 0x80 := by
  rw [← h, ← UInt8.or_assoc]
  exact forall_byte (p := fun b => isContinuation (b ||| 0xc0) = false ∧ ¬b ||| 0xc0 < 0x80)
    (by decide +kernel) _

theorem IsCharacter.of_long_lead {high b : UInt8} {tail : Text} (h : high ||| 0xc0 = high)
    (ht : ∀ b ∈ tail, isContinuation b = true) : IsCharacter (b ||| high) tail where
  lead_first := (long_lead b h).left
  tail_continues := ht
  ascii_alone hb := absurd hb (long_lead b h).right

theorem ascii_of_utf8Size_one {c : Char} (h : c.utf8Size = 1) : c.val.toUInt8 < 0x80 := by
  have hc := Char.utf8Size_eq_one_iff.mp h
  simp only [UInt32.le_iff_toNat_le, UInt32.reduceToNat] at hc
  simp only [UInt8.lt_iff_toNat_lt, UInt32.toNat_toUInt8, UInt8.reduceToNat]
  omega

theorem encode_isCharacter (c : Char) :
    ∃ lead tail, String.utf8EncodeChar c = lead :: tail ∧ IsCharacter lead tail := by
  rcases c.utf8Size_eq with h | h | h | h
  · refine ⟨_, _, String.utf8EncodeChar_eq_singleton h, ?_⟩
    exact ⟨not_continuation_of_ascii (ascii_of_utf8Size_one h), by simp, fun _ => rfl⟩
  · refine ⟨_, _, String.utf8EncodeChar_eq_cons_cons h, .of_long_lead (by decide) ?_⟩
    simp [isContinuation_or]
  · refine ⟨_, _, String.utf8EncodeChar_eq_cons_cons_cons h, .of_long_lead (by decide) ?_⟩
    simp [isContinuation_or]
  · refine ⟨_, _, String.utf8EncodeChar_eq_cons_cons_cons_cons h, .of_long_lead (by decide) ?_⟩
    simp [isContinuation_or]

theorem exists_char_of_ascii {b : UInt8} (h : b < 0x80) : ∃ c, String.utf8EncodeChar c = [b] := by
  have hb : b.toNat < 128 := by simpa [UInt8.lt_iff_toNat_lt] using h
  have hv : Nat.isValidChar b.toNat := .inl (by omega)
  have hn : (Char.ofNat b.toNat).val.toNat = b.toNat := by
    rw [Char.ofNat, dif_pos hv]
    rfl
  refine ⟨Char.ofNat b.toNat, ?_⟩
  have hs : (Char.ofNat b.toNat).utf8Size = 1 := by
    simp only [Char.utf8Size_eq_one_iff, UInt32.le_iff_toNat_le, hn, UInt32.reduceToNat]
    omega
  have hc : (Char.ofNat b.toNat).val.toUInt8 = b := by
    rw [← UInt8.toNat_inj, UInt32.toNat_toUInt8, hn]
    omega
  rw [String.utf8EncodeChar_eq_singleton hs, hc]

theorem encode_append_inj {c d : Char} {a b : Text}
    (h : String.utf8EncodeChar c ++ a = String.utf8EncodeChar d ++ b) : c = d ∧ a = b := by
  have hd := congrArg (fun l => (List.toByteArray l).utf8DecodeChar? 0) h
  simp only [List.toByteArray_append, ByteArray.utf8DecodeChar?_utf8EncodeChar_append,
    Option.some.injEq] at hd
  subst hd
  exact ⟨rfl, List.append_cancel_left h⟩

inductive IsUtf8 : Text → Prop
  | nil : IsUtf8 []
  | char (c : Char) {rest : Text} (h : IsUtf8 rest) : IsUtf8 (String.utf8EncodeChar c ++ rest)

theorem isUtf8_iff {t : Text} : t.IsUtf8 ↔ ∃ s, ofString s = t := by
  constructor
  case mp =>
    intro h
    induction h
    case nil => exact ⟨"", rfl⟩
    case char c rest _ hi =>
      have ⟨s, hs⟩ := hi
      exists String.ofList (c :: s.toList)
      simp [ofString, ← hs]
  case mpr =>
    rintro ⟨s, rfl⟩
    unfold ofString
    induction s.toList
    case nil => exact .nil
    case cons c _ hi => exact .char c hi

@[simp]
theorem isUtf8_ofString (s : String) : (ofString s).IsUtf8 :=
  isUtf8_iff.mpr ⟨s, rfl⟩

namespace IsUtf8

variable {a b t : Text} {x : UInt8}

theorem append (ha : a.IsUtf8) (hb : b.IsUtf8) : (a ++ b).IsUtf8 := by
  induction ha
  case nil           => exact hb
  case char c _ _ hi => exact List.append_assoc .. ▸ .char c hi

theorem cons (hx : x < 0x80) (ht : t.IsUtf8) : IsUtf8 (x :: t) := by
  have ⟨c, hc⟩ := exists_char_of_ascii hx
  have h := IsUtf8.char c ht
  rwa [hc] at h

theorem of_ascii (h : ∀ x ∈ t, x < 0x80) : t.IsUtf8 := by
  induction t
  case nil       => exact .nil
  case cons _ hi => exact cons (h _ (by simp)) (hi fun _ hx => h _ (by simp [hx]))

theorem flatten {ts : List Text} (h : ∀ t ∈ ts, t.IsUtf8) : IsUtf8 ts.flatten := by
  induction ts
  case nil       => exact .nil
  case cons _ hi => exact (h _ (by simp)).append (hi fun _ ht => h _ (by simp [ht]))

theorem intercalate {ts : List Text} (ha : a.IsUtf8) (h : ∀ t ∈ ts, t.IsUtf8) :
    IsUtf8 (List.intercalate a ts) := by
  induction ts
  case nil => exact .nil
  case cons t ts hi =>
    have hi := hi fun t ht => h t (by simp [ht])
    cases ts
    case nil => simpa using h t
    case cons =>
      rw [List.intercalate_cons_cons]
      exact ((h t (by simp)).append ha).append hi

theorem head (h : IsUtf8 (x :: t)) : isContinuation x = false := by
  generalize hs : x :: t = s at h
  cases h
  case nil => contradiction
  case char c _ _ =>
    have ⟨lead, tail, hc, hl⟩ := encode_isCharacter c
    simp only [hc, List.cons_append, List.cons.injEq] at hs
    exact hs.left ▸ hl.lead_first

theorem tail (h : IsUtf8 (x :: t)) (hx : x < 0x80) : t.IsUtf8 := by
  generalize hs : x :: t = s at h
  cases h
  case nil => contradiction
  case char c rest hr =>
    have ⟨lead, tail, hc, hl⟩ := encode_isCharacter c
    simp only [hc, List.cons_append, List.cons.injEq] at hs
    have ht := hl.ascii_alone (hs.left ▸ hx)
    simp only [ht, List.nil_append] at hs
    exact hs.right ▸ hr

theorem of_char {c : Char} (h : IsUtf8 (String.utf8EncodeChar c ++ t)) : t.IsUtf8 := by
  generalize hs : String.utf8EncodeChar c ++ t = s at h
  cases h
  case nil =>
    have ⟨_, _, hc, _⟩ := encode_isCharacter c
    simp [hc] at hs
  case char d rest hr => exact (encode_append_inj hs).right ▸ hr

theorem split (h : IsUtf8 (a ++ b)) (hb : ∀ x ∈ b.head?, isContinuation x = false) :
    a.IsUtf8 ∧ b.IsUtf8 := by
  generalize hs : a ++ b = s at h
  induction h generalizing a
  case nil =>
    have ⟨ha, hb⟩ := List.append_eq_nil_iff.mp hs
    exact ⟨ha ▸ .nil, hb ▸ .nil⟩
  case char c rest hr hi =>
    have ⟨lead, tail, hc, hl⟩ := encode_isCharacter c
    rcases List.append_eq_append_iff.mp hs with ⟨m, hm, rfl⟩ | ⟨m, rfl, hm⟩
    case inr =>
      have ⟨h₁, h₂⟩ := hi hm.symm
      exact ⟨.char c h₁, h₂⟩
    case inl =>
      -- The cut falls into the character, so it falls on one of its ends.
      cases a
      case nil => exact ⟨.nil, (List.nil_append m ▸ hm) ▸ .char c hr⟩
      case cons x a =>
        cases m
        case nil =>
          simp only [List.append_nil] at hm
          have ha := IsUtf8.char c .nil
          rw [List.append_nil, hm] at ha
          exact ⟨ha, hr⟩
        case cons y m =>
          have hy : y ∈ tail := by
            have := hc.symm.trans hm
            simp only [List.cons_append, List.cons.injEq] at this
            simp [this.right]
          have := hb y rfl
          simp [hl.tail_continues y hy] at this

theorem around (h : IsUtf8 (a ++ x :: b)) (hx : x < 0x80) : a.IsUtf8 ∧ b.IsUtf8 := by
  have ⟨ha, hb⟩ := h.split (by simpa using not_continuation_of_ascii hx)
  exact ⟨ha, hb.tail hx⟩

theorem of_ascii_append (h : IsUtf8 (a ++ b)) (ha : ∀ x ∈ a, x < 0x80) : b.IsUtf8 := by
  induction a
  case nil       => exact h
  case cons _ hi => exact hi (h.tail (ha _ (by simp))) fun _ hx => ha _ (by simp [hx])

theorem span (h : t.IsUtf8) {p : UInt8 → Bool} (hp : ∀ x, p x = false → x < 0x80) :
    IsUtf8 (t.takeWhile p) ∧ IsUtf8 (t.dropWhile p) := by
  apply split (by rwa [List.takeWhile_append_dropWhile])
  intro x hx
  have hx' := List.head?_dropWhile_not p t
  simp only [Option.mem_def] at hx
  rw [hx] at hx'
  exact not_continuation_of_ascii (hp x (by simpa using hx'))

theorem span_ascii (h : t.IsUtf8) {p : UInt8 → Bool} (hp : ∀ x, p x = true → x < 0x80) :
    IsUtf8 (t.takeWhile p) ∧ IsUtf8 (t.dropWhile p) := by
  have ha : ∀ x ∈ t.takeWhile p, x < 0x80 := fun x hx => hp x (List.mem_takeWhile_imp hx)
  exact ⟨of_ascii ha, of_ascii_append (by rwa [List.takeWhile_append_dropWhile]) ha⟩

end IsUtf8

end PugShorthand.Text
