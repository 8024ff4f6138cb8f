import PugShorthand.Proofs.Text.Boundary
import PugShorthand.Text.WhiteSpace

namespace PugShorthand.Text.WhiteSpace

variable {t rest : Text} {c : Char} {white : List Char}

def isWhite (c : Char) : Bool :=
  codePoints.contains c.toNat

def spelled (white : List Char) : Text :=
  white.flatMap String.utf8EncodeChar

theorem isWhite_iff : isWhite c = true ↔ c.toNat ∈ codePoints :=
  List.contains_iff_mem

theorem mem_encodings_of_isWhite (h : isWhite c = true) : String.utf8EncodeChar c ∈ encodings :=
  List.mem_map.mpr ⟨c.toNat, isWhite_iff.mp h, by rw [Char.ofNat_toNat]⟩

theorem exists_of_mem_encodings (h : t ∈ encodings) :
    ∃ c, isWhite c = true ∧ t = String.utf8EncodeChar c := by
  have hv : ∀ n ∈ codePoints, (Char.ofNat n).toNat = n := by decide
  have ⟨n, hn, ht⟩ := List.mem_map.mp h
  exact ⟨Char.ofNat n, isWhite_iff.mpr (by rwa [hv n hn]), ht.symm⟩

theorem exists_of_width {n : Nat} (h : width t = n + 1) :
    ∃ c rest, isWhite c = true ∧ t = String.utf8EncodeChar c ++ rest ∧
      n + 1 = (String.utf8EncodeChar c).length := by
  rw [width] at h
  cases he : encodings.find? (·.isPrefixOf t) <;> simp only [he, Option.elim] at h
  case none => contradiction
  case some e =>
    have ⟨c, hw, hc⟩ := exists_of_mem_encodings (List.mem_of_find?_eq_some he)
    have hp := List.find?_some (p := fun e : Text => e.isPrefixOf t) he
    have ⟨rest, hr⟩ := List.isPrefixOf_iff_prefix.mp hp
    exact ⟨c, rest, hw, by rw [← hc, hr], by rw [← hc, h]⟩

theorem width_ne_zero (h : isWhite c = true) : width (String.utf8EncodeChar c ++ rest) ≠ 0 := by
  have hm := mem_encodings_of_isWhite h
  rw [width]
  cases he : encodings.find? (·.isPrefixOf (String.utf8EncodeChar c ++ rest))
  case none =>
    have hn := List.find?_eq_none.mp he _ hm
    simp at hn
  case some e =>
    have ⟨d, _, hd⟩ := exists_of_mem_encodings (List.mem_of_find?_eq_some he)
    have ⟨lead, tail, hl, _⟩ := encode_isCharacter d
    simp [hd, hl]

theorem width_nil : width [] = 0 := by
  decide +kernel

theorem width_brace : width ('{'.toUInt8 :: rest) = 0 := by
  have hb : ∀ e ∈ encodings, ∃ b ∈ e.head?, b ≠ '{'.toUInt8 := by decide +kernel
  have hn : encodings.find? (·.isPrefixOf ('{'.toUInt8 :: rest)) = none := by
    refine List.find?_eq_none.mpr fun e he hp => ?_
    have ⟨b, hm, hne⟩ := hb e he
    have ⟨tail, ht⟩ := List.head?_eq_some_iff.mp hm
    rw [ht, List.isPrefixOf_iff_prefix, List.cons_prefix_cons] at hp
    exact hne hp.left
  rw [width, hn]
  rfl

theorem exists_spelled_go {skip : Nat} :
    ∃ white rest, (∀ c ∈ white, isWhite c = true) ∧ t.drop skip = spelled white ++ rest ∧
      width rest = 0 ∧ leading.go skip t = (spelled white).length := by
  -- By induction on the text: `skip` bytes are the rest of a character that is white space.
  induction t generalizing skip
  case nil => exact ⟨[], [], by simp, by simp [spelled], width_nil, rfl⟩
  case cons b t hi =>
    cases skip
    case succ skip => exact @hi skip
    case zero =>
      rw [leading.go]
      split
      case h_1 hw => exact ⟨[], b :: t, by simp, by simp [spelled], hw, rfl⟩
      case h_2 n hw =>
        have ⟨c, rest, hc, ht, hn⟩ := exists_of_width hw
        have ⟨white, rest', hwhite, hd, hr, hl⟩ := @hi n
        have hrest : t.drop n = rest := by
          have h := congrArg (List.drop (n + 1)) ht
          rwa [hn, List.drop_left, ← hn, List.drop_succ_cons] at h
        refine ⟨c :: white, rest', by simpa [hc] using hwhite, ?_, hr, ?_⟩
        · rw [List.drop_zero, ht, ← hrest, hd]
          simp [spelled]
        · rw [hl, hn]
          simp [spelled]

theorem exists_spelled (t : Text) :
    ∃ white rest, (∀ c ∈ white, isWhite c = true) ∧ t = spelled white ++ rest ∧ width rest = 0 ∧
      leading t = (spelled white).length :=
  @exists_spelled_go t 0

theorem spelled_append_inj {white' : List Char} {rest' : Text}
    (h : spelled white ++ rest = spelled white' ++ rest') (hw : ∀ c ∈ white, isWhite c = true)
    (hw' : ∀ c ∈ white', isWhite c = true) (hr : width rest = 0) (hr' : width rest' = 0) :
    white = white' := by
  induction white generalizing white'
  case nil =>
    cases white'
    case nil => rfl
    case cons c white' =>
      simp only [spelled, List.flatMap_nil, List.nil_append, List.flatMap_cons,
        List.append_assoc] at h
      exact absurd (h ▸ hr) (width_ne_zero (hw' c (by simp)))
  case cons c white hi =>
    simp only [spelled, List.flatMap_cons, List.append_assoc] at h
    cases white'
    case nil =>
      rw [List.flatMap_nil, List.nil_append] at h
      exact absurd (h ▸ hr') (width_ne_zero (hw c (by simp)))
    case cons c' white' =>
      simp only [List.flatMap_cons, List.append_assoc] at h
      have ⟨hc, h⟩ := encode_append_inj h
      rw [hc, hi h (fun d hd => hw d (by simp [hd])) fun d hd => hw' d (by simp [hd])]

theorem leading_spelled (hw : ∀ c ∈ white, isWhite c = true) (hr : width rest = 0) :
    leading (spelled white ++ rest) = (spelled white).length := by
  have ⟨white', rest', hw', ht, hr', hl⟩ := exists_spelled (spelled white ++ rest)
  rw [hl, spelled_append_inj ht hw hw' hr hr']

theorem isUtf8_of_spelled_append (h : IsUtf8 (spelled white ++ rest)) : rest.IsUtf8 := by
  induction white
  case nil => exact h
  case cons c white hi =>
    simp only [spelled, List.flatMap_cons, List.append_assoc] at h
    exact hi h.of_char

theorem isBoundary_leading (h : t.IsUtf8) : t.isBoundary (leading t) = true := by
  obtain ⟨white, rest, _, rfl, _, hl⟩ := exists_spelled t
  rw [hl]
  exact isBoundary_append (isUtf8_of_spelled_append h)

end PugShorthand.Text.WhiteSpace
