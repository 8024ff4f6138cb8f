import PugShorthand.Text.Basic

namespace PugShorthand.Text

variable {quote : UInt8} {t : Text}

@[simp]
theorem getLast?_escape : (escape quote t).getLast? = t.getLast? := by
  rcases List.eq_nil_or_concat t with rfl | ⟨t, b, rfl⟩
  · rfl
  · simp only [escape, List.concat_eq_append, List.flatMap_append, List.flatMap_cons,
      List.flatMap_nil, List.append_nil, List.getLast?_concat]
    split <;> simp

def unescape (quote : UInt8) : Text → Text
  | [] => []
  | b :: rest =>
    if b = '\\'.toUInt8 ∧ rest.head? = some quote then unescape quote rest
    else b :: unescape quote rest

theorem head?_escape_ne (hq : quote ≠ '\\'.toUInt8) : (escape quote t).head? ≠ some quote := by
  cases t
  case nil => simp [escape]
  case cons b t =>
    by_cases hb : b = quote
    case pos => simp [escape, hb, hq.symm]
    case neg => simp [escape, hb]

-- Every backslash in front of a quote is one that escaping has put there.
theorem unescape_escape (hq : quote ≠ '\\'.toUInt8) : unescape quote (escape quote t) = t := by
  induction t
  case nil => rfl
  case cons b t hi =>
    by_cases hb : b = quote
    case pos =>
      have he : escape quote (b :: t) = '\\'.toUInt8 :: quote :: escape quote t := by
        simp [escape, hb]
      rw [he, unescape, if_pos ⟨rfl, rfl⟩, unescape, if_neg fun h => hq h.left, hi, hb]
    case neg =>
      have he : escape quote (b :: t) = b :: escape quote t := by simp [escape, hb]
      rw [he, unescape, if_neg fun h => head?_escape_ne hq h.right, hi]

end PugShorthand.Text
