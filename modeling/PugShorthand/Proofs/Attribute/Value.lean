import PugShorthand.Attribute.Value
import PugShorthand.Proofs.Nesting

namespace PugShorthand.Attribute

namespace Delimiter

variable {d : Delimiter} {opening closing : UInt8}

theorem ascii_of_closing? (h : d.closing? = some closing) : closing < 0x80 := by
  cases d <;> simp only [closing?, Option.some.injEq, reduceCtorEq] at h <;> subst h <;> decide

theorem plain_of_closing? (h : d.closing? = some closing) :
    closing ≠ '!'.toUInt8 ∧ closing ≠ '\\'.toUInt8 ∧ Text.isBlank closing = false := by
  cases d <;> simp only [closing?, Option.some.injEq, reduceCtorEq] at h <;> subst h <;> decide

theorem closing?_eq_none_iff : d.closing? = none ↔ d = .bare := by
  cases d <;> simp [closing?]

theorem ofOpening_cases (h : (ofOpening opening).closing? = some closing) :
    opening = '\''.toUInt8 ∧ closing = '\''.toUInt8 ∨ opening = '"'.toUInt8 ∧ closing = '"'.toUInt8 ∨
      opening = '`'.toUInt8 ∧ closing = '`'.toUInt8 ∨ opening = '{'.toUInt8 ∧ closing = '}'.toUInt8 ∨
      opening = '['.toUInt8 ∧ closing = ']'.toUInt8 := by
  unfold ofOpening at h
  repeat' split at h
  all_goals simp_all [closing?]

theorem ascii_of_ofOpening (h : (ofOpening opening).closing? = some closing) : opening < 0x80 := by
  rcases ofOpening_cases h with ⟨rfl, _⟩ | ⟨rfl, _⟩ | ⟨rfl, _⟩ | ⟨rfl, _⟩ | ⟨rfl, _⟩ <;> decide

theorem not_isBlank_of_ofOpening (h : (ofOpening opening).closing? = some closing) :
    Text.isBlank opening = false := by
  rcases ofOpening_cases h with ⟨rfl, _⟩ | ⟨rfl, _⟩ | ⟨rfl, _⟩ | ⟨rfl, _⟩ | ⟨rfl, _⟩ <;> decide

end Delimiter

-- What stands for the whole value in front of `rest`: a region that is closed at its end, or a
-- run without blanks that goes on as far as it can.
inductive Value.EndsBefore : Value → Text → Prop
  | delimited {opening closing : UInt8} {region rest : Text}
    (hd : (Delimiter.ofOpening opening).closing? = some closing)
    (c : Nesting.Closes opening closing 0 opening region) :
    EndsBefore ⟨opening :: region, .ofOpening opening⟩ rest
  | bare {raw rest : Text} (hd : Delimiter.ofOpening (raw.headD 0) = .bare) (hn : raw ≠ [])
    (hb : ∀ b ∈ raw, Text.isBlank b = false) (hr : ∀ b ∈ rest.head?, Text.isBlank b = true) :
    EndsBefore ⟨raw, .bare⟩ rest

theorem Value.inner_delimited {opening closing : UInt8} {body : Text}
    (hd : (Delimiter.ofOpening opening).closing? = some closing)
    (hv : Text.IsUtf8 (opening :: (body ++ [closing]))) :
    Value.inner ⟨opening :: (body ++ [closing]), .ofOpening opening⟩ = .ok body ∧ body.IsUtf8 := by
  have hb : Delimiter.ofOpening opening ≠ .bare := by
    intro h
    simp [h, Delimiter.closing?] at hd
  have ho := Delimiter.ascii_of_ofOpening hd
  have hc := Delimiter.ascii_of_closing? hd
  have hbody := ((hv.tail ho).around hc).left
  have hs := Text.slice_append (a := [opening]) hbody (.cons hc .nil)
  refine ⟨?_, hbody⟩
  rw [Value.inner, if_neg (by simp [hb])]
  simpa [Nat.add_comm] using hs

namespace Value.EndsBefore

variable {v : Value} {rest : Text}

theorem ofOpening_eq (h : v.EndsBefore rest) :
    Delimiter.ofOpening (v.raw.headD 0) = v.delimiter := by
  cases h
  case delimited         => rfl
  case bare raw hd _ _ _ => exact hd

theorem isUtf8 (h : v.EndsBefore rest) (ht : Text.IsUtf8 (v.raw ++ rest)) :
    v.raw.IsUtf8 ∧ rest.IsUtf8 := by
  cases h
  case delimited opening closing region hd c =>
    have ho := Delimiter.ascii_of_ofOpening hd
    have ⟨h₁, h₂⟩ := c.isUtf8 (Delimiter.ascii_of_closing? hd) (ht.tail ho)
    exact ⟨.cons ho h₁, h₂⟩
  case bare hr =>
    exact ht.split fun b hb => Text.not_continuation_of_ascii (Text.ascii_of_isBlank (hr b hb))

theorem of_isBlank (h : v.EndsBefore rest) {rest' : Text}
    (hr : ∀ b ∈ rest'.head?, Text.isBlank b = true) : v.EndsBefore rest' := by
  cases h
  case delimited hd c  => exact .delimited hd c
  case bare hd hn hb _ => exact .bare hd hn hb hr

theorem exists_inner (h : v.EndsBefore rest) (hv : v.raw.IsUtf8) :
    ∃ inner, v.inner = .ok inner ∧ inner.IsUtf8 := by
  cases h
  case bare raw _ _ _ _ => exact ⟨raw, by simp [Value.inner], hv⟩
  case delimited opening closing region hd c =>
    obtain ⟨body, rfl⟩ := c.exists_concat
    exact ⟨body, inner_delimited hd hv⟩

end Value.EndsBefore

namespace Assignment

variable {t name rest : Text} {pos start equals : Nat} {v : Value}

def IsName (name : Text) : Prop :=
  ∀ b ∈ name, b ≠ '='.toUInt8 ∧ Text.isBlank b = false

theorem IsName.of_cons {b : UInt8} (h : IsName (b :: name)) : IsName name :=
  fun _ hb => h _ (by simp [hb])

theorem equals?_append (h : IsName name) :
    equals? pos (name ++ '='.toUInt8 :: rest) = some (pos + name.length) := by
  induction name generalizing pos
  case nil => simp [equals?]
  case cons b name hi =>
    have ⟨he, hb⟩ := h b (by simp)
    simp only [List.cons_append, equals?, if_neg he, hb, Bool.false_eq_true, if_false,
      hi h.of_cons, List.length_cons]
    congr 1
    omega

theorem equals?_eq_none (h : IsName name) (hr : ∀ b ∈ rest.head?, Text.isBlank b = true) :
    equals? pos (name ++ rest) = none := by
  induction name generalizing pos
  case nil =>
    cases rest
    case nil => rfl
    case cons b rest =>
      have hb := hr b rfl
      have he : b ≠ '='.toUInt8 := by rintro rfl; exact absurd hb (by decide)
      simp [equals?, hb, he]
  case cons b name hi =>
    have ⟨he, hb⟩ := h b (by simp)
    simp only [List.cons_append, equals?, if_neg he, hb, Bool.false_eq_true, if_false,
      hi h.of_cons]

theorem exists_name (h : equals? pos t = some equals) :
    ∃ name rest, t = name ++ '='.toUInt8 :: rest ∧ equals = pos + name.length ∧ IsName name := by
  induction t generalizing pos
  case nil => simp [equals?] at h
  case cons b t hi =>
    rw [equals?] at h
    split at h
    case isTrue hb =>
      exact ⟨[], t, by simp [hb], by simpa using h.symm, by simp [IsName]⟩
    case isFalse hb =>
      split at h
      case isTrue => contradiction
      case isFalse hs =>
        have ⟨name, rest, ht, he, hn⟩ := hi h
        refine ⟨b :: name, rest, by simp [ht], by simp [he]; omega, ?_⟩
        simpa [IsName, hb, hs] using hn

theorem value_eq (ht : t.drop start = v.raw ++ rest) (h : v.EndsBefore rest) :
    value t start = .ok (some (⟨start, start + v.raw.length⟩, v.delimiter)) := by
  cases h
  case delimited opening closing region hd c =>
    simp only [List.cons_append] at ht
    simp only [value, ht, List.headD_cons, hd, Nesting.find_eq ht, c.stop?_eq, List.length_cons]
    simp [bind, Except.bind, pure, Except.pure]
    omega
  case bare raw hd hn hb hr =>
    have hr : Text.run (!Text.isBlank ·) (raw ++ rest) = raw.length :=
      Text.run_append (by simpa using hb) (by simpa using hr)
    have hh : (raw ++ rest).headD 0 = raw.headD 0 := by
      cases raw
      case nil  => contradiction
      case cons => rfl
    simp only [value, ht, hh, hd, Delimiter.closing?, hr]
    split
    case h_1 h => simp [hn] at h
    case h_2   => rfl

theorem exists_value (t : Text) (start : Nat) :
    value t start = .ok none ∨
      ∃ (v : Value) (rest : Text), t.drop start = v.raw ++ rest ∧ v.EndsBefore rest := by
  cases ht : t.drop start
  case nil => exact .inl (by simp only [value, ht]; rfl)
  case cons b s =>
    cases hd : (Delimiter.ofOpening b).closing?
    case some closing =>
      cases hs : Nesting.stop? b closing 0 (start + 1) b s
      case none =>
        left
        simp [value, ht, hd, Nesting.find_eq ht, hs, bind, Except.bind, pure, Except.pure]
      case some stop =>
        have ⟨region, rest, hr, _, c⟩ := Nesting.exists_closes hs
        exact .inr ⟨⟨b :: region, .ofOpening b⟩, rest, by simp [hr], .delimited hd c⟩
    case none =>
      by_cases hb : Text.isBlank b = true
      case pos => exact .inl (by simp [value, ht, hd, Text.run, hb])
      case neg =>
        have hw := List.takeWhile_append_dropWhile (p := (!Text.isBlank ·)) (l := s)
        refine .inr ⟨⟨b :: s.takeWhile (!Text.isBlank ·), .bare⟩, s.dropWhile (!Text.isBlank ·),
          by simp [hw], ?_⟩
        refine .bare (Delimiter.closing?_eq_none_iff.mp hd) (by simp) ?_ fun x hx => ?_
        · simp only [List.mem_cons, forall_eq_or_imp]
          exact ⟨by simpa using hb, fun x hx => by simpa using List.mem_takeWhile_imp hx⟩
        · rw [← Text.drop_run] at hx
          simpa using Text.head?_drop_run x hx

def ofParts (t : Text) (pos : Nat) (name : Text) (v : Value) : Assignment where
  span := ⟨pos + name.length + 1, pos + name.length + 1 + v.raw.length⟩
  delimiter := v.delimiter
  verbatim := 0 < pos + name.length ∧ t[pos + name.length - 1]? = some '!'.toUInt8

theorem drop_value (ht : t.drop pos = name ++ '='.toUInt8 :: rest) :
    t.drop (pos + name.length + 1) = rest := by
  rw [Nat.add_assoc, ← List.drop_drop, ht]
  simp

theorem find_eq (ht : t.drop pos = name ++ '='.toUInt8 :: (v.raw ++ rest)) (hn : IsName name)
    (h : v.EndsBefore rest) : find t pos = .ok (some (ofParts t pos name v)) := by
  rw [find, ht, equals?_append hn]
  simp [value_eq (drop_value ht) h, ofParts, bind, Except.bind, pure, Except.pure]

theorem find_eq_none (ht : t.drop pos = name ++ rest) (hn : IsName name)
    (hr : ∀ b ∈ rest.head?, Text.isBlank b = true) : find t pos = .ok none := by
  rw [find, ht, equals?_eq_none hn hr]

theorem exists_parts (t : Text) (pos : Nat) :
    find t pos = .ok none ∨ ∃ (name : Text) (v : Value) (rest : Text),
      t.drop pos = name ++ '='.toUInt8 :: (v.raw ++ rest) ∧ IsName name ∧ v.EndsBefore rest := by
  cases he : equals? pos (t.drop pos)
  case none => exact .inl (by rw [find, he])
  case some equals =>
    have ⟨name, rest, ht, hl, hn⟩ := exists_name he
    rcases exists_value t (pos + name.length + 1) with h | ⟨v, rest', hv, h⟩
    case inl =>
      left
      rw [find, he]
      simp [hl, h, bind, Except.bind, pure, Except.pure]
    case inr =>
      rw [drop_value ht] at hv
      exact .inr ⟨name, v, rest', by rw [ht, hv], hn, h⟩

end Assignment

end PugShorthand.Attribute
