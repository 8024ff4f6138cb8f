import PugShorthand.Attribute.Expander
import PugShorthand.Proofs.Attribute.Value
import PugShorthand.Proofs.Text.Escape

namespace PugShorthand

def Text.isIdentifierByte (b : UInt8) : Bool :=
  isUpper b || isLower b || isDigit b || b == '_'.toUInt8 || b == '$'.toUInt8

variable {t body : Text} {quote : UInt8}

namespace Attribute

def Value.ofText (t : Text) : Value :=
  ⟨t, .ofOpening (t.headD 0)⟩

-- Read as a value, the text ends where it should, whatever blank stands behind it.
def Settled (t : Text) : Prop :=
  (Value.ofText t).EndsBefore []

theorem Value.EndsBefore.ofText_eq {v : Value} {rest : Text} (h : v.EndsBefore rest) :
    Value.ofText v.raw = v := by
  rw [Value.ofText, h.ofOpening_eq]

theorem Value.EndsBefore.settled {v : Value} {rest : Text} (h : v.EndsBefore rest) :
    Settled v.raw := by
  rw [Settled, h.ofText_eq]
  exact h.of_isBlank (by simp)

theorem Settled.endsBefore {rest : Text} (h : Settled t)
    (hr : ∀ b ∈ rest.head?, Text.isBlank b = true) : (Value.ofText t).EndsBefore rest :=
  Value.EndsBefore.of_isBlank h hr

theorem isQuote_ofOpening_iff : (Delimiter.ofOpening quote).isQuote = true ↔
    quote = '\''.toUInt8 ∨ quote = '"'.toUInt8 ∨ quote = '`'.toUInt8 := by
  rw [Delimiter.ofOpening]
  repeat' split
  all_goals simp_all [Delimiter.isQuote]

theorem closing?_of_isQuote (quote : UInt8) (h : (Delimiter.ofOpening quote).isQuote = true) :
    (Delimiter.ofOpening quote).closing? = some quote ∧ quote ≠ '\\'.toUInt8 := by
  obtain rfl | rfl | rfl := isQuote_ofOpening_iff.mp h <;> decide

theorem leadingQuote?_eq_some_iff :
    leadingQuote? t = some quote ↔
      t.head? = some quote ∧ (Delimiter.ofOpening quote).isQuote = true := by
  cases t
  case nil => simp [leadingQuote?]
  case cons b t =>
    simp only [leadingQuote?, Option.ite_none_right_eq_some, List.head?_cons, Option.some.injEq,
      isQuote_ofOpening_iff]
    grind

theorem settled_quoted (hq : (Delimiter.ofOpening quote).isQuote = true)
    (hs : Nesting.Shielded quote quote body) (hl : body.getLastD quote ≠ '\\'.toUInt8) :
    Settled (quote :: (body ++ [quote])) := by
  have ⟨hc, hne⟩ := closing?_of_isQuote quote hq
  exact .delimited hc ((Nesting.closes_quote_iff hne).mpr ⟨hs, hl⟩)

theorem Settled.closes {opening closing : UInt8} {region : Text} (h : Settled (opening :: region))
    (hd : (Delimiter.ofOpening opening).closing? = some closing) :
    Nesting.Closes opening closing 0 opening region := by
  generalize hv : Value.ofText (opening :: region) = v at h
  rw [Settled, hv] at h
  cases h
  case delimited hd' c =>
    simp only [Value.ofText, Value.mk.injEq, List.cons.injEq] at hv
    obtain ⟨⟨rfl, rfl⟩, -⟩ := hv
    cases hd.symm.trans hd'
    exact c
  case bare =>
    simp only [Value.ofText, Value.mk.injEq, List.headD_cons] at hv
    simp [hv.right, Delimiter.closing?] at hd

theorem Settled.exists_body (h : Settled t) (hq : leadingQuote? t = some quote) :
    ∃ body, t = quote :: (body ++ [quote]) ∧ Nesting.Shielded quote quote body ∧
      body.getLastD quote ≠ '\\'.toUInt8 := by
  have ⟨hh, hq'⟩ := leadingQuote?_eq_some_iff.mp hq
  obtain ⟨region, rfl⟩ := List.head?_eq_some_iff.mp hh
  have ⟨hd, hne⟩ := closing?_of_isQuote quote hq'
  have c := h.closes hd
  obtain ⟨body, rfl⟩ := c.exists_concat
  exact ⟨body, rfl, (Nesting.closes_quote_iff hne).mp c⟩

theorem Settled.getLast?_eq (h : Settled t) (hb : startsWith '{'.toUInt8 t = true) :
    t.getLast? = some '}'.toUInt8 := by
  obtain ⟨region, rfl⟩ := List.head?_eq_some_iff.mp (beq_iff_eq.mp hb)
  have hd : (Delimiter.ofOpening '{'.toUInt8).closing? = some '}'.toUInt8 := by decide
  have ⟨body, hr⟩ := (h.closes hd).exists_concat
  rw [hr, ← List.cons_append, List.getLast?_concat]

theorem settled_templateLiteral (h : t.getLast? ≠ some '\\'.toUInt8) :
    Settled (templateLiteral t) := by
  refine settled_quoted (by decide) (.escape (by decide)) ?_
  rw [List.getLastD_eq_getLast?, Text.getLast?_escape]
  cases hl : t.getLast?
  case none   => decide
  case some b => simpa [hl] using h

theorem getLast?_braced : (Text.braced t).getLast? = some '}'.toUInt8 := by
  rw [Text.braced, List.getLast?_concat]

theorem settled_rewrap (hb : startsWith '{'.toUInt8 t = true → t.getLast? = some '}'.toUInt8)
    (h : startsWith '{'.toUInt8 t = false → Settled t) : Settled (rewrap t) := by
  unfold rewrap
  split
  case isTrue =>
    refine settled_templateLiteral ?_
    rw [getLast?_braced]
    decide
  case isFalse =>
    split
    case isTrue hs  => exact settled_templateLiteral (by rw [hb hs]; decide)
    case isFalse hs => exact h (by simpa using hs)

theorem Settled.rewrap (h : Settled t) : Settled (rewrap t) :=
  settled_rewrap h.getLast?_eq fun _ => h

theorem settled_emptyLiteral : Settled emptyLiteral :=
  @settled_quoted [] '\''.toUInt8 (by decide) trivial (by decide)

theorem Settled.extend {addition : Text} (h : Settled t) (hq : leadingQuote? t = some quote)
    (hs : ∀ last, Nesting.Shielded quote last addition)
    (hl : ∃ b, addition.getLast? = some b ∧ b ≠ '\\'.toUInt8) :
    Settled (Text.dropTrailing quote t ++ addition ++ [quote]) := by
  have ⟨body, ht, hb, _⟩ := h.exists_body hq
  have hd : Text.dropTrailing quote t = quote :: body := by
    rw [Text.dropTrailing, ht, ← List.cons_append, List.getLast?_concat, if_pos rfl,
      List.dropLast_concat]
  have ⟨_, hq⟩ := leadingQuote?_eq_some_iff.mp hq
  have ⟨b, hb', hne⟩ := hl
  have hs' : Settled (quote :: (body ++ addition ++ [quote])) :=
    settled_quoted hq (Nesting.shielded_append.mpr ⟨hb, hs _⟩)
      (by simp [List.getLastD_eq_getLast?, List.getLast?_append, hb', hne])
  rw [hd]
  simpa using hs'

theorem not_plain_of_isQuote (quote : UInt8) (h : (Delimiter.ofOpening quote).isQuote = true) :
    Text.isIdentifierByte quote = false ∧ quote ∉ Text.ofString " " ∧ quote ∉ Text.ofString ";" ∧
      quote ≠ '{'.toUInt8 ∧ quote ≠ '}'.toUInt8 := by
  obtain rfl | rfl | rfl := isQuote_ofOpening_iff.mp h <;> decide

theorem Settled.exportReference {binding : Text} {isStyle : Bool} (h : Settled t)
    (hb : ∀ quote, (Delimiter.ofOpening quote).isQuote = true → quote ∉ binding) :
    Settled (Attribute.rewrap (exportReference binding isStyle t)) := by
  unfold Attribute.exportReference
  split
  case h_2 =>
    exact settled_rewrap (fun _ => getLast?_braced) fun h => by simp [startsWith, Text.braced] at h
  case h_1 quote hq =>
    have ⟨_, hq'⟩ := leadingQuote?_eq_some_iff.mp hq
    have ⟨_, hspace, hsemi, hopen, hclose⟩ := not_plain_of_isQuote quote hq'
    have hn := hb quote hq'
    generalize hsep : (if isStyle then Text.ofString ";" else []) = separator
    have hm : quote ∉ Text.ofString " " ++ separator ++ Text.braced binding ++ separator := by
      subst hsep
      cases isStyle <;> simp [Text.braced, hn, hspace, hsemi, hopen, hclose]
    have hl : ∃ b, (Text.ofString " " ++ separator ++ Text.braced binding ++ separator).getLast? =
        some b ∧ b ≠ '\\'.toUInt8 := by
      subst hsep
      cases isStyle
      case false => exact ⟨'}'.toUInt8, by simp [List.getLast?_append, getLast?_braced], by decide⟩
      case true  => exact ⟨';'.toUInt8, List.getLast?_concat, by decide⟩
    have hs := h.extend hq (fun _ => .of_not_mem hm) hl
    exact Settled.rewrap (by simpa using hs)

namespace Directive

variable {d : Directive}

def literal (d : Directive) : Text :=
  let value := d.value.getD emptyLiteral
  if (leadingQuote? value).isSome then value else templateLiteral (Text.braced value)

theorem exists_consolidate (d : Directive) :
    ∃ quote, leadingQuote? d.literal = some quote ∧
      d.consolidate = Text.dropTrailing quote d.literal ++ Text.ofString " " ++
        Text.escape quote d.fragments ++ [quote] := by
  cases hq : leadingQuote? (d.value.getD emptyLiteral) <;>
    simp only [literal, consolidate, hq, Option.isSome_some, Option.isSome_none, if_true,
      Bool.false_eq_true, if_false]
  case none       => exact ⟨'`'.toUInt8, rfl, rfl⟩
  case some quote => exact ⟨quote, rfl, rfl⟩

theorem settled_literal (hv : ∀ t ∈ d.value, Settled t) : Settled d.literal := by
  rw [literal]
  split
  case isFalse => exact settled_templateLiteral (by rw [getLast?_braced]; decide)
  case isTrue =>
    cases he : d.value
    case none   => exact settled_emptyLiteral
    case some v => exact hv v he

end Directive

theorem settled_consolidate {d : Directive} (hv : ∀ t ∈ d.value, Settled t)
    (hf : d.fragments.getLast? ≠ some '\\'.toUInt8) : Settled d.consolidate := by
  have ⟨quote, hq, hc⟩ := d.exists_consolidate
  have ⟨_, hq'⟩ := leadingQuote?_eq_some_iff.mp hq
  rw [hc, List.append_assoc (Text.dropTrailing _ _)]
  refine (Directive.settled_literal hv).extend hq (fun last => ?_) ?_
  · have ⟨_, hspace, _⟩ := not_plain_of_isQuote quote hq'
    have ⟨_, hne⟩ := closing?_of_isQuote quote hq'
    exact Nesting.shielded_append.mpr ⟨.of_not_mem hspace, .escape hne⟩
  · rw [List.getLast?_append, Text.getLast?_escape]
    cases hl : d.fragments.getLast?
    case none   => exact ⟨' '.toUInt8, rfl, by decide⟩
    case some b => exact ⟨b, rfl, by simpa [hl] using hf⟩

variable {name : Text}

theorem normaliseName_eq_self (h : ∀ b ∈ name.head?, b ≠ '.'.toUInt8 ∧ b ≠ '{'.toUInt8) :
    normaliseName name = name := by
  cases name
  case nil => rfl
  case cons b name =>
    have ⟨hd, ho⟩ := h b rfl
    have hp : ¬(['.'.toUInt8, '.'.toUInt8, '.'.toUInt8].isPrefixOf (b :: name)) = true := by
      simp [List.isPrefixOf, hd.symm]
    have ho : ¬(startsWith '{'.toUInt8 (b :: name) &&
        (b :: name).getLast? == some '}'.toUInt8) = true := by
      rw [startsWith, List.head?_cons, beq_eq_false_iff_ne.mpr (by simpa using ho)]
      exact Bool.false_ne_true
    exact (if_neg hp).trans (if_neg ho)

theorem normaliseName_cases (name : Text) :
    normaliseName name = name ∨ ∃ t, normaliseName name = '\''.toUInt8 :: t := by
  unfold normaliseName
  repeat' split
  · exact .inr ⟨_, rfl⟩
  · exact .inr ⟨_, rfl⟩
  · exact .inl rfl

theorem normaliseName_normaliseName : normaliseName (normaliseName name) = normaliseName name := by
  rcases normaliseName_cases name with h | ⟨t, h⟩
  · rw [h, h]
  · rw [h]
    exact normaliseName_eq_self (by simp; decide)

theorem normaliseName_of_identifier (h : ∀ b ∈ name, Text.isIdentifierByte b = true) :
    normaliseName name = name := by
  refine normaliseName_eq_self fun b hb => ?_
  have hi := h b (List.mem_of_mem_head? hb)
  constructor <;> rintro rfl <;> exact absurd hi (by decide)

theorem isName_of_all (h : name.all (fun b => b != '='.toUInt8 && !Text.isBlank b) = true) :
    Assignment.IsName name := by
  simpa [Assignment.IsName] using h

theorem isName_append {a b : Text} :
    Assignment.IsName (a ++ b) ↔ Assignment.IsName a ∧ Assignment.IsName b :=
  List.forall_mem_append

theorem isName_normaliseName (h : Assignment.IsName name) :
    Assignment.IsName (normaliseName name) := by
  have quote : Assignment.IsName ['\''.toUInt8] := isName_of_all rfl
  have opening : Assignment.IsName ['{'.toUInt8] := isName_of_all rfl
  have closing : Assignment.IsName ['}'.toUInt8] := isName_of_all rfl
  unfold normaliseName Text.braced
  repeat' split
  · exact isName_append.mpr ⟨isName_append (a := [_]).mpr
      ⟨quote, isName_append.mpr ⟨isName_append (a := [_]).mpr ⟨opening, h⟩, closing⟩⟩, quote⟩
  · exact isName_append.mpr ⟨isName_append (a := [_]).mpr ⟨quote, h⟩, quote⟩
  · exact h

theorem normaliseName_ne_nil (h : name ≠ []) : normaliseName name ≠ [] := by
  rcases normaliseName_cases name with hn | ⟨t, hn⟩ <;> simp [hn, h]

end Attribute

end PugShorthand
