import PugShorthand.Proofs.Attribute.Expander
import PugShorthand.Proofs.Nesting.Depth

namespace PugShorthand.Attribute

variable {opening closing quote : UInt8} {raw region rest used : Text} {v : Value} {k : Token}

def Delimiter.opening? : Delimiter → Option UInt8
  | single => some '\''.toUInt8
  | double => some '"'.toUInt8
  | backtick => some '`'.toUInt8
  | brace => some '{'.toUInt8
  | bracket => some '['.toUInt8
  | bare => none

namespace Value

structure IsQuoted (quote : UInt8) (raw : Text) : Prop where
  two_le : 2 ≤ raw.length
  first : raw.head? = some quote
  last : raw.getLast? = some quote
  unescaped : raw[raw.length - 2]? ≠ some '\\'.toUInt8
  escaped : ∀ i, 0 < i → i + 1 < raw.length → raw[i]? = some quote →
    raw[i - 1]? = some '\\'.toUInt8

-- The depth returns to zero at the last byte and not before. In front of a value stands its `=`.
structure IsNested (opening closing : UInt8) (raw : Text) : Prop where
  first : raw.head? = some opening
  last : raw.getLast? = some closing
  closed : Nesting.rise opening closing '='.toUInt8 raw = 0
  opened : ∀ p, p <+: raw → p ≠ [] → p ≠ raw → 0 < Nesting.rise opening closing '='.toUInt8 p

structure IsWord (raw : Text) : Prop where
  nonempty : raw ≠ []
  blank : ∀ b ∈ raw, Text.isBlank b = false
  first : ∀ b ∈ raw.head?, b ≠ '\''.toUInt8 ∧ b ≠ '"'.toUInt8 ∧ b ≠ '`'.toUInt8 ∧
    b ≠ '{'.toUInt8 ∧ b ≠ '['.toUInt8

def IsWritten (v : Value) : Prop :=
  match v.delimiter with
  | .single => IsQuoted '\''.toUInt8 v.raw
  | .double => IsQuoted '"'.toUInt8 v.raw
  | .backtick => IsQuoted '`'.toUInt8 v.raw
  | .brace => IsNested '{'.toUInt8 '}'.toUInt8 v.raw
  | .bracket => IsNested '['.toUInt8 ']'.toUInt8 v.raw
  | .bare => IsWord v.raw

structure IsWellFormed (v : Value) : Prop where
  written : v.IsWritten
  between : ∃ inner, v.inner = .ok inner ∧
    v.raw = v.delimiter.opening?.toList ++ inner ++ v.delimiter.closing?.toList

theorem isQuoted (hq : quote ≠ '\\'.toUInt8)
    (c : Nesting.Closes quote quote 0 quote region) : IsQuoted quote (quote :: region) := by
  obtain ⟨body, rfl⟩ := c.exists_concat
  have ⟨hs, hl⟩ := (Nesting.closes_quote_iff hq).mp c
  have front {i : Nat} (hi : i ≤ body.length) :
      (quote :: (body ++ [quote]))[i]? = (quote :: body)[i]? := by
    rw [← List.cons_append]
    exact List.getElem?_append_left (by simpa using Nat.lt_succ_of_le hi)
  constructor
  case two_le => simp
  case first  => rfl
  case last   => rw [← List.cons_append, List.getLast?_concat]
  case unescaped =>
    have hlast : (quote :: body)[body.length]? = some (body.getLastD quote) := by
      rw [List.getLastD_eq_getLast?, ← List.getLast?_cons, List.getLast?_eq_getElem?]
      rfl
    have hlen : (quote :: (body ++ [quote])).length - 2 = body.length := by simp
    rwa [hlen, front (Nat.le_refl _), hlast, ne_eq, Option.some.injEq]
  case escaped =>
    intro i h₀ hi hb
    obtain ⟨j, rfl⟩ := Nat.exists_eq_succ_of_ne_zero (Nat.ne_of_gt h₀)
    simp only [List.length_cons, List.length_append, List.length_nil] at hi
    rw [front (by omega)] at hb
    rw [Nat.succ_sub_one, front (by omega)]
    exact Nesting.shielded_iff_getElem?.mp hs j hb

theorem isNested (ho : opening ≠ closing) (c : Nesting.Closes opening closing 0 opening region) :
    IsNested opening closing (opening :: region) := by
  have ⟨hz, hp⟩ := Nesting.closes_iff_rise.mp c
  have rise_cons (p : Text) : Nesting.rise opening closing '='.toUInt8 (opening :: p) =
      1 + Nesting.rise opening closing opening p := by
    have hc : Nesting.change opening closing '='.toUInt8 opening = 1 := by
      rw [Nesting.change, if_neg (by decide), if_neg ho, if_pos rfl]
    rw [Nesting.rise, hc]
  constructor
  case first => rfl
  case last =>
    obtain ⟨body, rfl⟩ := c.exists_concat
    rw [← List.cons_append, List.getLast?_concat]
  case closed => rwa [rise_cons]
  case opened =>
    intro p hpre hne hlt
    obtain ⟨p', rfl, hp'⟩ := (List.prefix_cons_iff.mp hpre).resolve_left hne
    have := hp p' hp' (by simpa using hlt)
    rwa [rise_cons]

theorem EndsBefore.isWritten (h : v.EndsBefore rest) : v.IsWritten := by
  cases h
  case bare raw hd hne hb hr =>
    refine ⟨hne, hb, fun b hh => ?_⟩
    rw [List.headD_eq_head?_getD, Option.mem_def.mp hh, Option.getD_some] at hd
    refine ⟨?_, ?_, ?_, ?_, ?_⟩ <;> rintro rfl <;> exact absurd hd (by decide)
  case delimited opening closing region hd c =>
    rcases Delimiter.ofOpening_cases hd with
      ⟨rfl, rfl⟩ | ⟨rfl, rfl⟩ | ⟨rfl, rfl⟩ | ⟨rfl, rfl⟩ | ⟨rfl, rfl⟩
    · exact isQuoted (by decide) c
    · exact isQuoted (by decide) c
    · exact isQuoted (by decide) c
    · exact isNested (by decide) c
    · exact isNested (by decide) c

theorem EndsBefore.isWellFormed (h : v.EndsBefore rest) (hv : v.raw.IsUtf8) : v.IsWellFormed where
  written := h.isWritten
  between := by
    cases h
    case bare raw _ _ _ _ => exact ⟨raw, by simp [Value.inner], (List.append_nil raw).symm⟩
    case delimited opening closing region hd c =>
      obtain ⟨body, rfl⟩ := c.exists_concat
      refine ⟨body, (inner_delimited hd hv).left, ?_⟩
      rcases Delimiter.ofOpening_cases hd with
        ⟨rfl, rfl⟩ | ⟨rfl, rfl⟩ | ⟨rfl, rfl⟩ | ⟨rfl, rfl⟩ | ⟨rfl, rfl⟩ <;> rfl

end Value

namespace Token

structure IsWellFormed (k : Token) : Prop where
  name : ∀ b ∈ k.name, Text.isBlank b = false
  assigned : k.value.isSome = true → '='.toUInt8 ∉ k.name
  operator : k.operator.isSome = k.value.isSome
  verbatim : k.operator = some .verbatim ↔ k.verbatim = true
  apart : ¬(k.exported = true ∧ k.verbatim = true)
  value : ∀ v ∈ k.value, v.IsWellFormed

theorem Reads.isWellFormed (h : Reads used k rest) (ht : Text.IsUtf8 (used ++ rest)) :
    k.IsWellFormed := by
  have value : ∀ v ∈ k.value, v.IsWellFormed := fun v hv =>
    have ⟨hr, _, he⟩ := (h.isWhole ht).value v hv
    he.isWellFormed hr
  have unassigned {name : Text} (hn : Assignment.IsName name) : '='.toUInt8 ∉ name :=
    fun hm => (hn _ hm).left rfl
  cases h
  case bare hn hb hr hu =>
    constructor
    case name     => exact fun b hm => hb b (mem_named hm)
    case assigned => simp [Token.bare]
    case operator => simp [Token.bare]
    case verbatim => simp [Token.bare]
    case apart    => simp [Token.bare]
    case value    => exact value
  case assigned name v hn hl hv =>
    have hn : Assignment.IsName (named name).name := fun b hm => hn b (mem_named hm)
    constructor
    case name     => exact fun b hm => (hn b hm).right
    case assigned => exact fun _ => unassigned hn
    case operator => rfl
    case verbatim => simp [Token.assigned]
    case apart    => simp
    case value    => exact value
  case escaped name v hn hv =>
    constructor
    case name     => exact fun b hm => (hn b hm).right
    case assigned => exact fun _ => unassigned hn
    case operator => rfl
    case verbatim => simp [Token.escaped]
    case apart    => simp [Token.escaped]
    case value    => exact value

theorem scan_well_formed (s : String) :
    ∃ ks, scan (.ofString s) = .ok ks ∧ ∀ k ∈ ks, k.IsWellFormed := by
  have ⟨ks, h⟩ := exists_scans (Text.ofString s)
  have hu := Text.isUtf8_ofString s
  refine ⟨ks, scan_eq h hu, fun k hk => ?_⟩
  have ⟨_, _, hr, hw⟩ := h.exists_whole_reads hu k hk
  exact hr.isWellFormed hw

end Token

end PugShorthand.Attribute
