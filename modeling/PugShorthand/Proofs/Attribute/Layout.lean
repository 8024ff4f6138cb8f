import PugShorthand.Proofs.Attribute.Expander
import PugShorthand.Proofs.Nesting.Depth

namespace PugShorthand.Attribute

variable {t used rest : Text} {k : Token} {ks : List Token} {opening closing last : UInt8}

namespace Token

def source (k : Token) : Text :=
  (if k.exported then exportMark else []) ++ k.display

theorem mark_append_named (written : Text) :
    (if (named written).exported then exportMark else []) ++ (named written).name = written := by
  unfold named
  cases hm : Text.after? exportMark written
  case none      => rfl
  case some name => exact (Text.eq_of_after? hm).symm

theorem IsWhole.source (h : k.IsWhole) : k.source.IsUtf8 := by
  unfold Token.source
  split
  case isTrue  => exact (Text.isUtf8_ofString _).append h.display
  case isFalse => exact h.display

theorem Reads.source_eq (h : Reads used k rest) : k.source = used := by
  cases h
  case bare =>
    have hd : (Token.bare used).display = (named used).name := by simp [display, Token.bare]
    rw [source, hd]
    exact mark_append_named used
  case assigned name v hn hl hv =>
    have hd : (Token.assigned name v).display = (named name).name ++ '='.toUInt8 :: v.raw :=
      List.append_assoc _ _ _
    rw [source, hd, ← List.append_assoc]
    exact congrArg (· ++ _) (mark_append_named name)
  case escaped name v hn hv => exact List.append_assoc name _ _

end Token

structure Piece where
  token : Token
  gap : Text
  starts : ∃ b rest, token.source = b :: rest ∧ Text.isBlank b = false
  blank : ∀ b ∈ gap, Text.isBlank b = true

-- A list taken apart into its tokens and the blanks in front of, between and behind them. Only a
-- token with a delimited value can have the next one right behind it.
structure Layout where
  front : Text
  pieces : List Piece
  blank : ∀ b ∈ front, Text.isBlank b = true
  inner : ∀ p ∈ pieces.dropLast, p.gap = [] → ∃ v ∈ p.token.value, v.delimiter ≠ .bare

namespace Layout

def tokens (l : Layout) : List Token :=
  l.pieces.map Piece.token

def text (l : Layout) : Text :=
  l.front ++ l.pieces.flatMap fun p => p.token.source ++ p.gap

end Layout

theorem Token.Scans.exists_layout (h : Scans t ks) :
    ∃ l : Layout, l.tokens = ks ∧ l.text = t := by
  -- By induction on the tokens: what stands in front of the rest of a list stands behind the token
  -- in front of it.
  induction h
  case nil => exact ⟨⟨[], [], by simp, by simp⟩, rfl, rfl⟩
  case blank b rest ks hb h hi =>
    obtain ⟨l, rfl, rfl⟩ := hi
    exact ⟨⟨b :: l.front, l.pieces, by simpa using ⟨hb, l.blank⟩, l.inner⟩, rfl, rfl⟩
  case token used rest k ks hk h hi =>
    obtain ⟨l, rfl, rfl⟩ := hi
    have hs := hk.source_eq
    let piece : Piece := ⟨k, l.front, hs ▸ hk.exists_cons, l.blank⟩
    have inner : ∀ p ∈ (piece :: l.pieces).dropLast, p.gap = [] →
        ∃ v ∈ p.token.value, v.delimiter ≠ .bare := by
      cases hp : l.pieces
      case nil => simp
      case cons next pieces =>
        rw [List.dropLast_cons_cons, List.forall_mem_cons]
        refine ⟨fun hg => ?_, hp ▸ l.inner⟩
        -- The next token begins where this one ends, and not with a blank.
        have ⟨b, _, hb, hn⟩ := next.starts
        have hh : l.text.head? = some b := by
          simp [Layout.text, show l.front = [] from hg, hp, hb]
        cases hk.exists_closing
        case inl h => simpa [hn] using h b hh
        case inr h =>
          have ⟨v, closing, hv, hd, _⟩ := h
          exact ⟨v, hv, fun he => by simp [he, Delimiter.closing?] at hd⟩
    refine ⟨⟨[], piece :: l.pieces, by simp, inner⟩, rfl, ?_⟩
    simp [Layout.text, piece, hs]

namespace Token

theorem scan_loses_nothing (s : String) :
    ∃ l : Layout, scan (.ofString s) = .ok l.tokens ∧ l.text = .ofString s := by
  have ⟨ks, h⟩ := exists_scans (Text.ofString s)
  have hs := scan_eq h (Text.isUtf8_ofString s)
  obtain ⟨l, rfl, hl⟩ := h.exists_layout
  exact ⟨l, hs, hl⟩

def row (ks : List Token) : Text :=
  (Text.ofString " ").intercalate (ks.map source)

def trailing (ks : List Token) : Text :=
  ks.flatMap fun k => ' '.toUInt8 :: k.source

theorem row_cons : row (k :: ks) = k.source ++ trailing ks := by
  induction ks generalizing k
  case nil => simp [row, trailing]
  case cons k' ks hi =>
    rw [row, List.map_cons, List.map_cons, List.intercalate_cons_cons, ← List.map_cons, ← row, hi,
      trailing, trailing, List.flatMap_cons, List.append_assoc]
    rfl

theorem isBlank_trailing : ∀ b ∈ (trailing ks).head?, Text.isBlank b = true := by
  cases ks
  case nil => simp [trailing]
  case cons =>
    rintro b ⟨⟩
    decide

theorem Scans.covers (h : Scans t ks) (ho : Text.isBlank opening = false)
    (hc : Text.isBlank closing = false)
    (hl : (∀ b ∈ t.head?, Text.isBlank b = true) ∨ last ≠ '\\'.toUInt8) :
    Nesting.Covers opening closing last t (trailing ks) := by
  have plain {b : UInt8} (hb : Text.isBlank b = true) :
      b ≠ closing ∧ b ≠ opening ∧ b ≠ '\\'.toUInt8 := by
    refine ⟨?_, ?_, ?_⟩ <;> rintro rfl
    · simp [hb] at hc
    · simp [hb] at ho
    · exact absurd hb (by decide)
  -- By induction on the tokens: a list gets to every depth that its tokens get to in a row. `last`
  -- is the byte in front of both, which is a backslash only in front of a blank.
  induction h generalizing last
  case nil => exact .nil
  case blank b rest ks hb h hi =>
    have ⟨hbc, hbo, hbs⟩ := plain hb
    refine (hi (.inr hbs)).cons_left hbc hbo fun x hx => ?_
    have ⟨hxc, hxo, _⟩ := plain (isBlank_trailing x hx)
    exact ⟨hxc, hxo⟩
  case token used rest k ks hk h hi =>
    have ⟨b, u, hu, hb⟩ := hk.exists_cons
    have hl : last ≠ '\\'.toUInt8 := hl.resolve_left fun h => by simp [hu, hb] at h
    have hend : (∀ b ∈ rest.head?, Text.isBlank b = true) ∨
        used.getLastD ' '.toUInt8 ≠ '\\'.toUInt8 := by
      refine hk.exists_closing.imp_right fun ⟨v, closing, _, hd, hlast⟩ => ?_
      rw [List.getLastD_eq_getLast?, hlast]
      exact (Delimiter.plain_of_closing? hd).right.left
    have ⟨hsc, hso, hss⟩ := plain (b := ' '.toUInt8) (by decide)
    rw [trailing, List.flatMap_cons, hk.source_eq, List.cons_append, ← trailing]
    exact (hi hend).append.cons_right hsc hso hss hl

end Token

namespace Assignment

variable {name word rest' : Text}

theorem exists_of_append_eq {value : Text} (hn : IsName name)
    (hr : ∀ b ∈ rest.head?, Text.isBlank b = true)
    (h : word ++ rest = name ++ '='.toUInt8 :: value) :
    ∃ front, word = name ++ '='.toUInt8 :: front ∧ value = front ++ rest := by
  cases List.append_eq_append_iff.mp h
  case inl h =>
    -- Otherwise the word would be followed by a part of the name or by the `=`.
    obtain ⟨x, rfl, hx⟩ := h
    subst hx
    cases x
    case nil      => exact absurd (hr _ rfl) (by decide)
    case cons b x => exact absurd (hr b rfl) (by simp [(hn b (by simp)).right])
  case inr h =>
    obtain ⟨x, rfl, hx⟩ := h
    cases x
    case nil =>
      simp only [List.nil_append] at hx
      subst hx
      exact absurd (hr _ rfl) (by decide)
    case cons b x =>
      simp only [List.cons_append, List.cons.injEq] at hx
      obtain ⟨rfl, rfl⟩ := hx
      exact ⟨x, rfl, rfl⟩

theorem Unassigned.of_covers (h : Unassigned (word ++ rest))
    (hw : ∀ b ∈ word, Text.isBlank b = false) (hr : ∀ b ∈ rest.head?, Text.isBlank b = true)
    (hr' : ∀ b ∈ rest'.head?, Text.isBlank b = true)
    (hc : ∀ opening closing last, Text.isBlank opening = false → Text.isBlank closing = false →
      Nesting.Covers opening closing last rest rest') :
    Unassigned (word ++ rest') := by
  intro name v behind ht hn hv
  obtain ⟨front, rfl, hf⟩ := exists_of_append_eq hn hr' ht
  have hfront : ∀ b ∈ front, Text.isBlank b = false := fun b hb => hw b (by simp [hb])
  -- A value that can be read in front of `rest` would make the word an assignment there as well.
  have unread (v : Value) (behind : Text) (hb : front ++ rest = v.raw ++ behind) :
      ¬v.EndsBefore behind := h name v behind (by simp [hb]) hn
  cases hv
  case bare raw hd hne hb hbehind =>
    have hl : raw.length = front.length := by
      rw [← Text.run_append (p := (!Text.isBlank ·)) (b := behind) (by simpa using hb)
        (by simpa using hbehind), hf, Text.run_append (by simpa using hfront) (by simpa using hr')]
    have ⟨he, _⟩ := List.append_inj hf hl
    exact unread ⟨raw, .bare⟩ rest (by rw [he]) (.bare hd hne hb hr)
  case delimited opening closing region hd c =>
    have ho := Delimiter.not_isBlank_of_ofOpening hd
    cases front
    case nil =>
      rw [List.nil_append] at hf
      simp [← hf, ho] at hr'
    case cons b front =>
      obtain ⟨rfl, hf'⟩ := List.cons.inj hf
      have hcover := hc opening closing (front.getLastD opening) ho
        (Delimiter.plain_of_closing? hd).right.right
      have ⟨region', ⟨behind', hb⟩, c'⟩ := hcover.append.exists_closes c ⟨behind, hf'⟩
      exact unread ⟨opening :: region', .ofOpening opening⟩ behind' (by simp [hb])
        (.delimited hd c')

end Assignment

namespace Token

theorem Reads.trailing (hk : Reads used k rest) (h : Scans rest ks) :
    Reads used k (trailing ks) := by
  cases hk
  case assigned name v hn hl hv => exact .assigned hn hl (hv.of_isBlank isBlank_trailing)
  case escaped name v hn hv     => exact .escaped hn (hv.of_isBlank isBlank_trailing)
  case bare hn hb hr hu =>
    refine .bare hn hb isBlank_trailing (hu.of_covers hb hr isBlank_trailing ?_)
    exact fun _ _ _ ho hc => h.covers ho hc (.inl hr)

theorem Scans.trailing (h : Scans t ks) : Scans (trailing ks) ks := by
  induction h
  case nil => exact .nil
  case blank hi => exact hi
  case token used rest k ks hk h hi =>
    rw [Token.trailing, List.flatMap_cons, hk.source_eq]
    exact .blank (by decide) (.token (hk.trailing h) hi)

theorem Scans.row (h : Scans t ks) : Scans (row ks) ks := by
  induction h
  case nil => exact .nil
  case blank hi => exact hi
  case token used rest k ks hk h _ =>
    rw [row_cons, hk.source_eq]
    exact .token (hk.trailing h) h.trailing

-- The blanks between the tokens of a list have no part in how it is read: with single spaces in
-- their place, and where there are none, it is read as the same tokens.
theorem scan_row (s : String) : ∃ ks, scan (.ofString s) = .ok ks ∧ scan (row ks) = .ok ks := by
  have ⟨ks, h⟩ := exists_scans (Text.ofString s)
  have hu := Text.isUtf8_ofString s
  refine ⟨ks, scan_eq h hu, scan_eq h.row ?_⟩
  refine .intercalate (Text.isUtf8_ofString " ") fun t ht => ?_
  obtain ⟨k, hk, rfl⟩ := List.mem_map.mp ht
  exact (h.isWhole hu k hk).source

end Token

end PugShorthand.Attribute
