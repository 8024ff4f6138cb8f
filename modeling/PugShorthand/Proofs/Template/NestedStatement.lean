import PugShorthand.Nesting
import PugShorthand.Proofs.Nesting.Balance
import PugShorthand.Proofs.Template.Statement

namespace PugShorthand.Template

def openingText (sigil : UInt8) (kind arguments : Text) : Text :=
  '{'.toUInt8 :: sigil :: (kind ++ ' '.toUInt8 :: (arguments ++ ['}'.toUInt8]))

-- An opening that reaches to the brace which matches its first one.
structure BalancedOpening where
  sigil : UInt8
  kind : Text
  arguments : Text
  marked : sigil = '#'.toUInt8 ∨ sigil = '@'.toUInt8
  named : kind ≠ []
  unblank : ∀ b ∈ kind, Text.isBlank b = false
  plain : ∀ b ∈ Text.ofString "\x7b\x7d\\`", b ∉ kind
  argued : arguments ≠ []
  undented : ∀ b ∈ arguments.head?, Text.isBlank b = false
  unescaped : '\\'.toUInt8 ∉ arguments
  closed : Nesting.findBraces (openingText sigil kind arguments) 0 =
    .ok (some ⟨0, (openingText sigil kind arguments).length⟩)

theorem Statement.opening?_append {kind arguments : Text} {b c : UInt8} (hne : kind ≠ [])
    (hk : ∀ x ∈ kind, Text.isBlank x = false) (hb : Text.isBlank b = true)
    (hc : Text.isBlank c = false) :
    opening? (kind ++ b :: c :: arguments) = some (opening kind (c :: arguments)) := by
  have hw : (kind ++ b :: c :: arguments).takeWhile (!Text.isBlank ·) = kind := by
    rw [List.takeWhile_append_of_pos (by simpa using hk)]
    simp [hb]
  simp [opening?, hw, hne, hb, hc]

namespace BalancedOpening

variable {s : BalancedOpening} {rest : Text}

def text (s : BalancedOpening) : Text :=
  openingText s.sigil s.kind s.arguments

def front (s : BalancedOpening) : Text :=
  s.arguments.takeWhile (· != '}'.toUInt8)

theorem length_text : s.text.length = s.kind.length + s.arguments.length + 4 := by
  simp only [text, openingText, List.length_cons, List.length_append, List.length_nil]
  omega

def lead (s : BalancedOpening) : Text :=
  s.sigil :: (s.kind ++ [' '.toUInt8])

theorem not_mem_lead {b : UInt8} (hs : b ≠ '#'.toUInt8 ∧ b ≠ '@'.toUInt8 ∧ b ≠ ' '.toUInt8)
    (hk : b ∉ s.kind) : b ∉ s.lead := by
  simp only [lead, List.mem_cons, List.mem_append, List.not_mem_nil, or_false, not_or]
  rcases s.marked with h | h <;> rw [h]
  · exact ⟨hs.left, hk, hs.right.right⟩
  · exact ⟨hs.right.left, hk, hs.right.right⟩

theorem opening_not_mem_lead : '{'.toUInt8 ∉ s.lead :=
  not_mem_lead (by decide) (s.plain _ (by decide))

theorem closing_not_mem_lead : '}'.toUInt8 ∉ s.lead :=
  not_mem_lead (by decide) (s.plain _ (by decide))

theorem backslash_not_mem_lead : '\\'.toUInt8 ∉ s.lead :=
  not_mem_lead (by decide) (s.plain _ (by decide))

theorem balanced : Nesting.Balanced '{'.toUInt8 '}'.toUInt8 0 (s.lead ++ s.arguments) := by
  have ht : (openingText s.sigil s.kind s.arguments).drop 0 =
      '{'.toUInt8 :: (s.lead ++ s.arguments ++ '}'.toUInt8 :: []) := by
    simp [openingText, lead]
  have hn : 0 + (s.lead ++ s.arguments).length + 2 =
      (openingText s.sigil s.kind s.arguments).length := by
    rw [← List.drop_zero (l := openingText _ _ _), ht]
    simp [Nat.add_assoc]
  have hb : '\\'.toUInt8 ∉ s.lead ++ s.arguments := by
    simpa using ⟨backslash_not_mem_lead, s.unescaped⟩
  have hclosed := s.closed
  rw [← hn] at hclosed
  exact (Nesting.find_eq_some_iff_balanced ht (by decide) (by decide) hb).mp hclosed

theorem closing_mem_iff : '}'.toUInt8 ∈ s.arguments ↔ '{'.toUInt8 ∈ s.arguments := by
  have h := s.balanced.closed
  rw [List.count_append, List.count_append, List.count_eq_zero.mpr opening_not_mem_lead,
    List.count_eq_zero.mpr closing_not_mem_lead] at h
  rw [← List.count_pos_iff, ← List.count_pos_iff]
  omega

theorem exists_front : ∃ b front, s.front = b :: front ∧ Text.isBlank b = false := by
  have ⟨b, arguments, ha⟩ := List.exists_cons_of_ne_nil s.argued
  have hb : b ≠ '}'.toUInt8 := by
    rintro rfl
    have h := s.balanced.opened (s.lead ++ ['}'.toUInt8]) (by simp [ha])
    rw [List.count_append, List.count_append, List.count_eq_zero.mpr opening_not_mem_lead] at h
    simp +decide at h
  exact ⟨b, arguments.takeWhile (· != '}'.toUInt8), by simp [front, ha, hb],
    s.undented b (by simp [ha])⟩

theorem front_eq_iff : s.front = s.arguments ↔ '{'.toUInt8 ∉ s.arguments := by
  rw [front, List.takeWhile_eq_self_iff, ← closing_mem_iff]
  constructor
  case mp => exact fun h hm => bne_iff_ne.mp (h _ hm) rfl
  case mpr => exact fun h b hb => bne_iff_ne.mpr fun he => h (he ▸ hb)

theorem exists_text_append : ∃ behind, s.text ++ rest =
    '{'.toUInt8 :: s.sigil :: (s.kind ++ ' '.toUInt8 :: s.front ++ '}'.toUInt8 :: behind) := by
  have hs := List.takeWhile_append_dropWhile (p := (· != '}'.toUInt8)) (l := s.arguments)
  have hb := List.head?_dropWhile_not (· != '}'.toUInt8) s.arguments
  cases hd : s.arguments.dropWhile (· != '}'.toUInt8)
  case nil =>
    refine ⟨rest, ?_⟩
    rw [hd, List.append_nil] at hs
    simp [text, openingText, front, hs]
  case cons b behind =>
    refine ⟨behind ++ '}'.toUInt8 :: rest, ?_⟩
    rw [hd] at hb hs
    have hb : b = '}'.toUInt8 := by simpa using hb
    rw [text, openingText, ← hs, hb]
    simp [front]

theorem read?_text : Statement.read? (s.text ++ rest) =
    some (.opening s.kind s.front, s.kind.length + s.front.length + 4) := by
  have ⟨b, front, hf, hb⟩ := s.exists_front
  have ⟨behind, ht⟩ := @exists_text_append s rest
  have hn : '}'.toUInt8 ∉ s.kind ++ ' '.toUInt8 :: s.front := by
    have hlead := @closing_not_mem_lead s
    simp only [lead, List.mem_cons, List.mem_append, not_or] at hlead ⊢
    refine ⟨hlead.right.left, by decide, fun hm => ?_⟩
    simpa using List.mem_takeWhile_imp hm
  have ho : Statement.opening? (s.kind ++ ' '.toUInt8 :: s.front) =
      some (.opening s.kind s.front) := by
    rw [hf]
    exact Statement.opening?_append s.named s.unblank (by decide) hb
  refine Statement.read?_eq_some_iff.mpr ⟨s.sigil, _, behind, ht, hn, ?_, .inl ⟨s.marked, ho⟩⟩
  simp only [List.length_append, List.length_cons]
  omega

end BalancedOpening

namespace Statement

variable {s : BalancedOpening} {indent rest : Text} {closes : Text → Bool}

theorem head?_edits_newline {t : Text} {statement : Statement} {n : Nat}
    (hi : ∀ b ∈ indent, Text.isIndent b = true) (hr : read? t = some (statement, n))
    (hx : statement.isExpanded closes = true) :
    (edits (scan closes ('\n'.toUInt8 :: (indent ++ t)))).head? =
      some ⟨1 + indent.length, 1 + indent.length + n, statement.text⟩ := by
  have ⟨_, _, _, ht, _⟩ := read?_cases hr
  have hindent : Text.indentation (indent ++ t) = indent.length :=
    Text.run_append hi (by simp [ht]; decide)
  have hdrop : ('\n'.toUInt8 :: (indent ++ t)).drop (1 + indent.length) = t := by
    rw [Nat.add_comm, List.drop_succ_cons, List.drop_left]
  rw [scan, Text.lineBodies_newline, hindent, scan.go, if_neg (Nat.not_lt_zero _), hdrop, hr]
  simp [hx, edits, Occurrence.edit]

-- A statement ends at its first closing brace. So what is replaced is the statement as a whole if,
-- and only if, there are no braces among its arguments.
theorem first_edit_covers_statement_iff (s : BalancedOpening) (closes : Text → Bool) (rest : Text)
    (hi : ∀ b ∈ indent, Text.isIndent b = true) :
    let body := 1 + indent.length
    let call (arguments : Text) : Text := '+'.toUInt8 :: s.kind ++ Text.ofString "(`" ++
      Text.escape '`'.toUInt8 arguments ++ Text.ofString "`)"
    let first := (edits (scan closes ('\n'.toUInt8 :: (indent ++ (s.text ++ rest))))).head?
    first = some ⟨body, body + (s.kind.length + s.front.length + 4), call s.front⟩ ∧
      (first = some ⟨body, body + s.text.length, call s.arguments⟩ ↔
        '{'.toUInt8 ∉ s.arguments) := by
  intro body call first
  have hfirst : first = some ⟨body, body + (s.kind.length + s.front.length + 4), call s.front⟩ :=
    head?_edits_newline hi BalancedOpening.read?_text rfl
  refine ⟨hfirst, ?_⟩
  rw [hfirst, BalancedOpening.length_text, ← BalancedOpening.front_eq_iff]
  constructor
  case mp =>
    intro h
    have hstop := congrArg Edit.stop (Option.some.inj h)
    have hl : s.front.length = s.arguments.length := by
      simp only at hstop
      omega
    exact (List.takeWhile_prefix _).eq_of_length hl
  case mpr =>
    intro h
    rw [h]

theorem first_edit_covers_unbraced_statement :
    let indent := Text.ofString "\t "
    let s : BalancedOpening :=
      { sigil := '@'.toUInt8, kind := .ofString "html", arguments := .ofString "`é` +\n x",
        marked := .inr rfl, named := by decide, unblank := by decide +kernel,
        plain := by decide +kernel, argued := by decide, undented := by decide +kernel,
        unescaped := by decide +kernel, closed := by decide +kernel }
    (∀ b ∈ indent, Text.isIndent b = true) ∧ '{'.toUInt8 ∉ s.arguments ∧
      (edits (scan (fun _ => true) (.ofString "\n\t \x7b@html `é` +\n x\x7d\n\x7b/if\x7d"))).head? =
        some ⟨3, 20, .ofString "+html(`\\`é\\` +\n x`)"⟩ := by
  intro indent s
  have hi : ∀ b ∈ indent, Text.isIndent b = true := by decide +kernel
  have hb : '{'.toUInt8 ∉ s.arguments := by decide +kernel
  have ⟨_, hiff⟩ := first_edit_covers_statement_iff s (fun _ => true)
    (.ofString "\n\x7b/if\x7d") hi
  exact ⟨hi, hb, hiff.mpr hb⟩

theorem nested_brace_ends_statement :
    let s : BalancedOpening :=
      { sigil := '#'.toUInt8, kind := .ofString "each",
        arguments := .ofString "items as \x7bid, name\x7d",
        marked := .inl rfl, named := by decide, unblank := by decide +kernel,
        plain := by decide +kernel, argued := by decide, undented := by decide +kernel,
        unescaped := by decide +kernel, closed := by decide +kernel }
    let first := (edits (scan (fun _ => true) ('\n'.toUInt8 :: s.text))).head?
    s.text = .ofString "\x7b#each items as \x7bid, name\x7d\x7d" ∧
      first = some ⟨1, 27, .ofString "+each(`items as \x7bid, name`)"⟩ ∧
      first ≠ some ⟨1, 1 + s.text.length, .ofString "+each(`items as \x7bid, name\x7d`)"⟩ := by
  decide +kernel

end Statement

end PugShorthand.Template
