import PugShorthand.Proofs.Edit.Discipline
import PugShorthand.Proofs.Text.Line
import PugShorthand.Template.Statement

namespace PugShorthand.Template.Statement

variable {s : Statement} {o : Occurrence} {t inside : Text} {closes : Text → Bool}
variable {resume n : Nat} {bodies : List Nat}

def IsWhole : Statement → Prop
  | opening kind arguments => kind.IsUtf8 ∧ arguments.IsUtf8
  | closing kind => kind.IsUtf8

theorem isUtf8_text (h : s.IsWhole) : s.text.IsUtf8 := by
  have hs := Text.isUtf8_ofString
  cases s
  case closing => exact .nil
  case opening kind arguments =>
    have hk := Text.IsUtf8.cons (x := '+'.toUInt8) (by decide) h.left
    exact ((hk.append (hs "(`")).append (h.right.escape (by decide))).append (hs "`)")

theorem isWhole_opening? (hi : inside.IsUtf8) (h : opening? inside = some s) : s.IsWhole := by
  simp only [opening?, Option.ite_none_left_eq_some] at h
  have ⟨_, hs⟩ := h
  have ⟨hk, hg⟩ := hi.span (p := (!Text.isBlank ·)) fun x hx =>
    Text.ascii_of_isBlank (by simpa using hx)
  rw [← Text.drop_run] at hg
  cases hs
  exact ⟨hk, (hg.span_ascii fun _ => Text.ascii_of_isBlank).right⟩

theorem isWhole_closing? (hi : inside.IsUtf8) (h : closing? inside = some s) : s.IsWhole := by
  simp only [closing?, Option.ite_none_left_eq_some, Option.some.injEq] at h
  exact h.right ▸ hi

theorem exists_of_opening? (h : opening? inside = some s) :
    ∃ kind arguments, s = opening kind arguments := by
  simp only [opening?, Option.ite_none_left_eq_some, Option.some.injEq] at h
  exact ⟨_, _, h.right.symm⟩

theorem closing?_eq_some_iff : closing? inside = some s ↔
    (inside ≠ [] ∧ ∀ b ∈ inside, Text.isBlank b = false) ∧ closing inside = s := by
  simp [closing?]

theorem isSome_opening?_iff : (opening? inside).isSome = true ↔
    ∃ kind b c arguments, inside = kind ++ b :: c :: arguments ∧ kind ≠ [] ∧
      (∀ x ∈ kind, Text.isBlank x = false) ∧ Text.isBlank b = true := by
  simp only [opening?, Option.isSome_ite', not_or, List.isEmpty_iff, Nat.not_lt]
  constructor
  case mp =>
    intro ⟨hk, hl⟩
    have hd : inside.drop (inside.takeWhile (!Text.isBlank ·)).length =
        inside.dropWhile (!Text.isBlank ·) := Text.drop_run
    have hb := List.head?_dropWhile_not (!Text.isBlank ·) inside
    rw [hd] at hl
    match hg : inside.dropWhile (!Text.isBlank ·) with
    | [] | [_] => simp [hg] at hl
    | b :: c :: arguments =>
      refine ⟨_, b, c, arguments, ?_, hk, fun x hx => ?_, by simpa [hg] using hb⟩
      · rw [← hg, List.takeWhile_append_dropWhile]
      · simpa using List.mem_takeWhile_imp hx
  case mpr =>
    intro ⟨kind, b, c, arguments, hi, hne, hk, hb⟩
    have hp : ∀ x ∈ kind, (!Text.isBlank x) = true := by simpa using hk
    have hw : inside.takeWhile (!Text.isBlank ·) = kind := by
      rw [hi, List.takeWhile_append_of_pos hp]
      simp [hb]
    rw [hw, hi, List.drop_left]
    exact ⟨hne, by simp⟩

theorem exists_closing_brace {rest : Text}
    (h : (rest.takeWhile (· != '}'.toUInt8)).length < rest.length) :
    ∃ behind, rest = rest.takeWhile (· != '}'.toUInt8) ++ '}'.toUInt8 :: behind := by
  have hr := List.takeWhile_append_dropWhile (p := (· != '}'.toUInt8)) (l := rest)
  have hb := List.head?_dropWhile_not (· != '}'.toUInt8) rest
  cases hd : rest.dropWhile (· != '}'.toUInt8)
  case nil =>
    rw [hd, List.append_nil] at hr
    simp [hr] at h
  case cons b behind =>
    rw [hd] at hr hb
    have hb : b = '}'.toUInt8 := by simpa using hb
    exact ⟨behind, (hb ▸ hr).symm⟩

theorem read?_eq_some_iff : read? t = some (s, n) ↔
    ∃ sigil inside rest, t = '{'.toUInt8 :: sigil :: (inside ++ '}'.toUInt8 :: rest) ∧
      '}'.toUInt8 ∉ inside ∧ n = inside.length + 3 ∧
      ((sigil = '#'.toUInt8 ∨ sigil = '@'.toUInt8) ∧ opening? inside = some s ∨
        sigil = '/'.toUInt8 ∧ closing? inside = some s) := by
  constructor
  case mp =>
    intro h
    match t with
    | [] | [_] => simp [read?] at h
    | brace :: sigil :: rest =>
      simp only [read?, guard] at h
      split at h
      case isFalse => simp [failure] at h
      case isTrue hg =>
        have ⟨behind, hr⟩ := exists_closing_brace hg.right
        have hn : '}'.toUInt8 ∉ rest.takeWhile (· != '}'.toUInt8) := fun hm => by
          simpa using List.mem_takeWhile_imp hm
        generalize rest.takeWhile (· != '}'.toUInt8) = inside at h hr hn
        refine ⟨sigil, inside, behind, by rw [hg.left, hr], hn, ?_⟩
        simp only [Option.bind_eq_bind, Option.pure_def, Option.bind_some] at h
        split at h
        case isTrue hs =>
          have ⟨s', hs', he⟩ := Option.bind_eq_some_iff.mp h
          cases he
          exact ⟨rfl, .inl ⟨hs, hs'⟩⟩
        case isFalse =>
          split at h
          case isTrue hs =>
            have ⟨s', hs', he⟩ := Option.bind_eq_some_iff.mp h
            cases he
            exact ⟨rfl, .inr ⟨hs, hs'⟩⟩
          case isFalse => simp at h
  case mpr =>
    rintro ⟨sigil, inside, rest, rfl, hn, rfl, hs⟩
    have hw : (inside ++ '}'.toUInt8 :: rest).takeWhile (· != '}'.toUInt8) = inside := by
      have hp : ∀ x ∈ inside, (x != '}'.toUInt8) = true := fun x hx =>
        bne_iff_ne.mpr fun he => hn (he ▸ hx)
      simp [List.takeWhile_append_of_pos hp]
    have hne : ¬('/'.toUInt8 = '#'.toUInt8 ∨ '/'.toUInt8 = '@'.toUInt8) := by decide
    rcases hs with ⟨hs, ho⟩ | ⟨hs, hc⟩
    · simp [read?, guard, hw, hs, ho]
    · simp [read?, guard, hw, hs, hne, hc]

theorem read?_cases (h : read? t = some (s, n)) :
    ∃ sigil inside rest, t = '{'.toUInt8 :: sigil :: (inside ++ '}'.toUInt8 :: rest) ∧
      sigil < 0x80 ∧ n = inside.length + 3 ∧
      (opening? inside = some s ∨ closing? inside = some s) := by
  have ⟨sigil, inside, rest, ht, _, hn, hs⟩ := read?_eq_some_iff.mp h
  refine ⟨sigil, inside, rest, ht, ?_, hn, hs.imp And.right And.right⟩
  rcases hs with ⟨rfl | rfl, -⟩ | ⟨rfl, -⟩ <;> decide

theorem isWhole_read? (ht : t.IsUtf8) (h : read? t = some (s, n)) : s.IsWhole := by
  obtain ⟨sigil, inside, rest, rfl, hs, -, hi⟩ := read?_cases h
  have hu := (((ht.tail (by decide)).tail hs).around (by decide)).left
  rcases hi with hi | hi
  · exact isWhole_opening? hu hi
  · exact isWhole_closing? hu hi

theorem isRange_read? (ht : t.IsUtf8) (h : read? t = some (s, n)) :
    t.isRange 0 n = true ∧ t.isRange 2 (n - 1) = true := by
  obtain ⟨sigil, inside, rest, rfl, hs, rfl, -⟩ := read?_cases h
  have hi := (ht.tail (by decide)).tail hs
  have ⟨hl, hr⟩ := hi.around (by decide)
  have hc : Text.IsUtf8 ['}'.toUInt8] := .cons (by decide) .nil
  constructor
  · have hb : Text.IsUtf8 ('{'.toUInt8 :: sigil :: (inside ++ ['}'.toUInt8])) :=
      .cons (by decide) (.cons hs (hl.append hc))
    simpa using Text.isRange_append (a := []) hb hr
  · have h := Text.isRange_append (a := ['{'.toUInt8, sigil]) hl (hc.append hr)
    simpa [Nat.add_comm] using h

theorem go_disciplined (ht : t.IsUtf8) (hb : ∀ body ∈ bodies, body ∈ Text.lineBodies t)
    (ha : bodies.Pairwise (· < ·)) :
    Edit.DisciplinedFrom t resume (edits (scan.go closes t resume bodies)) := by
  induction bodies generalizing resume
  case nil => exact .nil
  case cons body bodies hi =>
    have hi {resume : Nat} := @hi resume (fun b h => hb b (by simp [h])) ha.of_cons
    rw [scan.go]
    split
    case isTrue => exact hi
    case isFalse hp =>
      split
      case h_1 => exact hi
      case h_2 s n hr =>
        split
        case isFalse => exact hi
        case isTrue =>
          have hc := ht.isBoundary_lineBodies (hb body (by simp))
          have ⟨hs, _⟩ := isRange_read? (ht.cut hc).right hr
          obtain ⟨_, _, _, _, _, rfl, _⟩ := read?_cases hr
          exact hi.cons (ht.isRange_add hc hs) (by simp [Occurrence.edit]; omega)
            (by simp [Occurrence.edit]) (Nat.le_refl _)

theorem edits_disciplined (closes : Text → Bool) (ht : t.IsUtf8) :
    Edit.Disciplined t (edits (scan closes t)) := by
  refine (go_disciplined ht (fun _ h => h) ?_).toDisciplined
  exact (Text.pairwise_lineBodies t).imp fun h => by omega

theorem exists_read_of_mem_go (h : o ∈ scan.go closes t resume bodies) :
    ∃ body ∈ bodies, ∃ n, read? (t.drop body) = some (o.statement, n) ∧
      o.span = ⟨body, body + n⟩ ∧ o.statement.isExpanded closes = true := by
  induction bodies generalizing resume
  case nil => simp [scan.go] at h
  case cons body bodies hi =>
    have skip {resume : Nat} (h : o ∈ scan.go closes t resume bodies) :
        ∃ body' ∈ body :: bodies, ∃ n, read? (t.drop body') = some (o.statement, n) ∧
          o.span = ⟨body', body' + n⟩ ∧ o.statement.isExpanded closes = true := by
      have ⟨body', hb, hr⟩ := hi h
      exact ⟨body', by simp [hb], hr⟩
    rw [scan.go] at h
    split at h
    case isTrue => exact skip h
    case isFalse =>
      split at h
      case h_1 => exact skip h
      case h_2 s n hr =>
        split at h
        case isFalse => exact skip h
        case isTrue hx =>
          cases h
          case head   => exact ⟨body, by simp, n, hr, rfl, hx⟩
          case tail h => exact skip h

theorem exists_of_mem_go (h : o ∈ scan.go closes t resume bodies) :
    ∃ body ∈ bodies, ∃ n, read? (t.drop body) = some (o.statement, n) ∧
      o.span = ⟨body, body + n⟩ :=
  have ⟨body, hb, n, hr, hs, _⟩ := exists_read_of_mem_go h
  ⟨body, hb, n, hr, hs⟩

theorem isWhole_of_mem_go (ht : t.IsUtf8) (hb : ∀ body ∈ bodies, body ∈ Text.lineBodies t)
    (h : o ∈ scan.go closes t resume bodies) : o.statement.IsWhole := by
  have ⟨body, hm, n, hr, _⟩ := exists_of_mem_go h
  exact isWhole_read? (ht.cut (ht.isBoundary_lineBodies (hb body hm))).right hr

theorem isUtf8_of_mem_edits (ht : t.IsUtf8) {e : Edit} (h : e ∈ edits (scan closes t)) :
    e.text.IsUtf8 := by
  obtain ⟨o, ho, rfl⟩ := List.mem_map.mp h
  exact isUtf8_text (isWhole_of_mem_go ht (fun _ h => h) ho)

structure Cuts (t : Text) : Prop where
  body : ∀ body ∈ Text.lineBodies t, t.isBoundary body = true
  statement : ∀ body ∈ Text.lineBodies t, ∀ s n, read? (t.drop body) = some (s, n) →
    t.isRange body (body + n) = true ∧ t.isRange (body + 2) (body + (n - 1)) = true
  kind : ∀ body ∈ Text.lineBodies t, ∀ kind arguments n,
    read? (t.drop body) = some (opening kind arguments, n) →
      t.isRange (body + 2) (body + (2 + kind.length)) = true

theorem isRange_kind {kind arguments : Text} (ht : t.IsUtf8)
    (h : read? t = some (opening kind arguments, n)) : t.isRange 2 (2 + kind.length) = true := by
  obtain ⟨sigil, inside, rest, rfl, hs, -, hi⟩ := read?_cases h
  have hu := (ht.tail (by decide)).tail hs
  have hk : kind = inside.takeWhile (!Text.isBlank ·) := by
    rcases hi with hi | hi
    · simp only [opening?, Option.ite_none_left_eq_some, Option.some.injEq, opening.injEq] at hi
      exact hi.right.left.symm
    · simp [closing?] at hi
  have ⟨hf, hb⟩ := (hu.around (by decide)).left.span (p := (!Text.isBlank ·)) fun x hx =>
    Text.ascii_of_isBlank (by simpa using hx)
  have hr := Text.isRange_append (a := ['{'.toUInt8, sigil]) (hk ▸ hf)
    (hb.append (.cons (x := '}'.toUInt8) (by decide) (hu.around (by decide)).right))
  rw [← List.append_assoc kind, hk, List.takeWhile_append_dropWhile] at hr
  exact hk ▸ hr

theorem cuts (ht : t.IsUtf8) : Cuts t where
  body _ hb := ht.isBoundary_lineBodies hb
  statement body hb s n h := by
    have hb := ht.isBoundary_lineBodies hb
    have ⟨hs, hi⟩ := isRange_read? (ht.cut hb).right h
    exact ⟨ht.isRange_add hb hs, ht.isRange_add hb hi⟩
  kind body hb kind arguments n h := by
    have hb := ht.isBoundary_lineBodies hb
    exact ht.isRange_add hb (isRange_kind (ht.cut hb).right h)

end PugShorthand.Template.Statement
