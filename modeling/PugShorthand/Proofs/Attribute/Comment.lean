import PugShorthand.Attribute.Comment
import PugShorthand.Proofs.Attribute.Value
import PugShorthand.Proofs.Edit.Discipline
import PugShorthand.Proofs.Text.Line

namespace PugShorthand.Attribute.Comment

variable {t lines rest : Text} {depth pos resume : Nat}

theorem head?_drop_blockLength :
    ∀ x ∈ (t.drop (blockLength depth t)).head?, x = '\n'.toUInt8 := by
  induction t
  case nil => simp [blockLength]
  case cons b t hi =>
    rw [blockLength]
    split
    case isTrue h => simpa using h.left
    case isFalse  => simpa using hi

theorem blockLength_le_length : blockLength depth t ≤ t.length := by
  induction t
  case nil => simp [blockLength]
  case cons b t hi =>
    rw [blockLength]
    split
    case isTrue  => exact Nat.zero_le _
    case isFalse => simpa using hi

theorem isBoundary_blockLength : t.isBoundary (blockLength depth t) = true := by
  apply Text.isBoundary_iff.mpr (.inr ⟨blockLength_le_length, fun x hx => ?_⟩)
  rw [head?_drop_blockLength x hx]
  decide

theorem isBoundary_word (h : lines.IsUtf8)
    (hm : Text.after? mark (lines.drop (Text.indentation lines)) = some rest) :
    lines.isBoundary
      (Text.indentation lines + mark.length + Text.run (!Text.isBlank ·) rest) = true := by
  have hd := h.drop_indentation
  have hr : rest.IsUtf8 := hd.after? (Text.ascii_of_all rfl) hm
  simp only [Text.after?, Option.ite_none_right_eq_some, Option.some.injEq] at hm
  have hl := (List.isPrefixOf_iff_prefix.mp hm.left).length_le
  have hi : Text.indentation lines ≤ lines.length := Text.run_le_length
  have hw : Text.run (!Text.isBlank ·) rest ≤ rest.length := Text.run_le_length
  rw [← hm.right] at hr hw ⊢
  simp only [List.length_drop] at hl hw
  refine Text.IsUtf8.isBoundary ?_ (by omega)
  rw [← List.drop_drop, ← List.drop_drop, Text.drop_run]
  refine (hr.span fun x hx => ?_).right
  exact Text.ascii_of_isBlank (by simpa using hx)

theorem isBoundary_ofParts {name : Text} {v : Value} (h : t.IsUtf8)
    (ht : t.drop pos = name ++ '='.toUInt8 :: (v.raw ++ rest)) (hv : v.EndsBefore rest) :
    t.isBoundary (Assignment.ofParts t pos name v).span.stop = true := by
  have hu : Text.IsUtf8 (t.take pos ++ name ++ '='.toUInt8 :: (v.raw ++ rest)) := by
    rwa [List.append_assoc, ← ht, List.take_append_drop]
  have hr := (hv.isUtf8 (hu.around (by decide)).right).right
  have hl := congrArg List.length ht
  simp only [List.length_drop, List.length_append, List.length_cons] at hl
  refine Text.IsUtf8.isBoundary ?_ (by simp only [Assignment.ofParts]; omega)
  simp only [Assignment.ofParts]
  rw [← List.drop_drop, Assignment.drop_value ht, List.drop_left]
  exact hr

theorem exists_length (h : lines.IsUtf8) :
    ∃ length, length? lines = .ok length ∧ ∀ n ∈ length, lines.isBoundary n = true := by
  have through {covered : Nat} (hc : lines.isBoundary covered = true)
      (hl : length? lines =
        .ok (some (covered + blockLength (Text.indentation lines) (lines.drop covered)))) :
      ∃ length, length? lines = .ok length ∧ ∀ n ∈ length, lines.isBoundary n = true :=
    ⟨_, hl, by simpa using h.isBoundary_add hc isBoundary_blockLength⟩
  cases hm : Text.after? mark (lines.drop (Text.indentation lines))
  case none => exact ⟨none, by simp [length?, hm], by simp⟩
  case some afterMark =>
    have hw := isBoundary_word h hm
    generalize hword : Text.indentation lines + mark.length +
      Text.run (!Text.isBlank ·) afterMark = word at hw
    rcases Assignment.exists_parts lines (word + 1) with hf | ⟨name, v, s, ht, hn, hv⟩
    case inl =>
      refine through hw ?_
      simp [length?, hm, hword, hf, bind, Except.bind, pure, Except.pure]
    case inr =>
      refine through (isBoundary_ofParts h ht hv) ?_
      simp [length?, hm, hword, Assignment.find_eq ht hn hv, bind, Except.bind, pure, Except.pure]

theorem exists_go (h : t.IsUtf8) (ht : t.drop pos = rest) :
    ∃ found, blocks.go pos resume rest = .ok found ∧
      Edit.DisciplinedFrom t (max pos resume) (deletions found) := by
  induction rest generalizing pos resume
  case nil => exact ⟨[], rfl, .nil⟩
  case cons b rest hi =>
    have ht' : t.drop (pos + 1) = rest := Text.drop_succ ht
    have skip : ∃ found, blocks.go (pos + 1) resume rest = .ok found ∧
        Edit.DisciplinedFrom t (max pos resume) (deletions found) := by
      have ⟨found, hg, hd⟩ := @hi _ resume ht'
      exact ⟨found, hg, hd.of_le (by omega)⟩
    rw [blocks.go]
    split
    case isTrue => exact skip
    case isFalse hb =>
      simp only [Bool.or_eq_true, decide_eq_true_eq, not_or, ne_eq, Decidable.not_not] at hb
      have hp : t[pos]? = some '\n'.toUInt8 := by rw [← List.head?_drop, ht, hb.right]; rfl
      have ⟨hs, hn⟩ := h.isBoundary_of_ascii hp (by decide)
      have ⟨length, hl, hk⟩ := exists_length (ht' ▸ (h.cut hn).right)
      cases length
      case none => simpa only [hl, bind, Except.bind] using skip
      case some length =>
        have ⟨found, hg, hd⟩ := @hi _ (pos + 1 + length) ht'
        refine ⟨⟨pos, pos + 1 + length⟩ :: found, ?_, ?_⟩
        · simp [hl, hg, bind, Except.bind, pure, Except.pure]
        · have hr : t.isRange pos (pos + 1 + length) = true :=
            Text.isRange_iff.mpr ⟨by omega, hs, h.isBoundary_add hn (ht'.symm ▸ hk length rfl)⟩
          refine hd.cons (e := .deletion pos (pos + 1 + length)) hr ?_ ?_ ?_
          all_goals simp only [Edit.deletion]; omega

theorem head?_drop_length {n : Nat} (h : length? lines = .ok (some n)) :
    ∀ x ∈ (lines.drop n).head?, x = '\n'.toUInt8 := by
  simp only [length?] at h
  split at h
  case h_1 => simp at h
  case h_2 =>
    have ⟨found, _, h⟩ := Fault.exists_of_bind h
    simp only [pure, Except.pure, Except.ok.injEq, Option.some.injEq] at h
    rw [← h, ← List.drop_drop]
    exact head?_drop_blockLength

theorem head?_of_mem_go {found : List Span} {s : Span} (ht : t.drop pos = rest)
    (h : blocks.go pos resume rest = .ok found) (hs : s ∈ found) :
    ∀ x ∈ (t.drop s.stop).head?, x = '\n'.toUInt8 := by
  induction rest generalizing pos resume found
  case nil =>
    cases h
    cases hs
  case cons b rest hi =>
    have ht' : t.drop (pos + 1) = rest := Text.drop_succ ht
    rw [blocks.go] at h
    split at h
    case isTrue => exact hi ht' h hs
    case isFalse =>
      have ⟨length, hl, h⟩ := Fault.exists_of_bind h
      cases length
      case none => exact hi ht' h hs
      case some length =>
        have ⟨found', hf, h⟩ := Fault.exists_of_bind h
        cases h
        cases hs
        case head =>
          rw [← List.drop_drop, ht']
          exact head?_drop_length hl
        case tail hs => exact hi ht' hf hs

theorem exists_blocks (h : t.IsUtf8) :
    ∃ found, blocks t = .ok found ∧ Edit.Disciplined t (deletions found) :=
  have ⟨found, hb, hd⟩ := exists_go h rfl
  ⟨found, hb, hd.toDisciplined⟩

theorem isUtf8_of_mem_deletions {found : List Span} {e : Edit} (h : e ∈ deletions found) :
    e.text.IsUtf8 := by
  have ⟨_, _, he⟩ := List.mem_map.mp h
  exact he ▸ .nil

theorem exists_strip (h : t.IsUtf8) : ∃ stripped, strip t = .ok stripped ∧ stripped.IsUtf8 := by
  have ⟨found, hb, hd⟩ := exists_blocks h
  have hw : ∀ e ∈ deletions found, e.text.IsUtf8 := fun _ => isUtf8_of_mem_deletions
  refine ⟨_, ?_, hd.isUtf8_spliceFrom h hw⟩
  simp [strip, hb, hd.applyAll h hw, bind, Except.bind]

end PugShorthand.Attribute.Comment
