import PugShorthand.Markup.Tag
import PugShorthand.Proofs.Edit.Discipline
import PugShorthand.Proofs.QualifiedName

namespace PugShorthand.Markup.Tag

variable {t rest : Text} {e : Edit} {pos resume : Nat}

theorem edit?_cases (h : edit? t = some e) :
    t.head? = some '<'.toUInt8 ∧ ∃ front name e', t = front ++ name ∧ (∀ b ∈ front, b < 0x80) ∧
      QualifiedName.coloned.rejoin? '.'.toUInt8 name = some e' ∧ e'.shift front.length = e := by
  cases t
  case nil => simp [edit?] at h
  case cons b s =>
    simp only [edit?, Option.ite_none_right_eq_some] at h
    obtain ⟨rfl, h⟩ := h
    refine ⟨rfl, ?_⟩
    have ⟨e', he, hs⟩ := Option.map_eq_some_iff.mp h
    split at he
    case isTrue hc =>
      have ⟨name, hn⟩ := List.head?_eq_some_iff.mp hc
      refine ⟨['<'.toUInt8, '/'.toUInt8], name, e', by simp [hn], Text.ascii_of_all rfl, ?_, ?_⟩
      · simpa [hn] using he
      · simpa [hc] using hs
    case isFalse hc =>
      exact ⟨['<'.toUInt8], s, e', rfl, Text.ascii_of_all rfl, he, by simpa [hc] using hs⟩

theorem start_lt_stop (h : edit? t = some e) : e.start < e.stop := by
  obtain ⟨_, front, name, e', _, _, he, rfl⟩ := edit?_cases h
  have ⟨_, hlt, _⟩ := QualifiedName.rejoin?_spec QualifiedName.coloned_isPlain he
  exact Nat.add_lt_add_left hlt _

theorem isRange_edit? (ht : t.IsUtf8) (h : edit? t = some e) :
    t.isRange e.start e.stop = true := by
  obtain ⟨_, front, name, e', rfl, hf, he, rfl⟩ := edit?_cases h
  have hn := ht.of_ascii_append hf
  refine ht.isRange_add (Text.isBoundary_append hn) ?_
  rw [List.drop_left]
  exact QualifiedName.isRange_rejoin? QualifiedName.coloned_isPlain hn he

theorem go_disciplined (ht : t.IsUtf8) (hr : t.drop pos = rest) :
    Edit.DisciplinedFrom t (max pos resume) (edits.go pos resume rest) := by
  induction rest generalizing pos resume
  case nil => exact .nil
  case cons b rest hi =>
    have hr' : t.drop (pos + 1) = rest := Text.drop_succ hr
    have skip : Edit.DisciplinedFrom t (max pos resume) (edits.go (pos + 1) resume rest) :=
      (hi hr').of_le (by omega)
    rw [edits.go]
    split
    case isTrue => exact skip
    case isFalse hp =>
      split
      case h_1 => exact skip
      case h_2 e he =>
        have hlt := start_lt_stop he
        have hb : t[pos]? = some '<'.toUInt8 := by
          rw [← List.head?_drop, hr]
          exact (edit?_cases he).left
        have ⟨hb, _⟩ := ht.isBoundary_of_ascii hb (by decide)
        have he' := isRange_edit? (hr ▸ (ht.cut hb).right) he
        have hd := @hi _ (pos + e.stop) hr'
        refine hd.cons (ht.isRange_add hb (hr ▸ he')) ?_ ?_ ?_
        all_goals simp only [Edit.shift]; omega

theorem edits_disciplined (ht : t.IsUtf8) : Edit.Disciplined t (edits t) :=
  (go_disciplined ht rfl).toDisciplined

end PugShorthand.Markup.Tag
