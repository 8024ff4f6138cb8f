import PugShorthand.Proofs.Edit.Discipline
import PugShorthand.Proofs.QualifiedName
import PugShorthand.Template.Component

namespace PugShorthand.Template.Component

variable {fragmentTag line t : Text} {e : Edit}

theorem edit?_cases (h : edit? fragmentTag line = some e) :
    e = .insertion 0 fragmentTag ∨ QualifiedName.dotted.rejoin? ':'.toUInt8 line = some e := by
  rw [edit?] at h
  split at h
  case isTrue  => exact .inl (Option.some.inj h).symm
  case isFalse => exact .inr h

theorem isSome_edit?_iff : (edit? fragmentTag line).isSome = true ↔
    line.head? = some '('.toUInt8 ∨
      (QualifiedName.dotted.rejoin? ':'.toUInt8 line).isSome = true := by
  by_cases h : line.head? = some '('.toUInt8 <;> simp [edit?, h]

theorem isRange_edit? (hl : line.IsUtf8) (h : edit? fragmentTag line = some e) :
    line.isRange e.start e.stop = true := by
  rcases edit?_cases h with rfl | h
  · simp [Text.isRange, Edit.insertion]
  · exact QualifiedName.isRange_rejoin? QualifiedName.dotted_isPlain hl h

theorem stop_le_lineLength (h : edit? fragmentTag line = some e) :
    e.stop ≤ Text.lineLength line := by
  rcases edit?_cases h with rfl | h
  · exact Nat.zero_le _
  · have ⟨_, _, he, _⟩ := QualifiedName.rejoin?_spec QualifiedName.dotted_isPlain h
    exact he ▸ QualifiedName.reach_le_lineLength QualifiedName.dotted_isPlain

theorem isUtf8_edit? (hf : fragmentTag.IsUtf8) (hl : line.IsUtf8)
    (h : edit? fragmentTag line = some e) : e.text.IsUtf8 := by
  rcases edit?_cases h with rfl | h
  · exact hf
  · exact QualifiedName.isUtf8_rejoin? QualifiedName.dotted_isPlain (by decide) hl h

theorem exists_of_mem_edits (h : e ∈ edits fragmentTag t) :
    ∃ body ∈ Text.lineBodies t, ∃ e', edit? fragmentTag (t.drop body) = some e' ∧
      e'.shift body = e := by
  have ⟨body, hb, he⟩ := List.mem_filterMap.mp h
  exact ⟨body, hb, Option.map_eq_some_iff.mp he⟩

theorem edits_disciplined (ht : t.IsUtf8) : Edit.Disciplined t (edits fragmentTag t) where
  inRange e he := by
    have ⟨body, hb, e', he', hs⟩ := exists_of_mem_edits he
    have hb := ht.isBoundary_lineBodies hb
    exact hs ▸ ht.isRange_add hb (isRange_edit? (ht.cut hb).right he')
  ascending := by
    refine (List.Pairwise.and_mem.mp (Text.pairwise_lineBodies t)).filterMap _ ?_
    intro a b ⟨ha, _, hab⟩ x hx y hy
    obtain ⟨x', hx', rfl⟩ := Option.map_eq_some_iff.mp hx
    obtain ⟨y', hy', rfl⟩ := Option.map_eq_some_iff.mp hy
    have hl := (ht.cut (ht.isBoundary_lineBodies ha)).right
    have ⟨hr, _⟩ := Text.isRange_iff.mp (isRange_edit? hl hx')
    have hs := stop_le_lineLength hx'
    simp only [Edit.shift]
    omega

theorem isUtf8_of_mem_edits (hf : fragmentTag.IsUtf8) (ht : t.IsUtf8)
    (h : e ∈ edits fragmentTag t) : e.text.IsUtf8 := by
  obtain ⟨body, hb, e', he', rfl⟩ := exists_of_mem_edits h
  have hu : e'.text.IsUtf8 := isUtf8_edit? hf (ht.cut (ht.isBoundary_lineBodies hb)).right he'
  exact hu

structure Cuts (fragmentTag t : Text) : Prop where
  body : ∀ body ∈ Text.lineBodies t, t.isBoundary body = true
  name : ∀ body ∈ Text.lineBodies t, ∀ e ∈ edit? fragmentTag (t.drop body),
    t.isRange body (body + e.start) = true ∧ t.isRange (body + e.start) (body + e.stop) = true

theorem cuts (ht : t.IsUtf8) : Cuts fragmentTag t where
  body _ hb := ht.isBoundary_lineBodies hb
  name body hb e he := by
    have hb := ht.isBoundary_lineBodies hb
    have hr := ht.isRange_add hb (isRange_edit? (ht.cut hb).right he)
    have ⟨_, hs, _⟩ := Text.isRange_iff.mp hr
    exact ⟨Text.isRange_iff.mpr ⟨by omega, hb, hs⟩, hr⟩

end PugShorthand.Template.Component
