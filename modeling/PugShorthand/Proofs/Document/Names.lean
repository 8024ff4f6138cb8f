import PugShorthand.Proofs.Markup.Restore
import PugShorthand.Proofs.Template.Qualified

namespace PugShorthand

open QualifiedName

variable {segments : List Text} {s rest front back indent fragmentTag : Text}

structure QualifiedName.IsSegment (s : Text) : Prop where
  whole : s.IsUtf8
  upper : startsUpper s = true
  plain : ∀ b ∈ s, b ∉ Text.ofString ".:>( \t\r\n"

theorem QualifiedName.IsSegment.admits (h : IsSegment s) : dotted.Admits s ∧ coloned.Admits s := by
  have hp (b : UInt8) := Text.forall_byte (p := fun b => b ∉ Text.ofString ".:>( \t\r\n" →
    (b ≠ dotted.separator ∧ dotted.isStop b = false) ∧
      (b ≠ coloned.separator ∧ coloned.isStop b = false)) (by decide +kernel) b
  exact ⟨⟨h.upper, fun b hb => (hp b (h.plain b hb)).left⟩,
    ⟨h.upper, fun b hb => (hp b (h.plain b hb)).right⟩⟩

namespace QualifiedName

theorem isUtf8_join (q : QualifiedName) (hq : q.IsPlain) (h : ∀ s ∈ segments, IsSegment s) :
    (q.join segments).IsUtf8 :=
  .intercalate (.of_ascii (by simpa using hq.separator_ascii)) fun s hs => (h s hs).whole

end QualifiedName

namespace Template.Component

theorem qualified_join (hk : 2 ≤ segments.length) (h : ∀ s ∈ segments, IsSegment s)
    (hi : ∀ b ∈ indent, Text.isIndent b = true) (hb : dotted.endsAt back = true) :
    qualified fragmentTag (front ++ '\n'.toUInt8 :: (indent ++ (dotted.join segments ++ back))) =
      qualified fragmentTag front ++
        '\n'.toUInt8 :: (indent ++ (coloned.join segments ++ qualified fragmentTag back)) := by
  have ha : ∀ s ∈ segments, dotted.Admits s := fun s hs => (h s hs).admits.left
  have ⟨e, he, hstop, ht⟩ := @exists_rejoin? dotted coloned back segments dotted_isPlain
    (by decide) hk ha hb
  have ⟨hu, _⟩ := take_append_rejoin? dotted_isPlain he
  have ⟨hedit, hhead⟩ := @edit?_of_startsUpper fragmentTag _ hu
  have hline := qualified_newline hi hhead (hedit.trans he)
  rw [ht, hstop, List.drop_left] at hline
  rw [qualified_append_newline]
  exact congrArg _ hline

end Template.Component

namespace Markup.Tag

theorem restored_true_join (h : ∀ s ∈ segments, IsSegment s) (hb : coloned.endsAt back = true) :
    restored true (coloned.join segments ++ back) =
      dotted.join segments ++ restored false back := by
  have ha : ∀ s ∈ segments, coloned.Admits s := fun s hs => (h s hs).admits.right
  have hj := @replace_join coloned dotted segments fun s hs => (ha s hs).separator_not_mem
  rw [restored_true, reach_join (by decide) ha hb, List.take_left, List.drop_left]
  exact congrArg (· ++ restored false back) hj

theorem opensName_of_startsUpper (h : startsUpper rest = true) :
    opensName rest = true ∧ opensName ('/'.toUInt8 :: rest) = true := by
  have hn : rest.head? ≠ some '/'.toUInt8 := by
    intro hh
    simp only [startsUpper, hh, Option.any_some] at h
    exact absurd h (by decide)
  exact ⟨by rwa [opensName, nameOffset, if_neg hn], h⟩

theorem restored_opening (h : opensName rest = true) :
    restored false ('<'.toUInt8 :: rest) = '<'.toUInt8 :: restored true rest := by
  simp [restored, restoredByte, goesOn, h]

theorem restored_join (hk : segments ≠ []) (h : ∀ s ∈ segments, IsSegment s)
    (hb : coloned.endsAt back = true) :
    restored false ('<'.toUInt8 :: (coloned.join segments ++ back)) =
      '<'.toUInt8 :: (dotted.join segments ++ restored false back) ∧
    restored false ('<'.toUInt8 :: '/'.toUInt8 :: (coloned.join segments ++ back)) =
      '<'.toUInt8 :: '/'.toUInt8 :: (dotted.join segments ++ restored false back) := by
  have hu : startsUpper (coloned.join segments ++ back) = true :=
    startsUpper_join hk fun s hs => (h s hs).upper
  have ⟨ho, hc⟩ := opensName_of_startsUpper hu
  rw [restored_opening ho, restored_opening hc, ← restored_true_join h hb]
  exact ⟨rfl, rfl⟩

end Markup.Tag

namespace Document

open Template

-- A component name of several segments is written with colons where a line of a template begins
-- with it, whatever stands around that line, and gets its dots back in an opening and in a closing
-- tag.
theorem names_restored (hk : 2 ≤ segments.length) (h : ∀ s ∈ segments, IsSegment s) :
    (∀ fragmentTag front indent back : Text, fragmentTag.IsUtf8 → front.IsUtf8 → back.IsUtf8 →
      (∀ b ∈ indent, Text.isIndent b = true) → dotted.endsAt back = true →
        ∃ front' back', Edit.applyAll (Component.edits fragmentTag front) front = .ok front' ∧
          Edit.applyAll (Component.edits fragmentTag back) back = .ok back' ∧
          back'.head? = back.head? ∧
          let t := front ++ '\n'.toUInt8 :: (indent ++ (dotted.join segments ++ back))
          Edit.applyAll (Component.edits fragmentTag t) t =
            .ok (front' ++ '\n'.toUInt8 :: (indent ++ (coloned.join segments ++ back')))) ∧
    ∀ back : Text, back.IsUtf8 → coloned.endsAt back = true →
      ∃ back', restore back = .ok back' ∧
        restore (.ofString "<" ++ coloned.join segments ++ back) =
          .ok (.ofString "<" ++ dotted.join segments ++ back') ∧
        restore (.ofString "</" ++ coloned.join segments ++ back) =
          .ok (.ofString "</" ++ dotted.join segments ++ back') := by
  constructor
  case left =>
    intro fragmentTag front indent back hf hfront hback hi hb
    refine ⟨_, _, Component.applyAll_edits hf hfront, Component.applyAll_edits hf hback,
      Component.head?_qualified hback, ?_⟩
    have hindent : indent.IsUtf8 := .of_ascii fun b hb => Text.ascii_of_isIndent (hi b hb)
    have hj := (isUtf8_join dotted dotted_isPlain h).append hback
    rw [← Component.qualified_join hk h hi hb]
    exact Component.applyAll_edits hf (hfront.append (.cons (by decide) (hindent.append hj)))
  case right =>
    intro back hback hb
    have hne : segments ≠ [] := List.ne_nil_of_length_pos (by omega)
    have ⟨ho, hc⟩ := Markup.Tag.restored_join hne h hb
    have hj := (isUtf8_join coloned coloned_isPlain h).append hback
    refine ⟨_, Markup.Tag.restore_eq hback, ?_, ?_⟩
    · exact (Markup.Tag.restore_eq (.cons (by decide) hj)).trans (congrArg _ ho)
    · exact (Markup.Tag.restore_eq (.cons (by decide) (.cons (by decide) hj))).trans
        (congrArg _ hc)

theorem names_restored_of_three :
    let segments := [Text.ofString "Forms", Text.ofString "Größe", Text.ofString "X"]
    let front := Text.ofString "p\nA.B"
    let back := Text.ofString "(a=1)\nC.D"
    2 ≤ segments.length ∧ (∀ s ∈ segments, IsSegment s) ∧ dotted.endsAt back = true ∧
      coloned.endsAt (.ofString ">x</E:F>") = true ∧
      Edit.applyAll (Component.edits (.ofString "f")
          (front ++ '\n'.toUInt8 :: (Text.ofString "\t " ++ (dotted.join segments ++ back))))
        (front ++ '\n'.toUInt8 :: (Text.ofString "\t " ++ (dotted.join segments ++ back))) =
          .ok (.ofString "p\nA:B\n\t Forms:Größe:X(a=1)\nC:D") ∧
      restore (.ofString "<" ++ coloned.join segments ++ .ofString ">x</E:F>") =
        .ok (.ofString "<Forms.Größe.X>x</E.F>") := by
  intro segments front back
  have hs : ∀ s ∈ segments, IsSegment s := by
    simp only [segments, List.forall_mem_cons, List.not_mem_nil, false_implies, implies_true,
      and_true]
    refine ⟨⟨Text.isUtf8_ofString _, ?_, ?_⟩, ⟨Text.isUtf8_ofString _, ?_, ?_⟩,
      ⟨Text.isUtf8_ofString _, ?_, ?_⟩⟩ <;> decide +kernel
  have hb : dotted.endsAt back = true := by decide +kernel
  have hc : coloned.endsAt (.ofString ">x</E:F>") = true := by decide +kernel
  have hu := Text.isUtf8_ofString
  have ⟨hp, hm⟩ := names_restored (by decide : 2 ≤ segments.length) hs
  have ⟨front', back', hfront, hback, _, ht⟩ :=
    hp (.ofString "f") front (.ofString "\t ") back (hu _) (hu _) (hu _) (by decide +kernel) hb
  have ⟨back'', hr, ho, _⟩ := hm _ (hu _) hc
  have hfront' : Edit.applyAll (Component.edits (.ofString "f") front) front =
      .ok (.ofString "p\nA:B") := by decide +kernel
  have hback' : Edit.applyAll (Component.edits (.ofString "f") back) back =
      .ok (.ofString "(a=1)\nC:D") := by decide +kernel
  have hr' : restore (.ofString ">x</E:F>") = .ok (.ofString ">x</E.F>") := by decide +kernel
  cases hfront.symm.trans hfront'
  cases hback.symm.trans hback'
  cases hr.symm.trans hr'
  exact ⟨by decide, hs, hb, hc, ht, ho⟩

end Document

end PugShorthand
