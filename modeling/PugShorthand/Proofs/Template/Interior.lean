import PugShorthand.Proofs.Template.Component
import PugShorthand.Proofs.Template.Element
import PugShorthand.Proofs.Template.Statement

namespace PugShorthand

variable {t : Text} {e : Edit} {i : Nat}

namespace Template

theorem Component.not_opening_of_lt_start {fragmentTag : Text}
    (h : edit? fragmentTag t = some e) (hi : i < e.start) : t[i]? ≠ some '('.toUInt8 := by
  intro hb
  cases edit?_cases h
  case inl h => simp [h, Edit.insertion] at hi
  case inr h =>
    obtain ⟨_, hlt, hstop, _⟩ := QualifiedName.rejoin?_spec QualifiedName.dotted_isPlain h
    have hr : i < QualifiedName.dotted.reach t := by omega
    exact absurd (QualifiedName.not_stop_of_lt_reach hr hb) (by decide)

theorem exists_newline_of_opening {body start stop : Nat} (hm : body ∈ Text.lineBodies t)
    (ho : t[start]? = some '('.toUInt8) (hs : start < stop) (hb : body ≤ stop)
    (hn : ∀ j, body ≤ j → j < stop → t[j]? ≠ some '('.toUInt8) :
    ∃ newline, start < newline ∧ newline < stop ∧ t[newline]? = some '\n'.toUInt8 := by
  have ⟨newline, hlt, hx, hi⟩ := Text.exists_newline_of_mem_lineBodies hm
  refine ⟨newline, ?_, by omega, hx⟩
  have hbody : start < body := Nat.lt_of_not_le fun hle => hn start hle hs ho
  have hne : start ≠ newline := by
    rintro rfl
    rw [hx] at ho
    exact absurd ho (by decide)
  have hle : ¬newline < start := fun h => absurd (hi start h hbody _ ho) (by decide)
  omega

-- Inside an attribute list the layers for components and for statements change only what stands on
-- lines that begin inside it. So a list that is written on one line is left to the elements.
theorem edits_inside_list_on_inner_lines (s : String) (naming : Export.Naming)
    (fragmentTag : Text) (closes : Text → Bool) :
    ∃ elements, Element.scan naming (.ofString s) = .ok elements ∧
      ∀ list ∈ Element.edits elements,
        ∀ e ∈ Component.edits fragmentTag (.ofString s) ++
            Statement.edits (Statement.scan closes (.ofString s)),
          list.start < e.start → e.start < list.stop →
            ∃ newline, list.start < newline ∧ newline < e.start ∧
              (Text.ofString s)[newline]? = some '\n'.toUInt8 := by
  obtain ⟨elements, hscan, _⟩ := Element.exists_scan naming (Text.isUtf8_ofString s)
  refine ⟨elements, hscan, fun list hlist e he hs _ => ?_⟩
  have ho : (Text.ofString s)[list.start]? = some '('.toUInt8 := by
    obtain ⟨_, _, origin⟩ := Element.exists_origin_of_mem_edits hscan hlist
    obtain ⟨rest, hrest⟩ := origin.opens
    rw [← List.head?_drop, hrest]
    rfl
  cases List.mem_append.mp he
  case inl he =>
    obtain ⟨body, hb, e', he', rfl⟩ := Component.exists_of_mem_edits he
    refine exists_newline_of_opening hb ho hs (Nat.le_add_right ..) fun j hj hlt => ?_
    have hn := Component.not_opening_of_lt_start he' (i := j - body)
      (by simp only [Edit.shift] at hlt; omega)
    rwa [List.getElem?_drop, Nat.add_sub_cancel' hj] at hn
  case inr he =>
    obtain ⟨o, ho', rfl⟩ := List.mem_map.mp he
    obtain ⟨body, hb, n, _, hspan⟩ := Statement.exists_of_mem_go ho'
    have hstart : o.edit.start = body := by rw [Statement.Occurrence.edit, hspan]
    exact exists_newline_of_opening hb ho hs (by omega) fun j hj hlt => by omega

theorem list_holds_edits :
    let t := Text.ofString "\ndiv(on=\x7b\n\tState.Value = 1;\n\t(x)\n\t\x7b#if y\x7d\n\x7d)"
    ∃ elements, Element.scan {} t = .ok elements ∧ ∃ list ∈ Element.edits elements,
      (∃ e ∈ Component.edits (.ofString "svelte:fragment") t,
        e.text = .ofString ":Value" ∧ list.start < e.start ∧ e.start < list.stop) ∧
      (∃ e ∈ Component.edits (.ofString "svelte:fragment") t,
        e.text = .ofString "svelte:fragment" ∧ list.start < e.start ∧ e.start < list.stop) ∧
      ∃ e ∈ Statement.edits (Statement.scan (fun _ => false) t),
        e.text = .ofString "+if(`y`)" ∧ list.start < e.start ∧ e.start < list.stop := by
  intro t
  have hu : t.IsUtf8 := Text.isUtf8_ofString _
  have ⟨elements, hs, _⟩ := Element.exists_scan {} hu
  have hl : (Element.edits elements).map (fun list => (list.start, list.stop)) = [(4, 44)] := by
    have h : (Element.scan {} t).map (fun elements =>
      (Element.edits elements).map fun list => (list.start, list.stop)) = .ok [(4, 44)] := by
        decide +kernel
    rw [hs] at h
    exact Except.ok.inj h
  have ⟨list, hlist, hspan⟩ := List.mem_map.mp (hl ▸ List.mem_singleton_self (4, 44))
  have ⟨hstart, hstop⟩ := Prod.mk.inj hspan
  refine ⟨elements, hs, list, hlist, ?_⟩
  rw [hstart, hstop]
  decide +kernel

end Template

end PugShorthand
