import PugShorthand.Proofs.Edit.Discipline

namespace PugShorthand.Edit

variable {t front : Text} {e : Edit} {edits : List Edit} {pos grown : Nat}

structure IsInsertion (e : Edit) : Prop where
  stop_eq : e.stop = e.start
  adds : e.text ≠ []

-- The deletions of what insertions have put into a text, at the offsets of the text they leave.
-- `grown` is by how much the text has grown in front of them.
def undo (grown : Nat) : List Edit → List Edit
  | [] => []
  | e :: rest =>
    .deletion (grown + e.start) (grown + e.start + e.text.length) ::
      undo (grown + e.text.length) rest

theorem DisciplinedFrom.of_cons (h : DisciplinedFrom t pos (e :: edits)) :
    DisciplinedFrom t e.stop edits where
  inRange x hx := h.inRange x (by simp [hx])
  ascending := h.ascending.of_cons
  behind x hx := ((List.pairwise_cons.mp h.ascending).left x hx).right

theorem undo_spliceFrom (h : DisciplinedFrom t pos edits) (hi : ∀ e ∈ edits, e.IsInsertion)
    (ht : t.IsUtf8) (hp : t.isBoundary pos = true) (hw : ∀ e ∈ edits, e.text.IsUtf8)
    (hf : front.IsUtf8) (hl : front.length = grown + pos) :
    DisciplinedFrom (front ++ spliceFrom t pos edits) (grown + pos) (undo grown edits) ∧
      spliceFrom (front ++ spliceFrom t pos edits) (grown + pos) (undo grown edits) =
        t.drop pos := by
  -- By induction on the edits. What was spliced together up to an insertion is `front`, and the
  -- insertion itself becomes part of it.
  induction edits generalizing pos grown front
  case nil =>
    refine ⟨.nil, ?_⟩
    rw [undo, spliceFrom, spliceFrom, ← hl, List.drop_left]
  case cons e edits hi' =>
    obtain ⟨hstop, hadds⟩ := hi e (by simp)
    obtain ⟨_, hb, _⟩ := Text.isRange_iff.mp (h.inRange e (by simp))
    have hle := h.behind e (by simp)
    have hadds := List.length_pos_iff.mpr hadds
    have htext := hw e (by simp)
    have hgap := ht.slice (Text.isRange_iff.mpr ⟨hle, hp, hb⟩)
    have hdrop := Text.drop_eq_append (t := t) hle
    have hlen : ((t.take e.start).drop pos).length = e.start - pos := by
      rw [List.length_drop, List.length_take_of_le (Text.le_length_of_isBoundary hb)]
    rw [spliceFrom]
    generalize (t.take e.start).drop pos = gap at hgap hdrop hlen ⊢
    have hrest := h.of_cons
    have hwhole : (spliceFrom t e.stop edits).IsUtf8 :=
      (hrest.chain ht fun x hx => hw x (by simp [hx])).isUtf8_spliceFrom (hstop ▸ hb) hrest.behind
    have hfront : (front ++ gap).length = grown + e.start := by
      rw [List.length_append, hl, hlen]
      omega
    obtain ⟨hd, hs⟩ := @hi' (front ++ gap ++ e.text) e.stop (grown + e.text.length) hrest
      (fun x hx => hi x (by simp [hx])) (hstop ▸ hb) (fun x hx => hw x (by simp [hx]))
      ((hf.append hgap).append htext) (by rw [List.length_append, hfront, hstop]; omega)
    have hout : front ++ (gap ++ e.text ++ spliceFrom t e.stop edits) =
        front ++ gap ++ e.text ++ spliceFrom t e.stop edits := by simp
    rw [hout, undo]
    constructor
    case left =>
      have hrange := Text.isRange_append (a := front ++ gap) htext hwhole
      rw [hfront, ← List.append_assoc] at hrange
      refine hd.cons hrange ?_ ?_ ?_
      all_goals simp only [deletion]; omega
    case right =>
      have hresume : grown + e.start + e.text.length = grown + e.text.length + e.stop := by omega
      simp only [spliceFrom, deletion, List.append_nil]
      rw [hresume, hs, hstop, hdrop, ← hfront, List.append_assoc (front ++ gap), List.take_left,
        ← hl, List.drop_left]

theorem text_of_mem_undo (h : e ∈ undo grown edits) : e.text = [] := by
  induction edits generalizing grown
  case nil => cases h
  case cons x edits hi =>
    cases h
    case head   => rfl
    case tail h => exact hi h

theorem applyAll_undo (h : Disciplined t edits) (hi : ∀ e ∈ edits, e.IsInsertion) (ht : t.IsUtf8)
    (hw : ∀ e ∈ edits, e.text.IsUtf8) :
    applyAll (undo 0 edits) (spliceFrom t 0 edits) = .ok t := by
  have hfrom : DisciplinedFrom t 0 edits := ⟨h, fun _ _ => Nat.zero_le _⟩
  have ⟨hd, hs⟩ := @undo_spliceFrom t [] edits 0 0 hfrom hi ht Text.isBoundary_zero hw .nil rfl
  rw [List.nil_append] at hd hs
  rw [hd.toDisciplined.applyAll (h.isUtf8_spliceFrom ht hw) fun e he => text_of_mem_undo he ▸ .nil]
  exact congrArg _ hs

end PugShorthand.Edit
