import PugShorthand.Proofs.Edit.Splice

namespace PugShorthand.Edit

variable {t : Text} {e : Edit} {edits es : List Edit}

-- Edits in the order in which they stand in the text: each cuts the text between characters, and
-- each starts behind the start of the one before it and not before its end.
structure Disciplined (t : Text) (edits : List Edit) : Prop where
  inRange : ∀ e ∈ edits, t.isRange e.start e.stop = true
  ascending : edits.Pairwise fun a b => a.start < b.start ∧ a.stop ≤ b.start

namespace Disciplined

theorem nil : Disciplined t [] where
  inRange := by simp
  ascending := .nil

theorem cons (he : t.isRange e.start e.stop = true)
    (hl : ∀ x ∈ edits, e.start < x.start ∧ e.stop ≤ x.start) (h : Disciplined t edits) :
    Disciplined t (e :: edits) where
  inRange := by simpa [he] using h.inRange
  ascending := .cons hl h.ascending

theorem singleton (he : t.isRange e.start e.stop = true) : Disciplined t [e] :=
  cons he (by simp) nil

theorem chain (h : Disciplined t edits) (ht : t.IsUtf8) (hw : ∀ e ∈ edits, e.text.IsUtf8) :
    Chain t edits where
  base_whole := ht
  whole := hw
  inRange := h.inRange
  apart := h.ascending.imp And.right

theorem earliestFirst_eq (h : Disciplined t es) (hp : edits.Perm es) :
    earliestFirst edits = es := by
  have hs := h.ascending.imp fun hab => Nat.le_of_lt hab.left
  refine List.Perm.eq_of_pairwise (fun a b ha hb hab hba => ?_) earliestFirst_sorted hs
    (earliestFirst_perm.trans hp)
  have ha := hp.mem_iff.mp (mem_earliestFirst.mp ha)
  have hn : (es.map Edit.start).Nodup :=
    List.pairwise_map.mpr (h.ascending.imp fun hab => Nat.ne_of_lt hab.left)
  exact List.inj_on_of_nodup_map hn ha hb (Nat.le_antisymm hab hba)

theorem applyAll_perm (h : Disciplined t es) (hp : edits.Perm es) (ht : t.IsUtf8)
    (hw : ∀ e ∈ es, e.text.IsUtf8) : applyAll edits t = .ok (spliceFrom t 0 es) := by
  have hc := h.chain ht hw
  have hs := h.earliestFirst_eq hp
  have := Draft.preview_of_chain (d := { base := t, edits }) (hs.symm ▸ hc)
  simp [applyAll, Draft.finish, Draft.commit, this, hs, bind, Except.bind, pure, Except.pure]

theorem applyAll (h : Disciplined t edits) (ht : t.IsUtf8) (hw : ∀ e ∈ edits, e.text.IsUtf8) :
    Edit.applyAll edits t = .ok (spliceFrom t 0 edits) :=
  h.applyAll_perm (.refl _) ht hw

theorem isUtf8_spliceFrom (h : Disciplined t edits) (ht : t.IsUtf8)
    (hw : ∀ e ∈ edits, e.text.IsUtf8) : (spliceFrom t 0 edits).IsUtf8 :=
  (h.chain ht hw).isUtf8_spliceFrom Text.isBoundary_zero fun _ _ => Nat.zero_le _

end Disciplined

structure DisciplinedFrom (t : Text) (pos : Nat) (edits : List Edit) : Prop
    extends Disciplined t edits where
  behind : ∀ e ∈ edits, pos ≤ e.start

namespace DisciplinedFrom

variable {pos resume : Nat}

theorem nil : DisciplinedFrom t pos [] where
  toDisciplined := .nil
  behind := by simp

theorem of_le (h : DisciplinedFrom t resume edits) (hp : pos ≤ resume) :
    DisciplinedFrom t pos edits where
  toDisciplined := h.toDisciplined
  behind e he := Nat.le_trans hp (h.behind e he)

theorem cons (h : DisciplinedFrom t resume edits) (he : t.isRange e.start e.stop = true)
    (hp : pos ≤ e.start) (hs : e.start < resume) (hl : e.stop ≤ resume) :
    DisciplinedFrom t pos (e :: edits) where
  toDisciplined := h.toDisciplined.cons he fun x hx =>
    ⟨Nat.lt_of_lt_of_le hs (h.behind x hx), Nat.le_trans hl (h.behind x hx)⟩
  behind := by
    simp only [List.mem_cons, forall_eq_or_imp]
    exact ⟨hp, fun x hx => by have := h.behind x hx; omega⟩

end DisciplinedFrom

end PugShorthand.Edit
