import PugShorthand.Proofs.Edit.Discipline

namespace PugShorthand

namespace Text

variable {f : Nat → UInt8 → Text} {t a b : Text} {pos : Nat}

def bytewise (f : Nat → UInt8 → Text) (pos : Nat) (t : Text) : Text :=
  (t.zipIdx pos).flatMap fun (b, i) => f i b

theorem bytewise_cons {b : UInt8} : bytewise f pos (b :: t) = f pos b ++ bytewise f (pos + 1) t :=
  rfl

theorem bytewise_append :
    bytewise f pos (a ++ b) = bytewise f pos a ++ bytewise f (pos + a.length) b := by
  rw [bytewise, List.zipIdx_append, List.flatMap_append]
  rfl

theorem bytewise_eq_map {g : UInt8 → UInt8}
    (h : ∀ i b, t[i]? = some b → f (pos + i) b = [g b]) : bytewise f pos t = t.map g := by
  induction t generalizing pos
  case nil => rfl
  case cons b t hi =>
    have hb : f pos b = [g b] := h 0 b rfl
    have ht : bytewise f (pos + 1) t = t.map g := hi fun i x hx => by
      rw [Nat.add_assoc, Nat.add_comm 1]
      exact h (i + 1) x (by simpa using hx)
    rw [bytewise_cons, hb, ht, List.map_cons, List.singleton_append]

theorem bytewise_eq_self (h : ∀ i b, t[i]? = some b → f (pos + i) b = [b]) :
    bytewise f pos t = t := by
  rw [bytewise_eq_map (g := id) h, List.map_id]

end Text

namespace Edit

variable {f : Nat → UInt8 → Text} {t : Text} {e : Edit} {edits : List Edit} {pos : Nat}

-- Where the bytes end that an edit changes. The byte behind an insertion counts as changed.
def reach (e : Edit) : Nat :=
  max e.stop (e.start + 1)

structure Follows (f : Nat → UInt8 → Text) (t : Text) (e : Edit) : Prop where
  fits : e.reach ≤ t.length
  text : e.text ++ (t.take e.reach).drop e.stop =
    Text.bytewise f e.start ((t.take e.reach).drop e.start)

theorem spliceFrom_eq_bytewise (hd : DisciplinedFrom t pos edits)
    (he : ∀ e ∈ edits, e.Follows f t)
    (hk : ∀ i b, pos ≤ i → t[i]? = some b → (∀ e ∈ edits, ¬(e.start ≤ i ∧ i < e.reach)) →
      f i b = [b]) :
    spliceFrom t pos edits = Text.bytewise f pos (t.drop pos) := by
  -- By induction on the edits: if each of them follows `f`, and `f` keeps the bytes that none of
  -- them changes, then together they make of the base what `f` makes of it.
  induction edits generalizing pos
  case nil =>
    refine (Text.bytewise_eq_self fun i b hb => hk (pos + i) b (by omega) ?_ (by simp)).symm
    rwa [← List.getElem?_drop]
  case cons e edits hi =>
    have ⟨hstop, hb, _⟩ := Text.isRange_iff.mp (hd.inRange e (by simp))
    have hle := hd.behind e (by simp)
    have hstart := Text.le_length_of_isBoundary hb
    have ⟨hlater, ha⟩ := List.pairwise_cons.mp hd.ascending
    have hreach : e.start ≤ e.reach ∧ e.stop ≤ e.reach := by
      rw [reach]
      omega
    have hfrom : ∀ x ∈ edits, e.reach ≤ x.start := fun x hx => by
      have := hlater x hx
      rw [reach]
      omega
    have hrest : DisciplinedFrom t e.reach edits :=
      ⟨⟨fun x hx => hd.inRange x (by simp [hx]), ha⟩, hfrom⟩
    have hback : spliceFrom t e.reach edits = Text.bytewise f e.reach (t.drop e.reach) := by
      refine hi hrest (fun x hx => he x (by simp [hx])) fun i b hr hb hn => ?_
      refine hk i b (by omega) hb fun x hx => ?_
      cases hx
      case head    => omega
      case tail hx => exact hn x hx
    have hgap : Text.bytewise f pos ((t.take e.start).drop pos) = (t.take e.start).drop pos := by
      refine Text.bytewise_eq_self fun i b hb => ?_
      rw [List.getElem?_drop, List.getElem?_take] at hb
      split at hb
      case isFalse => cases hb
      case isTrue hlt =>
        refine hk (pos + i) b (by omega) hb fun x hx => ?_
        cases hx
        case head => omega
        case tail hx =>
          have := hfrom x hx
          omega
    have hcut : t.drop pos = (t.take e.start).drop pos ++
        ((t.take e.reach).drop e.start ++ t.drop e.reach) := by
      rw [← Text.drop_eq_append hreach.left, ← Text.drop_eq_append hle]
    have ⟨hfits, htext⟩ := he e (by simp)
    have hlen : pos + ((t.take e.start).drop pos).length = e.start := by
      rw [List.length_drop, List.length_take_of_le hstart]
      omega
    have hlen' : e.start + ((t.take e.reach).drop e.start).length = e.reach := by
      rw [List.length_drop, List.length_take_of_le hfits]
      omega
    rw [spliceFrom, spliceFrom_eq_append hreach.right hfrom, hback, hcut, Text.bytewise_append,
      Text.bytewise_append, hgap, hlen, hlen', ← htext]
    simp only [List.append_assoc]

end Edit

end PugShorthand
