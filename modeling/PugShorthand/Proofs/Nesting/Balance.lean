import Mathlib.Data.List.Infix
import PugShorthand.Proofs.Nesting

namespace PugShorthand.Nesting

variable {opening closing last b : UInt8} {depth pos stop : Nat} {t body rest : Text}

structure Balanced (opening closing : UInt8) (depth : Nat) (t : Text) : Prop where
  opened : ∀ p, p <+: t → p.count closing ≤ depth + p.count opening
  closed : t.count closing = depth + t.count opening

instance : Decidable (Balanced opening closing depth t) :=
  decidable_of_iff
    ((∀ p ∈ t.inits, p.count closing ≤ depth + p.count opening) ∧
      t.count closing = depth + t.count opening)
    ⟨fun h => ⟨fun p hp => h.left p ((List.mem_inits ..).mpr hp), h.right⟩,
      fun h => ⟨fun p hp => h.opened p ((List.mem_inits ..).mp hp), h.closed⟩⟩

theorem balanced_nil : Balanced opening closing depth [] ↔ depth = 0 := by
  constructor
  case mp  => exact fun h => by simpa using h.closed.symm
  case mpr =>
    rintro rfl
    exact ⟨fun p hp => by simp [List.prefix_nil.mp hp], by simp⟩

theorem balanced_cons {depth' : Nat}
    (h : ∀ p : Text, (b :: p).count closing ≤ depth + (b :: p).count opening ↔
      p.count closing ≤ depth' + p.count opening)
    (h' : (b :: t).count closing = depth + (b :: t).count opening ↔
      t.count closing = depth' + t.count opening) :
    Balanced opening closing depth (b :: t) ↔ Balanced opening closing depth' t := by
  constructor
  case mp =>
    intro hb
    exact ⟨fun p hp => (h p).mp (hb.opened _ (List.prefix_cons_inj b |>.mpr hp)), h'.mp hb.closed⟩
  case mpr =>
    intro hb
    refine ⟨fun p hp => ?_, h'.mpr hb.closed⟩
    cases List.prefix_cons_iff.mp hp
    case inl hp => simp [hp]
    case inr hp =>
      obtain ⟨p', rfl, hp'⟩ := hp
      exact (h p').mpr (hb.opened p' hp')

theorem balanced_closing (ho : opening ≠ closing) :
    Balanced opening closing depth (closing :: t) ↔
      ∃ d, depth = d + 1 ∧ Balanced opening closing d t := by
  have hc (p : Text) : (closing :: p).count opening = p.count opening :=
    List.count_cons_of_ne ho.symm
  cases depth
  case zero =>
    simp only [Nat.zero_ne_add_one, false_and, exists_false, iff_false]
    intro h
    have := h.opened [closing] (by simp)
    simp [hc] at this
  case succ d =>
    simp only [Nat.add_right_cancel_iff, exists_eq_left']
    apply balanced_cons
    case h  => intro p; simp only [List.count_cons_self, hc]; omega
    case h' => simp only [List.count_cons_self, hc]; omega

theorem balanced_opening (ho : opening ≠ closing) :
    Balanced opening closing depth (opening :: t) ↔ Balanced opening closing (depth + 1) t := by
  have hc (p : Text) : (opening :: p).count closing = p.count closing :=
    List.count_cons_of_ne ho
  apply balanced_cons
  case h  => intro p; simp only [List.count_cons_self, hc]; omega
  case h' => simp only [List.count_cons_self, hc]; omega

theorem balanced_other (hc : b ≠ closing) (ho : b ≠ opening) :
    Balanced opening closing depth (b :: t) ↔ Balanced opening closing depth t := by
  apply balanced_cons
  case h  => intro p; rw [List.count_cons_of_ne hc, List.count_cons_of_ne ho]
  case h' => rw [List.count_cons_of_ne hc, List.count_cons_of_ne ho]

theorem balanced_filter {keep : UInt8 → Bool} (ho : keep opening = true)
    (hc : keep closing = true) :
    Balanced opening closing depth (t.filter keep) ↔ Balanced opening closing depth t := by
  constructor
  case mp =>
    intro h
    refine ⟨fun p hp => ?_, ?_⟩
    · have := h.opened _ (hp.filter keep)
      rwa [List.count_filter ho, List.count_filter hc] at this
    · have := h.closed
      rwa [List.count_filter ho, List.count_filter hc] at this
  case mpr =>
    intro h
    refine ⟨fun p hp => ?_, ?_⟩
    · obtain ⟨p', hp', rfl⟩ := List.prefix_filter_iff.mp hp
      rw [List.count_filter ho, List.count_filter hc]
      exact h.opened p' hp'
    · rw [List.count_filter ho, List.count_filter hc]
      exact h.closed

theorem lt_of_stop? (h : stop? opening closing depth pos last t = some stop) : pos < stop := by
  have ⟨region, _, _, hs, c⟩ := exists_closes h
  have ⟨body, hb⟩ := c.exists_concat
  simp only [hs, hb, List.length_append, List.length_singleton]
  omega

theorem stop?_eq_some_iff_balanced (ho : opening ≠ closing) (hl : last ≠ '\\'.toUInt8)
    (hb : '\\'.toUInt8 ∉ body) :
    stop? opening closing depth pos last (body ++ closing :: rest) =
      some (pos + body.length + 1) ↔ Balanced opening closing depth body := by
  -- By induction on the text in front of a closing delimiter: without a backslash, every delimiter
  -- counts, so the region ends there if what stands in between is balanced.
  induction body generalizing depth pos last
  case nil =>
    rw [List.nil_append, stop?_cons, if_neg hl, if_pos rfl, balanced_nil]
    cases depth
    case zero => simp
    case succ d =>
      refine iff_of_false (fun h => ?_) (Nat.succ_ne_zero d)
      exact absurd (lt_of_stop? h) (by simp)
  case cons b body hi =>
    simp only [List.mem_cons, not_or] at hb
    have hn : pos + (b :: body).length + 1 = pos + 1 + body.length + 1 := by
      simp only [List.length_cons]
      omega
    rw [List.cons_append, stop?_cons, if_neg hl, hn]
    split
    case isTrue hc =>
      subst hc
      rw [balanced_closing ho]
      cases depth
      case zero =>
        simp only [Option.some.injEq, Nat.zero_ne_add_one, false_and, exists_false, iff_false]
        omega
      case succ d => simpa using hi (Ne.symm hb.left) hb.right
    case isFalse hc =>
      split
      case isTrue ho' =>
        subst ho'
        rw [balanced_opening ho]
        exact hi (Ne.symm hb.left) hb.right
      case isFalse ho' =>
        rw [balanced_other hc ho']
        exact hi (Ne.symm hb.left) hb.right

theorem find_eq_some_iff_balanced {start : Nat}
    (h : t.drop start = opening :: (body ++ closing :: rest)) (ho : opening ≠ closing)
    (hl : opening ≠ '\\'.toUInt8) (hb : '\\'.toUInt8 ∉ body) :
    find t start opening closing = .ok (some ⟨start, start + body.length + 2⟩) ↔
      Balanced opening closing 0 body := by
  have hs := @stop?_eq_some_iff_balanced opening closing opening 0 (start + 1) body rest ho hl hb
  have hn : start + body.length + 2 = start + 1 + body.length + 1 := by omega
  rw [find_eq h, ← hs, hn]
  simp

end PugShorthand.Nesting
