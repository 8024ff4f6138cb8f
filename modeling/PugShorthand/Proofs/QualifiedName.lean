import PugShorthand.Proofs.Text.Line
import PugShorthand.QualifiedName

namespace PugShorthand

namespace Text

variable {t a b : Text} {old new : UInt8}

theorem replace_append : replace old new (a ++ b) = replace old new a ++ replace old new b :=
  List.map_append

theorem replace_of_not_mem (h : old ∉ t) : replace old new t = t := by
  have hb : ∀ b ∈ t, (if b = old then new else b) = id b := fun b hb =>
    if_neg fun he : b = old => h (he ▸ hb)
  exact (List.map_congr_left hb).trans t.map_id

end Text

namespace QualifiedName

variable {q : QualifiedName} {t : Text} {separator : UInt8} {e : Edit}

structure IsPlain (q : QualifiedName) : Prop where
  separator_ascii : q.separator < 0x80
  separator_inside : q.separator ≠ '\n'.toUInt8
  stop_ascii : ∀ b, q.isStop b = true → b < 0x80
  newline_stops : q.isStop '\n'.toUInt8 = true

theorem dotted_isPlain : dotted.IsPlain where
  separator_ascii := by decide
  separator_inside := by decide
  stop_ascii := Text.forall_byte (by decide +kernel)
  newline_stops := by decide

theorem coloned_isPlain : coloned.IsPlain where
  separator_ascii := by decide
  separator_inside := by decide
  stop_ascii := Text.forall_byte (by decide +kernel)
  newline_stops := by decide

theorem reach_le_lineLength (hq : q.IsPlain) : q.reach t ≤ Text.lineLength t := by
  induction t
  case nil => simp [reach]
  case cons b t hi =>
    rw [reach]
    -- A newline neither joins two segments nor belongs to one.
    by_cases hb : b = '\n'.toUInt8
    case pos => simp [hb, hq.separator_inside.symm, hq.newline_stops]
    case neg =>
      rw [Text.lineLength, Text.run_cons_of_pos (by simp [hb]), ← Text.lineLength]
      repeat' split
      all_goals omega

theorem reach_le_length : q.reach t ≤ t.length := by
  induction t
  case nil => simp [reach]
  case cons b t hi =>
    rw [reach]
    repeat' split
    all_goals simp only [List.length_cons]; omega

theorem head?_drop_reach :
    ∀ x ∈ (t.drop (q.reach t)).head?, x = q.separator ∨ q.isStop x = true := by
  induction t
  case nil => simp [reach]
  case cons b t hi =>
    rw [reach]
    split
    case isTrue hb =>
      split
      case isTrue  => simpa using hi
      case isFalse => simp [hb]
    case isFalse =>
      split
      case isTrue hs => simp [hs]
      case isFalse   => simpa using hi

theorem not_stop_of_lt_reach {i : Nat} {b : UInt8} (h : i < q.reach t) (hb : t[i]? = some b) :
    b = q.separator ∨ q.isStop b = false := by
  induction t generalizing i
  case nil => simp at hb
  case cons x t hi =>
    rw [reach] at h
    cases i
    case zero =>
      obtain rfl : x = b := by simpa using hb
      by_cases hx : x = q.separator
      case pos => exact .inl hx
      case neg =>
        cases hs : q.isStop x
        case false => exact .inr rfl
        case true  => simp [hx, hs] at h
    case succ i =>
      refine hi ?_ (by simpa using hb)
      repeat' split at h
      all_goals omega

theorem reach_drop_reach : q.reach (t.drop (q.reach t)) = 0 := by
  induction t
  case nil => simp [reach]
  case cons b t hi =>
    cases hr : q.reach (b :: t)
    case zero => exact hr
    case succ n =>
      have hn : n = q.reach t := by
        rw [reach] at hr
        repeat' split at hr
        all_goals omega
      rw [List.drop_succ_cons, hn, hi]

theorem plain_replace {b : UInt8} (hs : separator ≠ q.separator) (hp : q.isStop separator = false)
    (hb : b ∈ Text.replace q.separator separator (t.take (q.reach t))) :
    b ≠ q.separator ∧ q.isStop b = false := by
  have ⟨x, hx, hr⟩ := List.mem_map.mp hb
  have ⟨i, hi⟩ := List.mem_iff_getElem?.mp hx
  by_cases he : x = q.separator
  case pos =>
    rw [if_pos he] at hr
    exact hr ▸ ⟨hs, hp⟩
  case neg =>
    rw [if_neg he] at hr
    rw [List.getElem?_take] at hi
    split at hi
    case isFalse    => cases hi
    case isTrue hlt => exact hr ▸ ⟨he, (not_stop_of_lt_reach hlt hi).resolve_left he⟩

theorem startsUpper_of_lt_reach {i : Nat} (h : i < q.reach t) (hs : t[i]? = some q.separator) :
    startsUpper (t.drop (i + 1)) = true := by
  induction t generalizing i
  case nil => simp at hs
  case cons b t hi =>
    rw [reach] at h
    cases i
    case zero =>
      obtain rfl : b = q.separator := by simpa using hs
      by_cases hu : startsUpper t = true
      case pos => simpa using hu
      case neg => simp [hu] at h
    case succ i =>
      refine hi ?_ (by simpa using hs)
      repeat' split at h
      all_goals omega

theorem lt_reach {i : Nat} (h : ∀ j ≤ i, ∃ b, t[j]? = some b ∧
    (b ≠ q.separator → q.isStop b = false) ∧
      (b = q.separator → startsUpper (t.drop (j + 1)) = true)) : i < q.reach t := by
  induction t generalizing i
  case nil =>
    have ⟨b, hb, _⟩ := h i (Nat.le_refl i)
    simp at hb
  case cons b t hi =>
    have ⟨_, hb, hplain, hjoin⟩ := h 0 (Nat.zero_le i)
    cases hb
    have hgo : q.reach (b :: t) = q.reach t + 1 := by
      rw [reach]
      split
      case isTrue hs  => exact if_pos (hjoin hs)
      case isFalse hs => rw [hplain hs, if_neg Bool.false_ne_true]
    rw [hgo]
    cases i
    case zero   => omega
    case succ i => exact Nat.succ_lt_succ (hi fun j hj => h (j + 1) (by omega))

theorem reach_separator (h : startsUpper t = true) :
    q.reach (q.separator :: t) = q.reach t + 1 := by
  simp [reach, h]

-- A name ends with its line, so it does not depend on the lines behind it.
theorem reach_append_newline {line rest : Text} (hq : q.IsPlain) :
    q.reach (line ++ '\n'.toUInt8 :: rest) = q.reach line := by
  induction line
  case nil => simp [reach, hq.separator_inside.symm, hq.newline_stops]
  case cons b line hi =>
    have hu : startsUpper (line ++ '\n'.toUInt8 :: rest) = startsUpper line := by
      cases line <;> rfl
    rw [List.cons_append, reach, reach, hu, hi]

theorem isBoundary_reach (hq : q.IsPlain) : t.isBoundary (q.reach t) = true := by
  apply Text.isBoundary_iff.mpr (.inr ⟨reach_le_length, fun x hx => ?_⟩)
  apply Text.not_continuation_of_ascii
  cases head?_drop_reach x hx
  case inl hx => exact hx ▸ hq.separator_ascii
  case inr hx => exact hq.stop_ascii x hx

theorem rejoin?_append_newline {line rest : Text} (hq : q.IsPlain) :
    q.rejoin? separator (line ++ '\n'.toUInt8 :: rest) = q.rejoin? separator line := by
  have hu : startsUpper (line ++ '\n'.toUInt8 :: rest) = startsUpper line := by
    cases line <;> rfl
  rw [rejoin?, rejoin?, hu, reach_append_newline hq, List.take_append_of_le_length reach_le_length]

theorem rejoin?_spec (hq : q.IsPlain) (h : q.rejoin? separator t = some e) :
    t[e.start]? = some q.separator ∧ e.start < e.stop ∧ e.stop = q.reach t ∧
      e.text = Text.replace q.separator separator ((t.take e.stop).drop e.start) := by
  have hl := Text.le_length_of_isBoundary (isBoundary_reach (t := t) hq)
  simp only [rejoin?, Option.ite_none_right_eq_some, Option.map_eq_some_iff] at h
  have ⟨_, k, hk, he⟩ := h
  have ⟨hlt, hx, _⟩ := List.findIdx?_eq_some_iff_getElem.mp hk
  have hlen : (t.take (q.reach t)).length = q.reach t := List.length_take_of_le hl
  subst he
  refine ⟨?_, hlt, hlen, by rw [hlen]⟩
  rw [← beq_iff_eq.mp hx, List.getElem_take]
  exact List.getElem?_eq_getElem _

theorem isRange_rejoin? (hq : q.IsPlain) (ht : t.IsUtf8) (h : q.rejoin? separator t = some e) :
    t.isRange e.start e.stop = true := by
  have ⟨hs, hlt, he, _⟩ := rejoin?_spec hq h
  have hb := (ht.isBoundary_of_ascii hs hq.separator_ascii).left
  exact Text.isRange_iff.mpr ⟨Nat.le_of_lt hlt, hb, he ▸ isBoundary_reach hq⟩

theorem isUtf8_rejoin? (hq : q.IsPlain) (hs : separator < 0x80) (ht : t.IsUtf8)
    (h : q.rejoin? separator t = some e) : e.text.IsUtf8 := by
  have ⟨_, _, _, he⟩ := rejoin?_spec hq h
  exact he ▸ (ht.slice (isRange_rejoin? hq ht h)).replace hq.separator_ascii hs

theorem not_mem_take_of_rejoin? (h : q.rejoin? separator t = some e) :
    q.separator ∉ t.take e.start := by
  simp only [rejoin?, Option.ite_none_right_eq_some, Option.map_eq_some_iff] at h
  have ⟨_, k, hk, he⟩ := h
  have ⟨_, _, hfirst⟩ := List.findIdx?_eq_some_iff_getElem.mp hk
  intro hm
  have ⟨i, hi, hx⟩ := List.mem_iff_getElem.mp hm
  subst he
  simp only [List.length_take] at hi
  have := hfirst i (by omega)
  simp_all

theorem take_append_rejoin? (hq : q.IsPlain) (h : q.rejoin? separator t = some e) :
    startsUpper t = true ∧
      t.take e.start ++ e.text = Text.replace q.separator separator (t.take (q.reach t)) := by
  have ⟨_, hlt, hstop, htext⟩ := rejoin?_spec hq h
  refine ⟨(Option.ite_none_right_eq_some.mp h).left, ?_⟩
  rw [← hstop, Text.take_eq_append (Nat.le_of_lt hlt), Text.replace_append,
    Text.replace_of_not_mem (not_mem_take_of_rejoin? h), htext]

theorem not_mem_of_rejoin? (hu : startsUpper t = true) (h : q.rejoin? separator t = none) :
    q.separator ∉ t.take (q.reach t) := by
  intro hm
  simp only [rejoin?, hu, if_true, Option.map_eq_none_iff, List.findIdx?_eq_none_iff] at h
  have := h _ hm
  simp at this

theorem rejoin?_of_not_mem (h : q.separator ∉ t.take (q.reach t)) :
    q.rejoin? separator t = none := by
  have hn : (t.take (q.reach t)).findIdx? (· == q.separator) = none := by
    refine List.findIdx?_eq_none_iff.mpr fun b hb => Bool.eq_false_iff.mpr fun he => h ?_
    rwa [← beq_iff_eq.mp he]
  simp only [rejoin?, hn, Option.map_none, ite_self]

end QualifiedName

end PugShorthand
