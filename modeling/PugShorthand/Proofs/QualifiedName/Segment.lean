import PugShorthand.Proofs.QualifiedName

namespace PugShorthand.QualifiedName

variable {q q' : QualifiedName} {s t rest : Text} {segments : List Text}

def join (q : QualifiedName) (segments : List Text) : Text :=
  [q.separator].intercalate segments

structure Admits (q : QualifiedName) (s : Text) : Prop where
  upper : startsUpper s = true
  plain : ∀ b ∈ s, b ≠ q.separator ∧ q.isStop b = false

def endsAt (q : QualifiedName) (rest : Text) : Bool :=
  rest.head?.all q.isStop

theorem startsUpper_append (h : startsUpper s = true) : startsUpper (s ++ t) = true := by
  cases s
  case nil  => simp [startsUpper] at h
  case cons => exact h

theorem join_cons_cons : q.join (s :: t :: segments) =
    s ++ q.separator :: q.join (t :: segments) := by
  simp [join, List.intercalate_cons_cons]

theorem startsUpper_join (hs : segments ≠ []) (h : ∀ s ∈ segments, startsUpper s = true) :
    startsUpper (q.join segments ++ rest) = true := by
  match segments with
  | [s] => simpa [join] using startsUpper_append (h s (by simp))
  | s :: t :: ss =>
    rw [join_cons_cons, List.append_assoc]
    exact startsUpper_append (h s (by simp))

theorem separator_mem_join (h : 2 ≤ segments.length) : q.separator ∈ q.join segments := by
  match segments with
  | s :: t :: ss => simp [join_cons_cons]

theorem reach_append (h : ∀ b ∈ s, b ≠ q.separator ∧ q.isStop b = false) :
    q.reach (s ++ t) = s.length + q.reach t := by
  induction s
  case nil => simp
  case cons b s hi =>
    have ⟨hb, hs⟩ := h b (by simp)
    simp only [List.cons_append, reach, hb, hs, if_false, Bool.false_eq_true, List.length_cons,
      hi fun x hx => h x (by simp [hx])]
    omega

theorem reach_of_endsAt (hs : q.isStop q.separator = false) (h : q.endsAt rest = true) :
    q.reach rest = 0 := by
  cases rest
  case nil => rfl
  case cons b rest =>
    have hb : q.isStop b = true := by simpa [endsAt] using h
    have hn : b ≠ q.separator := fun he => by simp [he ▸ hb] at hs
    simp [reach, hn, hb]

theorem reach_join (hs : q.isStop q.separator = false) (h : ∀ s ∈ segments, q.Admits s)
    (hr : q.endsAt rest = true) : q.reach (q.join segments ++ rest) = (q.join segments).length := by
  -- By induction on the segments: each is read whole, and the separator behind it stands in front
  -- of an upper-case letter.
  induction segments
  case nil => simpa [join] using reach_of_endsAt hs hr
  case cons s ss hi =>
    replace hi := hi fun x hx => h x (by simp [hx])
    have hp := (h s (by simp)).plain
    cases ss
    case nil => simp [join, reach_append hp, reach_of_endsAt hs hr]
    case cons t ss =>
      have hu : startsUpper (q.join (t :: ss) ++ rest) = true :=
        startsUpper_join (by simp) fun x hx => (h x (by simp [hx])).upper
      rw [join_cons_cons, List.append_assoc, reach_append hp, List.cons_append, reach_separator hu,
        hi, List.length_append, List.length_cons]

theorem replace_join (h : ∀ s ∈ segments, q.separator ∉ s) :
    Text.replace q.separator q'.separator (q.join segments) = q'.join segments := by
  induction segments
  case nil => rfl
  case cons s ss hi =>
    replace hi := hi fun x hx => h x (by simp [hx])
    have hs : Text.replace q.separator q'.separator s = s :=
      Text.replace_of_not_mem (h s (by simp))
    cases ss
    case nil => simpa [join] using hs
    case cons t ss =>
      rw [join_cons_cons, join_cons_cons, Text.replace_append, hs, ← hi]
      simp [Text.replace]

theorem Admits.separator_not_mem (h : q.Admits s) : q.separator ∉ s :=
  fun hm => (h.plain _ hm).left rfl

theorem exists_rejoin? (hq : q.IsPlain) (hs : q.isStop q.separator = false)
    (hl : 2 ≤ segments.length) (h : ∀ s ∈ segments, q.Admits s) (hr : q.endsAt rest = true) :
    ∃ e, q.rejoin? q'.separator (q.join segments ++ rest) = some e ∧
      e.stop = (q.join segments).length ∧
      (q.join segments ++ rest).take e.start ++ e.text = q'.join segments := by
  have hreach := reach_join hs h hr
  have hne : segments ≠ [] := List.ne_nil_of_length_pos (by omega)
  have hu : startsUpper (q.join segments ++ rest) = true :=
    startsUpper_join hne fun s hm => (h s hm).upper
  cases he : q.rejoin? q'.separator (q.join segments ++ rest)
  case none =>
    have hm := not_mem_of_rejoin? hu he
    rw [hreach, List.take_left] at hm
    exact absurd (separator_mem_join hl) hm
  case some e =>
    have ⟨_, _, hstop, _⟩ := rejoin?_spec hq he
    have ⟨_, ht⟩ := take_append_rejoin? hq he
    rw [hreach, List.take_left, replace_join fun s hm => (h s hm).separator_not_mem] at ht
    exact ⟨e, rfl, hstop.trans hreach, ht⟩

end PugShorthand.QualifiedName
