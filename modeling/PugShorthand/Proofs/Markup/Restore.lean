import PugShorthand.Document
import PugShorthand.Proofs.Markup.Tag

namespace PugShorthand

open QualifiedName

namespace Markup.Tag

variable {t rest : Text} {e : Edit} {pos resume : Nat} {inside : Bool} {b : UInt8}

def nameOffset (rest : Text) : Nat :=
  if rest.head? = some '/'.toUInt8 then 1 else 0

def opensName (rest : Text) : Bool :=
  startsUpper (rest.drop (nameOffset rest))

-- Whether a name goes on behind `b`, for whether it stands `inside` one. It ends in front of the
-- first byte that cannot belong to it, and a `<` before that is a part of it like any other.
def goesOn (inside : Bool) (b : UInt8) (rest : Text) : Bool :=
  if inside then if b = ':'.toUInt8 then startsUpper rest else !coloned.isStop b
  else b = '<'.toUInt8 && opensName rest

def restoredByte (inside : Bool) (b : UInt8) (rest : Text) : UInt8 :=
  if inside && b = ':'.toUInt8 && startsUpper rest then '.'.toUInt8 else b

def restored (inside : Bool) : Text → Text
  | [] => []
  | b :: rest => restoredByte inside b rest :: restored (goesOn inside b rest) rest

@[simp]
theorem coloned_separator : coloned.separator = ':'.toUInt8 :=
  rfl

theorem ne_opening :
    b = ':'.toUInt8 ∨ coloned.isStop b = true → b ≠ '<'.toUInt8 :=
  Text.forall_byte (p := fun b => b = ':'.toUInt8 ∨ coloned.isStop b = true → b ≠ '<'.toUInt8)
    (by decide +kernel) b

theorem reach_cons :
    coloned.reach (b :: t) = if goesOn true b t then coloned.reach t + 1 else 0 := by
  by_cases hb : b = ':'.toUInt8
  case pos => simp [reach, goesOn, hb]
  case neg => cases hs : coloned.isStop b <;> simp [reach, goesOn, hb, hs]

theorem restoredByte_cases (inside : Bool) (b : UInt8) (rest : Text) :
    restoredByte inside b rest = b ∨
      inside = true ∧ b = ':'.toUInt8 ∧ startsUpper rest = true ∧
        restoredByte inside b rest = '.'.toUInt8 := by
  by_cases h : (inside && b = ':'.toUInt8 && startsUpper rest) = true
  case neg => exact .inl (if_neg h)
  case pos =>
    have hr : restoredByte inside b rest = '.'.toUInt8 := if_pos h
    simp only [Bool.and_eq_true, decide_eq_true_eq] at h
    exact .inr ⟨h.left.left, h.left.right, h.right, hr⟩

theorem restoredByte_of_goesOn (h : goesOn true b t = true) :
    restoredByte true b t = if b = ':'.toUInt8 then '.'.toUInt8 else b := by
  by_cases hb : b = ':'.toUInt8 <;> simp_all [restoredByte, goesOn]

theorem eq_of_not_goesOn (h : goesOn true b t = false) :
    restoredByte inside b t = b ∧ goesOn inside b t = false := by
  have hn : b ≠ '<'.toUInt8 := by
    apply ne_opening
    by_cases hb : b = ':'.toUInt8 <;> simp_all [goesOn]
  cases inside
  case false => simp [restoredByte, goesOn, hn]
  case true =>
    refine ⟨?_, h⟩
    by_cases hb : b = ':'.toUInt8 <;> simp_all [restoredByte, goesOn]

theorem restored_cons_of_not_goesOn (h : goesOn true b t = false) :
    restored inside (b :: t) = b :: restored false t := by
  simp [restored, eq_of_not_goesOn h]

theorem restored_true : restored true t =
    Text.replace ':'.toUInt8 '.'.toUInt8 (t.take (coloned.reach t)) ++
      restored false (t.drop (coloned.reach t)) := by
  induction t
  case nil => rfl
  case cons b t hi =>
    cases h : goesOn true b t
    case false => simp [reach_cons, h, restored_cons_of_not_goesOn h, Text.replace]
    case true =>
      simp only [reach_cons, h, if_true, restored, restoredByte_of_goesOn h, hi, Text.replace,
        List.take_succ_cons, List.drop_succ_cons, List.map_cons, List.cons_append]

theorem restored_of_not_mem (h : ':'.toUInt8 ∉ t.take (coloned.reach t)) :
    restored inside t = t.take (coloned.reach t) ++ restored false (t.drop (coloned.reach t)) := by
  induction t generalizing inside
  case nil => rfl
  case cons b t hi =>
    cases hg : goesOn true b t
    case false => simp [reach_cons, hg, restored_cons_of_not_goesOn hg]
    case true =>
      simp only [reach_cons, hg, if_true, List.take_succ_cons, List.mem_cons, not_or] at h
      have hb : restoredByte inside b t = b := by simp [restoredByte, Ne.symm h.left]
      simp [reach_cons, hg, restored, hb, hi h.right]

theorem startsUpper_restored : startsUpper (restored inside t) = startsUpper t := by
  cases t
  case nil => rfl
  case cons b t =>
    simp only [restored, startsUpper, List.head?_cons, Option.any_some]
    cases restoredByte_cases inside b t
    case inl h => rw [h]
    case inr h =>
      have ⟨_, hb, _, hr⟩ := h
      rw [hr, hb]
      decide

theorem opensName_restored : opensName (restored inside t) = opensName t := by
  cases t
  case nil => rfl
  case cons b t =>
    by_cases hb : b = '/'.toUInt8
    case pos =>
      have hr : restoredByte inside b t = b := by
        cases restoredByte_cases inside b t
        case inl h => exact h
        case inr h => exact absurd (hb ▸ h.right.left) (by decide)
      simp only [opensName, nameOffset, restored, hr]
      simp [hb, startsUpper_restored]
    case neg =>
      have hr : restoredByte inside b t ≠ '/'.toUInt8 := by
        cases restoredByte_cases inside b t
        case inl h => rwa [h]
        case inr h => rw [h.right.right.right]; decide
      have hu := @startsUpper_restored (b :: t) inside
      simpa [opensName, nameOffset, restored, hr, hb] using hu

theorem restored_restored : restored inside (restored inside t) = restored inside t := by
  -- By induction on the text: the bytes that were changed are parts of the same names as before,
  -- and there is nothing left to change in them.
  induction t generalizing inside
  case nil => rfl
  case cons b t hi =>
    simp only [restored]
    cases restoredByte_cases inside b t
    case inl h =>
      have hg : goesOn inside b (restored (goesOn inside b t) t) = goesOn inside b t := by
        simp [goesOn, startsUpper_restored, opensName_restored]
      have hb : restoredByte inside b (restored (goesOn inside b t) t) = b := by
        simpa [restoredByte, startsUpper_restored] using h
      rw [h, hg, hb, hi]
    case inr h =>
      have ⟨hs, hb, hu, hr⟩ := h
      subst hs
      have hg : goesOn true b t = true := by simp [goesOn, hb, hu]
      have hg' : goesOn true '.'.toUInt8 (restored true t) = true := rfl
      rw [hr, hg, hg', hi]
      rfl

theorem reach_nameOffset :
    coloned.reach rest = nameOffset rest + coloned.reach (rest.drop (nameOffset rest)) ∧
      ':'.toUInt8 ∉ rest.take (nameOffset rest) := by
  by_cases h : rest.head? = some '/'.toUInt8
  case neg => simp [nameOffset, h]
  case pos =>
    have ⟨name, hn⟩ := List.head?_eq_some_iff.mp h
    have hg : goesOn true '/'.toUInt8 name = true := rfl
    simp only [nameOffset, hn, List.head?_cons, if_true, reach_cons, hg, List.drop_succ_cons,
      List.drop_zero, List.take_succ_cons, List.take_zero]
    exact ⟨Nat.add_comm .., by decide⟩

theorem edit?_eq : edit? ('<'.toUInt8 :: rest) =
    (coloned.rejoin? '.'.toUInt8 (rest.drop (nameOffset rest))).map
      (·.shift (1 + nameOffset rest)) :=
  rfl

theorem edit?_spec (h : edit? t = some e) :
    ∃ rest, t = '<'.toUInt8 :: rest ∧ opensName rest = true ∧ e.stop = coloned.reach rest + 1 ∧
      t.take e.start ++ e.text =
        '<'.toUInt8 :: Text.replace ':'.toUInt8 '.'.toUInt8 (rest.take (coloned.reach rest)) := by
  have ⟨rest, hrest⟩ := List.head?_eq_some_iff.mp (edit?_cases h).left
  subst hrest
  rw [edit?_eq] at h
  have ⟨e', he, hs⟩ := Option.map_eq_some_iff.mp h
  have ⟨_, _, hstop, _⟩ := rejoin?_spec coloned_isPlain he
  have ⟨hu, ht⟩ := take_append_rejoin? coloned_isPlain he
  have ⟨hr, hm⟩ := @reach_nameOffset rest
  have hf : Text.replace ':'.toUInt8 '.'.toUInt8 (rest.take (nameOffset rest)) =
    rest.take (nameOffset rest) := Text.replace_of_not_mem hm
  subst hs
  refine ⟨rest, rfl, hu, by simp only [Edit.shift, hstop, hr]; omega, ?_⟩
  simp only [coloned_separator] at ht
  rw [hr, List.take_add, Text.replace_append, hf, ← ht]
  have hl : 1 + nameOffset rest + e'.start = nameOffset rest + e'.start + 1 := by omega
  simp only [Edit.shift, hl, List.take_succ_cons, List.take_add, List.cons_append,
    List.append_assoc]

theorem not_mem_of_edit? (h : edit? ('<'.toUInt8 :: rest) = none) (ho : opensName rest = true) :
    ':'.toUInt8 ∉ rest.take (coloned.reach rest) := by
  have ⟨hr, hm⟩ := @reach_nameOffset rest
  rw [edit?_eq, Option.map_eq_none_iff] at h
  simp only [hr, List.take_add, List.mem_append, not_or]
  exact ⟨hm, not_mem_of_rejoin? ho h⟩

theorem restored_of_edit? (h : edit? t = some e) :
    t.take e.start ++ e.text ++ restored false (t.drop e.stop) = restored false t := by
  have ⟨rest, ht, ho, hs, he⟩ := edit?_spec h
  subst ht
  simp [he, hs, restored, restoredByte, goesOn, ho, restored_true]

theorem restored_of_not_edit? (h : edit? (b :: rest) = none) :
    restored false (b :: rest) = b :: restored false rest := by
  by_cases hg : goesOn false b rest = true
  case neg => simp_all [restored, restoredByte]
  case pos =>
    have ⟨hb, ho⟩ : b = '<'.toUInt8 ∧ opensName rest = true := by simpa [goesOn] using hg
    subst hb
    have hm := not_mem_of_edit? h ho
    simp only [restored, hg, restored_of_not_mem hm]
    rfl

theorem exists_of_mem_go (hr : t.drop pos = rest) (h : e ∈ edits.go pos resume rest) :
    ∃ offset e', edit? (t.drop offset) = some e' ∧ e'.shift offset = e := by
  induction rest generalizing pos resume
  case nil => simp [edits.go] at h
  case cons b rest hi =>
    have hr' : t.drop (pos + 1) = rest := Text.drop_succ hr
    simp only [edits.go] at h
    split at h
    case isTrue => exact hi hr' h
    case isFalse =>
      split at h
      case h_1 => exact hi hr' h
      case h_2 e' he =>
        cases List.mem_cons.mp h
        case inl h => exact ⟨pos, e', hr ▸ he, h.symm⟩
        case inr h => exact hi hr' h

theorem isUtf8_of_mem_edits (ht : t.IsUtf8) (h : e ∈ edits t) : e.text.IsUtf8 := by
  have ⟨pos, e', he, hs⟩ := exists_of_mem_go rfl h
  have ⟨hb, front, name, e'', hd, hf, hn, hs'⟩ := edit?_cases he
  rw [List.head?_drop] at hb
  have ⟨hb, _⟩ := ht.isBoundary_of_ascii (x := '<'.toUInt8) hb (by decide)
  have hu : name.IsUtf8 := (hd ▸ (ht.cut hb).right).of_ascii_append hf
  have hw : e''.text.IsUtf8 := isUtf8_rejoin? coloned_isPlain (by decide) hu hn
  subst hs hs'
  exact hw

-- What the scan leaves to be restored behind `pos`, for a last tag that reaches to `resume`.
theorem spliceFrom_go (ht : t.IsUtf8) (hr : t.drop pos = rest) :
    Edit.spliceFrom t (max pos resume) (edits.go pos resume rest) =
      restored false (t.drop (max pos resume)) := by
  induction rest generalizing pos resume
  case nil =>
    have : t.drop (max pos resume) = [] := by
      simp only [List.drop_eq_nil_iff] at hr ⊢
      omega
    simp [edits.go, Edit.spliceFrom, this, restored]
  case cons b rest hi =>
    have hr' : t.drop (pos + 1) = rest := Text.drop_succ hr
    simp only [edits.go]
    split
    case isTrue hp =>
      have := @hi (pos + 1) resume hr'
      rwa [show max (pos + 1) resume = max pos resume by omega] at this
    case isFalse hp =>
      rw [show max pos resume = pos by omega, hr]
      split
      case h_1 he =>
        have hd := @go_disciplined t rest (pos + 1) resume ht hr'
        have := @hi (pos + 1) resume hr'
        rw [show max (pos + 1) resume = pos + 1 by omega] at hd this
        rw [restored_of_not_edit? he, Edit.spliceFrom_eq_append (Nat.le_succ pos) hd.behind, this,
          hr', List.drop_take, hr]
        simp
      case h_2 e he =>
        have := @hi (pos + 1) (pos + e.stop) hr'
        have hl := start_lt_stop he
        rw [show max (pos + 1) (pos + e.stop) = pos + e.stop by omega] at this
        rw [← restored_of_edit? he]
        simp only [Edit.spliceFrom, Edit.shift, this, List.drop_take, hr, ← List.drop_drop,
          Nat.add_sub_cancel_left]

theorem spliceFrom_edits (ht : t.IsUtf8) : Edit.spliceFrom t 0 (edits t) = restored false t :=
  @spliceFrom_go t t 0 0 ht rfl

theorem isUtf8_restored (ht : t.IsUtf8) : (restored false t).IsUtf8 := by
  have h := (edits_disciplined ht).isUtf8_spliceFrom ht fun _ => isUtf8_of_mem_edits ht
  rwa [spliceFrom_edits ht] at h

theorem restore_eq (ht : t.IsUtf8) : restore t = .ok (restored false t) := by
  have h := (edits_disciplined ht).applyAll ht fun _ => isUtf8_of_mem_edits ht
  rwa [spliceFrom_edits ht] at h

end Markup.Tag

theorem Document.restore_restore (s : String) :
    ∃ t, restore (.ofString s) = .ok t ∧ restore t = .ok t := by
  have ht := Text.isUtf8_ofString s
  have hr := Markup.Tag.restore_eq ht
  have hu := Markup.Tag.isUtf8_restored ht
  refine ⟨_, hr, (Markup.Tag.restore_eq hu).trans ?_⟩
  rw [Markup.Tag.restored_restored]

end PugShorthand
