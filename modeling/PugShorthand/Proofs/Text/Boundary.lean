import PugShorthand.Proofs.Text.Utf8

namespace PugShorthand

theorem Fault.exists_of_bind {α β : Type} {x : Except Fault α} {f : α → Except Fault β} {b : β}
    (h : x >>= f = .ok b) : ∃ a, x = .ok a ∧ f a = .ok b := by
  cases x
  case error => contradiction
  case ok a  => exact ⟨a, rfl, h⟩

namespace Text

variable {a b c t : Text} {i j : Nat} {x : UInt8}

theorem drop_succ (h : t.drop i = x :: a) : t.drop (i + 1) = a := by
  rw [← List.drop_drop, h]
  rfl

theorem take_eq_append (h : i ≤ j) : t.take j = t.take i ++ (t.take j).drop i := by
  have := List.take_append_drop i (t.take j)
  rwa [List.take_take, Nat.min_eq_left h, eq_comm] at this

theorem drop_eq_append (h : i ≤ j) : t.drop i = (t.take j).drop i ++ t.drop j := by
  have := List.take_append_drop (j - i) (t.drop i)
  rwa [List.drop_drop, Nat.add_sub_cancel' h, ← List.drop_take, eq_comm] at this

theorem isBoundary_iff :
    isBoundary t i = true ↔
      i = 0 ∨ i ≤ t.length ∧ ∀ x ∈ (t.drop i).head?, isContinuation x = false := by
  simp only [isBoundary, List.head?_drop, Bool.or_eq_true, beq_iff_eq]
  cases h : t[i]?
  case none =>
    have := List.getElem?_eq_none_iff.mp h
    simp only [beq_iff_eq, Option.mem_def, reduceCtorEq, false_implies, implies_true, and_true]
    omega
  case some y =>
    have ⟨hi, _⟩ := List.getElem?_eq_some_iff.mp h
    simp [Nat.le_of_lt hi]

@[simp]
theorem isBoundary_zero : isBoundary t 0 = true :=
  isBoundary_iff.mpr (.inl rfl)

@[simp]
theorem isBoundary_length : isBoundary t t.length = true :=
  isBoundary_iff.mpr (.inr (by simp))

theorem le_length_of_isBoundary (h : isBoundary t i = true) : i ≤ t.length := by
  rcases isBoundary_iff.mp h with rfl | h
  · exact Nat.zero_le _
  · exact h.left

theorem IsUtf8.isBoundary (h : IsUtf8 (t.drop i)) (hi : i ≤ t.length) : isBoundary t i = true := by
  refine isBoundary_iff.mpr (.inr ⟨hi, fun x hx => ?_⟩)
  cases hd : t.drop i
  case nil => simp [hd] at hx
  case cons y rest =>
    simp only [hd, List.head?_cons, Option.mem_def, Option.some.injEq] at hx
    exact hx ▸ (hd ▸ h).head

theorem IsUtf8.cut (h : t.IsUtf8) (hi : Text.isBoundary t i = true) :
    IsUtf8 (t.take i) ∧ IsUtf8 (t.drop i) := by
  rcases isBoundary_iff.mp hi with rfl | ⟨_, hi⟩
  · exact ⟨.nil, h⟩
  · exact split (by rwa [List.take_append_drop]) hi

theorem isBoundary_append (hb : b.IsUtf8) : isBoundary (a ++ b) a.length = true :=
  IsUtf8.isBoundary (by simpa) (by simp)

theorem IsUtf8.isBoundary_of_ascii (h : t.IsUtf8) (hi : t[i]? = some x) (hx : x < 0x80) :
    Text.isBoundary t i = true ∧ Text.isBoundary t (i + 1) = true := by
  have ⟨hl, he⟩ := List.getElem?_eq_some_iff.mp hi
  have hd : t.drop i = x :: t.drop (i + 1) := he ▸ List.drop_eq_getElem_cons hl
  have hs : IsUtf8 (t.take i ++ x :: t.drop (i + 1)) := by rwa [← hd, List.take_append_drop]
  have ⟨_, hr⟩ := hs.around hx
  exact ⟨isBoundary (hd ▸ cons hx hr) (Nat.le_of_lt hl), isBoundary hr hl⟩

theorem isRange_iff :
    isRange t i j = true ↔ i ≤ j ∧ isBoundary t i = true ∧ isBoundary t j = true := by
  simp [isRange, and_assoc]

theorem isRange_append (hb : b.IsUtf8) (hc : c.IsUtf8) :
    isRange (a ++ (b ++ c)) a.length (a.length + b.length) = true := by
  refine isRange_iff.mpr ⟨by omega, isBoundary_append (hb.append hc), ?_⟩
  rw [← List.append_assoc, ← List.length_append]
  exact isBoundary_append hc

theorem IsUtf8.isBoundary_add (h : t.IsUtf8) (hi : Text.isBoundary t i = true)
    (hj : Text.isBoundary (t.drop i) j = true) : Text.isBoundary t (i + j) = true := by
  have hd := (h.cut hi).right
  have hl := le_length_of_isBoundary hj
  have hi' := le_length_of_isBoundary hi
  rw [List.length_drop] at hl
  exact isBoundary (List.drop_drop ▸ (hd.cut hj).right) (by omega)

theorem IsUtf8.isRange_add {k : Nat} (h : t.IsUtf8) (hi : Text.isBoundary t i = true)
    (hr : isRange (t.drop i) j k = true) : isRange t (i + j) (i + k) = true := by
  have ⟨hjk, hj, hk⟩ := isRange_iff.mp hr
  exact isRange_iff.mpr ⟨by omega, h.isBoundary_add hi hj, h.isBoundary_add hi hk⟩

theorem slice_eq (h : isRange t i j = true) : slice t i j = .ok ((t.take j).drop i) :=
  if_pos h

theorem slice_append (hb : b.IsUtf8) (hc : c.IsUtf8) :
    slice (a ++ (b ++ c)) a.length (a.length + b.length) = .ok b := by
  rw [slice_eq (isRange_append hb hc), ← List.append_assoc, ← List.length_append, List.take_left,
    List.drop_left]

theorem IsUtf8.slice (h : t.IsUtf8) (hr : isRange t i j = true) :
    IsUtf8 ((t.take j).drop i) := by
  have ⟨hij, hi, hj⟩ := isRange_iff.mp hr
  have hd := (h.cut hi).right
  rw [← List.take_append_drop (j - i) (t.drop i), List.drop_drop] at hd
  rw [List.drop_take]
  have hj' := (h.cut hj).right
  refine (hd.split fun x hx => ?_).left
  rw [show i + (j - i) = j by omega] at hx
  cases ht : t.drop j
  case nil => simp [ht] at hx
  case cons y rest =>
    simp only [ht, List.head?_cons, Option.mem_def, Option.some.injEq] at hx
    exact hx ▸ (ht ▸ hj').head

theorem splice_eq (h : isRange t i j = true) : splice t i j c = .ok (t.take i ++ c ++ t.drop j) :=
  if_pos h

theorem ascii_of_isBlank (h : isBlank x = true) : x < 0x80 := by
  simp only [isBlank, Bool.or_eq_true, beq_iff_eq] at h
  rcases h with ((rfl | rfl) | rfl) | rfl <;> decide

theorem take_run {p : UInt8 → Bool} : t.take (run p t) = t.takeWhile p :=
  (List.prefix_iff_eq_take.mp (List.takeWhile_prefix p)).symm

theorem drop_run {p : UInt8 → Bool} : t.drop (run p t) = t.dropWhile p := by
  have h := List.take_append_drop (run p t) t
  rw [take_run] at h
  exact List.append_cancel_left (h.trans List.takeWhile_append_dropWhile.symm)

theorem run_append {p : UInt8 → Bool} (ha : ∀ x ∈ a, p x = true)
    (hb : ∀ x ∈ b.head?, p x = false) : run p (a ++ b) = a.length := by
  rw [run, List.takeWhile_append_of_pos ha]
  cases b
  case nil      => simp
  case cons x b => simp [hb x rfl]

theorem head?_drop_run {p : UInt8 → Bool} : ∀ x ∈ (t.drop (run p t)).head?, p x = false := by
  intro x hx
  have h := List.head?_dropWhile_not p t
  rw [← drop_run, Option.mem_def.mp hx] at h
  simpa using h

theorem eq_of_after? (h : after? a t = some b) : t = a ++ b := by
  simp only [after?, Option.ite_none_right_eq_some, Option.some.injEq] at h
  have ⟨rest, hr⟩ := List.isPrefixOf_iff_prefix.mp h.left
  rw [← h.right, ← hr, List.drop_left]

theorem exists_of_find? (h : find? a t = some i) : ∃ b c, t = b ++ (a ++ c) ∧ i = b.length := by
  induction t generalizing i
  case nil =>
    simp only [find?, List.isEmpty_iff, Option.ite_none_right_eq_some, Option.some.injEq] at h
    exact ⟨[], [], by simp [h.left], h.right.symm⟩
  case cons x t hi =>
    rw [find?] at h
    split at h
    case isTrue hp =>
      have ⟨c, hc⟩ := List.isPrefixOf_iff_prefix.mp hp
      exact ⟨[], c, hc.symm, (Option.some.inj h).symm⟩
    case isFalse =>
      have ⟨j, hj, he⟩ := Option.map_eq_some_iff.mp h
      have ⟨b, c, ht, hb⟩ := hi hj
      exact ⟨x :: b, c, by rw [ht, List.cons_append], by simp [← he, hb]⟩

theorem find?_eq_some_iff :
    find? a t = some i ↔ a <+: t.drop i ∧ i ≤ t.length ∧ ∀ j < i, ¬a <+: t.drop j := by
  induction t generalizing i
  case nil =>
    simp only [find?, List.isEmpty_iff, List.drop_nil, List.prefix_nil, List.length_nil]
    grind
  case cons x t hi =>
    rw [find?]
    cases i
    case zero => simp
    case succ i =>
      split
      case isTrue hp =>
        have hp := List.isPrefixOf_iff_prefix.mp hp
        simp only [Option.some.injEq, reduceCtorEq, false_iff, not_and, not_forall]
        exact fun _ _ => ⟨0, by simp, by simpa using hp⟩
      case isFalse hp =>
        have hp : ¬a <+: x :: t := fun h => hp (List.isPrefixOf_iff_prefix.mpr h)
        have hj : (∀ j < i + 1, ¬a <+: List.drop j (x :: t)) ↔ ∀ j < i, ¬a <+: List.drop j t := by
          constructor
          case mp => exact fun h j hj => h (j + 1) (by omega)
          case mpr =>
            intro h j hj
            cases j
            case zero => exact hp
            case succ j => exact h j (by omega)
        rw [hj]
        simp [hi]

theorem find?_eq_none_iff : find? a t = none ↔ ¬a <:+: t := by
  induction t
  case nil => simp [find?]
  case cons x t hi =>
    rw [find?, List.infix_cons_iff, ← List.isPrefixOf_iff_prefix]
    split
    case isTrue hp  => simp [hp]
    case isFalse hp => simp [hp, hi]

theorem isInfix_of_drop (h : a <+: t.drop i) : a <:+: t :=
  h.isInfix.trans (List.drop_suffix i t).isInfix

theorem IsUtf8.isBoundary_find? (h : t.IsUtf8) (hf : find? a t = some i) (ha : a.head? = some x)
    (hx : x < 0x80) : Text.isBoundary t i = true := by
  obtain ⟨b, c, rfl, rfl⟩ := exists_of_find? hf
  refine (h.isBoundary_of_ascii ?_ hx).left
  rw [← List.head?_drop, List.drop_left, List.head?_append, ha]
  rfl

namespace IsUtf8

theorem flatMap {f : UInt8 → Text} (h : t.IsUtf8) (hf : ∀ x, ¬x < 0x80 → f x = [x])
    (ha : ∀ x, x < 0x80 → IsUtf8 (f x)) : IsUtf8 (t.flatMap f) := by
  induction h
  case nil => exact .nil
  case char c rest _ hi =>
    rw [List.flatMap_append]
    refine append ?_ hi
    have ⟨lead, tail, hc, hl⟩ := encode_isCharacter c
    by_cases hx : lead < 0x80
    case pos => simpa [hc, hl.ascii_alone hx] using ha lead hx
    case neg =>
      -- No byte of a longer character is ASCII, so `f` keeps the character.
      have hk : (String.utf8EncodeChar c).flatMap f = String.utf8EncodeChar c := by
        have hs : ∀ y ∈ lead :: tail, f y = [y] := by
          intro y hy
          refine hf y fun hlt => ?_
          rcases List.mem_cons.mp hy with rfl | hy
          · exact hx hlt
          · simpa [not_continuation_of_ascii hlt] using hl.tail_continues y hy
        rw [hc, List.flatMap_congr hs]
        simp
      rw [hk]
      exact List.append_nil (String.utf8EncodeChar c) ▸ .char c .nil

theorem escape {quote : UInt8} (h : t.IsUtf8) (hq : quote < 0x80) : IsUtf8 (escape quote t) := by
  refine h.flatMap (fun x hx => if_neg (by rintro rfl; exact hx hq)) fun x hx => of_ascii ?_
  split <;> simp +decide [hx]

theorem replace {old new : UInt8} (h : t.IsUtf8) (ho : old < 0x80) (hn : new < 0x80) :
    IsUtf8 (replace old new t) := by
  rw [Text.replace, List.map_eq_flatMap]
  refine h.flatMap (fun x hx => ?_) fun x hx => of_ascii (by split <;> simp [hx, hn])
  rw [if_neg (by rintro rfl; exact hx ho)]

@[simp]
theorem braced (h : t.IsUtf8) : IsUtf8 (braced t) :=
  cons (by decide) (h.append (cons (by decide) nil))

theorem dropLast (h : t.IsUtf8) (hl : t.getLast? = some x) (hx : x < 0x80) :
    IsUtf8 t.dropLast := by
  rw [← List.dropLast_append_getLast? x hl] at h
  exact (h.around hx).left

theorem dropTrailing {quote : UInt8} (h : t.IsUtf8) (hq : quote < 0x80) :
    IsUtf8 (dropTrailing quote t) := by
  unfold Text.dropTrailing
  split
  case isTrue hl => exact h.dropLast hl hq
  case isFalse   => exact h

theorem after? {mark : Text} (h : t.IsUtf8) (hm : ∀ x ∈ mark, x < 0x80)
    (ha : Text.after? mark t = some a) : a.IsUtf8 := by
  rw [eq_of_after? ha] at h
  exact h.of_ascii_append hm

end IsUtf8

end Text

end PugShorthand
