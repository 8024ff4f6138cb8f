import PugShorthand.Proofs.Text.Boundary
import PugShorthand.Text.Line

namespace PugShorthand.Text

variable {t rest whole : Text} {p : UInt8 → Bool} {pos body newline : Nat} {b : UInt8}

theorem run_cons_of_pos (h : p b = true) : run p (b :: t) = run p t + 1 := by
  simp [run, h]

theorem run_cons_of_neg (h : p b = false) : run p (b :: t) = 0 := by
  simp [run, h]

theorem run_append_of_neg {a : Text} (h : p b = false) : run p (a ++ b :: t) = run p a := by
  induction a
  case nil => exact run_cons_of_neg h
  case cons x a hi =>
    cases hx : p x
    case false => rw [List.cons_append, run_cons_of_neg hx, run_cons_of_neg hx]
    case true  => rw [List.cons_append, run_cons_of_pos hx, run_cons_of_pos hx, hi]

theorem run_le_length : run p t ≤ t.length :=
  (List.takeWhile_prefix p).length_le

theorem run_drop_run {q : UInt8 → Bool} (h : ∀ x, p x = true → q x = true) :
    run q t = run p t + run q (t.drop (run p t)) := by
  conv => lhs; rw [← List.takeWhile_append_dropWhile (p := p) (l := t), run]
  rw [List.takeWhile_append_of_pos fun x hx => h x (List.mem_takeWhile_imp hx), ← drop_run]
  simp [run]

theorem ascii_of_isIndent (h : isIndent b = true) : b < 0x80 := by
  simp only [isIndent, Bool.or_eq_true, beq_iff_eq] at h
  rcases h with rfl | rfl <;> decide

theorem IsUtf8.drop_indentation (h : t.IsUtf8) : IsUtf8 (t.drop (indentation t)) := by
  rw [indentation, drop_run]
  exact (h.span_ascii fun _ => ascii_of_isIndent).right

def lineLength (t : Text) : Nat :=
  run (· != '\n'.toUInt8) t

theorem not_mem_take_of_le_lineLength {n : Nat} (h : n ≤ lineLength t) :
    '\n'.toUInt8 ∉ t.take n := by
  intro hm
  have hp : t.take n <+: t.takeWhile (· != '\n'.toUInt8) := by
    rw [← take_run]
    exact List.take_prefix_take_left h
  simpa using List.mem_takeWhile_imp (hp.subset hm)

theorem lineLength_eq : lineLength t = indentation t + lineLength (t.drop (indentation t)) := by
  refine run_drop_run fun x hx => ?_
  simp only [isIndent, Bool.or_eq_true, beq_iff_eq] at hx
  rcases hx with rfl | rfl <;> decide

theorem lt_of_mem_lineBodies (h : body ∈ lineBodies.go pos t) : pos + lineLength t < body := by
  induction t generalizing pos
  case nil => simp [lineBodies.go] at h
  case cons b t hi =>
    rw [lineBodies.go] at h
    split at h
    case isTrue hb =>
      rw [lineLength, run_cons_of_neg (by simp [hb])]
      rcases List.mem_cons.mp h with rfl | h
      · omega
      · have := hi h
        omega
    case isFalse hb =>
      rw [lineLength, run_cons_of_pos (by simp [hb]), ← lineLength]
      have := hi h
      omega

theorem pairwise_lineBodies (t : Text) :
    (lineBodies t).Pairwise fun a b => a + lineLength (t.drop a) < b := by
  suffices h : ∀ {whole pos}, List.drop pos whole = t →
      (lineBodies.go pos t).Pairwise fun a b => a + lineLength (whole.drop a) < b from h rfl
  intro whole pos ht
  induction t generalizing pos
  case nil => exact .nil
  case cons b t hi =>
    have ht' : whole.drop (pos + 1) = t := drop_succ ht
    rw [lineBodies.go]
    split
    case isFalse => exact hi ht'
    case isTrue =>
      refine .cons (fun body hb => ?_) (hi ht')
      have := lt_of_mem_lineBodies hb
      rw [lineLength_eq] at this
      rw [← List.drop_drop, ht']
      omega

theorem exists_of_mem_lineBodies (h : body ∈ lineBodies.go pos t) :
    ∃ before rest, t = before ++ '\n'.toUInt8 :: rest ∧
      body = pos + before.length + 1 + indentation rest := by
  induction t generalizing pos
  case nil => simp [lineBodies.go] at h
  case cons b t hi =>
    have extend (h : body ∈ lineBodies.go (pos + 1) t) : ∃ before rest,
        b :: t = before ++ '\n'.toUInt8 :: rest ∧
          body = pos + before.length + 1 + indentation rest := by
      have ⟨before, rest, ht, hb⟩ := hi h
      exact ⟨b :: before, rest, by rw [ht, List.cons_append], by simp [hb]; omega⟩
    rw [lineBodies.go] at h
    split at h
    case isFalse => exact extend h
    case isTrue hb =>
      rcases List.mem_cons.mp h with rfl | h
      · exact ⟨[], t, by rw [hb, List.nil_append], by simp⟩
      · exact extend h

theorem lineBodies_go_add {n : Nat} :
    lineBodies.go (n + pos) t = (lineBodies.go pos t).map (n + ·) := by
  induction t generalizing pos
  case nil => rfl
  case cons b t hi =>
    simp only [lineBodies.go, Nat.add_assoc, hi]
    split <;> simp

theorem lineBodies_newline : lineBodies ('\n'.toUInt8 :: t) =
    (1 + indentation t) :: (lineBodies t).map (1 + ·) := by
  simp only [lineBodies, lineBodies.go, if_true, Nat.zero_add, ← lineBodies_go_add]

theorem lineBodies_append_of_not_mem {a : Text} (h : '\n'.toUInt8 ∉ a) :
    lineBodies (a ++ t) = (lineBodies t).map (a.length + ·) := by
  induction a
  case nil => simp
  case cons b a hi =>
    simp only [List.mem_cons, not_or] at h
    have hg := @lineBodies_go_add (a ++ t) 0 1
    rw [List.cons_append, lineBodies, lineBodies.go, if_neg (Ne.symm h.left), Nat.zero_add, hg,
      ← lineBodies, hi h.right, List.map_map]
    simp [Function.comp_def, Nat.add_assoc, Nat.add_comm 1]

theorem lineBodies_append_newline {a : Text} : lineBodies (a ++ '\n'.toUInt8 :: t) =
    lineBodies a ++ (lineBodies ('\n'.toUInt8 :: t)).map (a.length + ·) := by
  induction a
  case nil => simp [lineBodies, lineBodies.go]
  case cons b a hi =>
    have hl : (fun n => 1 + (a.length + n)) = fun n => a.length + 1 + n := by
      funext n
      omega
    by_cases hb : b = '\n'.toUInt8
    case pos =>
      have hind : indentation (a ++ '\n'.toUInt8 :: t) = indentation a := run_append_of_neg rfl
      rw [hb, List.cons_append, lineBodies_newline, hi, hind, lineBodies_newline (t := a)]
      simp [Function.comp_def, hl]
    case neg =>
      have hn : '\n'.toUInt8 ∉ [b] := by simpa using Ne.symm hb
      have hc (x : Text) : lineBodies (b :: x) = (lineBodies x).map (1 + ·) :=
        lineBodies_append_of_not_mem hn
      rw [List.cons_append, hc, hc, hi]
      simp [Function.comp_def, hl]

theorem mem_lineBodies {before : Text} :
    before.length + 1 + indentation rest ∈ lineBodies (before ++ '\n'.toUInt8 :: rest) := by
  simp [lineBodies_append_newline, lineBodies_newline, Nat.add_assoc]

structure IsBody (t : Text) (newline body : Nat) : Prop where
  opens : t[newline]? = some '\n'.toUInt8
  indented : body = newline + 1 + indentation (t.drop (newline + 1))

theorem mem_lineBodies_iff : body ∈ lineBodies t ↔ ∃ newline, IsBody t newline body := by
  constructor
  case mp =>
    intro h
    have ⟨before, rest, ht, hb⟩ := exists_of_mem_lineBodies h
    subst ht
    refine ⟨before.length, by simp, ?_⟩
    rw [← List.drop_drop, List.drop_left]
    simpa using hb
  case mpr =>
    intro ⟨newline, h⟩
    have ⟨hlt, hn⟩ := List.getElem?_eq_some_iff.mp h.opens
    have ht := List.take_append_drop newline t
    rw [List.drop_eq_getElem_cons hlt, hn] at ht
    have hm := @mem_lineBodies (t.drop (newline + 1)) (t.take newline)
    rwa [ht, List.length_take_of_le (Nat.le_of_lt hlt), ← h.indented] at hm

theorem IsBody.isIndent {j : Nat} (h : t.IsBody newline body) (hj : newline < j) (hb : j < body)
    (hx : t[j]? = some b) : Text.isIndent b = true := by
  have ⟨k, hk⟩ := Nat.exists_eq_add_of_le hj
  have hlt : k < run Text.isIndent (t.drop (newline + 1)) := by
    have := h.indented
    rw [indentation] at this
    omega
  have hm : ((t.drop (newline + 1)).takeWhile Text.isIndent)[k]? = some b := by
    rw [← take_run, List.getElem?_take, if_pos hlt, List.getElem?_drop, ← hx, hk]
  exact List.mem_takeWhile_imp (List.mem_of_getElem? hm)

theorem bounds_of_mem_lineBodies (h : body ∈ lineBodies t) : 0 < body ∧ body ≤ t.length := by
  have ⟨before, rest, ht, hb⟩ := exists_of_mem_lineBodies h
  have : indentation rest ≤ rest.length := run_le_length
  simp only [ht, hb, List.length_append, List.length_cons]
  omega

theorem exists_newline_of_mem_lineBodies (h : body ∈ lineBodies t) :
    ∃ newline < body, t[newline]? = some '\n'.toUInt8 ∧
      ∀ j, newline < j → j < body → ∀ b, t[j]? = some b → isIndent b = true := by
  have ⟨newline, hl⟩ := mem_lineBodies_iff.mp h
  have hbody := hl.indented
  exact ⟨newline, by omega, hl.opens, fun j hj hb b hx => hl.isIndent hj hb hx⟩

theorem exists_blank_of_mem_lineBodies (h : body ∈ lineBodies t) :
    ∃ x, (t.take body).getLast? = some x ∧ isBlank x = true := by
  have ⟨before, rest, ht, hb⟩ := exists_of_mem_lineBodies h
  have hk : t.take body = before ++ '\n'.toUInt8 :: rest.takeWhile isIndent := by
    rw [ht, hb, Nat.zero_add, Nat.add_assoc, Nat.add_comm 1, List.take_length_add_append,
      List.take_succ_cons, indentation, take_run]
  cases hl : (rest.takeWhile isIndent).getLast?
  case none => exact ⟨'\n'.toUInt8, by simp [hk, List.getLast?_eq_none_iff.mp hl], by decide⟩
  case some x =>
    have hx := List.mem_takeWhile_imp (List.mem_of_getLast? hl)
    simp only [isIndent, Bool.or_eq_true, beq_iff_eq] at hx
    refine ⟨x, by simp [hk, List.getLast?_append, List.getLast?_cons, hl], ?_⟩
    cases hx <;> subst_vars <;> decide

theorem IsUtf8.isBoundary_lineBodies (h : t.IsUtf8) (hb : body ∈ lineBodies t) :
    Text.isBoundary t body = true := by
  have ⟨before, rest, ht, hl⟩ := exists_of_mem_lineBodies hb
  rw [ht] at h
  have hr := (h.around (by decide)).right
  have hd : t.drop body = rest.drop (indentation rest) := by
    rw [ht, hl, Nat.zero_add, ← List.drop_drop, ← List.drop_drop, List.drop_left]
    rfl
  refine IsUtf8.isBoundary (hd ▸ hr.drop_indentation) ?_
  have : indentation rest ≤ rest.length := run_le_length
  simp only [ht, hl, List.length_append, List.length_cons]
  omega

end PugShorthand.Text
