import PugShorthand.Proofs.Text.Line

namespace PugShorthand.Text

variable {t a line mark : Text} {lead rest ls : List Text} {p : UInt8 → Bool} {offset : Nat}

def lines (t : Text) : List Text :=
  t.splitOn '\n'.toUInt8

def ofLines (ls : List Text) : Text :=
  ['\n'.toUInt8].intercalate ls

def lineStart (t : Text) (k : Nat) : Nat :=
  ((t.lines.take k).flatMap (· ++ ['\n'.toUInt8])).length

-- The line that holds an offset. A newline belongs to the line that it ends.
def lineAt (t : Text) (offset : Nat) : Nat :=
  (t.take offset).count '\n'.toUInt8

def following (ls : List Text) : Text :=
  ls.flatMap ('\n'.toUInt8 :: ·)

theorem following_cons : following (line :: ls) = '\n'.toUInt8 :: (line ++ following ls) :=
  List.flatMap_cons

theorem ofLines_cons : ofLines (line :: ls) = line ++ following ls := by
  induction ls generalizing line
  case nil => simp [ofLines, following]
  case cons next ls hi =>
    rw [ofLines, List.intercalate_cons_cons, ← ofLines, hi, following_cons]
    simp

theorem following_append : following (lead ++ rest) = following lead ++ following rest :=
  List.flatMap_append

theorem ofLines_append (h : lead ≠ []) : ofLines (lead ++ rest) = ofLines lead ++ following rest := by
  obtain ⟨line, ls, rfl⟩ := List.exists_cons_of_ne_nil h
  rw [List.cons_append, ofLines_cons, ofLines_cons, following_append, List.append_assoc]

theorem ofLines_lines : ofLines t.lines = t :=
  List.intercalate_splitOn '\n'.toUInt8

theorem lines_ofLines (h : ∀ line ∈ ls, '\n'.toUInt8 ∉ line) (hne : ls ≠ []) :
    (ofLines ls).lines = ls :=
  List.splitOn_intercalate '\n'.toUInt8 h hne

theorem lines_ne_nil : t.lines ≠ [] :=
  List.splitOn_ne_nil '\n'.toUInt8 t

theorem lines_cons {b : UInt8} : lines (b :: t) =
    if b == '\n'.toUInt8 then [] :: t.lines else t.lines.modifyHead (b :: ·) :=
  List.splitOn_cons_eq_if_modifyHead b t

theorem not_mem_of_mem_lines (h : line ∈ t.lines) : '\n'.toUInt8 ∉ line := by
  induction t generalizing line
  case nil =>
    have hl : line = [] := by simpa [lines] using h
    simp [hl]
  case cons b t hi =>
    rw [lines_cons] at h
    split at h
    case isTrue =>
      rcases List.mem_cons.mp h with rfl | h
      · simp
      · exact hi h
    case isFalse hb =>
      have hb : b ≠ '\n'.toUInt8 := by simpa using hb
      cases ht : lines t
      case nil => exact absurd ht lines_ne_nil
      case cons first ls =>
        rw [ht, List.modifyHead_cons] at h
        rcases List.mem_cons.mp h with rfl | h
        · simpa [hb.symm] using hi (ht ▸ List.mem_cons_self)
        · exact hi (ht ▸ List.mem_cons_of_mem _ h)

theorem flatMap_newline (h : ls ≠ []) :
    ls.flatMap (· ++ ['\n'.toUInt8]) = ofLines ls ++ ['\n'.toUInt8] := by
  obtain ⟨line, ls, rfl⟩ := List.exists_cons_of_ne_nil h
  clear h
  induction ls generalizing line
  case nil => simp [ofLines_cons, following]
  case cons next ls hi =>
    rw [List.flatMap_cons, hi, ofLines_cons, ofLines_cons, following_cons]
    simp

theorem lineStart_eq (h : t.lines = lead ++ rest) (hne : lead ≠ []) :
    lineStart t lead.length = (ofLines lead).length + 1 := by
  rw [lineStart, h, List.take_left, flatMap_newline hne]
  exact List.length_append

theorem count_following (h : ∀ line ∈ ls, '\n'.toUInt8 ∉ line) :
    (following ls).count '\n'.toUInt8 = ls.length := by
  induction ls
  case nil => rfl
  case cons line ls hi =>
    have hl := List.count_eq_zero.mpr (h line (by simp))
    rw [following_cons, List.count_cons_self, List.count_append, hl,
      hi fun line hm => h line (by simp [hm]), List.length_cons]
    omega

theorem eq_append_of_lines (h : t.lines = lead ++ rest) (hne : lead ≠ []) :
    t = ofLines lead ++ following rest := by
  rw [← ofLines_append hne, ← h, ofLines_lines]

theorem take_lead (h : t.lines = lead ++ rest) (hne : lead ≠ []) :
    t.take (ofLines lead).length = ofLines lead := by
  conv => lhs; rw [eq_append_of_lines h hne]
  exact List.take_left

theorem drop_lead (h : t.lines = lead ++ rest) (hne : lead ≠ []) :
    t.drop (ofLines lead).length = following rest := by
  conv => lhs; rw [eq_append_of_lines h hne]
  exact List.drop_left

theorem drop_lineStart (h : t.lines = lead ++ line :: ls) (hne : lead ≠ []) :
    t.drop (lineStart t lead.length) = line ++ following ls := by
  rw [lineStart_eq h hne, ← List.drop_drop, drop_lead h hne]
  rfl

theorem lineAt_lineStart_add {n : Nat} (h : t.lines = lead ++ line :: ls) (hne : lead ≠ []) :
    lineAt t (lineStart t lead.length + n) =
      lead.length + ((line ++ following ls).take n).count '\n'.toUInt8 := by
  have hc : (ofLines lead).count '\n'.toUInt8 + 1 = lead.length := by
    obtain ⟨first, others, rfl⟩ := List.exists_cons_of_ne_nil hne
    have hm : ∀ line ∈ first :: others, '\n'.toUInt8 ∉ line := fun line hl =>
      not_mem_of_mem_lines (t := t) (h ▸ List.mem_append_left _ hl)
    rw [ofLines_cons, List.count_append, List.count_eq_zero.mpr (hm first (by simp)),
      count_following fun line hl => hm line (by simp [hl]), List.length_cons, Nat.zero_add]
  have ht := eq_append_of_lines h hne
  rw [following_cons] at ht
  rw [lineAt, lineStart_eq h hne, Nat.add_assoc, Nat.add_comm 1]
  conv => lhs; rw [ht]
  rw [List.take_length_add_append, List.take_succ_cons, List.count_append, List.count_cons_self]
  omega

theorem head?_following : ∀ b ∈ (following ls).head?, b = '\n'.toUInt8 := by
  cases ls
  case nil  => simp [following]
  case cons => simp [following_cons]

theorem run_append_following (hp : p '\n'.toUInt8 = false) :
    run p (a ++ following ls) = run p a := by
  cases ls
  case nil => simp [following]
  case cons line ls =>
    rw [following_cons]
    exact run_append_of_neg hp

theorem prefix_append_following_iff (hm : '\n'.toUInt8 ∉ mark) :
    mark <+: a ++ following ls ↔ mark <+: a := by
  constructor
  case mpr => exact fun h => h.trans (List.prefix_append ..)
  case mp =>
    intro h
    cases List.prefix_or_prefix_of_prefix h (List.prefix_append a (following ls))
    case inl h => exact h
    case inr ha =>
      -- The mark would go on with the newline behind the line.
      obtain ⟨m, rfl⟩ := ha
      have hf := (List.prefix_append_right_inj a).mp h
      cases m
      case nil => simp
      case cons b m =>
        have hb := head?_following b (List.head?_eq_some_iff.mpr ⟨_, hf.choose_spec.symm⟩)
        simp [hb] at hm

theorem after?_append_following (hm : '\n'.toUInt8 ∉ mark) :
    after? mark (a ++ following ls) = (after? mark a).map (· ++ following ls) := by
  simp only [after?, List.isPrefixOf_iff_prefix, prefix_append_following_iff hm]
  split
  case isFalse => rfl
  case isTrue h => rw [Option.map_some, List.drop_append_of_le_length h.length_le]

theorem exists_drop_following (ha : '\n'.toUInt8 ∉ a) (h : ∀ line ∈ ls, '\n'.toUInt8 ∉ line)
    (ho : offset ≤ (a ++ following ls).length) :
    ∃ x, '\n'.toUInt8 ∉ x ∧ (a ++ following ls).drop offset =
      x ++ following (ls.drop (((a ++ following ls).take offset).count '\n'.toUInt8)) := by
  induction ls generalizing a offset
  case nil =>
    refine ⟨a.drop offset, fun hm => ha (List.mem_of_mem_drop hm), ?_⟩
    simp [following]
  case cons line ls hi =>
    by_cases hle : offset ≤ a.length
    case pos =>
      have hc : (a.take offset).count '\n'.toUInt8 = 0 :=
        List.count_eq_zero.mpr fun hm => ha (List.mem_of_mem_take hm)
      refine ⟨a.drop offset, fun hm => ha (List.mem_of_mem_drop hm), ?_⟩
      rw [List.take_append_of_le_length hle, hc, List.drop_append_of_le_length hle, List.drop_zero]
    case neg =>
      obtain ⟨n, rfl⟩ : ∃ n, offset = a.length + (n + 1) := ⟨offset - a.length - 1, by omega⟩
      rw [following_cons] at ho ⊢
      simp only [List.length_append, List.length_cons] at ho
      have ⟨x, hx, hd⟩ := @hi line n (h line (by simp)) (fun line hm => h line (by simp [hm]))
        (by simp only [List.length_append]; omega)
      refine ⟨x, hx, ?_⟩
      rw [List.drop_length_add_append, List.drop_succ_cons, hd, List.take_length_add_append,
        List.take_succ_cons, List.count_append, List.count_eq_zero.mpr ha, List.count_cons_self,
        Nat.zero_add, List.drop_succ_cons]

end PugShorthand.Text
