import PugShorthand.Proofs.QualifiedName.Segment
import PugShorthand.Proofs.Template.Component
import PugShorthand.Proofs.Template.TagFree

namespace PugShorthand

namespace Template.Component

variable {fragmentTag t a b line indent : Text} {e : Edit}

def qualified (fragmentTag t : Text) : Text :=
  Edit.spliceFrom t 0 (edits fragmentTag t)

theorem applyAll_edits (hf : fragmentTag.IsUtf8) (ht : t.IsUtf8) :
    Edit.applyAll (edits fragmentTag t) t = .ok (qualified fragmentTag t) :=
  (edits_disciplined ht).applyAll ht fun _ => isUtf8_of_mem_edits hf ht

theorem edit?_of_startsUpper (h : QualifiedName.startsUpper line = true) :
    edit? fragmentTag line = QualifiedName.dotted.rejoin? ':'.toUInt8 line ∧
      ∀ b ∈ line.head?, Text.isIndent b = false := by
  cases line
  case nil => simp [QualifiedName.startsUpper] at h
  case cons b line =>
    have hb : Text.isUpper b = true := by simpa [QualifiedName.startsUpper] using h
    obtain ⟨hp, hi⟩ := Text.forall_byte (p := fun b => Text.isUpper b = true →
      b ≠ '('.toUInt8 ∧ Text.isIndent b = false) (by decide +kernel) b hb
    exact ⟨by simp [edit?, hp], by simpa using hi⟩

theorem edit?_of_not_startsUpper (hp : line.head? ≠ some '('.toUInt8)
    (hu : QualifiedName.startsUpper line = false) : edit? fragmentTag line = none := by
  rw [edit?, if_neg hp, QualifiedName.rejoin?, hu, if_neg Bool.false_ne_true]

theorem edit?_append_newline :
    edit? fragmentTag (line ++ '\n'.toUInt8 :: t) = edit? fragmentTag line := by
  have hh : (line ++ '\n'.toUInt8 :: t).head? = some '('.toUInt8 ↔
      line.head? = some '('.toUInt8 := by
    cases line
    case nil  => simp +decide
    case cons => rfl
  simp only [edit?, hh, QualifiedName.rejoin?_append_newline QualifiedName.dotted_isPlain]

theorem filterMap_edit?_append : ((Text.lineBodies t).map (a.length + ·)).filterMap (fun body =>
    (edit? fragmentTag ((a ++ t).drop body)).map (·.shift body)) =
      (edits fragmentTag t).map (·.shift a.length) := by
  rw [List.filterMap_map, edits, List.map_filterMap]
  congr 1
  funext body
  simp [Function.comp_def, Edit.shift, Nat.add_assoc]

theorem edits_append_of_not_mem (h : '\n'.toUInt8 ∉ a) :
    edits fragmentTag (a ++ t) = (edits fragmentTag t).map (·.shift a.length) := by
  rw [edits, Text.lineBodies_append_of_not_mem h, filterMap_edit?_append]

theorem edits_append_newline : edits fragmentTag (a ++ '\n'.toUInt8 :: b) =
    edits fragmentTag a ++ (edits fragmentTag ('\n'.toUInt8 :: b)).map (·.shift a.length) := by
  rw [edits, Text.lineBodies_append_newline, List.filterMap_append, filterMap_edit?_append]
  congr 1
  refine List.filterMap_congr fun body hb => ?_
  have ⟨_, hl⟩ := Text.bounds_of_mem_lineBodies hb
  rw [List.drop_append_of_le_length hl, edit?_append_newline]

theorem edits_newline (hi : ∀ b ∈ indent, Text.isIndent b = true)
    (hl : ∀ b ∈ line.head?, Text.isIndent b = false) :
    edits fragmentTag ('\n'.toUInt8 :: indent ++ line) =
      ((edit? fragmentTag line).toList ++ edits fragmentTag line).map
        (·.shift ('\n'.toUInt8 :: indent).length) := by
  have hind : Text.indentation (indent ++ line) = indent.length := Text.run_append hi hl
  have hn : '\n'.toUInt8 ∉ indent := fun hm => absurd (hi _ hm) (by decide)
  have hd : ('\n'.toUInt8 :: (indent ++ line)).drop (1 + indent.length) = line := by
    rw [Nat.add_comm, List.drop_succ_cons, List.drop_left]
  have hs (e : Edit) : (e.shift indent.length).shift 1 = e.shift (indent.length + 1) := by
    simp only [Edit.shift, Edit.mk.injEq, and_true]
    omega
  have hrest := @filterMap_edit?_append fragmentTag (indent ++ line) ['\n'.toUInt8]
  simp only [List.length_singleton, List.singleton_append] at hrest
  rw [List.cons_append, edits, Text.lineBodies_newline, hind, List.filterMap_cons, hrest, hd,
    edits_append_of_not_mem hn]
  cases edit? fragmentTag line <;> simp [hs, Nat.add_comm 1]

theorem bounds_of_mem_edits (h : e ∈ edits fragmentTag t) :
    e.start ≤ t.length ∧ e.stop ≤ t.length := by
  obtain ⟨body, hb, e', he, hs⟩ := exists_of_mem_edits h
  obtain ⟨_, hl⟩ := Text.bounds_of_mem_lineBodies hb
  have hstop := stop_le_lineLength he
  have hline : Text.lineLength (t.drop body) ≤ (t.drop body).length := Text.run_le_length
  have hle : e'.start ≤ e'.stop := by
    cases edit?_cases he
    case inl he => simp [he, Edit.insertion]
    case inr he =>
      obtain ⟨_, hlt, _⟩ := QualifiedName.rejoin?_spec QualifiedName.dotted_isPlain he
      exact Nat.le_of_lt hlt
  rw [List.length_drop] at hline
  subst hs
  simp only [Edit.shift]
  omega

theorem qualified_append_newline : qualified fragmentTag (a ++ '\n'.toUInt8 :: b) =
    qualified fragmentTag a ++ qualified fragmentTag ('\n'.toUInt8 :: b) := by
  rw [qualified, edits_append_newline]
  exact Edit.spliceFrom_append (fun _ => bounds_of_mem_edits) (Nat.zero_le _)

theorem qualified_newline (hi : ∀ b ∈ indent, Text.isIndent b = true)
    (hl : ∀ b ∈ line.head?, Text.isIndent b = false) (he : edit? fragmentTag line = some e) :
    qualified fragmentTag ('\n'.toUInt8 :: indent ++ line) = '\n'.toUInt8 :: indent ++
      (line.take e.start ++ e.text ++ qualified fragmentTag (line.drop e.stop)) := by
  have hstop := stop_le_lineLength he
  have hn : '\n'.toUInt8 ∉ line.take e.stop := Text.not_mem_take_of_le_lineLength hstop
  have hlen : (line.take e.stop).length = e.stop :=
    List.length_take_of_le (Nat.le_trans hstop Text.run_le_length)
  have hrest := @edits_append_of_not_mem fragmentTag (line.drop e.stop) (line.take e.stop) hn
  have hback := @Edit.spliceFrom_shift (edits fragmentTag (line.drop e.stop)) 0 (line.take e.stop)
    (line.drop e.stop)
  rw [List.take_append_drop, hlen] at hrest hback
  rw [Nat.add_zero] at hback
  have hfront := @Edit.spliceFrom_append [] (e :: edits fragmentTag line) 0
    ('\n'.toUInt8 :: indent) line (by simp) (Nat.zero_le _)
  rw [qualified, edits_newline hi hl, he]
  refine hfront.trans ?_
  rw [Edit.spliceFrom, Edit.spliceFrom, hrest, hback]
  rfl

theorem qualified_newline_of_none (hi : ∀ b ∈ indent, Text.isIndent b = true)
    (hl : ∀ b ∈ line.head?, Text.isIndent b = false) (he : edit? fragmentTag line = none) :
    qualified fragmentTag ('\n'.toUInt8 :: indent ++ line) =
      '\n'.toUInt8 :: indent ++ qualified fragmentTag line := by
  have hs := @Edit.spliceFrom_append [] (edits fragmentTag line) 0 ('\n'.toUInt8 :: indent) line
    (by simp) (Nat.zero_le _)
  rw [qualified, edits_newline hi hl, he]
  exact hs

theorem qualified_append_of_not_mem (h : '\n'.toUInt8 ∉ a) :
    qualified fragmentTag (a ++ t) = a ++ qualified fragmentTag t := by
  have hs := @Edit.spliceFrom_append [] (edits fragmentTag t) 0 a t (by simp) (Nat.zero_le _)
  rw [qualified, edits_append_of_not_mem h]
  exact hs

theorem qualified_of_not_mem (h : '\n'.toUInt8 ∉ t) : qualified fragmentTag t = t := by
  have hq := @qualified_append_of_not_mem fragmentTag [] t h
  rwa [List.append_nil, show qualified fragmentTag [] = [] from rfl, List.append_nil] at hq

theorem head?_qualified (ht : t.IsUtf8) : (qualified fragmentTag t).head? = t.head? := by
  refine TagFree.head?_spliceFrom (edits_disciplined ht) fun e he => ?_
  have ⟨body, hb, e', _, hs⟩ := exists_of_mem_edits he
  have ⟨hp, _⟩ := Text.bounds_of_mem_lineBodies hb
  subst hs
  exact Nat.lt_of_lt_of_le hp (Nat.le_add_right ..)

end Template.Component

end PugShorthand
