import PugShorthand.Proofs.QualifiedName.Segment
import PugShorthand.Proofs.Template.Qualified

namespace PugShorthand.Template.Component

open QualifiedName

variable {fragmentTag t line front rest indent : Text}

def renamed (line : Text) : Text :=
  Text.replace '.'.toUInt8 ':'.toUInt8 (line.take (dotted.reach line))

theorem plain_renamed {b : UInt8} (hb : b ∈ renamed line) :
    b ≠ dotted.separator ∧ dotted.isStop b = false :=
  plain_replace (by decide) (by decide) hb

theorem startsUpper_renamed (h : startsUpper line = true) : startsUpper (renamed line) = true := by
  cases line
  case nil => cases h
  case cons b line =>
    have hb : Text.isUpper b = true := h
    have ⟨hd, hs⟩ := Text.forall_byte (p := fun b => Text.isUpper b = true →
      b ≠ dotted.separator ∧ dotted.isStop b = false) (by decide +kernel) b hb
    have hr : dotted.reach (b :: line) = dotted.reach line + 1 := by
      rw [reach, if_neg hd, hs, if_neg Bool.false_ne_true]
    have hk : (if b = '.'.toUInt8 then ':'.toUInt8 else b) = b := if_neg hd
    rw [renamed, hr, List.take_succ_cons, Text.replace, List.map_cons, hk]
    exact hb

theorem qualified_newline_of_startsUpper (hi : ∀ b ∈ indent, Text.isIndent b = true)
    (hu : startsUpper line = true) :
    qualified fragmentTag ('\n'.toUInt8 :: indent ++ line) = '\n'.toUInt8 :: indent ++
      (renamed line ++ qualified fragmentTag (line.drop (dotted.reach line))) := by
  have ⟨hedit, hhead⟩ := @edit?_of_startsUpper fragmentTag line hu
  cases he : dotted.rejoin? ':'.toUInt8 line
  case some e =>
    have ⟨_, _, hstop, _⟩ := rejoin?_spec dotted_isPlain he
    have ⟨_, ht⟩ := take_append_rejoin? dotted_isPlain he
    rw [qualified_newline hi hhead (hedit.trans he), ht, hstop]
    rfl
  case none =>
    have hn : '\n'.toUInt8 ∉ line.take (dotted.reach line) :=
      Text.not_mem_take_of_le_lineLength (reach_le_lineLength dotted_isPlain)
    have hd : '.'.toUInt8 ∉ line.take (dotted.reach line) := not_mem_of_rejoin? hu he
    rw [qualified_newline_of_none hi hhead (hedit.trans he), renamed, Text.replace_of_not_mem hd,
      ← qualified_append_of_not_mem hn, List.take_append_drop]

theorem exists_qualified_newline :
    ∃ back, qualified fragmentTag ('\n'.toUInt8 :: t) = '\n'.toUInt8 :: back := by
  refine ⟨_, @Edit.spliceFrom_zero ('\n'.toUInt8 :: t) _ 1 fun e he => ?_⟩
  have ⟨body, hb, e', _, hs⟩ := exists_of_mem_edits he
  have ⟨hp, _⟩ := Text.bounds_of_mem_lineBodies hb
  subst hs
  exact Nat.le_trans hp (Nat.le_add_right ..)

theorem takeWhile_qualified : (qualified fragmentTag t).takeWhile (· != '\n'.toUInt8) =
    t.takeWhile (· != '\n'.toUInt8) := by
  by_cases hm : '\n'.toUInt8 ∈ t
  case neg => rw [qualified_of_not_mem hm]
  case pos =>
    have ⟨a, b, ht, ha⟩ := List.eq_append_cons_of_mem hm
    have ⟨back, hb⟩ := @exists_qualified_newline fragmentTag b
    have hp : ∀ x ∈ a, (x != '\n'.toUInt8) = true := fun x hx =>
      bne_iff_ne.mpr fun he => ha (he ▸ hx)
    rw [ht, qualified_append_of_not_mem ha, hb, List.takeWhile_append_of_pos hp,
      List.takeWhile_append_of_pos hp]
    rfl

theorem reach_qualified : dotted.reach (qualified fragmentTag t) = dotted.reach t := by
  by_cases hm : '\n'.toUInt8 ∈ t
  case neg => rw [qualified_of_not_mem hm]
  case pos =>
    have ⟨a, b, ht, ha⟩ := List.eq_append_cons_of_mem hm
    have ⟨back, hb⟩ := @exists_qualified_newline fragmentTag b
    rw [ht, qualified_append_of_not_mem ha, hb, reach_append_newline dotted_isPlain,
      reach_append_newline dotted_isPlain]

-- `front` is what becomes of the beginning of a line, which gets no second edit, and `rest` is the
-- text behind it with the other lines.
structure Settles (fragmentTag line front rest : Text) : Prop where
  suffix : rest <:+ line
  whole : rest.IsUtf8
  held : '\n'.toUInt8 ∉ front
  edit : edit? fragmentTag (front ++ qualified fragmentTag rest) = none
  head : ∀ b ∈ (front ++ qualified fragmentTag rest).head?, Text.isIndent b = false
  leaves : ∀ indent, (∀ b ∈ indent, Text.isIndent b = true) →
    qualified fragmentTag ('\n'.toUInt8 :: indent ++ line) =
      '\n'.toUInt8 :: indent ++ (front ++ qualified fragmentTag rest)

theorem settles_name (hl : line.IsUtf8) (hu : startsUpper line = true) :
    Settles fragmentTag line (renamed line) (line.drop (dotted.reach line)) := by
  have hreach := @reach_append dotted (renamed line)
    (qualified fragmentTag (line.drop (dotted.reach line))) fun _ => plain_renamed
  rw [reach_qualified, reach_drop_reach, Nat.add_zero] at hreach
  have ⟨hedit, hhead⟩ := @edit?_of_startsUpper fragmentTag _
    (startsUpper_append (t := qualified fragmentTag (line.drop (dotted.reach line)))
      (startsUpper_renamed hu))
  constructor
  case suffix => exact List.drop_suffix ..
  case whole  => exact (hl.cut (isBoundary_reach dotted_isPlain)).right
  case held   => exact fun hm => absurd (plain_renamed hm).right (by decide)
  case head   => exact hhead
  case leaves => exact fun indent hi => qualified_newline_of_startsUpper hi hu
  case edit =>
    refine hedit.trans (rejoin?_of_not_mem ?_)
    rw [hreach, List.take_left]
    exact fun hm => (plain_renamed hm).left rfl

theorem settles_listing (hl : line.IsUtf8) (hp : line.head? = some '('.toUInt8)
    (ht : fragmentTag.head?.any Text.isLower = true) (hn : '\n'.toUInt8 ∉ fragmentTag) :
    Settles fragmentTag line fragmentTag line := by
  have ⟨x, hx, hlow⟩ := (Option.any_eq_true _ _).mp ht
  have ⟨hopen, hupper, hindent⟩ := Text.forall_byte (p := fun x => Text.isLower x = true →
    x ≠ '('.toUInt8 ∧ Text.isUpper x = false ∧ Text.isIndent x = false) (by decide +kernel) x hlow
  have hh : (fragmentTag ++ qualified fragmentTag line).head? = some x := by
    rw [List.head?_append, hx, Option.some_or]
  constructor
  case suffix => exact List.suffix_refl line
  case whole  => exact hl
  case held   => exact hn
  case edit =>
    refine edit?_of_not_startsUpper (fun he => hopen ?_) ((congrArg _ hh).trans hupper)
    exact Option.some.inj (hh.symm.trans he)
  case head =>
    intro b hb
    cases hh.symm.trans hb
    exact hindent
  case leaves =>
    intro indent hi
    have he : edit? fragmentTag line = some (.insertion 0 fragmentTag) := by rw [edit?, if_pos hp]
    refine (qualified_newline hi (fun b hb => ?_) he)
    cases hp.symm.trans hb
    decide

theorem settles_other (hl : line.IsUtf8) (hi : ∀ b ∈ line.head?, Text.isIndent b = false)
    (hp : line.head? ≠ some '('.toUInt8) (hu : startsUpper line = false) :
    Settles fragmentTag line [] line := by
  have hh := @head?_qualified fragmentTag line hl
  constructor
  case suffix => exact List.suffix_refl line
  case whole  => exact hl
  case held   => exact List.not_mem_nil
  case edit   => exact edit?_of_not_startsUpper (hh ▸ hp) ((congrArg _ hh).trans hu)
  case head   => exact hh ▸ hi
  case leaves =>
    exact fun indent hindent => qualified_newline_of_none hindent hi (edit?_of_not_startsUpper hp hu)

theorem exists_settles (hl : line.IsUtf8) (hi : ∀ b ∈ line.head?, Text.isIndent b = false)
    (ht : fragmentTag.head?.any Text.isLower = true) (hn : '\n'.toUInt8 ∉ fragmentTag) :
    ∃ front rest, Settles fragmentTag line front rest := by
  by_cases hp : line.head? = some '('.toUInt8
  case pos => exact ⟨_, _, settles_listing hl hp ht hn⟩
  case neg =>
    cases hu : startsUpper line
    case true  => exact ⟨_, _, settles_name hl hu⟩
    case false => exact ⟨_, _, settles_other hl hi hp hu⟩

theorem edits_qualified_newline (hs : Settles fragmentTag line front rest)
    (hi : ∀ b ∈ indent, Text.isIndent b = true)
    (hr : edits fragmentTag (qualified fragmentTag rest) = []) :
    edits fragmentTag (qualified fragmentTag ('\n'.toUInt8 :: indent ++ line)) = [] := by
  rw [hs.leaves indent hi, edits_newline hi hs.head, hs.edit, edits_append_of_not_mem hs.held, hr]
  rfl

theorem edits_qualified (ht : t.IsUtf8) (hf : fragmentTag.head?.any Text.isLower = true)
    (hn : '\n'.toUInt8 ∉ fragmentTag) : edits fragmentTag (qualified fragmentTag t) = [] := by
  -- By induction on the length of the text: the first line of it that can get an edit is settled,
  -- and the text behind that edit is shorter.
  induction hlen : t.length using Nat.strong_induction_on generalizing t
  case h n hi =>
  by_cases hm : '\n'.toUInt8 ∈ t
  case neg =>
    have he := @edits_append_of_not_mem fragmentTag [] t hm
    rw [List.append_nil] at he
    rw [qualified_of_not_mem hm, he]
    rfl
  case pos =>
    have ⟨a, b, hab, ha⟩ := List.eq_append_cons_of_mem hm
    subst hab
    have ⟨_, hb⟩ := ht.around (by decide)
    have hl : Text.IsUtf8 (b.dropWhile Text.isIndent) :=
      (hb.span_ascii fun _ => Text.ascii_of_isIndent).right
    have hindent : ∀ x ∈ b.takeWhile Text.isIndent, Text.isIndent x = true := fun _ =>
      List.mem_takeWhile_imp
    have hhead : ∀ x ∈ (b.dropWhile Text.isIndent).head?, Text.isIndent x = false :=
      Text.drop_run ▸ Text.head?_drop_run
    have ⟨front, rest, hs⟩ := exists_settles hl hhead hf hn
    have hshort : rest.length < n := by
      have hle := hs.suffix.length_le
      have hle' : (b.dropWhile Text.isIndent).length ≤ b.length :=
        (List.dropWhile_suffix _).length_le
      rw [← hlen, List.length_append, List.length_cons]
      omega
    have hq := edits_qualified_newline hs hindent (hi _ hshort hs.whole rfl)
    rw [List.cons_append, List.takeWhile_append_dropWhile] at hq
    rw [qualified_append_of_not_mem ha, edits_append_of_not_mem ha, hq]
    rfl

end PugShorthand.Template.Component
