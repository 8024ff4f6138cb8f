import PugShorthand.Proofs.Attribute.Comment
import PugShorthand.Proofs.Attribute.Token
import PugShorthand.Proofs.Text.Lines

namespace PugShorthand.Attribute

variable {t line afterMark rest a : Text} {lead ls : List Text} {i j k pos resume : Nat}

theorem Assignment.find_drop (t : Text) (i j : Nat) :
    find (t.drop i) j = .ok none ∧ find t (i + j) = .ok none ∨
      ∃ x y, find (t.drop i) j = .ok (some x) ∧ find t (i + j) = .ok (some y) ∧
        y.span = x.span.shift i ∧ x.span.stop ≤ (t.drop i).length := by
  rcases exists_parts t (i + j) with hf | ⟨name, v, rest, ht, hn, hv⟩
  case inl =>
    have hd : find (t.drop i) j = .ok none := by
      rw [find_eq_none_iff, List.drop_drop]
      exact find_eq_none_iff.mp hf
    exact .inl ⟨hd, hf⟩
  case inr =>
    have hd : (t.drop i).drop j = name ++ '='.toUInt8 :: (v.raw ++ rest) := by
      rw [List.drop_drop, ht]
    have hl := congrArg List.length hd
    simp only [List.length_drop, List.length_append, List.length_cons] at hl
    refine .inr ⟨_, _, find_eq hd hn hv, find_eq ht hn hv, ?_, ?_⟩
    · simp only [ofParts, Span.shift, Span.mk.injEq]
      omega
    · simp only [ofParts, List.length_drop]
      omega

namespace Comment

-- The last line of a comment on line `k`, apart from what is indented deeper: the line that holds
-- the end of a value that can be read one byte past the mark and the word glued to it.
def lastLine (t : Text) (k : Nat) (line afterMark : Text) : Nat :=
  let word := Text.lineStart t k + Text.indentation line + mark.length
    + Text.run (!Text.isBlank ·) afterMark
  match Assignment.find t (word + 1) with
  | .ok (some found) => Text.lineAt t found.span.stop
  | _ => k

theorem dropWhile_dropWhile_suffix {α : Type} {p q : α → Bool} (l : List α) :
    (l.dropWhile p).dropWhile q <:+ l :=
  (List.dropWhile_suffix q).trans (List.dropWhile_suffix p)

-- What is left of numbered lines of `t`, none of which is the first: a line with a comment goes,
-- together with all lines through the last one of the comment and with the lines below that are
-- indented deeper.
def uncommented (t : Text) : List (Text × Nat) → List Text
  | [] => []
  | (line, k) :: below =>
    match Text.after? mark (line.drop (Text.indentation line)) with
    | none => line :: uncommented t below
    | some afterMark =>
      uncommented t <| (below.dropWhile (·.2 ≤ lastLine t k line afterMark)).dropWhile
        (Text.indentation line < Text.indentation ·.1)
termination_by numbered => numbered.length
decreasing_by
  · simp
  · exact Nat.lt_succ_of_le (dropWhile_dropWhile_suffix below).length_le

def kept (t : Text) : List Text :=
  t.lines.take 1 ++ uncommented t (t.lines.zipIdx.drop 1)

theorem newline_not_mem_mark : '\n'.toUInt8 ∉ mark := by
  decide

theorem indentation_append_following :
    Text.indentation (line ++ Text.following ls) = Text.indentation line :=
  Text.run_append_following (by decide)

theorem blockLength_append {depth : Nat} (ha : '\n'.toUInt8 ∉ a) :
    blockLength depth (a ++ rest) = a.length + blockLength depth rest := by
  induction a
  case nil => simp
  case cons b a hi =>
    simp only [List.mem_cons, not_or] at ha
    rw [List.cons_append, blockLength, if_neg fun hb => ha.left hb.left.symm, hi ha.right,
      List.length_cons]
    omega

theorem drop_blockLength {depth : Nat} (ha : '\n'.toUInt8 ∉ a)
    (h : ∀ line ∈ ls, '\n'.toUInt8 ∉ line) :
    (a ++ Text.following ls).drop (blockLength depth (a ++ Text.following ls)) =
      Text.following (ls.dropWhile (depth < Text.indentation ·)) := by
  induction ls generalizing a
  case nil =>
    rw [blockLength_append ha, List.drop_length_add_append]
    rfl
  case cons line ls hi =>
    rw [blockLength_append ha, List.drop_length_add_append, Text.following_cons, blockLength,
      indentation_append_following]
    by_cases hd : Text.indentation line ≤ depth
    case pos =>
      rw [if_pos ⟨rfl, hd⟩, List.drop_zero, List.dropWhile_cons_of_neg (by simpa using hd),
        Text.following_cons]
    case neg =>
      have hline := h line (by simp)
      rw [if_neg fun hb => hd hb.right, List.drop_succ_cons, hi hline fun _ hm => h _ (by simp [hm]),
        List.dropWhile_cons_of_pos (by simpa using hd)]

theorem length?_eq_none (h : Text.after? mark (line.drop (Text.indentation line)) = none) :
    length? (line ++ Text.following ls) = .ok none := by
  have hi : Text.indentation line ≤ line.length := Text.run_le_length
  simp only [length?, indentation_append_following, List.drop_append_of_le_length hi,
    Text.after?_append_following newline_not_mem_mark, h, Option.map_none]

theorem exists_covered (hm : Text.after? mark (line.drop (Text.indentation line)) = some afterMark)
    (ht : t.lines = lead ++ line :: ls) (hne : lead ≠ []) :
    ∃ covered, covered ≤ (line ++ Text.following ls).length ∧
      length? (line ++ Text.following ls) = .ok (some (covered + blockLength (Text.indentation line)
        ((line ++ Text.following ls).drop covered))) ∧
      lastLine t lead.length line afterMark = lead.length +
        ((line ++ Text.following ls).take covered).count '\n'.toUInt8 := by
  have hi : Text.indentation line ≤ line.length := Text.run_le_length
  have hw : Text.run (!Text.isBlank ·) (afterMark ++ Text.following ls) =
      Text.run (!Text.isBlank ·) afterMark := Text.run_append_following (by decide)
  have hl := congrArg List.length (Text.eq_of_after? hm)
  simp only [List.length_drop, List.length_append] at hl
  have hr : Text.run (!Text.isBlank ·) afterMark ≤ afterMark.length := Text.run_le_length
  generalize hword : Text.indentation line + mark.length +
    Text.run (!Text.isBlank ·) afterMark = word
  have hwhole : lastLine t lead.length line afterMark =
      match Assignment.find t (Text.lineStart t lead.length + (word + 1)) with
      | .ok (some found) => Text.lineAt t found.span.stop
      | _ => lead.length := by
    simp only [lastLine, ← hword, Nat.add_assoc]
  have hpart {found : Option Assignment}
      (hf : Assignment.find (line ++ Text.following ls) (word + 1) = .ok found) :
      let covered := found.elim word (·.span.stop)
      length? (line ++ Text.following ls) = .ok (some (covered +
        blockLength (Text.indentation line) ((line ++ Text.following ls).drop covered))) := by
    simp only [length?, indentation_append_following, List.drop_append_of_le_length hi,
      Text.after?_append_following newline_not_mem_mark, hm, Option.map_some, hw, hword, hf]
    cases found <;> rfl
  have hfind := Assignment.find_drop t (Text.lineStart t lead.length) (word + 1)
  rw [Text.drop_lineStart ht hne] at hfind
  rcases hfind with ⟨hx, hy⟩ | ⟨x, y, hx, hy, hspan, hle⟩
  case inl =>
    -- Without a value nothing but the mark and its word are covered.
    have hnm : '\n'.toUInt8 ∉ line := Text.not_mem_of_mem_lines (t := t) (by simp [ht])
    have hle : word ≤ line.length := by omega
    have hc : (line.take word).count '\n'.toUInt8 = 0 :=
      List.count_eq_zero.mpr fun h => hnm (List.mem_of_mem_take h)
    refine ⟨word, by simp only [List.length_append]; omega, hpart hx, ?_⟩
    rw [hwhole, hy, List.take_append_of_le_length hle, hc]
    rfl
  case inr =>
    refine ⟨x.span.stop, hle, hpart hx, ?_⟩
    rw [hwhole, hy, ← Text.lineAt_lineStart_add ht hne]
    simp only [hspan, Span.shift]

theorem dropWhile_zipIdx_le {c : Nat} :
    (ls.zipIdx (k + 1)).dropWhile (·.2 ≤ k + c) = (ls.drop c).zipIdx (k + c + 1) := by
  induction ls generalizing k c
  case nil => simp
  case cons line ls hi =>
    rw [List.zipIdx_cons]
    cases c
    case zero   => rw [List.dropWhile_cons_of_neg (by simp), List.drop_zero, List.zipIdx_cons]
    case succ c =>
      have h := @hi (k + 1) c
      rw [Nat.add_right_comm k 1 c] at h
      rw [List.dropWhile_cons_of_pos (by simp), List.drop_succ_cons]
      exact h

theorem dropWhile_zipIdx_fst {p : Text → Bool} :
    (ls.zipIdx k).dropWhile (p ·.1) = (ls.dropWhile p).zipIdx (k + (ls.takeWhile p).length) := by
  induction ls generalizing k
  case nil => simp
  case cons line ls hi =>
    rw [List.zipIdx_cons]
    cases hp : p line
    case false => simp [hp, List.zipIdx_cons]
    case true  => simp [hp, hi, Nat.add_comm, Nat.add_left_comm]

theorem exists_length_lines
    (hm : Text.after? mark (line.drop (Text.indentation line)) = some afterMark)
    (ht : t.lines = lead ++ line :: ls) (hne : lead ≠ []) :
    ∃ n above below, length? (line ++ Text.following ls) = .ok (some n) ∧
      n ≤ (line ++ Text.following ls).length ∧
      (line ++ Text.following ls).drop n = Text.following below ∧ ls = above ++ below ∧
      uncommented t ((line :: ls).zipIdx lead.length) =
        uncommented t (below.zipIdx (lead ++ line :: above).length) := by
  have ⟨covered, hle, hlen, hlast⟩ := exists_covered hm ht hne
  have hline : '\n'.toUInt8 ∉ line := Text.not_mem_of_mem_lines (t := t) (by simp [ht])
  have hls : ∀ x ∈ ls, '\n'.toUInt8 ∉ x := fun x hx =>
    Text.not_mem_of_mem_lines (t := t) (by simp [ht, hx])
  have ⟨x, hx, hd⟩ := Text.exists_drop_following hline hls hle
  have hc : ((line ++ Text.following ls).take covered).count '\n'.toUInt8 ≤ ls.length := by
    have hcount := (List.take_sublist covered (line ++ Text.following ls)).count_le '\n'.toUInt8
    rwa [@List.count_append _ _ _ line, List.count_eq_zero.mpr hline, Text.count_following hls,
      Nat.zero_add] at hcount
  generalize ((line ++ Text.following ls).take covered).count '\n'.toUInt8 = c at hd hc hlast
  let deeper (below : Text) : Bool := Text.indentation line < Text.indentation below
  refine ⟨_, ls.take c ++ (ls.drop c).takeWhile deeper, (ls.drop c).dropWhile deeper, hlen, ?_, ?_,
    ?_, ?_⟩
  · have hb := @blockLength_le_length ((line ++ Text.following ls).drop covered)
      (Text.indentation line)
    rw [List.length_drop] at hb
    omega
  · rw [← List.drop_drop, hd]
    exact drop_blockLength hx fun y hy => hls y (List.mem_of_mem_drop hy)
  · simp
  · rw [List.zipIdx_cons, uncommented, hm]
    simp only [hlast]
    rw [dropWhile_zipIdx_le, dropWhile_zipIdx_fst (p := deeper)]
    congr 2
    simp only [List.length_append, List.length_cons, List.length_take, deeper]
    omega

theorem go_skip (h : '\n'.toUInt8 ∉ a ∨ pos + a.length ≤ resume) :
    blocks.go pos resume (a ++ rest) = blocks.go (pos + a.length) resume rest := by
  induction a generalizing pos
  case nil => rfl
  case cons b a hi =>
    simp only [List.mem_cons, not_or, List.length_cons] at h
    have hb : (pos < resume || b ≠ '\n'.toUInt8) = true := by
      simp only [Bool.or_eq_true, decide_eq_true_eq, ne_eq]
      rcases h with h | h
      · exact .inr (Ne.symm h.left)
      · exact .inl (by omega)
    have hi := @hi (pos + 1) (h.imp And.right fun h => by omega)
    rw [List.cons_append, blocks.go, if_pos hb, hi, List.length_cons]
    congr 1
    omega

theorem go_line (hm : Text.after? mark (line.drop (Text.indentation line)) = none)
    (hline : '\n'.toUInt8 ∉ line) (hr : resume ≤ pos) :
    blocks.go pos resume (Text.following (line :: ls)) =
      blocks.go (pos + 1 + line.length) resume (Text.following ls) := by
  rw [Text.following_cons, blocks.go, if_neg (by simpa using hr), length?_eq_none hm,
    ← go_skip (.inl hline)]
  rfl

theorem go_comment {n : Nat} {below : List Text}
    (hn : length? (line ++ Text.following ls) = .ok (some n))
    (hle : n ≤ (line ++ Text.following ls).length)
    (hd : (line ++ Text.following ls).drop n = Text.following below) (hr : resume ≤ pos) :
    blocks.go pos resume (Text.following (line :: ls)) =
      (blocks.go (pos + 1 + n) (pos + 1 + n) (Text.following below)).map
        (⟨pos, pos + 1 + n⟩ :: ·) := by
  have hl : ((line ++ Text.following ls).take n).length = n := List.length_take_of_le hle
  have hs := @go_skip (Text.following below) ((line ++ Text.following ls).take n) (pos + 1)
    (pos + 1 + n) (.inr (by omega))
  rw [← hd, List.take_append_drop, hl, hd] at hs
  rw [Text.following_cons, blocks.go, if_neg (by simpa using hr), hn]
  simp only [bind, Except.bind, hs]
  cases blocks.go (pos + 1 + n) (pos + 1 + n) (Text.following below) <;> rfl

theorem le_start_of_mem_go {found : List Span} (hu : t.IsUtf8) (ht : t.drop pos = rest)
    (h : blocks.go pos resume rest = .ok found) : ∀ e ∈ deletions found, pos ≤ e.start := by
  have ⟨found', hg, hd⟩ := @exists_go t rest pos resume hu ht
  cases h.symm.trans hg
  exact fun e he => (Nat.le_max_left ..).trans (hd.behind e he)

theorem spliceFrom_go {found : List Span} (hu : t.IsUtf8) (ht : t.lines = lead ++ ls)
    (hne : lead ≠ []) (hr : resume ≤ (Text.ofLines lead).length)
    (h : blocks.go (Text.ofLines lead).length resume (Text.following ls) = .ok found) :
    Edit.spliceFrom t (Text.ofLines lead).length (deletions found) =
      Text.following (uncommented t (ls.zipIdx lead.length)) := by
  -- By induction on the number of the lines that are left: a line without a comment stays in front
  -- of what becomes of the lines below, one with a comment is deleted with the lines above `below`.
  induction hn : ls.length using Nat.strong_induction_on generalizing lead ls resume found
  case h n hi =>
  cases ls
  case nil =>
    cases h
    rw [deletions, List.map_nil, Edit.spliceFrom, Text.drop_lead ht hne, List.zipIdx_nil,
      uncommented]
  case cons line ls =>
    have hline : '\n'.toUInt8 ∉ line := Text.not_mem_of_mem_lines (t := t) (by simp [ht])
    cases hm : Text.after? mark (line.drop (Text.indentation line))
    case none =>
      have ht' : t.lines = (lead ++ [line]) ++ ls := by simp [ht]
      have hne' : lead ++ [line] ≠ [] := by simp
      have hlead : Text.ofLines (lead ++ [line]) = Text.ofLines lead ++ '\n'.toUInt8 :: line := by
        rw [Text.ofLines_append hne, Text.following_cons]
        simp [Text.following]
      have hlen : (Text.ofLines (lead ++ [line])).length =
          (Text.ofLines lead).length + 1 + line.length := by
        rw [hlead, List.length_append, List.length_cons]
        omega
      rw [go_line hm hline hr, ← hlen] at h
      have hs := le_start_of_mem_go hu (Text.drop_lead ht' hne') h
      have hi := hi ls.length (by simp [← hn]) ht' hne' (by omega) h rfl
      rw [Edit.spliceFrom_eq_append (by omega) hs, hi, Text.take_lead ht' hne', hlead,
        List.drop_left, List.zipIdx_cons, uncommented, hm, Text.following_cons]
      simp
    case some afterMark =>
      obtain ⟨n', above, below, hn', hle, hd, hls, hun⟩ := exists_length_lines hm ht hne
      have ht' : t.lines = (lead ++ line :: above) ++ below := by simp [ht, hls]
      have hne' : lead ++ line :: above ≠ [] := by simp
      have hlen : (Text.ofLines (lead ++ line :: above)).length =
          (Text.ofLines lead).length + 1 + n' := by
        have h₁ := congrArg List.length (Text.eq_append_of_lines ht hne)
        have h₂ := congrArg List.length (Text.eq_append_of_lines ht' hne')
        have h₃ := congrArg List.length hd
        rw [Text.following_cons, List.length_append, List.length_cons] at h₁
        rw [List.length_append] at h₂
        rw [List.length_drop] at h₃
        omega
      rw [go_comment hn' hle hd hr, ← hlen] at h
      cases hg : blocks.go (Text.ofLines (lead ++ line :: above)).length
        (Text.ofLines (lead ++ line :: above)).length (Text.following below)
      case error => simp [hg, Except.map] at h
      case ok found' =>
        rw [hg] at h
        cases h
        have hlt : below.length < n := by
          simp only [hls, List.length_cons, List.length_append] at hn
          omega
        rw [hun, ← hi below.length hlt ht' hne' (Nat.le_refl _) hg rfl, deletions, List.map_cons,
          Edit.spliceFrom]
        simp [Edit.deletion, deletions]

theorem kept_eq {first : Text} (h : t.lines = first :: ls) :
    kept t = first :: uncommented t (ls.zipIdx 1) := by
  simp [kept, h]

theorem strip_eq_ofLines (hu : t.IsUtf8) : strip t = .ok (Text.ofLines (kept t)) := by
  have ⟨first, ls, ht⟩ := List.exists_cons_of_ne_nil (Text.lines_ne_nil (t := t))
  have hfirst : '\n'.toUInt8 ∉ first := Text.not_mem_of_mem_lines (t := t) (by simp [ht])
  have ⟨found, hb, hd⟩ := exists_blocks hu
  have happly := hd.applyAll hu fun _ => isUtf8_of_mem_deletions
  have hlead : Text.ofLines [first] = first := by simp [Text.ofLines]
  have hgo : blocks.go (Text.ofLines [first]).length 0 (Text.following ls) = .ok found := by
    rw [blocks, ← Text.ofLines_lines (t := t), ht, Text.ofLines_cons, go_skip (.inl hfirst),
      Nat.zero_add] at hb
    rwa [hlead]
  have hsplit : t.lines = [first] ++ ls := ht
  have hs := le_start_of_mem_go hu (Text.drop_lead hsplit (by simp)) hgo
  have hrest := spliceFrom_go hu hsplit (by simp) (Nat.zero_le _) hgo
  rw [strip, hb]
  simp only [bind, Except.bind]
  rw [happly, Edit.spliceFrom_zero hs, hrest, Text.take_lead hsplit (by simp), hlead, kept_eq ht,
    Text.ofLines_cons]
  rfl

theorem of_mem_uncommented {numbered : List (Text × Nat)} (h : line ∈ uncommented t numbered) :
    line ∈ numbered.map Prod.fst ∧
      Text.after? mark (line.drop (Text.indentation line)) = none := by
  fun_induction uncommented t numbered
  case case1 => cases h
  case case2 line' k below hm hi =>
    cases h
    case head   => exact ⟨by simp, hm⟩
    case tail h => exact ⟨List.mem_cons_of_mem _ (hi h).left, (hi h).right⟩
  case case3 line' k below afterMark hm hi =>
    have ⟨hl, hn⟩ := hi h
    have hmem := List.map_subset Prod.fst (dropWhile_dropWhile_suffix below).subset hl
    exact ⟨List.mem_cons_of_mem line' hmem, hn⟩

theorem uncommented_eq {numbered : List (Text × Nat)}
    (h : ∀ line ∈ numbered.map Prod.fst,
      Text.after? mark (line.drop (Text.indentation line)) = none) :
    uncommented t numbered = numbered.map Prod.fst := by
  induction numbered
  case nil => rw [uncommented, List.map_nil]
  case cons x numbered hi =>
    have hx := h x.1 (by simp)
    rw [uncommented, hx, List.map_cons, hi fun line hm => h line (by simp_all)]

theorem lines_ofLines_kept : (Text.ofLines (kept t)).lines = kept t := by
  have ⟨first, ls, ht⟩ := List.exists_cons_of_ne_nil (Text.lines_ne_nil (t := t))
  rw [kept_eq ht]
  refine Text.lines_ofLines (fun line hl => ?_) (by simp)
  refine Text.not_mem_of_mem_lines (t := t) (ht ▸ ?_)
  cases hl
  case head    => simp
  case tail hl => simpa using List.mem_cons_of_mem first (of_mem_uncommented hl).left

theorem after?_of_mem_tail_kept (h : line ∈ (kept t).tail) :
    Text.after? mark (line.drop (Text.indentation line)) = none := by
  have ⟨first, ls, ht⟩ := List.exists_cons_of_ne_nil (Text.lines_ne_nil (t := t))
  rw [kept_eq ht, List.tail_cons] at h
  exact (of_mem_uncommented h).right

theorem kept_eq_lines (h : ∀ line ∈ t.lines.tail,
    Text.after? mark (line.drop (Text.indentation line)) = none) : kept t = t.lines := by
  have ⟨first, ls, ht⟩ := List.exists_cons_of_ne_nil (Text.lines_ne_nil (t := t))
  rw [ht, List.tail_cons] at h
  rw [kept_eq ht, uncommented_eq (by simpa using h), ht]
  simp

-- Taking the comments out is a matter of lines: what is left is the first line, and of the others
-- those that neither hold a comment nor belong to one. So no comment is left, and there is nothing
-- to take out a second time.
theorem strip_leaves_uncommented_lines (s : String) :
    strip (.ofString s) = .ok (Text.ofLines (kept (.ofString s))) ∧
      (∀ line ∈ (kept (.ofString s)).tail, ¬mark <+: line.drop (Text.indentation line)) ∧
      strip (Text.ofLines (kept (.ofString s))) = .ok (Text.ofLines (kept (.ofString s))) := by
  have hu := Text.isUtf8_ofString s
  have hstrip := strip_eq_ofLines hu
  refine ⟨hstrip, fun line hl hm => ?_, ?_⟩
  · have h := after?_of_mem_tail_kept hl
    rw [Text.after?, if_pos (List.isPrefixOf_iff_prefix.mpr hm)] at h
    cases h
  · obtain ⟨stripped, hs, hw⟩ := exists_strip hu
    cases hstrip.symm.trans hs
    have hk : kept (Text.ofLines (kept (.ofString s))) = kept (.ofString s) := by
      rw [kept_eq_lines, lines_ofLines_kept]
      rw [lines_ofLines_kept]
      exact fun line => after?_of_mem_tail_kept
    rw [strip_eq_ofLines hw, hk]

end Comment

end PugShorthand.Attribute
