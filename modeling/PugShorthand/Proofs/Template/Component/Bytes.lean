import PugShorthand.Proofs.Edit.Bytewise
import PugShorthand.Proofs.Template.Component.Settled

namespace PugShorthand.Template.Component

open QualifiedName

variable {fragmentTag t : Text} {body i newline : Nat} {b : UInt8} {e : Edit}

-- The dot at `i` joins two segments of the name at the body of its line:
-- 1. the name begins with an upper-case letter
-- 2. nothing that ends a name stands in front of `i`
-- 3. every dot up to `i` is followed by an upper-case letter
structure Qualifies (t : Text) (newline body i : Nat) : Prop where
  dot : t[i]? = some '.'.toUInt8
  line : t.IsBody newline body
  before : newline < i
  held : ∀ j, newline < j → j < i → t[j]? ≠ some '\n'.toUInt8
  name : startsUpper (t.drop body) = true
  unbroken : ∀ j b, body ≤ j → j < i → t[j]? = some b → b ∉ Text.ofString "( \t\r"
  chained : ∀ j, body < j → j ≤ i → t[j]? = some '.'.toUInt8 → startsUpper (t.drop (j + 1)) = true

theorem isStop_iff : dotted.isStop b = true ↔
    b = '\n'.toUInt8 ∨ b ∈ Text.ofString "( \t\r" :=
  Text.forall_byte (p := fun b => dotted.isStop b = true ↔
    b = '\n'.toUInt8 ∨ b ∈ Text.ofString "( \t\r") (by decide +kernel) b

theorem Qualifies.body_le (h : Qualifies t newline body i) : body ≤ i :=
  Nat.le_of_not_lt fun hlt => absurd (h.line.isIndent h.before hlt h.dot) (by decide)

theorem Qualifies.not_stop (h : Qualifies t newline body i) {j : Nat} (hj : body ≤ j) (hi : j < i)
    (hb : t[j]? = some b) : dotted.isStop b = false := by
  refine Bool.eq_false_iff.mpr fun hs => ?_
  cases isStop_iff.mp hs
  case inl hs =>
    have hbody := h.line.indented
    exact h.held j (by omega) hi (hs ▸ hb)
  case inr hs => exact h.unbroken j b hj hi hb hs

theorem Qualifies.joined (h : Qualifies t newline body i) {j : Nat} (hj : body ≤ j) (hi : j ≤ i)
    (hb : t[j]? = some '.'.toUInt8) : startsUpper (t.drop (j + 1)) = true := by
  refine h.chained j (Nat.lt_of_le_of_ne hj fun he => ?_) hi hb
  have hn := h.name
  rw [startsUpper, List.head?_drop, he, hb] at hn
  exact absurd hn (by decide)

theorem Qualifies.lt_reach (h : Qualifies t newline body i) :
    i - body < dotted.reach (t.drop body) := by
  have hle := h.body_le
  have hlt := (List.getElem?_eq_some_iff.mp h.dot).fst
  refine QualifiedName.lt_reach fun j hj => ?_
  have ⟨b, hb⟩ : ∃ b, t[body + j]? = some b := ⟨_, List.getElem?_eq_getElem (by omega)⟩
  refine ⟨b, by rw [List.getElem?_drop, hb], fun hne => ?plain, fun he => ?joined⟩
  case plain =>
    refine h.not_stop (by omega) (Nat.lt_of_le_of_ne (by omega) fun hi => hne ?_) hb
    rw [hi, h.dot] at hb
    exact (Option.some.inj hb).symm
  case joined =>
    rw [he] at hb
    rw [List.drop_drop]
    exact h.joined (j := body + j) (by omega) (by omega) hb

theorem qualifies_of_lt_reach (hd : t[i]? = some '.'.toUInt8) (hl : t.IsBody newline body)
    (hn : startsUpper (t.drop body) = true) (hle : body ≤ i)
    (hr : i - body < dotted.reach (t.drop body)) : Qualifies t newline body i := by
  have hbody := hl.indented
  have plain (j : Nat) (b : UInt8) (hj : body ≤ j) (hi : j < i) (hb : t[j]? = some b) :
      dotted.isStop b = false := by
    have h := @not_stop_of_lt_reach dotted (t.drop body) (j - body) b (by omega)
      (by rwa [List.getElem?_drop, Nat.add_sub_cancel' hj])
    cases h
    case inl h => rw [h]; decide
    case inr h => exact h
  constructor
  case dot    => exact hd
  case line   => exact hl
  case before => omega
  case name   => exact hn
  case held =>
    intro j hj hi hb
    by_cases hlt : j < body
    case pos => exact absurd (hl.isIndent hj hlt hb) (by decide)
    case neg => exact absurd (plain j _ (by omega) hi hb) (by decide)
  case unbroken =>
    intro j b hj hi hb hm
    have hs := isStop_iff.mpr (.inr hm)
    rw [plain j b hj hi hb] at hs
    exact Bool.false_ne_true hs
  case chained =>
    intro j hj hi hb
    have h := @startsUpper_of_lt_reach dotted (t.drop body) (j - body) (by omega)
      (by rwa [List.getElem?_drop, Nat.add_sub_cancel' (by omega)])
    rwa [List.drop_drop, show body + (j - body + 1) = j + 1 by omega] at h

theorem qualifies_iff : (∃ newline body, Qualifies t newline body i) ↔
    t[i]? = some '.'.toUInt8 ∧ ∃ body ∈ Text.lineBodies t, startsUpper (t.drop body) = true ∧
      body ≤ i ∧ i - body < dotted.reach (t.drop body) := by
  constructor
  case mp =>
    intro ⟨newline, body, h⟩
    exact ⟨h.dot, body, Text.mem_lineBodies_iff.mpr ⟨newline, h.line⟩, h.name, h.body_le, h.lt_reach⟩
  case mpr =>
    intro ⟨hd, body, hm, hn, hle, hr⟩
    have ⟨newline, hl⟩ := Text.mem_lineBodies_iff.mp hm
    exact ⟨newline, body, qualifies_of_lt_reach hd hl hn hle hr⟩

instance : Decidable (∃ newline, t.IsBody newline i) :=
  decidable_of_iff _ Text.mem_lineBodies_iff

instance : Decidable (∃ newline body, Qualifies t newline body i) :=
  decidable_of_iff _ qualifies_iff.symm

def written (fragmentTag t : Text) (i : Nat) (b : UInt8) : Text :=
  (if b = '('.toUInt8 ∧ ∃ newline, t.IsBody newline i then fragmentTag else []) ++
    [if ∃ newline body, Qualifies t newline body i then ':'.toUInt8 else b]

theorem written_eq_self (hp : ¬(b = '('.toUInt8 ∧ ∃ newline, t.IsBody newline i))
    (hq : ¬∃ newline body, Qualifies t newline body i) : written fragmentTag t i b = [b] := by
  rw [written, if_neg hp, if_neg hq, List.nil_append]

theorem written_opening (h : t.IsBody newline i) (hb : t[i]? = some '('.toUInt8) :
    written fragmentTag t i '('.toUInt8 = fragmentTag ++ ['('.toUInt8] := by
  have hq : ¬∃ newline body, Qualifies t newline body i := fun ⟨_, _, hq⟩ =>
    absurd (hb.symm.trans hq.dot) (by decide)
  rw [written, if_pos ⟨rfl, newline, h⟩, if_neg hq]

theorem written_of_lt_reach (hm : body ∈ Text.lineBodies t) (hn : startsUpper (t.drop body) = true)
    (hle : body ≤ i) (hr : i - body < dotted.reach (t.drop body)) (hb : t[i]? = some b) :
    written fragmentTag t i b = [if b = '.'.toUInt8 then ':'.toUInt8 else b] := by
  have hp : ¬(b = '('.toUInt8 ∧ ∃ newline, t.IsBody newline i) := by
    intro ⟨hb', _⟩
    have h := not_stop_of_lt_reach hr (by rwa [List.getElem?_drop, Nat.add_sub_cancel' hle])
    rw [hb'] at h
    exact absurd h (by decide)
  by_cases hd : b = '.'.toUInt8
  case pos =>
    have hq : ∃ newline body, Qualifies t newline body i :=
      qualifies_iff.mpr ⟨hd ▸ hb, body, hm, hn, hle, hr⟩
    rw [written, if_neg hp, if_pos hq, if_pos hd, List.nil_append]
  case neg =>
    have hq : ¬∃ newline body, Qualifies t newline body i := fun ⟨_, _, hq⟩ =>
      hd (Option.some.inj (hb.symm.trans hq.dot))
    rw [written_eq_self hp hq, if_neg hd]

theorem mem_edits (hm : body ∈ Text.lineBodies t) (he : edit? fragmentTag (t.drop body) = some e) :
    e.shift body ∈ edits fragmentTag t :=
  List.mem_filterMap.mpr ⟨body, hm, by rw [he, Option.map_some]⟩

theorem exists_edit_of_qualifies (h : ∃ newline body, Qualifies t newline body i) :
    ∃ e ∈ edits fragmentTag t, e.start ≤ i ∧ i < e.stop := by
  have ⟨hd, body, hm, hn, hle, hr⟩ := qualifies_iff.mp h
  have mem_take {n : Nat} (hlt : i - body < n) : '.'.toUInt8 ∈ (t.drop body).take n := by
    refine List.mem_of_getElem? (i := i - body) ?_
    rw [List.getElem?_take, if_pos hlt, List.getElem?_drop, Nat.add_sub_cancel' hle, hd]
  have ⟨hedit, _⟩ := @edit?_of_startsUpper fragmentTag _ hn
  cases he : dotted.rejoin? ':'.toUInt8 (t.drop body)
  case none => exact absurd (mem_take hr) (not_mem_of_rejoin? hn he)
  case some e =>
    have ⟨_, _, hstop, _⟩ := rejoin?_spec dotted_isPlain he
    have hstart : e.start ≤ i - body := Nat.le_of_not_lt fun hlt =>
      not_mem_take_of_rejoin? he (mem_take hlt)
    refine ⟨e.shift body, mem_edits hm (hedit.trans he), ?_⟩
    simp only [Edit.shift]
    omega

theorem written_of_not_covered (hb : t[i]? = some b)
    (h : ∀ e ∈ edits fragmentTag t, ¬(e.start ≤ i ∧ i < e.reach)) :
    written fragmentTag t i b = [b] := by
  refine written_eq_self (fun ho => ?opening) fun hq => ?qualifies
  case opening =>
    have he : edit? fragmentTag (t.drop i) = some (.insertion 0 fragmentTag) := by
      rw [edit?, List.head?_drop, hb, ho.left, if_pos rfl]
    refine h _ (mem_edits (Text.mem_lineBodies_iff.mpr ho.right) he) ?_
    simp only [Edit.shift, Edit.insertion, Edit.reach]
    omega
  case qualifies =>
    obtain ⟨e, hm, hs, hlt⟩ := @exists_edit_of_qualifies fragmentTag _ _ hq
    exact h e hm ⟨hs, Nat.lt_of_lt_of_le hlt (Nat.le_max_left ..)⟩

theorem follows_listing (hl : t.IsBody newline body) (hb : t[body]? = some '('.toUInt8) :
    ((Edit.insertion 0 fragmentTag).shift body).Follows (written fragmentTag t) t := by
  have hlt := (List.getElem?_eq_some_iff.mp hb).fst
  have hreach : ((Edit.insertion 0 fragmentTag).shift body).reach = body + 1 := by
    simp only [Edit.shift, Edit.insertion, Edit.reach]
    omega
  have hcut : (t.take (body + 1)).drop body = ['('.toUInt8] := by
    rw [List.take_add_one, hb]
    exact List.drop_left' (List.length_take_of_le hlt.le)
  constructor
  case fits => omega
  case text =>
    rw [hreach]
    simp only [Edit.shift, Edit.insertion, Nat.add_zero, hcut, Text.bytewise_cons,
      written_opening hl hb]
    exact (List.append_nil _).symm

theorem follows_name (hm : body ∈ Text.lineBodies t)
    (he : dotted.rejoin? ':'.toUInt8 (t.drop body) = some e) :
    (e.shift body).Follows (written fragmentTag t) t := by
  have hn := (take_append_rejoin? dotted_isPlain he).left
  have hle := (Text.bounds_of_mem_lineBodies hm).right
  have hlen := @reach_le_length dotted (t.drop body)
  rw [List.length_drop] at hlen
  obtain ⟨_, hlt, hstop, htext⟩ := rejoin?_spec dotted_isPlain he
  have hreach : (e.shift body).reach = body + e.stop := by
    simp only [Edit.shift, Edit.reach]
    omega
  have hcut : (t.take (body + e.stop)).drop (body + e.start) =
      ((t.drop body).take e.stop).drop e.start := by
    rw [← List.drop_drop, List.drop_take, Nat.add_sub_cancel_left]
  have hname : Text.bytewise (written fragmentTag t) (body + e.start)
      ((t.take (body + e.stop)).drop (body + e.start)) =
        Text.replace '.'.toUInt8 ':'.toUInt8 ((t.take (body + e.stop)).drop (body + e.start)) := by
    refine Text.bytewise_eq_map fun i b hb => ?_
    rw [List.getElem?_drop, List.getElem?_take] at hb
    split at hb
    case isFalse   => cases hb
    case isTrue hi => exact written_of_lt_reach hm hn (by omega) (by omega) hb
  constructor
  case fits => omega
  case text =>
    rw [hreach]
    simp only [Edit.shift, List.drop_take_self, List.append_nil, hname]
    exact hcut ▸ htext

theorem follows_written (hm : e ∈ edits fragmentTag t) : e.Follows (written fragmentTag t) t := by
  obtain ⟨body, hbody, e', he, hs⟩ := exists_of_mem_edits hm
  subst hs
  by_cases hp : (t.drop body).head? = some '('.toUInt8
  case pos =>
    obtain ⟨newline, hl⟩ := Text.mem_lineBodies_iff.mp hbody
    rw [edit?, if_pos hp] at he
    cases he
    exact follows_listing hl (List.head?_drop.symm.trans hp)
  case neg =>
    rw [edit?, if_neg hp] at he
    exact follows_name hbody he

theorem qualified_eq_bytewise (ht : t.IsUtf8) :
    qualified fragmentTag t = Text.bytewise (written fragmentTag t) 0 t := by
  have hd : Edit.DisciplinedFrom t 0 (edits fragmentTag t) :=
    ⟨edits_disciplined ht, fun _ _ => Nat.zero_le _⟩
  have hs := Edit.spliceFrom_eq_bytewise hd (fun _ => follows_written) fun _ _ _ =>
    written_of_not_covered
  rwa [List.drop_zero] at hs

-- Byte for byte the edits leave what `written` says, and so the text in front of the first newline
-- as it is. With a tag that stands on one line and begins like the name of an element, the same
-- edits find nothing to change in what they leave.
theorem edits_written (fragmentTag source : String) :
    let tag := Text.ofString fragmentTag
    let t := Text.ofString source
    ∃ r, Edit.applyAll (edits tag t) t = .ok r ∧ r = Text.bytewise (written tag t) 0 t ∧
      r.takeWhile (· != '\n'.toUInt8) = t.takeWhile (· != '\n'.toUInt8) ∧
      (tag.head?.any Text.isLower = true → '\n'.toUInt8 ∉ tag →
        Edit.applyAll (edits tag r) r = .ok r) := by
  intro tag t
  have hf : tag.IsUtf8 := Text.isUtf8_ofString fragmentTag
  have ht : t.IsUtf8 := Text.isUtf8_ofString source
  refine ⟨qualified tag t, applyAll_edits hf ht, qualified_eq_bytewise ht, takeWhile_qualified,
    fun hl hn => ?_⟩
  have hr : (qualified tag t).IsUtf8 :=
    (edits_disciplined ht).isUtf8_spliceFrom ht fun _ => isUtf8_of_mem_edits hf ht
  rw [edits_qualified ht hl hn]
  exact Edit.Disciplined.nil.applyAll hr (by simp)

-- The first line is kept, and a name goes no further than to a segment that begins with a lower-case
-- letter.
example : Edit.applyAll
    (edits (.ofString "tag") (.ofString "A.B\n  A.B.c.D(x.Y)\n\t(a)"))
      (.ofString "A.B\n  A.B.c.D(x.Y)\n\t(a)") =
        .ok (.ofString "A.B\n  A:B.c.D(x.Y)\n\ttag(a)") := by
  decide +kernel

end PugShorthand.Template.Component
