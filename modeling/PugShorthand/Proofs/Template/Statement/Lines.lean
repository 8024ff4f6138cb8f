import Mathlib.Order.Bounds.Basic
import PugShorthand.Proofs.Template.Shape

namespace PugShorthand.Template

structure OpeningParts where
  sigil : UInt8
  kind : Text
  gap : Text
  arguments : Text
  marked : sigil = '#'.toUInt8 ∨ sigil = '@'.toUInt8
  unblank : ∀ b ∈ kind, Text.isBlank b = false
  parted : gap ≠ []
  blank : ∀ b ∈ gap, Text.isBlank b = true
  undented : ∀ b ∈ arguments.head?, Text.isBlank b = false

namespace OpeningParts

variable {p : OpeningParts} {s : Statement} {t : Text} {sigil : UInt8}

def inside (p : OpeningParts) : Text :=
  p.kind ++ (p.gap ++ p.arguments)

def text (p : OpeningParts) : Text :=
  '{'.toUInt8 :: p.sigil :: (p.inside ++ ['}'.toUInt8])

-- What takes the place of an opening is a call with one literal. The arguments can be read from it
-- again, and it is closed at its end, unless the kind has a back-tick in front of it or a backslash
-- shields its last one.
structure IsCall (p : OpeningParts) (literal call : Text) : Prop where
  text : call = '+'.toUInt8 :: p.kind ++ Text.ofString "(`" ++ literal ++ Text.ofString "`)"
  arguments : Text.unescape '`'.toUInt8 literal = p.arguments
  closed : '`'.toUInt8 ∉ p.kind → p.arguments.getLast? ≠ some '\\'.toUInt8 →
    Nesting.find call 0 '`'.toUInt8 '`'.toUInt8 =
      .ok (some ⟨p.kind.length + 2, p.kind.length + 2 + literal.length + 2⟩)

theorem isCall_escape : p.IsCall (Text.escape '`'.toUInt8 p.arguments)
    (Statement.opening p.kind p.arguments).text where
  text := rfl
  arguments := Text.unescape_escape (by decide)
  closed hk hl := by
    have hf : '`'.toUInt8 ∉ '+'.toUInt8 :: p.kind ++ ['('.toUInt8] := by
      simpa using ⟨by decide, hk, by decide⟩
    have h := @Nesting.find_literal '`'.toUInt8 p.arguments [')'.toUInt8] _ (by decide) hf hl
    have ho : Text.ofString "(`" = ['('.toUInt8, '`'.toUInt8] := by decide
    have hc : Text.ofString "`)" = ['`'.toUInt8, ')'.toUInt8] := by decide
    simpa [Statement.text, ho, hc] using h

theorem opening?_inside (h : Statement.opening? p.inside = some s) :
    s = .opening p.kind p.arguments := by
  have hg : ∀ b ∈ (p.gap ++ p.arguments).head?, (!Text.isBlank b) = false := by
    have ⟨b, gap, hgap⟩ := List.exists_cons_of_ne_nil p.parted
    simpa [hgap] using p.blank b (by simp [hgap])
  have hk : Text.run (!Text.isBlank ·) p.inside = p.kind.length :=
    Text.run_append (by simpa using p.unblank) hg
  have ha : Text.run Text.isBlank (p.gap ++ p.arguments) = p.gap.length :=
    Text.run_append p.blank p.undented
  have hkind := Text.take_run (t := p.inside) (p := (!Text.isBlank ·))
  have harguments := Text.drop_run (t := p.gap ++ p.arguments) (p := Text.isBlank)
  rw [hk, inside, List.take_left] at hkind
  rw [ha, List.drop_left] at harguments
  simp only [Statement.opening?, inside, ← hkind, List.drop_left, ← harguments,
    Option.ite_none_left_eq_some, Option.some.injEq] at h
  exact h.right.symm

theorem exists_of_opening? (hs : sigil = '#'.toUInt8 ∨ sigil = '@'.toUInt8)
    (h : (Statement.opening? t).isSome = true) :
    ∃ p : OpeningParts, p.sigil = sigil ∧ p.inside = t := by
  have ⟨kind, b, c, arguments, ht, _, hk, hb⟩ := Statement.isSome_opening?_iff.mp h
  refine ⟨⟨sigil, kind, b :: (c :: arguments).takeWhile Text.isBlank,
    (c :: arguments).dropWhile Text.isBlank, hs, hk, by simp, ?blank, ?undented⟩, rfl, ?inside⟩
  case blank =>
    simp only [List.mem_cons, forall_eq_or_imp]
    exact ⟨hb, fun x hx => List.mem_takeWhile_imp hx⟩
  case undented =>
    intro x hx
    have hd := List.head?_dropWhile_not Text.isBlank (c :: arguments)
    rw [Option.mem_def.mp hx] at hd
    simpa using hd
  case inside =>
    rw [ht, OpeningParts.inside, List.cons_append, List.takeWhile_append_dropWhile]

end OpeningParts

namespace Statement

variable {t : Text} {closes : Text → Bool} {s : Statement} {e : Edit} {resume p n : Nat}
variable {bodies : List Nat} {found : List Edit}

def Expands (closes : Text → Bool) (t : Text) : Prop :=
  ∃ s n, read? t = some (s, n) ∧ s.isExpanded closes = true

theorem expands_iff (ht : t.IsUtf8) : Expands closes t ↔
    openingShape.Begins t ∨ ∃ kind, closes kind = true ∧ (closingShape [kind]).Begins t := by
  simp only [begins_openingShape_iff ht, begins_closingShape_iff ht, List.mem_singleton,
    exists_eq_left]
  constructor
  case mp =>
    intro ⟨s, n, h, hx⟩
    cases s
    case opening kind arguments => exact .inl ⟨kind, arguments, n, h⟩
    case closing kind           => exact .inr ⟨kind, hx, n, h⟩
  case mpr =>
    intro h
    cases h
    case inl h =>
      have ⟨kind, arguments, n, h⟩ := h
      exact ⟨_, n, h, rfl⟩
    case inr h =>
      have ⟨kind, hk, n, h⟩ := h
      exact ⟨_, n, h, hk⟩

theorem exists_read_of_mem_edits (h : e ∈ edits (scan.go closes t resume bodies)) :
    ∃ s n, e.start ∈ bodies ∧ read? (t.drop e.start) = some (s, n) ∧
      s.isExpanded closes = true ∧ e.stop = e.start + n ∧ e.text = s.text := by
  have ⟨o, ho, he⟩ := List.mem_map.mp h
  have ⟨body, hb, n, hr, hs, hx⟩ := exists_read_of_mem_go ho
  subst he
  simp only [Occurrence.edit, hs]
  exact ⟨o.statement, n, hb, hr, hx, rfl, rfl⟩

def Accounted (closes : Text → Bool) (t : Text) (p : Nat) (found : List Edit) : Prop :=
  (∃ e ∈ found, e.start = p) ↔
    (∀ e ∈ found, ¬(e.start < p ∧ p < e.stop)) ∧ Expands closes (t.drop p)

theorem accounted_unread (hn : ¬Expands closes (t.drop p)) (hfrom : ∀ e ∈ found, p < e.start) :
    Accounted closes t p found := by
  refine iff_of_false (fun ⟨e, he, hs⟩ => ?_) fun h => hn h.right
  have := hfrom e he
  omega

theorem accounted_here (hx : Expands closes (t.drop p)) (hs : e.start = p)
    (hfrom : ∀ x ∈ found, p < x.start) : Accounted closes t p (e :: found) := by
  refine iff_of_true ⟨e, by simp, hs⟩ ⟨fun x hm => ?_, hx⟩
  cases hm
  case head => omega
  case tail hm =>
    have := hfrom x hm
    omega

theorem accounted_behind (hlt : e.start < p) (hfrom : ∀ x ∈ found, e.stop ≤ x.start)
    (h : e.stop ≤ p → Accounted closes t p found) : Accounted closes t p (e :: found) := by
  by_cases hin : p < e.stop
  case pos =>
    refine iff_of_false (fun ⟨x, hm, hs⟩ => ?_) fun hn => hn.left e (by simp) ⟨hlt, hin⟩
    cases hm
    case head => omega
    case tail hm =>
      have := hfrom x hm
      omega
  case neg =>
    have h := h (by omega)
    simp only [Accounted, List.exists_mem_cons_iff, List.forall_mem_cons, and_assoc] at h ⊢
    rw [← h]
    constructor
    case mp =>
      intro hs
      cases hs
      case inl hs => omega
      case inr hs => exact ⟨fun hr => hin hr.right, hs⟩
    case mpr => exact fun hs => .inr hs.right

theorem accounted_of_go (ht : t.IsUtf8) (hb : ∀ body ∈ bodies, body ∈ Text.lineBodies t)
    (ha : bodies.Pairwise (· < ·)) (hp : p ∈ bodies) (hle : resume ≤ p) :
    Accounted closes t p (edits (scan.go closes t resume bodies)) := by
  -- By induction on the lines that are left. Those behind `p` have no part in what is found there,
  -- and a line in front of it has one only by an edit that reaches over `p`.
  induction bodies generalizing resume
  case nil => cases hp
  case cons body bodies hi =>
    have hb' : ∀ body ∈ bodies, body ∈ Text.lineBodies t := fun b h => hb b (by simp [h])
    have ⟨hlt, ha'⟩ := List.pairwise_cons.mp ha
    have later {resume : Nat} : ∀ e ∈ edits (scan.go closes t resume bodies), body < e.start :=
      fun e he =>
        have ⟨_, _, hm, _⟩ := exists_read_of_mem_edits he
        hlt e.start hm
    have skip (hn : ¬Expands closes (t.drop body)) :
        Accounted closes t p (edits (scan.go closes t resume bodies)) := by
      cases hp
      case head    => exact accounted_unread hn later
      case tail hp => exact hi hb' ha' hp hle
    rw [scan.go]
    split
    case isTrue hbody =>
      cases hp
      case head    => omega
      case tail hp => exact hi hb' ha' hp hle
    case isFalse =>
      split
      case h_1 hr => exact skip (by simp [Expands, hr])
      case h_2 s n hr =>
        split
        case isFalse hx => exact skip (by simpa [Expands, hr] using hx)
        case isTrue hx =>
          cases hp
          case head    => exact accounted_here ⟨s, n, hr, hx⟩ rfl later
          case tail hp =>
            have behind := (@go_disciplined t closes (body + n) bodies ht hb' ha').behind
            exact accounted_behind (hlt p hp) behind fun hle => hi hb' ha' hp hle

structure Replaces (t : Text) (e : Edit) : Prop where
  stop : ∃ i, e.stop = i + 1 ∧ IsLeast {i | e.start < i ∧ t[i]? = some '}'.toUInt8} i
  closing : ∀ kind, (closingShape [kind]).Begins (t.drop e.start) → e.text = []
  opening : openingShape.Begins (t.drop e.start) →
    ∃ p : OpeningParts, Span.text ⟨e.start, e.stop⟩ t = .ok p.text
  call : ∀ p : OpeningParts, Span.text ⟨e.start, e.stop⟩ t = .ok p.text →
    ∃ literal, p.IsCall literal e.text

theorem isLeast_stop {sigil : UInt8} {inside rest : Text} {start : Nat}
    (hd : t.drop start = '{'.toUInt8 :: sigil :: (inside ++ '}'.toUInt8 :: rest))
    (hs : sigil ≠ '}'.toUInt8) (hn : '}'.toUInt8 ∉ inside) :
    IsLeast {i | start < i ∧ t[i]? = some '}'.toUInt8} (start + (inside.length + 2)) := by
  have hget (k : Nat) : t[start + k]? =
      ('{'.toUInt8 :: sigil :: (inside ++ '}'.toUInt8 :: rest))[k]? := by
    rw [← hd, List.getElem?_drop]
  refine ⟨⟨by omega, by simp [hget]⟩, fun i ⟨hi, hb⟩ => ?_⟩
  have ⟨k, hk⟩ := Nat.exists_eq_add_of_le (Nat.le_of_lt hi)
  rw [hk, hget] at hb
  match k with
  | 0 => omega
  | 1 => simp [hs] at hb
  | k + 2 =>
    refine Nat.le_of_not_lt fun hlt => hn (List.mem_of_getElem? (i := k) ?_)
    simpa [List.getElem?_append_left (show k < inside.length by omega)] using hb

theorem replaces_of_read (ht : t.IsUtf8) (hb : t.isBoundary e.start = true)
    (hr : read? (t.drop e.start) = some (s, n)) (hstop : e.stop = e.start + n)
    (htext : e.text = s.text) : Replaces t e := by
  have hu := (ht.cut hb).right
  obtain ⟨sigil, inside, rest, hd, hn, hlen, hs⟩ := read?_eq_some_iff.mp hr
  have hcut : (t.take e.stop).drop e.start =
      '{'.toUInt8 :: sigil :: (inside ++ ['}'.toUInt8]) := by
    rw [hstop, List.drop_take, Nat.add_sub_cancel_left, hd, hlen, List.take_succ_cons,
      List.take_succ_cons, List.take_length_add_append]
    rfl
  constructor
  case stop =>
    have hne : sigil ≠ '}'.toUInt8 := by
      rcases hs with ⟨rfl | rfl, -⟩ | ⟨rfl, -⟩ <;> decide
    exact ⟨_, by omega, isLeast_stop hd hne hn⟩
  case closing =>
    intro kind hk
    obtain ⟨_, _, _, hc⟩ := (begins_closingShape_iff hu).mp hk
    cases hr.symm.trans hc
    exact htext
  case opening =>
    intro ho
    obtain ⟨kind, arguments, _, hc⟩ := (begins_openingShape_iff hu).mp ho
    cases hr.symm.trans hc
    have hrange := ht.isRange_add hb (isRange_read? hu hr).left
    cases hs
    case inr hs => simp [closing?_eq_some_iff] at hs
    case inl hs =>
      obtain ⟨p, hp, hi⟩ := OpeningParts.exists_of_opening? hs.left (Option.isSome_of_eq_some hs.right)
      refine ⟨p, ?_⟩
      rw [Span.text, Text.slice_eq (hstop ▸ hrange), hcut, OpeningParts.text, hp, hi]
  case call =>
    intro p hp
    have hp : (t.take e.stop).drop e.start = p.text := by
      simp only [Span.text, Text.slice] at hp
      split at hp
      case isTrue  => exact Except.ok.inj hp
      case isFalse => cases hp
    rw [hcut, OpeningParts.text] at hp
    simp only [List.cons.injEq, true_and, List.append_left_inj] at hp
    cases hs
    case inl hs =>
      have he := OpeningParts.opening?_inside (p := p) (s := s) (hp.right ▸ hs.right)
      exact ⟨_, htext ▸ he ▸ OpeningParts.isCall_escape⟩
    case inr hs =>
      have hm := p.marked
      rw [← hp.left, hs.left] at hm
      exact absurd hm (by decide)

-- The statements of a template and what takes their place. They stand at the bodies of lines, and
-- none but those lines that begin within another statement are passed over.
structure Found (closes : Text → Bool) (t : Text) (found : List Edit) : Prop where
  ascending : found.Pairwise fun a b => a.start < b.start ∧ a.stop ≤ b.start
  exists_iff : ∀ p, (∃ e ∈ found, e.start = p) ↔
    (∃ newline, Text.IsBody t newline p) ∧ (∀ e ∈ found, ¬(e.start < p ∧ p < e.stop)) ∧
      (openingShape.Begins (t.drop p) ∨
        ∃ kind, closes kind = true ∧ (closingShape [kind]).Begins (t.drop p))
  replaces : ∀ e ∈ found, Replaces t e

theorem statements_found_and_replaced (closes : Text → Bool) (source : String) :
    Found closes (.ofString source) (edits (scan closes (.ofString source))) := by
  have ht := Text.isUtf8_ofString source
  generalize Text.ofString source = t at ht ⊢
  constructor
  case ascending => exact (edits_disciplined closes ht).ascending
  case exists_iff =>
    intro p
    rw [← Text.mem_lineBodies_iff]
    by_cases hp : p ∈ Text.lineBodies t
    case neg =>
      refine iff_of_false (fun ⟨e, he, hs⟩ => ?_) fun h => hp h.left
      have ⟨_, _, hm, _⟩ := exists_read_of_mem_edits he
      exact hp (hs ▸ hm)
    case pos =>
      have hu := (ht.cut (ht.isBoundary_lineBodies hp)).right
      have ha : (Text.lineBodies t).Pairwise (· < ·) :=
        (Text.pairwise_lineBodies t).imp fun h => by omega
      have h : Accounted closes t p (edits (scan closes t)) :=
        accounted_of_go ht (fun _ h => h) ha hp (Nat.zero_le p)
      rw [← expands_iff hu]
      exact h.trans (and_iff_right hp).symm
  case replaces =>
    intro e he
    have ⟨s, n, hm, hr, _, hstop, htext⟩ := exists_read_of_mem_edits he
    exact replaces_of_read ht (ht.isBoundary_lineBodies hm) hr hstop htext

end Statement

end PugShorthand.Template
