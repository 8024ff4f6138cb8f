import PugShorthand.Nesting
import PugShorthand.Proofs.Text.Boundary
import PugShorthand.Proofs.Text.Escape

namespace PugShorthand.Nesting

-- The text closes what is open in front of it, `depth` inner regions included, with its last byte
-- and not before. `last` is the byte in front of the text.
inductive Closes (opening closing : UInt8) : Nat → UInt8 → Text → Prop
  | stop {last} (h : last ≠ '\\'.toUInt8) : Closes opening closing 0 last [closing]
  | escaped {depth b rest} (c : Closes opening closing depth b rest) :
    Closes opening closing depth '\\'.toUInt8 (b :: rest)
  | leave {depth last rest} (h : last ≠ '\\'.toUInt8)
    (c : Closes opening closing depth closing rest) :
    Closes opening closing (depth + 1) last (closing :: rest)
  | enter {depth last rest} (h : last ≠ '\\'.toUInt8) (ho : opening ≠ closing)
    (c : Closes opening closing (depth + 1) opening rest) :
    Closes opening closing depth last (opening :: rest)
  | skip {depth last b rest} (h : last ≠ '\\'.toUInt8) (hc : b ≠ closing) (ho : b ≠ opening)
    (c : Closes opening closing depth b rest) : Closes opening closing depth last (b :: rest)

variable {opening closing last quote b : UInt8} {depth start stop pos : Nat}
variable {t region rest body : Text}

theorem stop?_cons :
    stop? opening closing depth pos last (b :: rest) =
      if last = '\\'.toUInt8 then stop? opening closing depth (pos + 1) b rest
      else if b = closing then
        match depth with
        | 0 => some (pos + 1)
        | depth + 1 => stop? opening closing depth (pos + 1) b rest
      else if b = opening then stop? opening closing (depth + 1) (pos + 1) b rest
      else stop? opening closing depth (pos + 1) b rest := by
  cases depth <;> rfl

namespace Closes

theorem exists_concat (h : Closes opening closing depth last region) :
    ∃ body, region = body ++ [closing] := by
  induction h
  case stop => exact ⟨[], rfl⟩
  all_goals
    obtain ⟨body, rfl⟩ := ‹∃ body, _ = body ++ [closing]›
    exact ⟨_ :: body, rfl⟩

theorem isUtf8 (h : Closes opening closing depth last region) (hc : closing < 0x80)
    (ht : Text.IsUtf8 (region ++ rest)) : region.IsUtf8 ∧ rest.IsUtf8 := by
  have ⟨body, hb⟩ := h.exists_concat
  simp only [hb, List.append_assoc, List.singleton_append] at ht
  have ⟨hb', hr⟩ := ht.around hc
  exact ⟨hb ▸ hb'.append (.of_ascii (by simpa using hc)), hr⟩

theorem stop?_eq (h : Closes opening closing depth last region) :
    stop? opening closing depth pos last (region ++ rest) = some (pos + region.length) := by
  induction h generalizing pos
  case stop h => simp [stop?_cons, h]
  case escaped c hi =>
    rw [List.cons_append, stop?_cons, if_pos rfl, hi, List.length_cons]
    congr 1
    omega
  case leave h c hi =>
    rw [List.cons_append, stop?_cons, if_neg h, if_pos rfl, List.length_cons]
    simp only [hi, Option.some.injEq]
    omega
  case enter h ho c hi =>
    rw [List.cons_append, stop?_cons, if_neg h, if_neg ho, if_pos rfl, hi, List.length_cons]
    congr 1
    omega
  case skip h hc ho c hi =>
    rw [List.cons_append, stop?_cons, if_neg h, if_neg hc, if_neg ho, hi, List.length_cons]
    congr 1
    omega

end Closes

theorem exists_closes (h : stop? opening closing depth pos last t = some stop) :
    ∃ region rest, t = region ++ rest ∧ stop = pos + region.length ∧
      Closes opening closing depth last region := by
  induction t generalizing depth pos last
  case nil => simp [stop?] at h
  case cons b t hi =>
    -- Whatever the byte does, a region found behind it is continued by it.
    have extend {depth' : Nat} (hs : stop? opening closing depth' (pos + 1) b t = some stop)
        (hc : ∀ {region}, Closes opening closing depth' b region →
          Closes opening closing depth last (b :: region)) :
        ∃ region rest, b :: t = region ++ rest ∧ stop = pos + region.length ∧
          Closes opening closing depth last region := by
      have ⟨region, rest, ht, hl, h⟩ := hi hs
      exact ⟨b :: region, rest, by rw [ht, List.cons_append], by simp [hl]; omega, hc h⟩
    rw [stop?_cons] at h
    split at h
    case isTrue hl => exact extend h (hl ▸ .escaped ·)
    case isFalse hl =>
      split at h
      case isTrue hc =>
        subst hc
        cases depth
        case zero   => exact ⟨[b], t, rfl, by simpa using h.symm, .stop hl⟩
        case succ n => exact extend h (.leave hl)
      case isFalse hc =>
        split at h
        case isTrue ho =>
          subst ho
          exact extend h (.enter hl hc)
        case isFalse ho => exact extend h (.skip hl hc ho)

theorem find_eq (h : t.drop start = opening :: rest) :
    find t start opening closing =
      .ok ((stop? opening closing 0 (start + 1) opening rest).map (⟨start, ·⟩)) := by
  have hr : t.drop (start + 1) = rest := Text.drop_succ h
  simp [find, h, hr, List.findIdx?_cons]

theorem start_of_find {span : Span} (h : t.drop start = opening :: rest)
    (hf : find t start opening closing = .ok (some span)) : span.start = start := by
  rw [find_eq h] at hf
  have ⟨_, _, hs⟩ := Option.map_eq_some_iff.mp (Except.ok.inj hf)
  rw [← hs]

theorem find_cases (closing : UInt8) (ht : t.IsUtf8) (h : t.drop start = opening :: rest)
    (ho : opening < 0x80) (hc : closing < 0x80) :
    find t start opening closing = .ok none ∨
      ∃ span source, find t start opening closing = .ok (some span) ∧ span.start = start ∧
        start < span.stop ∧ t.isRange span.start span.stop = true ∧
        span.inner t = .ok source ∧ source.IsUtf8 := by
  rw [find_eq h]
  cases hs : stop? opening closing 0 (start + 1) opening rest
  case none => exact .inl rfl
  case some stop =>
    obtain ⟨region, behind, rfl, rfl, c⟩ := exists_closes hs
    obtain ⟨source, rfl⟩ := c.exists_concat
    have hl : (t.take start).length = start := by
      refine List.length_take_of_le (Nat.le_of_not_lt fun hlt => ?_)
      rw [List.drop_eq_nil_of_le (Nat.le_of_lt hlt)] at h
      contradiction
    obtain ⟨front, rfl, rfl⟩ : ∃ front, t = front ++ opening :: (source ++ closing :: behind) ∧
        start = front.length := by
      refine ⟨t.take start, ?_, hl.symm⟩
      conv => lhs; rw [← List.take_append_drop start t, h]
      simp
    have hr := (ht.around ho).right
    have ⟨hu, hb⟩ := hr.around hc
    have hregion : Text.IsUtf8 (opening :: (source ++ [closing])) :=
      .cons ho (hu.append (.cons hc .nil))
    refine .inr ⟨_, source, rfl, rfl, by simp; omega, ?_, ?_, hu⟩
    · have := Text.isRange_append (a := front) hregion hb
      simpa [Nat.add_assoc, Nat.add_comm, Nat.add_left_comm] using this
    · have := Text.slice_append (a := front ++ [opening]) hu (.cons hc hb)
      rw [Span.inner, if_neg (by simp [Span.length]; omega)]
      simpa [Nat.add_assoc, Nat.add_comm, Nat.add_left_comm] using this

def Shielded (quote : UInt8) : UInt8 → Text → Prop
  | _, [] => True
  | last, b :: rest => (b = quote → last = '\\'.toUInt8) ∧ Shielded quote b rest

theorem shielded_append {x y : Text} :
    Shielded quote last (x ++ y) ↔ Shielded quote last x ∧ Shielded quote (x.getLastD last) y := by
  induction x generalizing last
  case nil => simp [Shielded]
  case cons b x hi => simp only [List.cons_append, Shielded, hi, and_assoc, List.getLastD_cons]

theorem shielded_iff_getElem? :
    Shielded quote last t ↔
      ∀ i : Nat, t[i]? = some quote → (last :: t)[i]? = some '\\'.toUInt8 := by
  induction t generalizing last
  case nil => simp [Shielded]
  case cons b t hi =>
    rw [Shielded, hi]
    constructor
    case mp =>
      intro ⟨hb, h⟩ i hq
      cases i
      case zero   => simpa using hb (by simpa using hq)
      case succ i => simpa using h i (by simpa using hq)
    case mpr =>
      intro h
      refine ⟨fun hb => ?_, fun i hq => ?_⟩
      · simpa using h 0 (by simp [hb])
      · simpa using h (i + 1) (by simpa using hq)

theorem Shielded.of_not_mem (h : quote ∉ t) : Shielded quote last t := by
  induction t generalizing last
  case nil => trivial
  case cons b t hi =>
    simp only [List.mem_cons, not_or] at h
    exact ⟨fun hb => absurd hb.symm h.left, hi h.right⟩

theorem Shielded.escape (hq : quote ≠ '\\'.toUInt8) :
    Shielded quote last (Text.escape quote t) := by
  induction t generalizing last
  case nil => trivial
  case cons b t hi =>
    rw [Text.escape, List.flatMap_cons, ← Text.escape, shielded_append]
    refine ⟨?_, hi⟩
    split
    case isTrue hb  => exact ⟨fun h => absurd h.symm hq, fun _ => rfl, trivial⟩
    case isFalse hb => exact ⟨fun h => absurd h hb, trivial⟩

theorem closes_quote_iff (hq : quote ≠ '\\'.toUInt8) :
    Closes quote quote 0 last (body ++ [quote]) ↔
      Shielded quote last body ∧ body.getLastD last ≠ '\\'.toUInt8 := by
  induction body generalizing last
  case nil =>
    simp only [List.nil_append, Shielded, List.getLastD_nil, true_and]
    constructor
    case mp =>
      intro h
      cases h <;> try assumption
      case escaped c => cases c
    case mpr => exact .stop
  case cons b body hi =>
    simp only [List.cons_append, Shielded, List.getLastD_cons, and_assoc]
    constructor
    case mp =>
      intro h
      generalize hr : body ++ [quote] = region at h hi
      cases h
      case stop => simp at hr
      case escaped c => exact ⟨fun _ => rfl, hi.mp c⟩
      case enter => contradiction
      case skip h hc _ c => exact ⟨fun hb => absurd hb hc, hi.mp c⟩
    case mpr =>
      rintro ⟨hb, h⟩
      by_cases hl : last = '\\'.toUInt8
      case pos => exact hl ▸ .escaped (hi.mpr h)
      case neg =>
        have hb : b ≠ quote := fun e => hl (hb e)
        exact .skip hl hb hb (hi.mpr h)

theorem find_literal {front : Text} (hq : quote ≠ '\\'.toUInt8) (hf : quote ∉ front)
    (hl : t.getLast? ≠ some '\\'.toUInt8) :
    find (front ++ quote :: (Text.escape quote t ++ quote :: rest)) 0 quote quote =
      .ok (some ⟨front.length, front.length + (Text.escape quote t).length + 2⟩) := by
  have hlast : (Text.escape quote t).getLastD quote ≠ '\\'.toUInt8 := by
    rw [List.getLastD_eq_getLast?, Text.getLast?_escape]
    cases h : t.getLast?
    case none   => exact hq
    case some b => simpa [h] using hl
  have c : Closes quote quote 0 quote (Text.escape quote t ++ [quote]) :=
    (closes_quote_iff hq).mpr ⟨.escape hq, hlast⟩
  have hs := @Closes.stop?_eq quote quote quote 0 (front.length + 1) _ rest c
  rw [List.append_assoc, List.singleton_append] at hs
  have hk : (front ++ quote :: (Text.escape quote t ++ quote :: rest)).findIdx? (· == quote) =
      some front.length := by
    have hn : front.findIdx? (· == quote) = none :=
      List.findIdx?_eq_none_iff.mpr fun b hb => beq_eq_false_iff_ne.mpr fun he => hf (he ▸ hb)
    simp [List.findIdx?_append, hn, List.findIdx?_cons]
  have hd : (front ++ quote :: (Text.escape quote t ++ quote :: rest)).drop (front.length + 1) =
      Text.escape quote t ++ quote :: rest := by
    simp
  rw [find, List.drop_zero, hk]
  simp only [Nat.zero_add, hd, hs, Option.map_some, List.length_append, List.length_singleton]
  congr 3
  omega

end PugShorthand.Nesting
