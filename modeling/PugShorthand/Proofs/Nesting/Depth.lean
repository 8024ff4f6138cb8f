import Mathlib.Data.List.Infix
import PugShorthand.Proofs.Nesting

namespace PugShorthand.Nesting

variable {opening closing last last' b : UInt8} {depth : Nat} {t a rest region : Text}

-- What a byte adds to the number of open regions. `last` is the byte in front of it. A byte that
-- opens and closes alike counts as closing.
def change (opening closing last b : UInt8) : Int :=
  if last = '\\'.toUInt8 then 0
  else if b = closing then -1
  else if b = opening then 1
  else 0

def rise (opening closing : UInt8) : UInt8 → Text → Int
  | _, [] => 0
  | last, b :: rest => change opening closing last b + rise opening closing b rest

theorem change_eq_zero (hc : b ≠ closing) (ho : b ≠ opening) :
    change opening closing last b = 0 := by
  simp [change, hc, ho]

theorem rise_append :
    rise opening closing last (t ++ a) =
      rise opening closing last t + rise opening closing (t.getLastD last) a := by
  induction t generalizing last
  case nil => simp [rise]
  case cons b t hi => simp only [List.cons_append, rise, hi, List.getLastD_cons, Int.add_assoc]

theorem rise_congr (h : last ≠ '\\'.toUInt8) (h' : last' ≠ '\\'.toUInt8) :
    rise opening closing last t = rise opening closing last' t := by
  cases t
  case nil  => rfl
  case cons => simp only [rise, change, if_neg h, if_neg h']

theorem closes_cons :
    Closes opening closing depth last (b :: rest) ↔
      if last = '\\'.toUInt8 then Closes opening closing depth b rest
      else if b = closing then
        match depth with
        | 0 => rest = []
        | depth + 1 => Closes opening closing depth b rest
      else if b = opening then Closes opening closing (depth + 1) b rest
      else Closes opening closing depth b rest := by
  constructor
  case mp =>
    intro h
    cases h
    case stop h          => simp [h]
    case escaped c       => simpa using c
    case leave h c       => simpa [h] using c
    case enter h ho c    => simpa [h, ho] using c
    case skip h hc ho c  => simpa [h, hc, ho] using c
  case mpr =>
    intro h
    split at h
    case isTrue hl => exact hl ▸ .escaped h
    case isFalse hl =>
      split at h
      case isTrue hc =>
        subst hc
        cases depth
        case zero => exact h ▸ .stop hl
        case succ => exact .leave hl h
      case isFalse hc =>
        split at h
        case isTrue ho =>
          subst ho
          exact .enter hl hc h
        case isFalse ho => exact .skip hl hc ho h

theorem positive_cons :
    (∀ p, p <+: b :: t → p ≠ b :: t → 0 < (depth : Int) + 1 + rise opening closing last p) ↔
      ∀ p, p <+: t → p ≠ t →
        0 < depth + 1 + change opening closing last b + rise opening closing b p := by
  constructor
  case mp =>
    intro h p hp hne
    have := h (b :: p) ((List.prefix_cons_inj b).mpr hp) (by simpa using hne)
    rwa [rise, ← Int.add_assoc] at this
  case mpr =>
    intro h p hp hne
    cases List.prefix_cons_iff.mp hp
    case inl hp =>
      rw [hp, rise]
      omega
    case inr hp =>
      obtain ⟨p', rfl, hp'⟩ := hp
      have := h p' hp' (by simpa using hne)
      rwa [rise, ← Int.add_assoc]

theorem closes_iff_rise :
    Closes opening closing depth last region ↔
      (depth : Int) + 1 + rise opening closing last region = 0 ∧
        ∀ p, p <+: region → p ≠ region → 0 < (depth : Int) + 1 + rise opening closing last p := by
  -- By induction on the text: a region ends where for the first time all is closed that is open in
  -- front of it.
  induction region generalizing depth last
  case nil =>
    simp only [rise]
    refine iff_of_false (fun h => nomatch h) fun h => ?_
    omega
  case cons b region hi =>
    have step {n : Nat} {d : Int} (hd : d = n + 1) :
        Closes opening closing n b region ↔ d + rise opening closing b region = 0 ∧
          ∀ p, p <+: region → p ≠ region → 0 < d + rise opening closing b p :=
      hd ▸ hi
    rw [closes_cons, positive_cons, rise, ← Int.add_assoc, change]
    split
    case isTrue => exact step (by omega)
    case isFalse =>
      split
      case isFalse => split <;> exact step (by omega)
      case isTrue =>
        cases depth
        case succ => exact step (by omega)
        case zero =>
          cases region
          case nil => simp [rise]
          case cons x region =>
            -- All is closed already, so that nothing can stand behind.
            simp only [List.cons_ne_nil, false_iff, not_and]
            intro _ h
            have := h [] List.nil_prefix (by simp)
            simp [rise] at this

theorem exists_closes_iff :
    (∃ region, region <+: t ∧ Closes opening closing depth last region) ↔
      ∃ p, p <+: t ∧ (depth : Int) + 1 + rise opening closing last p = 0 := by
  constructor
  case mp  => exact fun ⟨region, hr, c⟩ => ⟨region, hr, (closes_iff_rise.mp c).left⟩
  case mpr =>
    rintro ⟨p, hp, h⟩
    induction p generalizing t depth last
    case nil =>
      simp only [rise] at h
      omega
    case cons b p hi =>
      obtain ⟨s, rfl, hs⟩ := List.cons_prefix_iff.mp hp
      have extend {n : Nat} (hn : (n : Int) = depth + change opening closing last b)
          (hc : ∀ {region}, Closes opening closing n b region →
            Closes opening closing depth last (b :: region)) :
          ∃ region, region <+: b :: s ∧ Closes opening closing depth last region := by
        rw [rise] at h
        have ⟨region, hr, c⟩ := @hi b n s hs (by omega)
        exact ⟨b :: region, (List.prefix_cons_inj b).mpr hr, hc c⟩
      simp only [closes_cons, change] at extend
      split at extend
      case isTrue => exact extend (by omega) id
      case isFalse hl =>
        split at extend
        case isFalse hc =>
          split at extend
          case isTrue  => exact extend (n := depth + 1) (by omega) id
          case isFalse => exact extend (by omega) id
        case isTrue hc =>
          cases depth
          case zero   => exact ⟨[b], by simp, hc ▸ .stop hl⟩
          case succ n => exact extend (n := n) (by omega) id

def Covers (opening closing last : UInt8) (s t : Text) : Prop :=
  ∀ p, p <+: t → ∃ q, q <+: s ∧ rise opening closing last q = rise opening closing last p

namespace Covers

theorem nil : Covers opening closing last t [] := by
  intro p hp
  exact ⟨[], List.nil_prefix, by rw [List.prefix_nil.mp hp]⟩

theorem append {s : Text} (h : Covers opening closing (a.getLastD last) s t) :
    Covers opening closing last (a ++ s) (a ++ t) := by
  intro p hp
  cases List.prefix_or_prefix_of_prefix hp (List.prefix_append a t)
  case inl hp => exact ⟨p, hp.trans (List.prefix_append a s), rfl⟩
  case inr ha =>
    obtain ⟨p', rfl⟩ := ha
    have ⟨q, hq, he⟩ := h p' ((List.prefix_append_right_inj a).mp hp)
    exact ⟨a ++ q, (List.prefix_append_right_inj a).mpr hq, by rw [rise_append, rise_append, he]⟩

theorem cons_left {s : Text} (h : Covers opening closing b s t) (hc : b ≠ closing)
    (ho : b ≠ opening) (ht : ∀ x ∈ t.head?, x ≠ closing ∧ x ≠ opening) :
    Covers opening closing last (b :: s) t := by
  intro p hp
  have ⟨q, hq, he⟩ := h p hp
  refine ⟨b :: q, (List.prefix_cons_inj b).mpr hq, ?_⟩
  rw [rise, change_eq_zero hc ho, Int.zero_add, he]
  cases p
  case nil => rfl
  case cons x p =>
    obtain ⟨t, rfl, _⟩ := List.cons_prefix_iff.mp hp
    have ⟨hc, ho⟩ := ht x rfl
    rw [rise, rise, change_eq_zero hc ho, change_eq_zero hc ho]

theorem cons_right {s : Text} (h : Covers opening closing b s t) (hc : b ≠ closing)
    (ho : b ≠ opening) (hb : b ≠ '\\'.toUInt8) (hl : last ≠ '\\'.toUInt8) :
    Covers opening closing last s (b :: t) := by
  intro p hp
  cases List.prefix_cons_iff.mp hp
  case inl hp => exact ⟨[], List.nil_prefix, by rw [hp]⟩
  case inr hp =>
    obtain ⟨p', rfl, hp'⟩ := hp
    have ⟨q, hq, he⟩ := h p' hp'
    refine ⟨q, hq, ?_⟩
    rw [rise, change_eq_zero hc ho, Int.zero_add, ← he]
    exact rise_congr hl hb

theorem exists_closes {s : Text} (h : Covers opening closing last s t)
    (c : Closes opening closing depth last region) (hr : region <+: t) :
    ∃ region', region' <+: s ∧ Closes opening closing depth last region' := by
  have ⟨p, hp, hd⟩ := exists_closes_iff.mp ⟨region, hr, c⟩
  have ⟨q, hq, he⟩ := h p hp
  exact exists_closes_iff.mpr ⟨q, hq, he ▸ hd⟩

end Covers

end PugShorthand.Nesting
