import PugShorthand.Proofs.Markup.Restore

namespace PugShorthand

open QualifiedName

namespace Markup.Tag

variable {t rest : Text} {q i start : Nat} {inside : Bool} {b : UInt8}

def UpperAt (t : Text) (i : Nat) : Prop :=
  ∃ b, t[i]? = some b ∧ Text.isUpper b = true

-- A tag opens at `q` whose name has a qualifier at `i`, if there is a colon at `i`:
-- 1. the name begins behind the `<`, or behind the `/` of a closing tag, with an upper-case letter
-- 2. nothing that ends a name stands before `i`
-- 3. every colon up to `i` is followed by an upper-case letter
structure Qualifies (t : Text) (q i : Nat) : Prop where
  before : q < i
  opens : t[q]? = some '<'.toUInt8
  name : UpperAt t (if t[q + 1]? = some '/'.toUInt8 then q + 2 else q + 1)
  unbroken : ∀ j b, q < j → j < i → t[j]? = some b → b ∉ Text.ofString "> \t\n\r"
  chained : ∀ j, q < j → j ≤ i → t[j]? = some ':'.toUInt8 → UpperAt t (j + 1)

def insideAt (inside : Bool) : Text → Nat → Bool
  | _, 0 => inside
  | [], _ + 1 => false
  | b :: rest, i + 1 => insideAt (goesOn inside b rest) rest i

def Continues (t : Text) (start i : Nat) : Prop :=
  ∀ j, start ≤ j → j < i → ∃ b, t[j]? = some b ∧ goesOn true b (t.drop (j + 1)) = true

theorem startsUpper_drop : startsUpper (t.drop i) = true ↔ UpperAt t i := by
  simp [startsUpper, UpperAt, List.head?_drop, Option.any_eq_true]

theorem opensName_drop : opensName (t.drop (q + 1)) = true ↔
    UpperAt t (if t[q + 1]? = some '/'.toUInt8 then q + 2 else q + 1) := by
  rw [opensName, nameOffset, List.head?_drop, List.drop_drop, startsUpper_drop]
  split <;> rfl

theorem isStop_iff : coloned.isStop b = true ↔ b ∈ Text.ofString "> \t\n\r" :=
  Text.forall_byte (p := fun b => coloned.isStop b = true ↔ b ∈ Text.ofString "> \t\n\r")
    (by decide +kernel) b

theorem goesOn_true_iff : goesOn true b rest = true ↔
    b ∉ Text.ofString "> \t\n\r" ∧ (b = ':'.toUInt8 → startsUpper rest = true) := by
  rw [← isStop_iff]
  by_cases hb : b = ':'.toUInt8
  case pos =>
    have hs : coloned.isStop ':'.toUInt8 = false := by decide
    simp [goesOn, hb, hs]
  case neg => simp [goesOn, hb]

-- A `<` is a part of the name that it stands in, so it makes no difference there whether another
-- name begins behind it.
theorem goesOn_iff : goesOn inside b rest = true ↔
    inside = true ∧ goesOn true b rest = true ∨ b = '<'.toUInt8 ∧ opensName rest = true := by
  cases inside
  case false => simp [goesOn]
  case true =>
    have hb : b = '<'.toUInt8 → goesOn true b rest = true := by
      rintro rfl
      rfl
    simpa using fun h _ => hb h

theorem continues_succ : Continues (b :: rest) 0 (i + 1) ↔
    goesOn true b rest = true ∧ Continues rest 0 i := by
  constructor
  case mp =>
    intro h
    refine ⟨by simpa using h 0 (by omega) (by omega), fun j _ hj => ?_⟩
    simpa using h (j + 1) (by omega) (by omega)
  case mpr =>
    rintro ⟨hb, h⟩ j - hj
    cases j
    case zero   => exact ⟨b, rfl, hb⟩
    case succ j => simpa using h j (by omega) (by omega)

theorem continues_cons : Continues (b :: rest) (start + 1) (i + 1) ↔ Continues rest start i := by
  constructor
  case mp =>
    intro h j hs hj
    simpa using h (j + 1) (by omega) (by omega)
  case mpr =>
    intro h j hs hj
    cases j
    case zero   => omega
    case succ j => simpa using h j (by omega) (by omega)

theorem insideAt_iff : insideAt inside t i = true ↔
    inside = true ∧ Continues t 0 i ∨
      ∃ q < i, t[q]? = some '<'.toUInt8 ∧ opensName (t.drop (q + 1)) = true ∧
        Continues t (q + 1) i := by
  -- By induction on the text: a name that is open at `i` was open at the beginning, or a tag opened
  -- it on the way, and all bytes since then continue it.
  induction t generalizing inside i
  case nil =>
    cases i
    case zero => simp [insideAt, Continues]
    case succ => simpa [insideAt, Continues] using fun _ => ⟨0, by omega⟩
  case cons b t hi =>
    cases i
    case zero => simp [insideAt, Continues]
    case succ i =>
      rw [insideAt, hi, goesOn_iff, continues_succ, Nat.exists_lt_succ_left]
      simp only [continues_cons, List.getElem?_cons_zero, List.getElem?_cons_succ,
        List.drop_succ_cons, List.drop_zero, Option.some.injEq]
      tauto

theorem length_restored : (restored inside t).length = t.length := by
  induction t generalizing inside
  case nil => rfl
  case cons b t hi => simp [restored, hi]

theorem getElem?_restored : (restored inside t)[i]? =
    t[i]?.map (restoredByte (insideAt inside t i) · (t.drop (i + 1))) := by
  induction t generalizing inside i
  case nil => rfl
  case cons b t hi =>
    cases i
    case zero   => simp [restored, insideAt]
    case succ i => simpa [restored, insideAt] using hi

theorem continues_iff (hi : i ≤ t.length) : Continues t start i ↔
    (∀ j b, start ≤ j → j < i → t[j]? = some b → b ∉ Text.ofString "> \t\n\r") ∧
      ∀ j, start ≤ j → j < i → t[j]? = some ':'.toUInt8 → UpperAt t (j + 1) := by
  constructor
  case mp =>
    intro h
    refine ⟨fun j b hs hj hb => ?_, fun j hs hj hb => ?_⟩
    all_goals
      have ⟨b', hb', hg⟩ := h j hs hj
      cases hb.symm.trans hb'
    · exact (goesOn_true_iff.mp hg).left
    · exact startsUpper_drop.mp ((goesOn_true_iff.mp hg).right rfl)
  case mpr =>
    rintro ⟨hu, hc⟩ j hs hj
    have hb : t[j]? = some (t.get ⟨j, by omega⟩) := List.getElem?_eq_getElem _
    refine ⟨_, hb, goesOn_true_iff.mpr ⟨hu j _ hs hj hb, fun he => ?_⟩⟩
    exact startsUpper_drop.mpr (hc j hs hj (he ▸ hb))

theorem restoredByte_ne_iff : restoredByte inside b rest ≠ b ↔
    inside = true ∧ b = ':'.toUInt8 ∧ startsUpper rest = true := by
  constructor
  case mp =>
    intro h
    cases restoredByte_cases inside b rest
    case inl hr => contradiction
    case inr hr => exact ⟨hr.left, hr.right.left, hr.right.right.left⟩
  case mpr =>
    rintro ⟨rfl, rfl, hu⟩
    simpa [restoredByte, hu] using (by decide : '.'.toUInt8 ≠ ':'.toUInt8)

theorem qualifies_iff (hi : t[i]? = some ':'.toUInt8) :
    (∃ q, Qualifies t q i) ↔ insideAt false t i = true ∧ startsUpper (t.drop (i + 1)) = true := by
  have ⟨hlt, _⟩ := List.getElem?_eq_some_iff.mp hi
  have hl : i ≤ t.length := Nat.le_of_lt hlt
  simp only [insideAt_iff, Bool.false_eq_true, false_and, false_or, startsUpper_drop,
    opensName_drop, continues_iff hl]
  constructor
  case mp =>
    rintro ⟨q, h⟩
    exact ⟨⟨q, h.before, h.opens, h.name, h.unbroken,
      fun j hq hj => h.chained j hq (Nat.le_of_lt hj)⟩, h.chained i h.before (Nat.le_refl i) hi⟩
  case mpr =>
    rintro ⟨⟨q, hq, ho, hn, hu, hc⟩, hlast⟩
    refine ⟨q, hq, ho, hn, hu, fun j hj hji hb => ?_⟩
    cases Nat.lt_or_eq_of_le hji
    case inl h => exact hc j hj h hb
    case inr h => exact h ▸ hlast

theorem restored_ne_iff : (restored false t)[i]? ≠ t[i]? ↔
    t[i]? = some ':'.toUInt8 ∧ ∃ q, Qualifies t q i := by
  rw [getElem?_restored]
  cases hb : t[i]?
  case none => simp
  case some b =>
    rw [Option.map_some, ne_eq, Option.some_inj, Option.some_inj, ← ne_eq, restoredByte_ne_iff]
    constructor
    case mp =>
      rintro ⟨ho, rfl, hu⟩
      exact ⟨rfl, (qualifies_iff hb).mpr ⟨ho, hu⟩⟩
    case mpr =>
      rintro ⟨rfl, hq⟩
      have ⟨ho, hu⟩ := (qualifies_iff hb).mp hq
      exact ⟨ho, rfl, hu⟩

theorem getElem?_restored_of_ne (h : (restored false t)[i]? ≠ t[i]?) :
    (restored false t)[i]? = some '.'.toUInt8 := by
  rw [getElem?_restored] at h ⊢
  cases hb : t[i]?
  case none => simp [hb] at h
  case some b =>
    simp only [hb, Option.map_some, ne_eq, Option.some.injEq] at h ⊢
    cases restoredByte_cases (insideAt false t i) b (t.drop (i + 1))
    case inl hr => contradiction
    case inr hr => exact hr.right.right.right

end Markup.Tag

theorem Document.restore_changes_qualifier_colons (s : String) :
    ∃ r, restore (.ofString s) = .ok r ∧ r.length = (Text.ofString s).length ∧
      ∀ i, (r[i]? ≠ (Text.ofString s)[i]? ↔
          (Text.ofString s)[i]? = some ':'.toUInt8 ∧
            ∃ q, Markup.Tag.Qualifies (.ofString s) q i) ∧
        (r[i]? ≠ (Text.ofString s)[i]? → r[i]? = some '.'.toUInt8) := by
  have hr := Markup.Tag.restore_eq (Text.isUtf8_ofString s)
  refine ⟨_, hr, Markup.Tag.length_restored, fun i => ?_⟩
  exact ⟨Markup.Tag.restored_ne_iff, Markup.Tag.getElem?_restored_of_ne⟩

end PugShorthand
