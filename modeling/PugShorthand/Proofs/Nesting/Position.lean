import Mathlib.Data.List.Induction
import Mathlib.Order.Interval.Finset.Nat
import PugShorthand.Proofs.Nesting.Depth

namespace PugShorthand.Nesting

variable {opening closing last b : UInt8} {t t' s p rest : Text}
variable {depth pos start begin i j : Nat}

def IsUnescaped (t : Text) (b : UInt8) (i : Nat) : Prop :=
  t[i]? = some b ∧ t[i - 1]? ≠ some '\\'.toUInt8

instance : Decidable (IsUnescaped t b i) :=
  inferInstanceAs (Decidable (_ ∧ _))

-- How many regions are open behind the byte at `j`, counted from the one that opens at `begin`. A
-- byte that opens and closes alike counts as closing.
def depthAt (opening closing : UInt8) (t : Text) (begin j : Nat) : Int :=
  1 + ((Finset.Ioc begin j).filter fun i => opening ≠ closing ∧ IsUnescaped t opening i).card
    - ((Finset.Ioc begin j).filter fun i => IsUnescaped t closing i).card

def closings (opening closing : UInt8) (t : Text) (begin : Nat) : Set Nat :=
  {j | begin < j ∧ j < t.length ∧ depthAt opening closing t begin j = 0}

theorem card_filter_Ioc_succ (q : Nat → Prop) [DecidablePred q] (h : begin ≤ j) :
    ((Finset.Ioc begin (j + 1)).filter q).card =
      ((Finset.Ioc begin j).filter q).card + if q (j + 1) then 1 else 0 := by
  have hs : Finset.Ioc begin (j + 1) = insert (j + 1) (Finset.Ioc begin j) := by
    ext i
    simp only [Finset.mem_Ioc, Finset.mem_insert]
    omega
  rw [hs, Finset.filter_insert]
  split
  case isTrue  => exact Finset.card_insert_of_notMem (by simp)
  case isFalse => rfl

theorem depthAt_succ (h : begin ≤ j) (hl : t[j]? = some last) (hb : t[j + 1]? = some b) :
    depthAt opening closing t begin (j + 1) =
      depthAt opening closing t begin j + change opening closing last b := by
  have unescaped (x : UInt8) : IsUnescaped t x (j + 1) ↔ b = x ∧ last ≠ '\\'.toUInt8 := by
    simp [IsUnescaped, hl, hb]
  simp only [depthAt, card_filter_Ioc_succ _ h, unescaped, change]
  split <;> grind

theorem getElem?_add_length (ht : t.drop begin = opening :: s) (hp : p <+: s) :
    t[begin + p.length]? = some (p.getLastD opening) := by
  obtain ⟨rest, rfl⟩ := hp
  rw [← List.getElem?_drop, ht, ← List.cons_append, List.getElem?_append_left (by simp),
    List.getLastD_eq_getLast?, ← List.getLast?_cons, List.getLast?_eq_getElem?]
  rfl

theorem depthAt_eq_rise (ht : t.drop begin = opening :: s) (hp : p <+: s) :
    depthAt opening closing t begin (begin + p.length) =
      1 + rise opening closing opening p := by
  induction p using List.reverseRecOn
  case nil => simp [depthAt, rise]
  case append_singleton p x hi =>
    have hp' : p <+: s := (List.prefix_append p [x]).trans hp
    have hx := getElem?_add_length ht hp
    rw [List.length_append, List.length_singleton, ← Nat.add_assoc, List.getLastD_concat] at hx
    have hs : depthAt opening closing t begin (begin + p.length + 1) =
        depthAt opening closing t begin (begin + p.length) +
          change opening closing (p.getLastD opening) x :=
      depthAt_succ (Nat.le_add_right ..) (getElem?_add_length ht hp') hx
    rw [List.length_append, List.length_singleton, ← Nat.add_assoc, hs, hi hp', rise_append, rise,
      rise]
    omega

theorem mem_closings_iff (ht : t.drop begin = opening :: s) (hp : p <+: s) :
    begin + p.length ∈ closings opening closing t begin ↔
      1 + rise opening closing opening p = 0 := by
  have hl := congrArg List.length ht
  have hle := hp.length_le
  rw [List.length_drop, List.length_cons] at hl
  rw [closings, Set.mem_ofPred_eq, depthAt_eq_rise ht hp]
  constructor
  case mp => exact fun h => h.right.right
  case mpr =>
    intro h
    have hne : p.length ≠ 0 := by
      intro h₀
      rw [List.eq_nil_of_length_eq_zero h₀, rise] at h
      contradiction
    exact ⟨by omega, by omega, h⟩

theorem exists_prefix_of_mem_closings (ht : t.drop begin = opening :: s)
    (h : j ∈ closings opening closing t begin) : ∃ p, p <+: s ∧ j = begin + p.length := by
  have hl := congrArg List.length ht
  rw [List.length_drop, List.length_cons] at hl
  have ⟨hb, hj, _⟩ := h
  refine ⟨s.take (j - begin), List.take_prefix .., ?_⟩
  rw [List.length_take]
  omega

theorem isLeast_closings_iff (ht : t.drop begin = opening :: s) :
    IsLeast (closings opening closing t begin) j ↔
      ∃ region, region <+: s ∧ j = begin + region.length ∧
        Closes opening closing 0 opening region := by
  constructor
  case mp =>
    intro ⟨hj, hleast⟩
    obtain ⟨p, hp, rfl⟩ := exists_prefix_of_mem_closings ht hj
    have hz : (0 : Int) + 1 + rise opening closing opening p = 0 := (mem_closings_iff ht hp).mp hj
    obtain ⟨region, hr, c⟩ := exists_closes_iff.mpr ⟨p, List.prefix_rfl, hz⟩
    have hrs := hr.trans hp
    have hle := hleast ((mem_closings_iff ht hrs).mpr (closes_iff_rise.mp c).left)
    have := hr.length_le
    exact ⟨region, hrs, by omega, c⟩
  case mpr =>
    rintro ⟨region, hr, rfl, c⟩
    have ⟨hz, hpos⟩ := closes_iff_rise.mp c
    refine ⟨(mem_closings_iff ht hr).mpr hz, fun i hi => ?_⟩
    obtain ⟨p, hp, rfl⟩ := exists_prefix_of_mem_closings ht hi
    have hz' := (mem_closings_iff ht hp).mp hi
    by_contra hlt
    have hne : p ≠ region := by
      rintro rfl
      exact hlt (Nat.le_refl _)
    have := hpos p (List.prefix_of_prefix_length_le hp hr (by omega)) hne
    omega

theorem stop?_append (h : ∀ q, q <+: p → (depth : Int) + 1 + rise opening closing last q ≠ 0) :
    ∃ n : Nat, (n : Int) = depth + rise opening closing last p ∧
      stop? opening closing depth pos last (p ++ rest) =
        stop? opening closing n (pos + p.length) (p.getLastD last) rest := by
  -- By induction on what is passed over: as long as something is open, the scan goes on, and what
  -- it has counted is what is open.
  induction p generalizing depth pos last
  case nil => exact ⟨depth, by simp [rise], rfl⟩
  case cons b p hi =>
    have step {n : Nat} (hn : (n : Int) = depth + change opening closing last b) :
        ∃ m : Nat, (m : Int) = depth + rise opening closing last (b :: p) ∧
          stop? opening closing n (pos + 1) b (p ++ rest) = stop? opening closing m
            (pos + (b :: p).length) ((b :: p).getLastD last) rest := by
      have hq : ∀ q, q <+: p → (n : Int) + 1 + rise opening closing b q ≠ 0 := by
        intro q hq
        have := h (b :: q) ((List.prefix_cons_inj b).mpr hq)
        rw [rise] at this
        omega
      obtain ⟨m, hm, hs⟩ := @hi b n (pos + 1) hq
      refine ⟨m, by rw [rise]; omega, ?_⟩
      rw [hs, List.length_cons, List.getLastD_cons, Nat.add_assoc, Nat.add_comm 1]
    have hfirst := h [b] (by simp)
    simp only [rise, change, Int.add_zero] at hfirst
    simp only [change] at step
    rw [List.cons_append, stop?_cons]
    split
    case isTrue hl => exact step (by simp [hl])
    case isFalse hl =>
      rw [if_neg hl] at step hfirst
      split
      case isTrue hc =>
        rw [if_pos hc] at step hfirst
        cases depth
        case zero   => simp at hfirst
        case succ n => exact step (by omega)
      case isFalse hc =>
        rw [if_neg hc] at step
        split
        case isTrue ho  => exact step (by simp [ho])
        case isFalse ho => exact step (by simp [ho])

theorem find_of_isLeast (h : IsLeast {i | start ≤ i ∧ t[i]? = some opening} begin) :
    find t start opening closing =
      .ok ((stop? opening closing 0 (begin + 1) opening (t.drop (begin + 1))).map (⟨begin, ·⟩)) := by
  obtain ⟨⟨hs, hb⟩, hleast⟩ := h
  obtain ⟨k, rfl⟩ := Nat.exists_eq_add_of_le hs
  have ⟨hlt, he⟩ := List.getElem?_eq_some_iff.mp hb
  have hk : (t.drop start).findIdx? (· == opening) = some k := by
    refine List.findIdx?_eq_some_iff_getElem.mpr ⟨by rw [List.length_drop]; omega, ?_⟩
    refine ⟨by simp [he], fun j hj hx => ?_⟩
    rw [List.getElem_drop, beq_iff_eq] at hx
    have := hleast ⟨Nat.le_add_right start j, List.getElem?_eq_some_iff.mpr ⟨by omega, hx⟩⟩
    omega
  rw [find, hk]

theorem find_eq_error_iff :
    find t start opening closing = .error (.unmatchedOpening opening start) ↔
      ∀ i, start ≤ i → t[i]? ≠ some opening := by
  have hn : (t.drop start).findIdx? (· == opening) = none ↔
      ∀ i, start ≤ i → t[i]? ≠ some opening := by
    rw [List.findIdx?_eq_none_iff]
    constructor
    case mp =>
      intro h i hi hx
      have hm : opening ∈ t.drop start := List.mem_iff_getElem?.mpr
        ⟨i - start, by rw [List.getElem?_drop, Nat.add_sub_cancel' hi, hx]⟩
      simpa using h opening hm
    case mpr =>
      intro h x hx
      obtain ⟨k, hk⟩ := List.mem_iff_getElem?.mp hx
      rw [List.getElem?_drop] at hk
      refine beq_eq_false_iff_ne.mpr fun he => ?_
      exact h _ (Nat.le_add_right start k) (he ▸ hk)
  rw [← hn, find]
  split
  case h_1 h => simp [h]
  case h_2 h => simp [h]

structure FindsFrom (t : Text) (start : Nat) (opening closing : UInt8) (begin : Nat) : Prop where
  found : ∀ span, find t start opening closing = .ok (some span) ↔
    span.start = begin ∧ ∃ j, span.stop = j + 1 ∧ IsLeast (closings opening closing t begin) j
  unclosed : find t start opening closing = .ok none ↔
    ∀ j, j ∉ closings opening closing t begin
  -- Wherever nothing has been closed yet, the scan goes on with its count, and that is one less
  -- than what is open. So the count never falls below zero.
  counted : ∀ j < t.length, begin ≤ j → (∀ i ∈ closings opening closing t begin, j < i) →
    ∃ (n : Nat) (last : UInt8), t[j]? = some last ∧
      depthAt opening closing t begin j = n + 1 ∧
      find t start opening closing =
        .ok ((stop? opening closing n (j + 1) last (t.drop (j + 1))).map (⟨begin, ·⟩))
  -- What stands behind the region has no part in it.
  stable : ∀ span, find t start opening closing = .ok (some span) →
    ∀ t' : Text, t'.take span.stop = t.take span.stop →
      find t' start opening closing = .ok (some span)
  whole : t.IsUtf8 → opening < 0x80 → closing < 0x80 →
    ∀ span, find t start opening closing = .ok (some span) →
      t.isBoundary span.start = true ∧ t.isBoundary span.stop = true

section

variable (h : IsLeast {i | start ≤ i ∧ t[i]? = some opening} begin)
include h

theorem drop_of_isLeast : t.drop begin = opening :: t.drop (begin + 1) := by
  have ⟨hlt, he⟩ := List.getElem?_eq_some_iff.mp h.left.right
  rw [List.drop_eq_getElem_cons hlt, he]

theorem find_eq_some_iff {span : Span} : find t start opening closing = .ok (some span) ↔
    ∃ region rest, t.drop (begin + 1) = region ++ rest ∧
      span = ⟨begin, begin + 1 + region.length⟩ ∧ Closes opening closing 0 opening region := by
  rw [find_of_isLeast h, Except.ok.injEq, Option.map_eq_some_iff]
  constructor
  case mp =>
    rintro ⟨stop, hs, rfl⟩
    obtain ⟨region, rest, ht, rfl, c⟩ := exists_closes hs
    exact ⟨region, rest, ht, rfl, c⟩
  case mpr =>
    rintro ⟨region, rest, ht, rfl, c⟩
    exact ⟨_, by rw [ht, c.stop?_eq], rfl⟩

theorem find_eq_some_iff_isLeast {span : Span} :
    find t start opening closing = .ok (some span) ↔
      span.start = begin ∧
        ∃ j, span.stop = j + 1 ∧ IsLeast (closings opening closing t begin) j := by
  rw [find_eq_some_iff h]
  constructor
  case mp =>
    rintro ⟨region, rest, ht, rfl, c⟩
    refine ⟨rfl, begin + region.length, by simp only; omega, ?_⟩
    exact (isLeast_closings_iff (drop_of_isLeast h)).mpr ⟨region, ⟨rest, ht.symm⟩, rfl, c⟩
  case mpr =>
    rintro ⟨rfl, j, hj, hleast⟩
    obtain ⟨region, ⟨rest, ht⟩, rfl, c⟩ := (isLeast_closings_iff (drop_of_isLeast h)).mp hleast
    refine ⟨region, rest, ht.symm, ?_, c⟩
    cases span
    simp only [Span.mk.injEq, true_and] at hj ⊢
    omega

theorem find_eq_none_iff_closings : find t start opening closing = .ok none ↔
    ∀ j, j ∉ closings opening closing t begin := by
  constructor
  case mp =>
    intro hn j hj
    obtain ⟨p, hp, rfl⟩ := exists_prefix_of_mem_closings (drop_of_isLeast h) hj
    have hz : (0 : Int) + 1 + rise opening closing opening p = 0 :=
      (mem_closings_iff (drop_of_isLeast h) hp).mp hj
    obtain ⟨region, ⟨rest, hr⟩, c⟩ := exists_closes_iff.mpr ⟨p, hp, hz⟩
    have hs := (find_eq_some_iff h).mpr ⟨region, rest, hr.symm, rfl, c⟩
    simp [hn] at hs
  case mpr =>
    intro hn
    cases hs : find t start opening closing
    case error => simp [find_of_isLeast h] at hs
    case ok found =>
      cases found
      case none => rfl
      case some span =>
        obtain ⟨_, j, _, hj, _⟩ := (find_eq_some_iff_isLeast h).mp hs
        exact absurd hj (hn j)

theorem find_counts (hj : j < t.length) (hb : begin ≤ j)
    (hopen : ∀ i ∈ closings opening closing t begin, j < i) :
    ∃ (n : Nat) (last : UInt8), t[j]? = some last ∧
      depthAt opening closing t begin j = n + 1 ∧
      find t start opening closing =
        .ok ((stop? opening closing n (j + 1) last (t.drop (j + 1))).map (⟨begin, ·⟩)) := by
  have ht := drop_of_isLeast h
  obtain ⟨k, rfl⟩ := Nat.exists_eq_add_of_le hb
  obtain ⟨p, rest, hpr, rfl⟩ : ∃ p rest, t.drop (begin + 1) = p ++ rest ∧ k = p.length :=
    ⟨(t.drop (begin + 1)).take k, (t.drop (begin + 1)).drop k, (List.take_append_drop ..).symm,
      by rw [List.length_take, List.length_drop]; omega⟩
  have hp : p <+: t.drop (begin + 1) := ⟨rest, hpr.symm⟩
  have hq : ∀ q, q <+: p → ((0 : Nat) : Int) + 1 + rise opening closing opening q ≠ 0 := by
    intro q hq hz
    have := hopen _ ((mem_closings_iff ht (hq.trans hp)).mpr (by omega))
    have := hq.length_le
    omega
  obtain ⟨n, hn, hs⟩ := @stop?_append opening closing opening p rest 0 (begin + 1) hq
  have hd : t.drop (begin + p.length + 1) = rest := by
    rw [Nat.add_right_comm, ← List.drop_drop, hpr, List.drop_left]
  refine ⟨n, _, getElem?_add_length ht hp, ?_, ?_⟩
  · rw [depthAt_eq_rise ht hp]
    omega
  · rw [find_of_isLeast h, hd, hpr, hs, Nat.add_right_comm]

theorem find_congr {span : Span} (hf : find t start opening closing = .ok (some span))
    (ht : t'.take span.stop = t.take span.stop) :
    find t' start opening closing = .ok (some span) := by
  obtain ⟨region, rest, hr, rfl, c⟩ := (find_eq_some_iff h).mp hf
  have same : ∀ i ≤ begin, t'[i]? = t[i]? := by
    intro i hi
    have := congrArg (·[i]?) ht
    simpa [List.getElem?_take, show i < begin + 1 + region.length by omega] using this
  have h' : IsLeast {i | start ≤ i ∧ t'[i]? = some opening} begin := by
    obtain ⟨⟨hs, hb⟩, hleast⟩ := h
    refine ⟨⟨hs, by rw [same begin (Nat.le_refl _), hb]⟩, fun i ⟨hi, hx⟩ => ?_⟩
    by_contra hlt
    exact hlt (hleast ⟨hi, by rw [← same i (by omega), hx]⟩)
  refine (find_eq_some_iff h').mpr ⟨region, t'.drop (begin + 1 + region.length), ?_, rfl, c⟩
  have hregion : (t.take (begin + 1 + region.length)).drop (begin + 1) = region := by
    rw [List.drop_take, hr, Nat.add_sub_cancel_left, List.take_left]
  rw [Text.drop_eq_append (j := begin + 1 + region.length) (by omega), ht, hregion]

theorem isBoundary_find {span : Span} (hf : find t start opening closing = .ok (some span))
    (ht : t.IsUtf8) (ho : opening < 0x80) (hc : closing < 0x80) :
    t.isBoundary span.start = true ∧ t.isBoundary span.stop = true := by
  obtain ⟨region, rest, hr, rfl, c⟩ := (find_eq_some_iff h).mp hf
  refine ⟨(ht.isBoundary_of_ascii h.left.right ho).left, ?_⟩
  obtain ⟨body, rfl⟩ := c.exists_concat
  have hlast : t[begin + 1 + body.length]? = some closing := by
    rw [← List.getElem?_drop, hr]
    simp
  have := (ht.isBoundary_of_ascii hlast hc).right
  rwa [List.length_append, List.length_singleton, ← Nat.add_assoc]

end

-- A search is refused only if nothing opens. Otherwise it finds the region from the first opening
-- delimiter on, which ends where for the first time as much is closed as was opened.
theorem find_nests (t : Text) (start : Nat) (opening closing : UInt8) :
    (find t start opening closing = .error (.unmatchedOpening opening start) ↔
      ∀ i, start ≤ i → t[i]? ≠ some opening) ∧
    ∀ begin, IsLeast {i | start ≤ i ∧ t[i]? = some opening} begin →
      FindsFrom t start opening closing begin := by
  refine ⟨find_eq_error_iff, fun begin h => ?_⟩
  constructor
  case found    => exact fun _ => find_eq_some_iff_isLeast h
  case unclosed => exact find_eq_none_iff_closings h
  case counted  => exact fun j hj hb hopen => find_counts h hj hb hopen
  case stable   => exact fun _ hf _ ht => find_congr h hf ht
  case whole    => exact fun ht ho hc _ hf => isBoundary_find h hf ht ho hc

theorem find_nests_of_braces :
    let t := Text.ofString "\x7dé\x7ba\x7b\\\x7d\\\x7b\x7db\x7d\x7d\x7b"
    IsLeast {i | 1 ≤ i ∧ t[i]? = some '{'.toUInt8} 3 ∧
      find t 1 '{'.toUInt8 '}'.toUInt8 = .ok (some ⟨3, 13⟩) ∧
      IsLeast (closings '{'.toUInt8 '}'.toUInt8 t 3) 12 ∧
      ∀ t' : Text, t'.take 13 = t.take 13 →
        find t' 1 '{'.toUInt8 '}'.toUInt8 = .ok (some ⟨3, 13⟩) := by
  intro t
  have least : IsLeast {i | 1 ≤ i ∧ t[i]? = some '{'.toUInt8} 3 := by
    refine ⟨by decide +kernel, fun i ⟨_, hi⟩ => ?_⟩
    have hn : ∀ i < 3, t[i]? ≠ some '{'.toUInt8 := by decide +kernel
    by_contra hlt
    exact hn i (by omega) hi
  have hf : find t 1 '{'.toUInt8 '}'.toUInt8 = .ok (some ⟨3, 13⟩) := by decide +kernel
  have ⟨_, h⟩ := find_nests t 1 '{'.toUInt8 '}'.toUInt8
  have finds := h 3 least
  obtain ⟨_, j, hj, hclosed⟩ := (finds.found ⟨3, 13⟩).mp hf
  obtain rfl : 12 = j := Nat.succ.inj hj
  exact ⟨least, hf, hclosed, finds.stable ⟨3, 13⟩ hf⟩

end PugShorthand.Nesting
