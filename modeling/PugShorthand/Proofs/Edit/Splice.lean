import Mathlib.Data.List.Induction
import Mathlib.Data.List.Nodup
import PugShorthand.Edit
import PugShorthand.Proofs.Text.Boundary

namespace PugShorthand

namespace Edit

variable {base : Text} {e : Edit} {edits xs ys : List Edit} {pos : Nat}

-- The edits by rising start. Of those that share one, the latest recorded comes first.
def earliestFirst (edits : List Edit) : List Edit :=
  edits.reverse.mergeSort fun a b => a.start ≤ b.start

def spliceFrom (base : Text) (pos : Nat) : List Edit → Text
  | [] => base.drop pos
  | e :: rest => (base.take e.start).drop pos ++ e.text ++ spliceFrom base e.stop rest

theorem earliestFirst_perm : (earliestFirst edits).Perm edits :=
  (List.mergeSort_perm ..).trans edits.reverse_perm

@[simp]
theorem mem_earliestFirst : e ∈ earliestFirst edits ↔ e ∈ edits :=
  earliestFirst_perm.mem_iff

theorem earliestFirst_sorted :
    (earliestFirst edits).Pairwise fun a b => a.start ≤ b.start := by
  have := @List.pairwise_mergeSort Edit (fun a b => decide (a.start ≤ b.start))
    (by simp only [decide_eq_true_eq]; omega)
    (by simp only [Bool.or_eq_true, decide_eq_true_eq]; omega) edits.reverse
  simpa [earliestFirst] using this

theorem earliestFirst_concat (edits : List Edit) (e : Edit) :
    ∃ xs ys, earliestFirst (edits ++ [e]) = xs ++ e :: ys ∧ earliestFirst edits = xs ++ ys ∧
      (∀ x ∈ xs, x.start < e.start) ∧ ∀ y ∈ ys, e.start ≤ y.start := by
  have ⟨xs, ys, h, h', hx⟩ := @List.mergeSort_cons Edit (fun a b => decide (a.start ≤ b.start))
    (by simp only [decide_eq_true_eq]; omega)
    (by simp only [Bool.or_eq_true, decide_eq_true_eq]; omega) e edits.reverse
  have hs : earliestFirst (edits ++ [e]) = xs ++ e :: ys := by simpa [earliestFirst] using h
  have hy := (List.pairwise_append.mp (hs ▸ earliestFirst_sorted)).right.left
  exact ⟨xs, ys, hs, h', by simpa using hx, (List.pairwise_cons.mp hy).left⟩

theorem place_append (hx : ∀ x ∈ xs, e.start ≤ x.start) (hy : ∀ y ∈ ys, y.start < e.start) :
    place e (xs ++ ys) = xs ++ e :: ys := by
  induction xs
  case nil =>
    cases ys
    case nil  => rfl
    case cons => simp [place, hy]
  case cons x xs hi =>
    have := hx x (by simp)
    simp [place, Nat.not_lt.mpr this, hi fun x h => hx x (by simp [h])]

theorem latestFirst_eq : latestFirst edits = (earliestFirst edits).reverse := by
  induction edits using List.reverseRecOn
  case nil => simp [latestFirst, earliestFirst]
  case append_singleton edits e hi =>
    have ⟨xs, ys, h, h', hx, hy⟩ := earliestFirst_concat edits e
    rw [latestFirst, List.foldl_append, ← latestFirst, hi, h, h']
    simp only [List.foldl_cons, List.foldl_nil, List.reverse_append, List.reverse_cons,
      List.append_assoc, List.singleton_append]
    exact place_append (by simpa using hy) (by simpa using hx)

theorem spliceFrom_eq_append {next : Nat} (hp : pos ≤ next) (hs : ∀ e ∈ edits, next ≤ e.start) :
    spliceFrom base pos edits = (base.take next).drop pos ++ spliceFrom base next edits := by
  cases edits
  case nil => exact Text.drop_eq_append hp
  case cons e edits =>
    have hd := Text.drop_eq_append hp (t := base.take e.start)
    rw [List.take_take, Nat.min_eq_left (hs e (by simp))] at hd
    simp only [spliceFrom, hd, List.append_assoc]

theorem spliceFrom_zero (hs : ∀ e ∈ edits, pos ≤ e.start) :
    spliceFrom base 0 edits = base.take pos ++ spliceFrom base pos edits :=
  spliceFrom_eq_append (Nat.zero_le _) hs

theorem spliceFrom_shift {a b : Text} :
    spliceFrom (a ++ b) (a.length + pos) (edits.map (·.shift a.length)) =
      spliceFrom b pos edits := by
  induction edits generalizing pos
  case nil => simp [spliceFrom]
  case cons e edits hi =>
    rw [List.map_cons, spliceFrom, spliceFrom, ← hi]
    simp only [shift, List.take_length_add_append, List.drop_length_add_append]

theorem spliceFrom_append {a b : Text} (h : ∀ e ∈ xs, e.start ≤ a.length ∧ e.stop ≤ a.length)
    (hp : pos ≤ a.length) :
    spliceFrom (a ++ b) pos (xs ++ ys.map (·.shift a.length)) =
      spliceFrom a pos xs ++ spliceFrom b 0 ys := by
  induction xs generalizing pos
  case nil =>
    have hs := @spliceFrom_shift ys 0 a b
    have hy : ∀ e ∈ ys.map (·.shift a.length), a.length ≤ e.start := by simp [shift]
    rw [List.nil_append, spliceFrom_eq_append hp hy, List.take_left, ← hs]
    rfl
  case cons e xs hi =>
    have ⟨hs, ht⟩ := h e (by simp)
    simp only [List.cons_append, spliceFrom, List.take_append_of_le_length hs,
      hi (fun x hx => h x (by simp [hx])) ht, List.append_assoc]

structure Chain (base : Text) (edits : List Edit) : Prop where
  base_whole : base.IsUtf8
  whole : ∀ e ∈ edits, e.text.IsUtf8
  inRange : ∀ e ∈ edits, base.isRange e.start e.stop = true
  apart : edits.Pairwise fun a b => a.stop ≤ b.start

namespace Chain

theorem tail (h : Chain base (e :: edits)) : Chain base edits where
  base_whole := h.base_whole
  whole _ hm := h.whole _ (by simp [hm])
  inRange _ hm := h.inRange _ (by simp [hm])
  apart := h.apart.of_cons

theorem stop_le_length (h : Chain base edits) (hm : e ∈ edits) : e.stop ≤ base.length :=
  Text.le_length_of_isBoundary (Text.isRange_iff.mp (h.inRange e hm)).right.right

theorem isUtf8_spliceFrom (h : Chain base edits) (hp : base.isBoundary pos = true)
    (hs : ∀ e ∈ edits, pos ≤ e.start) : (spliceFrom base pos edits).IsUtf8 := by
  induction edits generalizing pos
  case nil => exact (h.base_whole.cut hp).right
  case cons e edits hi =>
    have ⟨_, h₁, h₂⟩ := Text.isRange_iff.mp (h.inRange e (by simp))
    have hg := h.base_whole.slice (Text.isRange_iff.mpr ⟨hs e (by simp), hp, h₁⟩)
    have hr := hi h.tail h₂ (List.pairwise_cons.mp h.apart).left
    exact (hg.append (h.whole e (by simp))).append hr

theorem apply_spliceFrom (h : Chain base (e :: edits)) :
    e.apply (spliceFrom base 0 edits) = .ok (spliceFrom base 0 (e :: edits)) := by
  have hm : e ∈ e :: edits := by simp
  have ⟨hle, h₁, h₂⟩ := Text.isRange_iff.mp (h.inRange e hm)
  have hl := h.stop_le_length hm
  have hs := (List.pairwise_cons.mp h.apart).left
  have ht := h.tail.isUtf8_spliceFrom h₂ hs
  have hg := h.base_whole.slice (h.inRange e hm)
  have hb := Text.take_eq_append (t := base) hle
  have hr := Text.isRange_append (a := base.take e.start) hg ht
  rw [← List.append_assoc, ← hb] at hr
  simp only [List.length_take, List.length_drop] at hr
  rw [show min e.start base.length = e.start by omega,
    show e.start + (min e.stop base.length - e.start) = e.stop by omega] at hr
  rw [spliceFrom_zero hs, apply, Text.splice_eq hr]
  simp only [spliceFrom, List.drop_zero]
  rw [List.take_append_of_le_length (by simp; omega), List.take_take, Nat.min_eq_left hle,
    List.drop_append_of_le_length (by simp; omega), List.drop_take_self, List.nil_append]

theorem foldlM_reverse (h : Chain base edits) :
    edits.reverse.foldlM (fun t e => e.apply t) base = .ok (spliceFrom base 0 edits) := by
  induction edits
  case nil => rfl
  case cons e edits hi =>
    rw [List.reverse_cons, List.foldlM_append, hi h.tail]
    simp only [bind, Except.bind, List.foldlM_cons, List.foldlM_nil, h.apply_spliceFrom]
    rfl

end Chain

end Edit

namespace Draft

variable {d : Draft}

-- What the recorded edits have to satisfy:
-- 1. texts consist of whole characters, and edits cut none in two
-- 2. of two edits one ends before the other begins
-- 3. of edits that share their start, all but the first recorded are insertions
structure IsSound (d : Draft) : Prop where
  base_whole : d.base.IsUtf8
  whole : ∀ e ∈ d.edits, e.text.IsUtf8
  inRange : ∀ e ∈ d.edits, d.base.isRange e.start e.stop = true
  disjoint : d.edits.Pairwise fun a b => a.stop ≤ b.start ∨ b.stop ≤ a.start
  ties : d.edits.Pairwise fun a b => a.start = b.start → b.stop = b.start

theorem earliestFirst_apart {edits : List Edit} (hr : ∀ e ∈ edits, e.start ≤ e.stop)
    (hd : edits.Pairwise fun a b => a.stop ≤ b.start ∨ b.stop ≤ a.start)
    (ht : edits.Pairwise fun a b => a.start = b.start → b.stop = b.start) :
    (Edit.earliestFirst edits).Pairwise fun a b => a.stop ≤ b.start := by
  -- By induction on the recording: the edit recorded last goes in between those that start before
  -- it, which end before it, and those that start where it does or later.
  induction edits using List.reverseRecOn
  case nil => simp [Edit.earliestFirst]
  case append_singleton edits e hi =>
    have ⟨xs, ys, h, h', hx, hy⟩ := Edit.earliestFirst_concat edits e
    have hm : ∀ a, a ∈ xs ∨ a ∈ ys → a ∈ edits := fun a ha =>
      Edit.mem_earliestFirst.mp (h' ▸ List.mem_append.mpr ha)
    have ⟨hd₁, _, hd₂⟩ := List.pairwise_append.mp hd
    have ⟨ht₁, _, ht₂⟩ := List.pairwise_append.mp ht
    have hi := List.pairwise_append.mp (h' ▸ hi (fun a ha => hr a (by simp [ha])) hd₁ ht₁)
    have he := hr e (by simp)
    rw [h, List.pairwise_append, List.pairwise_cons]
    refine ⟨hi.left, ⟨fun b hb => ?after, hi.right.left⟩, fun a ha b hb => ?before⟩
    case after =>
      have hb' := hm b (.inr hb)
      have := hr b (by simp [hb'])
      have := hd₂ b hb' e (by simp)
      have := ht₂ b hb' e (by simp)
      have := hy b hb
      omega
    case before =>
      rcases List.mem_cons.mp hb with rfl | hb
      · have := hd₂ a (hm a (.inl ha)) b (by simp)
        have := hx a ha
        omega
      · exact hi.right.right a ha b hb

theorem IsSound.chain (h : d.IsSound) : Edit.Chain d.base (Edit.earliestFirst d.edits) where
  base_whole := h.base_whole
  whole e he := h.whole e (Edit.mem_earliestFirst.mp he)
  inRange e he := h.inRange e (Edit.mem_earliestFirst.mp he)
  apart := earliestFirst_apart (fun e he => (Text.isRange_iff.mp (h.inRange e he)).left)
    h.disjoint h.ties

theorem preview_of_chain (h : Edit.Chain d.base (Edit.earliestFirst d.edits)) :
    d.preview = .ok (Edit.spliceFrom d.base 0 (Edit.earliestFirst d.edits)) := by
  rw [preview, Edit.latestFirst_eq]
  exact h.foldlM_reverse

theorem IsSound.perm (h : d.IsSound) (hs : (d.edits.map Edit.start).Nodup) {edits : List Edit}
    (hp : edits.Perm d.edits) : IsSound { d with edits } where
  base_whole := h.base_whole
  whole e he := h.whole e (hp.mem_iff.mp he)
  inRange e he := h.inRange e (hp.mem_iff.mp he)
  disjoint := hp.symm.pairwise h.disjoint Or.symm
  ties := by
    have hn := List.pairwise_map.mp ((hp.map Edit.start).nodup_iff.mpr hs)
    exact hn.imp fun hne he => absurd he hne

theorem earliestFirst_eq_of_perm {edits edits' : List Edit} (hp : edits.Perm edits')
    (hs : (edits'.map Edit.start).Nodup) :
    Edit.earliestFirst edits = Edit.earliestFirst edits' := by
  refine List.Perm.eq_of_pairwise ?_ Edit.earliestFirst_sorted Edit.earliestFirst_sorted
    ((Edit.earliestFirst_perm.trans hp).trans Edit.earliestFirst_perm.symm)
  intro a b ha hb hab hba
  have ha := hp.mem_iff.mp (Edit.mem_earliestFirst.mp ha)
  exact List.inj_on_of_nodup_map hs ha (Edit.mem_earliestFirst.mp hb) (Nat.le_antisymm hab hba)

-- Recorded in any order and applied from the back, sound edits yield the base with each range
-- replaced, read from front to back; and where all starts differ, in whatever order they were
-- recorded.
theorem preview_eq_splice (h : d.IsSound) :
    d.preview = .ok (Edit.spliceFrom d.base 0 (Edit.earliestFirst d.edits)) ∧
    ((d.edits.map Edit.start).Nodup → ∀ edits : List Edit, edits.Perm d.edits →
      preview { d with edits } = d.preview) := by
  have hd := preview_of_chain h.chain
  refine ⟨hd, fun hs edits hp => ?_⟩
  rw [hd, preview_of_chain (h.perm hs hp).chain, earliestFirst_eq_of_perm hp hs]

theorem preview_eq_splice_of_ties :
    let d : Draft := {
      base := Text.ofString "aéb"
      edits := [⟨1, 3, Text.ofString "X"⟩, .insertion 1 (Text.ofString "é"),
        .insertion 1 (Text.ofString "Z"), .deletion 3 4] }
    d.IsSound ∧ d.preview = .ok (Edit.spliceFrom d.base 0 (Edit.earliestFirst d.edits)) ∧
      d.preview = .ok (Text.ofString "aZéX") := by
  intro d
  have h : d.IsSound := {
    base_whole := Text.isUtf8_ofString _
    whole := by simp [d, Edit.insertion, Edit.deletion, Text.IsUtf8.nil]
    inRange := by decide
    disjoint := by decide
    ties := by decide }
  exact ⟨h, (preview_eq_splice h).left, by decide⟩

end Draft

end PugShorthand
