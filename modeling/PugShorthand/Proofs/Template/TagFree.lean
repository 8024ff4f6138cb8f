import PugShorthand.Proofs.Edit.Discipline
import PugShorthand.Template.Region

namespace PugShorthand.Template

variable {a b t s base : Text} {x : UInt8} {e : Edit} {edits : List Edit} {pos : Nat}

def TagFree (t : Text) : Prop :=
  ¬closingTag <:+: t

-- Bytes that no closing tag holds keep what stands on their two sides apart.
def isForeign (b : UInt8) : Bool :=
  !closingTag.contains b

theorem not_mem_of_isForeign (h : isForeign x = true) : x ∉ closingTag := by
  simpa [isForeign] using h

theorem isForeign_of_isBlank (h : Text.isBlank x = true) : isForeign x = true := by
  simp only [Text.isBlank, Bool.or_eq_true, beq_iff_eq] at h
  rcases h with ((rfl | rfl) | rfl) | rfl <;> decide

namespace TagFree

theorem nil : TagFree [] := by
  simp +decide [TagFree]

theorem mono (h : TagFree t) (hi : s <:+: t) : TagFree s :=
  fun hc => h (hc.trans hi)

theorem slice {i j : Nat} (h : TagFree t) : TagFree ((t.take i).drop j) :=
  h.mono ((List.drop_suffix ..).isInfix.trans (List.take_prefix ..).isInfix)

theorem inner {span : Span} (h : TagFree t) (hi : span.inner t = .ok s) : TagFree s := by
  simp only [Span.inner, Text.slice] at hi
  split at hi
  case isTrue => exact Except.ok.inj hi ▸ nil
  case isFalse =>
    split at hi
    case isTrue  => exact Except.ok.inj hi ▸ h.slice
    case isFalse => contradiction

theorem of_foreign (h : ∀ x ∈ t, isForeign x = true) : TagFree t := by
  intro hc
  have hm : '<'.toUInt8 ∈ t := hc.subset (by decide)
  exact absurd (h _ hm) (by decide)

theorem append (ha : TagFree a) (hb : TagFree b)
    (h : (∀ x ∈ a.getLast?, isForeign x = true) ∨ ∀ x ∈ b.head?, isForeign x = true) :
    TagFree (a ++ b) := by
  intro hc
  cases List.infix_append_iff.mp hc
  case inl hc => exact ha hc
  case inr hc =>
    cases hc
    case inl hc => exact hb hc
    case inr hc =>
      have ⟨front, back, hn, hf, hk⟩ := hc
      cases h
      case inl h =>
        cases hl : front.getLast?
        case none => exact hb (by rw [hn, List.getLast?_eq_none_iff.mp hl]; exact hk.isInfix)
        case some x =>
          have hx : x ∈ closingTag := by simp [hn, List.mem_of_getLast? hl]
          have ⟨rest, hr⟩ := hf
          exact not_mem_of_isForeign (h x (by simp [← hr, List.getLast?_append, hl])) hx
      case inr h =>
        cases hl : back.head?
        case none =>
          exact ha (by rw [hn, List.head?_eq_none_iff.mp hl, List.append_nil]; exact hf.isInfix)
        case some x =>
          have hx : x ∈ closingTag := by simp [hn, List.mem_of_head? hl]
          have ⟨rest, hr⟩ := hk
          exact not_mem_of_isForeign (h x (by simp [← hr, List.head?_append, hl])) hx

theorem cons (hx : isForeign x = true) (h : TagFree t) : TagFree (x :: t) := by
  have hs : TagFree [x] := of_foreign (by simpa using hx)
  exact hs.append h (.inl (by simpa using hx))

theorem append_foreign (ha : TagFree a) (hs : s.all isForeign = true) : TagFree (a ++ s) :=
  have hs := List.all_eq_true.mp hs
  ha.append (of_foreign hs) (.inr fun x hx => hs x (List.mem_of_mem_head? hx))

theorem foreign_append (hs : s.all isForeign = true) (hb : TagFree b) : TagFree (s ++ b) :=
  have hs := List.all_eq_true.mp hs
  (of_foreign hs).append hb (.inl fun x hx => hs x (List.mem_of_getLast? hx))

theorem between (ha : TagFree a) (hs : s.all isForeign = true) (hne : s ≠ []) (hb : TagFree b) :
    TagFree (a ++ s ++ b) := by
  apply (ha.append_foreign hs).append hb
  have ⟨x, hx⟩ := Option.isSome_iff_exists.mp (List.getLast?_isSome.mpr hne)
  rw [List.getLast?_append, hx]
  exact .inl (by simpa using List.all_eq_true.mp hs x (List.mem_of_getLast? hx))

theorem append_cons (ha : TagFree a) (hx : isForeign x = true) (hb : TagFree b) :
    TagFree (a ++ x :: b) :=
  ha.append (hb.cons hx) (.inr (by simpa using hx))

theorem concat (ha : TagFree a) (hx : isForeign x = true) : TagFree (a ++ [x]) :=
  ha.append_cons hx nil

theorem braced (h : TagFree t) : TagFree (Text.braced t) :=
  (h.concat (by decide)).cons (by decide)

theorem escape {quote : UInt8} (hq : isForeign quote = true) (h : TagFree t) :
    TagFree (Text.escape quote t) := by
  suffices hs : ∀ a, TagFree (a ++ t) → TagFree (a ++ Text.escape quote t) from hs [] h
  clear h
  induction t
  case nil => exact fun _ h => h
  case cons b t hi =>
    intro a h
    rw [Text.escape, List.flatMap_cons, ← Text.escape]
    split
    case isFalse hb => simpa using hi (a ++ [b]) (by simpa using h)
    case isTrue hb =>
      subst hb
      have ha : TagFree a := h.mono ⟨[], b :: t, by simp⟩
      have ht : TagFree (Text.escape b t) := hi [] (h.mono ⟨a ++ [b], [], by simp⟩)
      exact ha.append_cons (by decide) (ht.cons hq)

theorem replace {old new : UInt8} (hn : isForeign new = true) (h : TagFree t) :
    TagFree (Text.replace old new t) := by
  intro hc
  have ⟨l, hl, he⟩ := List.infix_map_iff.mp hc
  -- No byte of the tag is a new one.
  have hk : l.map (fun b => if b = old then new else b) = l.map id := by
    apply List.map_congr_left
    intro b hb
    have hm : (if b = old then new else b) ∈ closingTag := he ▸ List.mem_map_of_mem hb
    split at hm
    case isTrue     => exact absurd hm (not_mem_of_isForeign hn)
    case isFalse ho => exact if_neg ho
  rw [hk, List.map_id] at he
  exact h (he ▸ hl)

theorem head?_append (hs : s.head?.any isForeign = true) :
    ∀ b ∈ (s ++ t).head?, isForeign b = true := by
  cases s
  case nil => contradiction
  case cons x s => simpa using hs

theorem head?_flatMap {α : Type} {f : α → Text} {xs : List α}
    (h : ∀ x ∈ xs, ∀ b ∈ (f x).head?, isForeign b = true) :
    ∀ b ∈ (xs.flatMap f).head?, isForeign b = true := by
  induction xs
  case nil => simp
  case cons x xs hi =>
    intro b hb
    rw [List.flatMap_cons, List.head?_append] at hb
    cases hx : (f x).head?
    case none   => exact hi (fun y hy => h y (by simp [hy])) b (by simpa [hx] using hb)
    case some c => exact h x (by simp) b (by simpa [hx] using hb)

theorem flatMap {α : Type} {f : α → Text} {xs : List α} (ht : ∀ x ∈ xs, TagFree (f x))
    (h : ∀ x ∈ xs, ∀ b ∈ (f x).head?, isForeign b = true) : TagFree (xs.flatMap f) := by
  induction xs
  case nil => exact nil
  case cons x xs hi =>
    have hr : ∀ y ∈ xs, ∀ b ∈ (f y).head?, isForeign b = true := fun y hy => h y (by simp [hy])
    have hs := hi (fun y hy => ht y (by simp [hy])) hr
    rw [List.flatMap_cons]
    exact (ht x (by simp)).append hs (.inr (head?_flatMap hr))

end TagFree

def Shut (e : Edit) : Prop :=
  ∀ b ∈ e.text.getLast?, isForeign b = true

-- The edit brings no tag with it, and completes none with what stands around its place.
structure Seamless (base : Text) (e : Edit) : Prop where
  text : TagFree e.text
  opens : (∀ b ∈ (base.take e.start).getLast?, isForeign b = true) ∨
    ∃ b ∈ e.text.head?, isForeign b = true
  closes : Shut e ∨ ∀ b ∈ (base.drop e.stop).head?, isForeign b = true

namespace TagFree

theorem head?_spliceFrom (hd : Edit.Disciplined base edits) (h : ∀ e ∈ edits, pos < e.start) :
    (Edit.spliceFrom base pos edits).head? = (base.drop pos).head? := by
  cases edits
  case nil => rfl
  case cons e edits =>
    have ⟨_, hs, _⟩ := Text.isRange_iff.mp (hd.inRange e (by simp))
    have hl := Text.le_length_of_isBoundary hs
    have hp := h e (by simp)
    have hg : ((base.take e.start).drop pos).head? = (base.drop pos).head? := by
      simp [List.head?_drop, hp]
    have ⟨x, hx⟩ : ∃ x, (base.drop pos).head? = some x := by
      simp [List.head?_drop, Nat.lt_of_lt_of_le hp hl]
    rw [Edit.spliceFrom, List.append_assoc, List.head?_append, hg, hx]
    rfl

theorem getLast?_gap (h : ∀ b ∈ (base.take e.start).getLast?, isForeign b = true) :
    ∀ b ∈ ((base.take e.start).drop pos).getLast?, isForeign b = true := by
  intro b hb
  rw [List.getLast?_drop] at hb
  split at hb
  case isTrue  => simp at hb
  case isFalse => exact h b hb

theorem spliceFrom (hb : TagFree base) (hd : Edit.Disciplined base edits)
    (h : ∀ e ∈ edits, Seamless base e)
    (hp : edits.Pairwise fun a b => Shut a ∨ a.stop < b.start) :
    TagFree (Edit.spliceFrom base pos edits) := by
  induction edits generalizing pos
  case nil => exact hb.mono (List.drop_suffix ..).isInfix
  case cons e edits hi =>
    have he := h e (by simp)
    have ⟨hf, hp'⟩ := List.pairwise_cons.mp hp
    have hd' : Edit.Disciplined base edits :=
      ⟨fun x hx => hd.inRange x (by simp [hx]), hd.ascending.of_cons⟩
    have hr : TagFree (Edit.spliceFrom base e.stop edits) :=
      hi hd' (fun x hx => h x (by simp [hx])) hp'
    have ht : TagFree (e.text ++ Edit.spliceFrom base e.stop edits) := by
      apply he.text.append hr
      by_cases hs : Shut e
      case pos => exact .inl hs
      case neg =>
        have hs' : ∀ x ∈ edits, e.stop < x.start := fun x hx => (hf x hx).resolve_left hs
        rw [head?_spliceFrom hd' hs']
        exact .inr (he.closes.resolve_left hs)
    rw [Edit.spliceFrom, List.append_assoc]
    apply hb.slice.append ht
    cases he.opens
    case inl ho => exact .inl (getLast?_gap ho)
    case inr ho =>
      obtain ⟨b, hb, hx⟩ := ho
      rw [List.head?_append, Option.mem_def.mp hb]
      exact .inr (by simpa using hx)

theorem spliceFrom_shut (hb : TagFree base) (hd : Edit.Disciplined base edits)
    (h : ∀ e ∈ edits, Seamless base e ∧ Shut e) : TagFree (Edit.spliceFrom base pos edits) :=
  hb.spliceFrom hd (fun e he => (h e he).left)
    (hd.ascending.imp_of_mem fun ha _ _ => .inl (h _ ha).right)

theorem head?_deletions (ht : ∀ e ∈ edits, e.text = [])
    (h : ∀ e ∈ edits, ∀ b ∈ (base.drop e.stop).head?, isForeign b = true)
    (hp : ∀ b ∈ (base.drop pos).head?, isForeign b = true) :
    ∀ b ∈ (Edit.spliceFrom base pos edits).head?, isForeign b = true := by
  induction edits generalizing pos
  case nil => exact hp
  case cons e edits hi =>
    intro b hb
    have hi := @hi e.stop (fun x hx => ht x (by simp [hx])) (fun x hx => h x (by simp [hx]))
      (h e (by simp))
    rw [Edit.spliceFrom, ht e (by simp), List.append_nil, List.head?_append] at hb
    cases hg : ((base.take e.start).drop pos).head?
    case none => exact hi b (by simpa [hg] using hb)
    case some c =>
      have hc : (base.drop pos).head? = some c := by
        rw [List.head?_drop, List.getElem?_take] at hg
        split at hg
        case isTrue  => rwa [List.head?_drop]
        case isFalse => contradiction
      exact hp b (by simpa [hg, hc] using hb)

theorem spliceFrom_deletions (hb : TagFree base) (ht : ∀ e ∈ edits, e.text = [])
    (h : ∀ e ∈ edits, ∀ b ∈ (base.drop e.stop).head?, isForeign b = true) :
    TagFree (Edit.spliceFrom base pos edits) := by
  induction edits generalizing pos
  case nil => exact hb.mono (List.drop_suffix ..).isInfix
  case cons e edits hi =>
    have ht' : ∀ x ∈ edits, x.text = [] := fun x hx => ht x (by simp [hx])
    have h' : ∀ x ∈ edits, ∀ b ∈ (base.drop x.stop).head?, isForeign b = true := fun x hx =>
      h x (by simp [hx])
    rw [Edit.spliceFrom, ht e (by simp), List.append_nil]
    exact hb.slice.append (hi ht' h') (.inr (head?_deletions ht' h' (h e (by simp))))

end TagFree

end PugShorthand.Template
