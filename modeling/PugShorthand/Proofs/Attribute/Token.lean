import PugShorthand.Attribute.Token
import PugShorthand.Proofs.Attribute.Value

namespace PugShorthand.Attribute

namespace Assignment

variable {t pre name rest : Text} {pos : Nat} {v : Value}

def Unassigned (t : Text) : Prop :=
  ∀ (name : Text) (v : Value) (rest : Text), t = name ++ '='.toUInt8 :: (v.raw ++ rest) →
    IsName name → ¬v.EndsBefore rest

theorem find_eq_none_iff : find t pos = .ok none ↔ Unassigned (t.drop pos) where
  mp h name v rest ht hn hv := by simp [find_eq ht hn hv] at h
  mpr h := by
    rcases exists_parts t pos with hf | ⟨name, v, rest, ht, hn, hv⟩
    · exact hf
    · exact absurd hv (h name v rest ht hn)

theorem unassigned_of_isName (hn : IsName name) (hr : ∀ b ∈ rest.head?, Text.isBlank b = true) :
    Unassigned (name ++ rest) := by
  have h := @find_eq_none (name ++ rest) name rest 0 rfl hn hr
  exact find_eq_none_iff.mp h

theorem ofParts_verbatim :
    (ofParts (pre ++ (name ++ rest)) pre.length name v).verbatim =
      decide ((pre ++ name).getLast? = some '!'.toUInt8) := by
  simp only [ofParts, decide_eq_decide, ← List.append_assoc, ← List.length_append]
  generalize pre ++ name = front
  cases front
  case nil => simp
  case cons b front =>
    rw [List.getElem?_append_left (by simp), ← List.getLast?_eq_getElem?]
    simp

theorem ofParts_text (hv : v.raw.IsUtf8) (hr : rest.IsUtf8) :
    (ofParts t pre.length name v).span.text (pre ++ (name ++ '='.toUInt8 :: (v.raw ++ rest))) =
      .ok v.raw := by
  have h := Text.slice_append (a := pre ++ (name ++ ['='.toUInt8])) hv hr
  simpa [ofParts, Span.text, Nat.add_assoc] using h

end Assignment

namespace Token

variable {t pre used rest written : Text} {v : Value} {k : Token} {ks : List Token}

@[simp]
theorem named_operator : (named written).operator = none := by
  unfold named
  split <;> rfl

@[simp]
theorem named_value : (named written).value = none := by
  unfold named
  split <;> rfl

@[simp]
theorem named_verbatim : (named written).verbatim = false := by
  unfold named
  split <;> rfl

theorem mem_named {b : UInt8} (h : b ∈ (named written).name) : b ∈ written := by
  unfold named at h
  split at h
  case h_1 name hn => exact Text.eq_of_after? hn ▸ List.mem_append_right _ h
  case h_2         => exact h

@[simp]
theorem assigned_value : (assigned written v).value = some v :=
  rfl

@[simp]
theorem assigned_verbatim : (assigned written v).verbatim = false :=
  named_verbatim

-- `used` is how the token `k` is written in front of `rest`.
inductive Reads : Text → Token → Text → Prop
  | bare {name rest : Text} (hn : name ≠ []) (hb : ∀ b ∈ name, Text.isBlank b = false)
    (hr : ∀ b ∈ rest.head?, Text.isBlank b = true) (h : Assignment.Unassigned (name ++ rest)) :
    Reads name (.bare name) rest
  | assigned {name rest : Text} {v : Value} (hn : Assignment.IsName name)
    (hl : name.getLast? ≠ some '!'.toUInt8) (hv : v.EndsBefore rest) :
    Reads (name ++ '='.toUInt8 :: v.raw) (.assigned name v) rest
  | escaped {name rest : Text} {v : Value} (hn : Assignment.IsName name) (hv : v.EndsBefore rest) :
    Reads (name ++ '!'.toUInt8 :: '='.toUInt8 :: v.raw) (.escaped name v) rest

inductive Scans : Text → List Token → Prop
  | nil : Scans [] []
  | blank {b : UInt8} {rest : Text} {ks : List Token} (hb : Text.isBlank b = true)
    (h : Scans rest ks) : Scans (b :: rest) ks
  | token {used rest : Text} {k : Token} {ks : List Token} (hk : Reads used k rest)
    (h : Scans rest ks) : Scans (used ++ rest) (k :: ks)

namespace Reads

theorem exists_cons (h : Reads used k rest) :
    ∃ b u, used = b :: u ∧ Text.isBlank b = false := by
  cases h
  case bare hn hb _ _ =>
    have ⟨b, u, hu⟩ := List.exists_cons_of_ne_nil hn
    exact ⟨b, u, hu, hb b (by simp [hu])⟩
  case assigned name v hn hl hv =>
    cases name
    case nil      => exact ⟨_, _, rfl, by decide⟩
    case cons b n => exact ⟨b, _, rfl, (hn b (by simp)).right⟩
  case escaped name v hn hv =>
    cases name
    case nil      => exact ⟨_, _, rfl, by decide⟩
    case cons b n => exact ⟨b, _, rfl, (hn b (by simp)).right⟩

theorem exists_closing (h : Reads used k rest) :
    (∀ b ∈ rest.head?, Text.isBlank b = true) ∨ ∃ v closing, k.value = some v ∧
      v.delimiter.closing? = some closing ∧ used.getLast? = some closing := by
  have closed {v : Value} {x : Text} (hv : v.EndsBefore rest) :
      (∀ b ∈ rest.head?, Text.isBlank b = true) ∨ ∃ closing, v.delimiter.closing? = some closing ∧
        (x ++ v.raw).getLast? = some closing := by
    cases hv
    case bare hr => exact .inl hr
    case delimited opening closing region hd c =>
      obtain ⟨body, rfl⟩ := c.exists_concat
      refine .inr ⟨closing, hd, ?_⟩
      simp only [← List.cons_append, ← List.append_assoc, List.getLast?_concat]
  cases h
  case bare hr _ => exact .inl hr
  case assigned name v hn hl hv =>
    rw [List.append_cons]
    exact (closed hv).imp_right fun ⟨closing, h⟩ => ⟨v, closing, rfl, h⟩
  case escaped name v hn hv =>
    rw [List.append_cons, List.append_cons]
    exact (closed hv).imp_right fun ⟨closing, h⟩ => ⟨v, closing, rfl, h⟩

theorem fresh (h : Reads used k rest) :
    (∀ b ∈ rest.head?, Text.isBlank b = true) ∨ used.getLast? ≠ some '!'.toUInt8 := by
  refine h.exists_closing.imp_right fun ⟨v, closing, _, hd, hl⟩ => ?_
  simpa [hl] using (Delimiter.plain_of_closing? hd).left

theorem isUtf8 (h : Reads used k rest) (ht : Text.IsUtf8 (used ++ rest)) :
    used.IsUtf8 ∧ rest.IsUtf8 := by
  have value {v : Value} {x : Text} (hv : v.EndsBefore rest)
      (ht : Text.IsUtf8 (x ++ '='.toUInt8 :: v.raw ++ rest)) :
      Text.IsUtf8 (x ++ '='.toUInt8 :: v.raw) ∧ rest.IsUtf8 := by
    simp only [List.append_assoc, List.cons_append] at ht
    have ⟨hx, ht⟩ := ht.around (by decide)
    have ⟨hr, ht⟩ := hv.isUtf8 ht
    exact ⟨hx.append (.cons (by decide) hr), ht⟩
  cases h
  case bare hr _ =>
    exact ht.split fun b hb => Text.not_continuation_of_ascii (Text.ascii_of_isBlank (hr b hb))
  case assigned name v hn hl hv => exact value hv ht
  case escaped name v hn hv =>
    rw [List.append_cons] at ht ⊢
    exact value hv ht

end Reads

theorem Scans.exists_whole_reads {ks : List Token} (h : Scans t ks) (ht : t.IsUtf8) :
    ∀ k ∈ ks, ∃ used rest, Reads used k rest ∧ Text.IsUtf8 (used ++ rest) := by
  induction h
  case nil => simp
  case blank hb _ hi => exact hi (ht.tail (Text.ascii_of_isBlank hb))
  case token hk _ hi =>
    simp only [List.mem_cons, forall_eq_or_imp]
    exact ⟨⟨_, _, hk, ht⟩, hi (hk.isUtf8 ht).right⟩

theorem exists_reads {b : UInt8} {s : Text} (hb : Text.isBlank b = false) :
    ∃ used k rest, b :: s = used ++ rest ∧ Reads used k rest := by
  rcases Assignment.exists_parts (b :: s) 0 with h | ⟨name, v, rest, ht, hn, hv⟩
  case inl =>
    have hw := List.takeWhile_append_dropWhile (p := (!Text.isBlank ·)) (l := b :: s)
    refine ⟨_, _, _, hw.symm, .bare ?_ ?_ ?_ ?_⟩
    · simp [hb]
    · exact fun x hx => by simpa using List.mem_takeWhile_imp hx
    · intro x hx
      rw [← Text.drop_run] at hx
      simpa using Text.head?_drop_run x hx
    · rw [List.takeWhile_append_dropWhile]
      exact Assignment.find_eq_none_iff.mp h
  case inr =>
    rw [List.drop_zero] at ht
    by_cases hl : name.getLast? = some '!'.toUInt8
    case neg =>
      exact ⟨name ++ '='.toUInt8 :: v.raw, _, rest, by simp [ht], .assigned hn hl hv⟩
    case pos =>
      have he := List.dropLast_append_getLast? _ hl
      rw [← he] at hn ht
      exact ⟨name.dropLast ++ '!'.toUInt8 :: '='.toUInt8 :: v.raw, _, rest, by simp [ht],
        .escaped (fun x hx => hn x (by simp [hx])) hv⟩

theorem exists_scans (t : Text) : ∃ ks, Scans t ks := by
  match t with
  | [] => exact ⟨[], .nil⟩
  | b :: s =>
    cases hb : Text.isBlank b
    case true =>
      have ⟨ks, h⟩ := exists_scans s
      exact ⟨ks, .blank hb h⟩
    case false =>
      have ⟨used, k, rest, ht, hk⟩ := exists_reads (s := s) hb
      have hl : rest.length < s.length + 1 := by
        have ⟨_, _, hu, _⟩ := hk.exists_cons
        rw [← List.length_cons, ht, hu, List.cons_append]
        simp only [List.length_cons, List.length_append]
        omega
      have ⟨ks, h⟩ := exists_scans rest
      exact ⟨k :: ks, ht ▸ .token hk h⟩
termination_by t.length

theorem read_assigned {pos : Nat} {a : Assignment} {name raw : Text}
    (hf : Assignment.find t pos = .ok (some a)) (hv : a.verbatim = false)
    (hr : a.span.text t = .ok raw) (hn : Text.slice t pos (a.span.start - 1) = .ok name) :
    read t pos = .ok (assigned name ⟨raw, a.delimiter⟩, a.span.stop) := by
  simp [read, hf, hv, hr, hn, bind, Except.bind, pure, Except.pure]

theorem read_escaped {pos : Nat} {a : Assignment} {name raw : Text}
    (hf : Assignment.find t pos = .ok (some a)) (hv : a.verbatim = true)
    (hr : a.span.text t = .ok raw) (hn : Text.slice t pos (a.span.start - 1 - 1) = .ok name) :
    read t pos = .ok (escaped name ⟨raw, a.delimiter⟩, a.span.stop) := by
  simp [read, hf, hv, hr, hn, bind, Except.bind, pure, Except.pure]

theorem read_eq (h : Reads used k rest) (hp : pre.getLast? ≠ some '!'.toUInt8)
    (hu : Text.IsUtf8 (used ++ rest)) :
    read (pre ++ (used ++ rest)) pre.length = .ok (k, pre.length + used.length) := by
  obtain ⟨h₁, h₂⟩ := h.isUtf8 hu
  cases h
  case bare hn hb hr h =>
    have hf : Assignment.find (pre ++ (used ++ rest)) pre.length = .ok none :=
      Assignment.find_eq_none_iff.mpr (by rwa [List.drop_left])
    have hs : Text.run (!Text.isBlank ·) ((pre ++ (used ++ rest)).drop pre.length) =
        used.length := by
      rw [List.drop_left]
      exact Text.run_append (by simpa using hb) (by simpa using hr)
    simp only [read, hf, hs, Text.slice_append h₁ h₂, bind, Except.bind, pure, Except.pure]
  case assigned name v hn hl hv =>
    simp only [List.append_assoc, List.cons_append] at hu ⊢
    obtain ⟨hname, hrest⟩ := hu.around (by decide)
    have hm : (pre ++ name).getLast? ≠ some '!'.toUInt8 := by
      rw [List.getLast?_append]
      cases h : name.getLast?
      case none   => simpa using hp
      case some b => simpa [h] using hl
    have htail : Text.IsUtf8 ('='.toUInt8 :: (v.raw ++ rest)) := .cons (by decide) hrest
    have hs := Text.slice_append (a := pre) hname htail
    have hr := read_assigned (Assignment.find_eq List.drop_left hn hv)
      (Assignment.ofParts_verbatim.trans (decide_eq_false hm))
      (Assignment.ofParts_text (hv.isUtf8 hrest).left h₂) hs
    rw [hr]
    simp only [Assignment.ofParts, List.length_append, List.length_cons, Except.ok.injEq,
      Prod.mk.injEq, true_and]
    omega
  case escaped name v hn hv =>
    have hn' : Assignment.IsName (name ++ ['!'.toUInt8]) := by
      intro b hb
      rcases List.mem_append.mp hb with hb | hb
      · exact hn b hb
      · rw [List.mem_singleton.mp hb]; decide
    have hu' : Text.IsUtf8 (name ++ '!'.toUInt8 :: '='.toUInt8 :: (v.raw ++ rest)) := by
      simpa using hu
    obtain ⟨hname, htail⟩ := hu'.around (by decide)
    have hrest := htail.tail (by decide)
    have he : name ++ '!'.toUInt8 :: '='.toUInt8 :: v.raw ++ rest =
      (name ++ ['!'.toUInt8]) ++ '='.toUInt8 :: (v.raw ++ rest) := by simp
    have hs := Text.slice_append (a := pre) hname (.cons (x := '!'.toUInt8) (by decide) htail)
    rw [he]
    have hr := read_escaped (Assignment.find_eq (t := pre ++ _) List.drop_left hn' hv)
      (Assignment.ofParts_verbatim.trans (decide_eq_true (by simp)))
      (Assignment.ofParts_text (hv.isUtf8 hrest).left h₂) (by simpa [Assignment.ofParts] using hs)
    rw [hr]
    simp only [Assignment.ofParts, List.length_append, List.length_cons, List.length_nil,
      Except.ok.injEq, Prod.mk.injEq, true_and]
    omega

theorem go_skip {u : Text} {pos resume : Nat} (h : resume = pos + u.length) :
    scan.go t pos resume (u ++ rest) = scan.go t resume resume rest := by
  induction u generalizing pos
  case nil => simp [h]
  case cons b u hi =>
    simp only [List.length_cons] at h
    rw [List.cons_append, scan.go, if_pos (by simp; omega)]
    exact hi (by omega)

theorem go_eq {s : Text} {resume : Nat} (h : Scans s ks) (hs : s.IsUtf8)
    (hp : (∀ b ∈ s.head?, Text.isBlank b = true) ∨ pre.getLast? ≠ some '!'.toUInt8)
    (hr : resume ≤ pre.length) : scan.go (pre ++ s) pre.length resume s = .ok ks := by
  -- By induction on the tokens. `pre` is what was read before, and it ends with a `!` only in front
  -- of a blank, where no token begins.
  induction h generalizing pre resume
  case nil => rfl
  case blank b rest ks hb h hi =>
    rw [scan.go, if_pos (by simp [hb]), List.append_cons]
    have hn : b ≠ '!'.toUInt8 := by rintro rfl; exact absurd hb (by decide)
    have := @hi (pre ++ [b]) resume (hs.tail (Text.ascii_of_isBlank hb))
      (.inr (by simpa using hn)) (by simp; omega)
    simpa using this
  case token used rest k ks hk h hi =>
    have ⟨b, u, hu, hb⟩ := hk.exists_cons
    have hp : pre.getLast? ≠ some '!'.toUInt8 := by
      refine hp.resolve_left fun h => ?_
      simp [hu, hb] at h
    have hread := read_eq hk hp hs
    have hi := @hi (pre ++ used) (pre ++ used).length (hk.isUtf8 hs).right
      (hk.fresh.imp_right fun hf => by rw [List.getLast?_append]; simp [hu] at hf ⊢; exact hf)
      (Nat.le_refl _)
    subst hu
    rw [List.cons_append, scan.go, if_neg (by simp [hb]; omega), ← List.cons_append, hread]
    simp only [bind, Except.bind]
    rw [go_skip (by simp; omega)]
    simp only [List.length_append, List.append_assoc] at hi
    rw [hi]
    rfl

theorem scan_eq (h : Scans t ks) (ht : t.IsUtf8) : scan t = .ok ks :=
  @go_eq [] ks t 0 h ht (.inr (by simp)) (Nat.le_refl _)

theorem scan_eq_iff (ht : t.IsUtf8) : scan t = .ok ks ↔ Scans t ks where
  mp h := by
    have ⟨ks', h'⟩ := exists_scans t
    rw [scan_eq h' ht, Except.ok.injEq] at h
    exact h ▸ h'
  mpr h := scan_eq h ht

end Token

end PugShorthand.Attribute
