import PugShorthand.Proofs.Attribute.Expander
import PugShorthand.Proofs.Attribute.Literal

namespace PugShorthand.Attribute

-- What attributes with a colon fold into: the last `class` or `style` with no other setting
-- behind it.
inductive Target where
  | none
  | classes
  | styles
  deriving DecidableEq, Repr

namespace Token

variable {k : Token} {ks : List Token} {naming : Export.Naming} {target : Target}

def targetAfter (target : Target) (k : Token) : Target :=
  if k.verbatim || k.isCustomProperty || (k.conditional?.isSome && target != .none) then target
  else if k.isClass then .classes
  else if k.isStyle then .styles
  else .none

def isFolded (target : Target) (k : Token) : Bool :=
  !k.verbatim && (k.isCustomProperty || (k.conditional?.isSome && target != .none) || k.isClass ||
    k.isStyle)

def makesClass (k : Token) : Bool :=
  !k.verbatim && k.isClass

def makesStyle (k : Token) : Bool :=
  !k.verbatim && (k.isCustomProperty || k.isStyle)

theorem plain_of_isClass (h : k.isClass = true) :
    k.isCustomProperty = false ∧ k.conditional? = none ∧ k.isStyle = false := by
  rw [isCustomProperty, conditional?, isStyle, beq_iff_eq.mp h]
  decide

theorem plain_of_isStyle (h : k.isStyle = true) :
    k.isCustomProperty = false ∧ k.conditional? = none ∧ k.isClass = false := by
  rw [isCustomProperty, conditional?, isClass, beq_iff_eq.mp h]
  decide

theorem isFolded_eq_false_iff (hv : k.verbatim = false) :
    k.isFolded target = false ↔ k.isCustomProperty = false ∧
      (k.conditional?.isSome = true → target = .none) ∧ k.isClass = false ∧ k.isStyle = false := by
  simp [isFolded, hv, and_assoc]

def settings (target : Target) : List Token → List Token
  | [] => []
  | k :: ks =>
    if k.isFolded target then settings (k.targetAfter target) ks
    else k :: settings (k.targetAfter target) ks

theorem mem_settings (h : k ∈ settings target ks) :
    k ∈ ks ∧ ∃ target', k.isFolded target' = false := by
  induction ks generalizing target
  case nil => simp [settings] at h
  case cons k' ks hi =>
    rw [settings] at h
    split at h
    case isTrue =>
      have ⟨hm, ht⟩ := hi h
      exact ⟨by simp [hm], ht⟩
    case isFalse hf =>
      rcases List.mem_cons.mp h with rfl | h
      · exact ⟨by simp, target, by simpa using hf⟩
      · have ⟨hm, ht⟩ := hi h
        exact ⟨by simp [hm], ht⟩

theorem isSome_written? (h : k.value.isSome = true ∨ k.isClass = true ∨ k.isStyle = true) :
    k.written?.isSome = true := by
  rcases h with h | h | h <;> simp [written?, h]

theorem isSome_expanded? (k : Token) (naming : Export.Naming) :
    (k.expanded? naming).isSome = k.written?.isSome := by
  rw [expanded?, Option.isSome_map]
  split <;> simp

theorem isSome_expanded?_of_directive (naming : Export.Naming)
    (h : k.isClass = true ∨ k.isStyle = true) :
    (k.expanded? naming).isSome = true := by
  rw [isSome_expanded?]
  exact isSome_written? (.inr h)

theorem settled_written? (hw : k.IsWhole) : ∀ t ∈ k.written?, Settled t := by
  intro t ht
  simp only [written?, Option.mem_def, Option.or_eq_some_iff, Option.map_eq_some_iff,
    Option.ite_none_right_eq_some, Option.some.injEq] at ht
  rcases ht with ⟨v, hv, rfl⟩ | ⟨_, _, rfl⟩
  · obtain ⟨_, _, he⟩ := hw.value v hv
    exact he.settled
  · exact settled_emptyLiteral

theorem settled_expanded?_of_unquoted (hw : k.IsWhole) (hb : k.exported = true → ∀ quote,
      (Delimiter.ofOpening quote).isQuote = true → quote ∉ naming.binding (normaliseName k.name)) :
    ∀ t ∈ k.expanded? naming, Settled t := by
  intro t ht
  simp only [expanded?, Option.mem_def, Option.map_eq_some_iff] at ht
  obtain ⟨u, hu, rfl⟩ := ht
  split at hu
  case isFalse => exact (settled_written? hw u hu).rewrap
  case isTrue he =>
    obtain ⟨w, hww, rfl⟩ := Option.map_eq_some_iff.mp hu
    exact (settled_written? hw w hww).exportReference (hb he)

theorem getLast?_styleFragment {f : Text} (h : k.styleFragment = .ok f) :
    f.getLast? = some ';'.toUInt8 := by
  cases hv : k.styleValue <;> simp only [styleFragment, hv, bind, Except.bind, pure, Except.pure,
    reduceCtorEq, Except.ok.injEq] at h
  case ok v => exact h ▸ List.getLast?_concat

theorem getLast?_classFragment {f name : Text} (h : k.classFragment name = .ok f) :
    f.getLast? = some '}'.toUInt8 := by
  have closed {condition : Text} : (Text.ofString " " ++ Text.braced
      (condition ++ Text.ofString " ? ' " ++ name ++ Text.ofString "' : ''")).getLast? =
      some '}'.toUInt8 := by
    rw [List.getLast?_append, getLast?_braced, Option.some_or]
  unfold classFragment at h
  split at h
  case h_2 => exact Except.ok.inj h ▸ closed
  case h_1 value _ =>
    cases hi : value.inner <;> simp only [hi, bind, Except.bind, pure, Except.pure, reduceCtorEq,
      Except.ok.injEq] at h
    case ok => exact h ▸ closed

end Token

-- A directive with one literal for a value, and nothing folded into it that could shield the quote
-- behind it.
structure Directive.IsSettled (d : Directive) : Prop where
  value : ∀ t ∈ d.value, Settled t
  fragments : d.fragments.getLast? ≠ some '\\'.toUInt8

theorem Directive.IsSettled.append {d : Directive} {f : Text} {b : UInt8} (h : d.IsSettled)
    (hf : f.getLast? = some b) (hb : b ≠ '\\'.toUInt8) : (d.append f).IsSettled where
  value := h.value
  fragments := by simpa [Directive.append, List.getLast?_append, hf] using hb

theorem Directive.isUsed_append {d : Directive} {f : Text} {b : UInt8} (h : f.getLast? = some b) :
    (d.append f).isUsed = true := by
  have hf : f ≠ [] := by rintro rfl; simp at h
  simp [Directive.isUsed, Directive.append, hf]

namespace Expander

open Token

variable {r r' : Expander} {k : Token} {target : Target}

structure Tracks (target : Target) (r : Expander) : Prop where
  classes : r.classes.isOpen = true ↔ target = .classes
  styles : r.styles.isOpen = true ↔ target = .styles
  classes_value : target = .classes → r.classes.value.isSome = true
  styles_value : target = .styles → r.styles.value.isSome = true

theorem Tracks.closed_iff (h : Tracks target r) :
    r.styles.isOpen = false ∧ r.classes.isOpen = false ↔ target = .none := by
  have hc := h.classes
  have hs := h.styles
  cases target <;> simp_all

theorem Push.tracks (hp : Push r k r') (h : Tracks target r) :
    Tracks (k.targetAfter target) r' := by
  have folded (hc : k.verbatim = true ∨ k.isCustomProperty = true ∨
      k.conditional?.isSome = true ∧ target ≠ .none) : k.targetAfter target = target := by
    rcases hc with hc | hc | hc <;> simp [targetAfter, hc]
  cases hp
  case verbatim hv =>
    rw [folded (.inl hv)]
    exact ⟨h.classes, h.styles, h.classes_value, h.styles_value⟩
  case style f hv hc hf =>
    have hc : k.isCustomProperty = true ∨ k.conditional?.isSome = true ∧ target ≠ .none :=
      hc.imp_right fun hc => ⟨hc.right, by simp [h.styles.mp hc.left]⟩
    rw [folded (.inr hc)]
    exact ⟨h.classes, h.styles, h.classes_value, h.styles_value⟩
  case «class» name f hv hp hs hn ho hf =>
    rw [folded (.inr (.inr ⟨by simp [hn], by simp [h.classes.mp ho]⟩))]
    exact ⟨h.classes, h.styles, h.classes_value, h.styles_value⟩
  case setting hv hp hc =>
    have hc : (k.conditional?.isSome && target != .none) = false := by
      rcases hc with hc | hc
      · simp [hc]
      · simp [h.closed_iff.mp hc]
    rw [targetAfter, hv, hp, hc, if_neg (by decide), Expander.pushSetting]
    split
    case isTrue hcl => exact ⟨by simp [Directive.assign], by simp [Directive.close],
      fun _ => isSome_expanded?_of_directive _ (.inl hcl), by simp⟩
    case isFalse =>
      split
      case isTrue hst => exact ⟨by simp [Directive.close], by simp [Directive.assign], by simp,
        fun _ => isSome_expanded?_of_directive _ (.inr hst)⟩
      case isFalse =>
        exact ⟨by simp [Directive.close, Expander.emit], by simp [Directive.close, Expander.emit],
          by simp, by simp⟩

theorem Push.naming_eq (hp : Push r k r') : r'.naming = r.naming := by
  cases hp
  case setting =>
    rw [Expander.pushSetting]
    repeat' split
    all_goals rfl
  all_goals rfl

theorem Push.isUsed (hp : Push r k r') (h : Tracks target r) :
    r'.classes.isUsed = (r.classes.isUsed || k.makesClass) ∧
      r'.styles.isUsed = (r.styles.isUsed || k.makesStyle) := by
  have hx := @isSome_expanded?_of_directive k r.naming
  cases hp
  case verbatim hv => simp [makesClass, makesStyle, hv, Expander.emit]
  case style f hv hc hf =>
    have hcl : k.isClass = false := by
      by_contra hcl
      have ⟨hp, hn, _⟩ := plain_of_isClass (k := k) (by simpa using hcl)
      simp [hp, hn] at hc
    have hs : (r.styles.isUsed || k.makesStyle) = true := by
      rcases hc with hc | ⟨ho, _⟩
      · simp [makesStyle, hv, hc]
      · simp [Directive.isUsed, h.styles_value (h.styles.mp ho)]
    exact ⟨by simp [makesClass, hcl],
      by rw [Directive.isUsed_append (getLast?_styleFragment hf), hs]⟩
  case «class» name f hv hp hs hn ho hf =>
    have hst : k.isStyle = false := by
      by_contra hst
      have ⟨_, hn', _⟩ := plain_of_isStyle (k := k) (by simpa using hst)
      simp [hn] at hn'
    have hc : r.classes.isUsed = true := by
      simp [Directive.isUsed, h.classes_value (h.classes.mp ho)]
    exact ⟨by rw [Directive.isUsed_append (getLast?_classFragment hf), hc, Bool.true_or],
      by simp [makesStyle, hp, hst]⟩
  case setting hv hp hc =>
    rw [Expander.pushSetting]
    split
    case isTrue hcl =>
      have ⟨_, _, hst⟩ := plain_of_isClass hcl
      simp [makesClass, makesStyle, hv, hp, hcl, hst, Directive.isUsed, Directive.assign,
        Directive.close, hx]
    case isFalse hcl =>
      split
      case isTrue hst =>
        simp [makesClass, makesStyle, hv, hp, hcl, hst, Directive.isUsed, Directive.assign,
          Directive.close, hx]
      case isFalse hst =>
        simp [makesClass, makesStyle, hp, hcl, hst, Directive.isUsed, Directive.close,
          Expander.emit]

end Expander

end PugShorthand.Attribute
