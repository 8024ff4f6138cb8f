import PugShorthand.Attribute.Expander
import PugShorthand.Proofs.Attribute.Comment
import PugShorthand.Proofs.Attribute.Token

namespace PugShorthand

structure Export.Naming.IsWhole (n : Export.Naming) : Prop where
  before : n.before.IsUtf8
  after : n.after.IsUtf8

theorem Export.Naming.IsWhole.binding {n : Export.Naming} {name : Text} (h : n.IsWhole)
    (hn : name.IsUtf8) : (n.binding name).IsUtf8 :=
  (h.before.append hn).append h.after

structure Export.IsWhole (e : Export) : Prop where
  name : e.name.IsUtf8
  initial : ∀ t ∈ e.initial, t.IsUtf8

namespace Attribute

variable {t : Text} {quote : UInt8}

theorem ascii_of_leadingQuote? (h : leadingQuote? t = some quote) : quote < 0x80 := by
  cases t
  case nil => simp [leadingQuote?] at h
  case cons b t =>
    simp only [leadingQuote?, Option.ite_none_right_eq_some, Option.some.injEq] at h
    rcases h with ⟨rfl | rfl | rfl, rfl⟩ <;> decide

section

variable (h : t.IsUtf8)
include h

@[simp]
theorem isUtf8_templateLiteral : (templateLiteral t).IsUtf8 :=
  .cons (by decide) ((h.escape (by decide)).append (.cons (by decide) .nil))

@[simp]
theorem isUtf8_rewrap : (rewrap t).IsUtf8 := by
  unfold rewrap
  split
  · simp [h]
  · split <;> simp [h]

@[simp]
theorem isUtf8_normaliseName : (normaliseName t).IsUtf8 := by
  have quoted {t : Text} (h : t.IsUtf8) : Text.IsUtf8 ('\''.toUInt8 :: t ++ ['\''.toUInt8]) :=
    .cons (by decide) (h.append (.cons (by decide) .nil))
  unfold normaliseName
  split
  · exact quoted h.braced
  · split
    · exact quoted h
    · exact h

theorem isUtf8_exportInitial : (exportInitial t).IsUtf8 := by
  simp only [exportInitial]
  split
  case isTrue => simp
  case isFalse =>
    split
    case isFalse => exact h
    case isTrue hb =>
      simp only [startsWith, Bool.and_eq_true, beq_iff_eq] at hb
      cases t
      case nil => simp at hb
      case cons b t _ =>
        simp only [List.head?_cons, Option.some.injEq, List.getLast?_cons] at hb
        have ht := h.tail (hb.left ▸ by decide)
        cases hl : t.getLast?
        case none => simp +decide [hl, hb.left] at hb
        case some c =>
          simp only [hl, Option.getD_some] at hb
          exact ht.dropLast hl (hb.right ▸ by decide)

theorem isUtf8_exportReference {binding : Text} {isStyle : Bool} (hb : binding.IsUtf8) :
    (exportReference binding isStyle t).IsUtf8 := by
  unfold exportReference
  split
  case h_1 quote hq =>
    have hq := ascii_of_leadingQuote? hq
    have hs : Text.IsUtf8 (if isStyle then Text.ofString ";" else []) := by
      cases isStyle <;> simp [Text.IsUtf8.nil]
    have hv := (h.dropTrailing hq).append (Text.isUtf8_ofString " ")
    exact (((hv.append hs).append hb.braced).append hs).append (.cons hq .nil)
  case h_2 => exact hb.braced

end

namespace Token

variable {k : Token} {naming : Export.Naming}

structure IsWhole (k : Token) : Prop where
  name : k.name.IsUtf8
  value : ∀ v ∈ k.value, v.raw.IsUtf8 ∧ ∃ rest, v.EndsBefore rest

theorem isUtf8_named {written : Text} (h : written.IsUtf8) : (named written).name.IsUtf8 := by
  unfold named
  split
  case h_1 name hn => exact h.after? (Text.ascii_of_all rfl) hn
  case h_2         => exact h

theorem Reads.isWhole {used rest : Text} (h : Reads used k rest)
    (ht : Text.IsUtf8 (used ++ rest)) : k.IsWhole := by
  have ⟨hu, _⟩ := h.isUtf8 ht
  cases h
  case bare hn hb hr h =>
    exact ⟨isUtf8_named hu, by simp [Token.bare]⟩
  case assigned name v hn hl hv =>
    have ⟨hname, hrest⟩ := hu.around (by decide)
    refine ⟨isUtf8_named hname, ?_⟩
    simp only [assigned_value, Option.mem_def, Option.some.injEq, forall_eq']
    exact ⟨hrest, _, hv⟩
  case escaped name v hn hv =>
    have ⟨hname, hrest⟩ := hu.around (by decide)
    refine ⟨hname, ?_⟩
    simp only [Token.escaped, Option.mem_def, Option.some.injEq, forall_eq']
    exact ⟨hrest.tail (by decide), _, hv⟩

theorem Scans.isWhole {ks : List Token} (h : Scans t ks) (ht : t.IsUtf8) : ∀ k ∈ ks, k.IsWhole :=
  fun k hk =>
    have ⟨_, _, hr, hu⟩ := h.exists_whole_reads ht k hk
    hr.isWhole hu

namespace IsWhole

theorem conditional? (h : k.IsWhole) {name : Text} (hn : k.conditional? = some name) :
    name.IsUtf8 :=
  h.name.after? (Text.ascii_of_all rfl) hn

theorem display (h : k.IsWhole) : k.display.IsUtf8 := by
  unfold Token.display
  split
  case h_2 => exact h.name
  case h_1 operator value _ hv =>
    have ho : operator.text.IsUtf8 := by cases operator <;> exact Text.isUtf8_ofString _
    exact (h.name.append ho).append (h.value _ hv).left

theorem exists_styleFragment (h : k.IsWhole) : ∃ f, k.styleFragment = .ok f ∧ f.IsUtf8 := by
  have ⟨value, hv, hu⟩ : ∃ value, k.styleValue = .ok value ∧ value.IsUtf8 := by
    unfold styleValue
    split
    case h_2 => exact ⟨[], rfl, .nil⟩
    case h_1 v hv =>
      have ⟨hr, _, he⟩ := h.value v hv
      split
      case isTrue  => exact he.exists_inner hr
      case isFalse => exact ⟨v.raw, rfl, hr⟩
  have hp : (k.conditional?.getD k.name).IsUtf8 := by
    cases hc : k.conditional?
    case none      => exact h.name
    case some name => exact h.conditional? hc
  refine ⟨_, by simp only [styleFragment, hv, bind, Except.bind, pure, Except.pure]; rfl, ?_⟩
  have hs := Text.isUtf8_ofString
  exact ((((hs ";").append hp).append (hs ": ")).append hu).append (hs ";")

theorem exists_classFragment (h : k.IsWhole) {name : Text} (hn : name.IsUtf8) :
    ∃ f, k.classFragment name = .ok f ∧ f.IsUtf8 := by
  have hs := Text.isUtf8_ofString
  have fragment {condition : Text} (hc : condition.IsUtf8) :
      Text.IsUtf8 (Text.ofString " " ++ Text.braced
        (condition ++ Text.ofString " ? ' " ++ name ++ Text.ofString "' : ''")) :=
    (hs " ").append (((hc.append (hs " ? ' ")).append hn).append (hs "' : ''")).braced
  cases hv : k.value
  case none =>
    refine ⟨_, ?_, fragment hn⟩
    simp only [classFragment, hv, bind, Except.bind, pure, Except.pure]
  case some v =>
    have ⟨hr, _, he⟩ := h.value v hv
    have ⟨inner, hi, hu⟩ := he.exists_inner hr
    refine ⟨_, ?_, fragment hu⟩
    simp only [classFragment, hv, hi, bind, Except.bind, pure, Except.pure]

theorem written? (h : k.IsWhole) : ∀ w ∈ k.written?, w.IsUtf8 := by
  intro w hw
  cases hv : k.value
  case none =>
    simp only [Token.written?, hv, Option.map_none, Option.none_or, Option.mem_def,
      Option.ite_none_right_eq_some, Option.some.injEq] at hw
    exact hw.right ▸ Text.isUtf8_ofString _
  case some v =>
    simp only [Token.written?, hv, Option.map_some, Option.some_or, Option.mem_def,
      Option.some.injEq] at hw
    exact hw ▸ (h.value v hv).left

theorem export? (h : k.IsWhole) : ∀ e ∈ k.export?, e.IsWhole := by
  intro e he
  simp only [Token.export?, Option.mem_def, Option.ite_none_right_eq_some, Option.some.injEq] at he
  rw [← he.right]
  refine ⟨isUtf8_normaliseName h.name, ?_⟩
  simp only [Option.mem_def, Option.map_eq_some_iff, forall_exists_index, and_imp]
  rintro _ w hw rfl
  exact isUtf8_exportInitial (h.written? w hw)

theorem expanded? (h : k.IsWhole) (hn : naming.IsWhole) : ∀ w ∈ k.expanded? naming, w.IsUtf8 := by
  have hb := hn.binding (isUtf8_normaliseName h.name)
  simp only [Token.expanded?, Option.mem_def, Option.map_eq_some_iff, forall_exists_index, and_imp]
  rintro _ w hw rfl
  refine isUtf8_rewrap ?_
  split at hw
  case isFalse => exact h.written? w hw
  case isTrue =>
    have ⟨w', hw', he⟩ := Option.map_eq_some_iff.mp hw
    exact he ▸ isUtf8_exportReference (h.written? w' hw') hb

theorem setting (h : k.IsWhole) (hn : naming.IsWhole) : (k.setting naming).IsUtf8 := by
  unfold Token.setting
  split
  case h_2 => exact isUtf8_normaliseName h.name
  case h_1 operator value _ hv =>
    have ho : operator.inverted.text.IsUtf8 := by cases operator <;> exact Text.isUtf8_ofString _
    exact ((isUtf8_normaliseName h.name).append ho).append (h.expanded? hn _ hv)

end IsWhole

end Token

namespace Directive

variable {d : Directive}

structure IsWhole (d : Directive) : Prop where
  value : ∀ t ∈ d.value, t.IsUtf8
  fragments : d.fragments.IsUtf8

theorem IsWhole.append (h : d.IsWhole) {f : Text} (hf : f.IsUtf8) : (d.append f).IsWhole :=
  ⟨h.value, h.fragments.append hf⟩

theorem IsWhole.consolidate (h : d.IsWhole) : d.consolidate.IsUtf8 := by
  have hv : (d.value.getD emptyLiteral).IsUtf8 := by
    cases he : d.value
    case none   => exact Text.isUtf8_ofString _
    case some v => exact h.value v he
  have literal {value : Text} {quote : UInt8} (hv : value.IsUtf8) (hq : quote < 0x80) :
      Text.IsUtf8 (Text.dropTrailing quote value ++ Text.ofString " " ++
        Text.escape quote d.fragments ++ [quote]) :=
    (((hv.dropTrailing hq).append (Text.isUtf8_ofString _)).append (h.fragments.escape hq)).append
      (.cons hq .nil)
  cases hq : leadingQuote? (d.value.getD emptyLiteral) <;> simp only [Directive.consolidate, hq]
  case none       => exact literal (isUtf8_templateLiteral hv.braced) (by decide)
  case some quote => exact literal hv (ascii_of_leadingQuote? hq)

theorem IsWhole.render (h : d.IsWhole) {name : Text} (hn : name.IsUtf8) :
    (d.render name).IsUtf8 := by
  unfold Directive.render
  have hs := Text.isUtf8_ofString
  split
  case isTrue  => exact (((hs " ").append hn).append (hs "!=")).append h.consolidate
  case isFalse => exact .nil

end Directive

namespace Expander

variable {r r' : Expander} {k : Token} {ks : List Token}

-- Everything that can become of the next attribute:
-- 1. one with `!=` is emitted as it is written
-- 2. a custom property, and behind `style` one with a colon, folds into `style`
-- 3. behind `class` one with a colon folds into `class`
-- 4. any other is taken as a setting
inductive Push (r : Expander) (k : Token) : Expander → Prop
  | verbatim (hv : k.verbatim = true) : Push r k (r.emit k.display)
  | style {f : Text} (hv : k.verbatim = false)
    (h : k.isCustomProperty = true ∨ r.styles.isOpen = true ∧ k.conditional?.isSome = true)
    (hf : k.styleFragment = .ok f) : Push r k { r with styles := r.styles.append f }
  | class {name f : Text} (hv : k.verbatim = false) (hp : k.isCustomProperty = false)
    (hs : r.styles.isOpen = false) (hn : k.conditional? = some name)
    (ho : r.classes.isOpen = true) (hf : k.classFragment name = .ok f) :
    Push r k { r with classes := r.classes.append f }
  | setting (hv : k.verbatim = false) (hp : k.isCustomProperty = false)
    (h : k.conditional? = none ∨ r.styles.isOpen = false ∧ r.classes.isOpen = false) :
    Push r k (r.pushSetting k)

theorem push_of_ok (h : r.push k = .ok r') : Push r k r' := by
  unfold push at h
  split at h
  case isTrue hv => exact Except.ok.inj h ▸ .verbatim hv
  case isFalse hv =>
    have hv : k.verbatim = false := by simpa using hv
    split at h
    case isTrue hs =>
      have hs : k.isCustomProperty = true ∨
        r.styles.isOpen = true ∧ k.conditional?.isSome = true := by simpa using hs
      cases hf : k.styleFragment
      case error => simp [hf, bind, Except.bind] at h
      case ok f =>
        simp only [hf, bind, Except.bind, pure, Except.pure, Except.ok.injEq] at h
        exact h ▸ .style hv hs hf
    case isFalse hs =>
      have hs : k.isCustomProperty = false ∧
        (r.styles.isOpen = true → k.conditional? = none) := by simpa using hs
      cases hn : k.conditional?
      case none =>
        simp only [hn, Except.ok.injEq] at h
        exact h ▸ .setting hv hs.left (.inl hn)
      case some name =>
        have ho : r.styles.isOpen = false := by simpa [hn] using hs.right
        simp only [hn] at h
        split at h
        case isFalse hc =>
          exact Except.ok.inj h ▸ .setting hv hs.left (.inr ⟨ho, by simpa using hc⟩)
        case isTrue hc =>
          cases hf : k.classFragment name
          case error => simp [hf, bind, Except.bind] at h
          case ok f =>
            simp only [hf, bind, Except.bind, pure, Except.pure, Except.ok.injEq] at h
            exact h ▸ .class hv hs.left ho hn hc hf

theorem exists_push_of_fragments (hs : ∃ f, k.styleFragment = .ok f)
    (hc : ∀ name ∈ k.conditional?, ∃ f, k.classFragment name = .ok f) :
    ∃ r', r.push k = .ok r' := by
  unfold push
  split
  case isTrue => exact ⟨_, rfl⟩
  case isFalse =>
    split
    case isTrue =>
      have ⟨f, hf⟩ := hs
      exact ⟨_, by rw [hf]; rfl⟩
    case isFalse =>
      split
      case h_2 => exact ⟨_, rfl⟩
      case h_1 name hn =>
        split
        case isFalse => exact ⟨_, rfl⟩
        case isTrue =>
          have ⟨f, hf⟩ := hc name hn
          exact ⟨_, by rw [hf]; rfl⟩

theorem exists_push (hk : k.IsWhole) : ∃ r', r.push k = .ok r' := by
  have ⟨f, hf, _⟩ := hk.exists_styleFragment
  apply exists_push_of_fragments ⟨f, hf⟩
  intro name hn
  have ⟨f, hf, _⟩ := hk.exists_classFragment (hk.conditional? hn)
  exact ⟨f, hf⟩

theorem exists_foldlM (h : ∀ k ∈ ks, k.IsWhole) : ∃ r', ks.foldlM push r = .ok r' := by
  induction ks generalizing r
  case nil => exact ⟨r, rfl⟩
  case cons k ks hi =>
    have ⟨r₁, h₁⟩ := exists_push (r := r) (h k (by simp))
    have ⟨r₂, h₂⟩ := hi (r := r₁) fun k hk => h k (by simp [hk])
    exact ⟨r₂, by simpa [List.foldlM_cons, h₁, bind, Except.bind] using h₂⟩

theorem foldlM_induction {P : Expander → Prop}
    (step : ∀ k ∈ ks, ∀ r r', Push r k r' → P r → P r') (h : ks.foldlM push r = .ok r')
    (hr : P r) : P r' := by
  induction ks generalizing r
  case nil => exact Except.ok.inj h ▸ hr
  case cons k ks hi =>
    cases hp : r.push k
    case error => simp [List.foldlM_cons, hp, bind, Except.bind] at h
    case ok r₁ =>
      refine hi (fun k hk => step k (by simp [hk])) ?_ (step k (by simp) r r₁ (push_of_ok hp) hr)
      simpa [List.foldlM_cons, hp, bind, Except.bind] using h

structure IsWhole (r : Expander) : Prop where
  naming : r.naming.IsWhole
  output : r.output.IsUtf8
  classes : r.classes.IsWhole
  styles : r.styles.IsWhole
  exports : ∀ e ∈ r.exports, e.IsWhole

namespace IsWhole

theorem emit (h : r.IsWhole) {t : Text} (ht : t.IsUtf8) : (r.emit t).IsWhole :=
  { h with output := (h.output.append (Text.isUtf8_ofString _)).append ht }

theorem pushSetting (h : r.IsWhole) (hk : k.IsWhole) : (r.pushSetting k).IsWhole := by
  have he : ∀ e ∈ r.exports ++ k.export?.toList, e.IsWhole := by
    intro e he
    rcases List.mem_append.mp he with he | he
    · exact h.exports e he
    · exact hk.export? e (by simpa using he)
  have hv := hk.expanded? h.naming
  unfold Expander.pushSetting
  split
  · exact { h with
      classes := ⟨hv, h.classes.fragments⟩
      styles := ⟨h.styles.value, h.styles.fragments⟩
      exports := he }
  · split
    · exact { h with
        classes := ⟨h.classes.value, h.classes.fragments⟩
        styles := ⟨hv, h.styles.fragments⟩
        exports := he }
    · have hr : IsWhole { r with
          classes := r.classes.close
          styles := r.styles.close
          exports := r.exports ++ k.export?.toList } :=
        ⟨h.naming, h.output, ⟨h.classes.value, h.classes.fragments⟩,
          ⟨h.styles.value, h.styles.fragments⟩, he⟩
      exact hr.emit (hk.setting h.naming)

theorem push (h : r.IsWhole) (hk : k.IsWhole) (hp : Push r k r') : r'.IsWhole := by
  cases hp
  case verbatim => exact h.emit hk.display
  case style f hv _ hf =>
    have ⟨f', hf', hu⟩ := hk.exists_styleFragment
    cases hf.symm.trans hf'
    exact { h with styles := h.styles.append hu }
  case «class» name f hv hp hs hn ho hf =>
    have ⟨f', hf', hu⟩ := hk.exists_classFragment (hk.conditional? hn)
    cases hf.symm.trans hf'
    exact { h with classes := h.classes.append hu }
  case setting => exact h.pushSetting hk

theorem finish (h : r.IsWhole) : r.finish.IsUtf8 :=
  (h.output.append (h.classes.render (Text.isUtf8_ofString _))).append
    (h.styles.render (Text.isUtf8_ofString _))

end IsWhole

end Expander

variable {ks : List Token} {naming : Export.Naming}

theorem exists_render (naming : Export.Naming) (h : ∀ k ∈ ks, k.IsWhole) :
    ∃ x, render naming ks = .ok x := by
  have ⟨r, hr⟩ := Expander.exists_foldlM (r := { naming }) h
  exact ⟨_, by simp only [render, hr, bind, Except.bind]; rfl⟩

theorem isWhole_render {x : Rendering} (h : ∀ k ∈ ks, k.IsWhole) (hn : naming.IsWhole)
    (hx : render naming ks = .ok x) : x.text.IsUtf8 ∧ ∀ e ∈ x.exports, e.IsWhole := by
  have ⟨r, hr⟩ := Expander.exists_foldlM (r := { naming }) h
  simp only [render, hr, bind, Except.bind, pure, Except.pure, Except.ok.injEq] at hx
  have start : Expander.IsWhole { naming } :=
    ⟨hn, .nil, ⟨by simp, .nil⟩, ⟨by simp, .nil⟩, by simp⟩
  have hw : r.IsWhole := Expander.foldlM_induction
    (fun k hk r r' hp hr => hr.push (h k hk) hp) hr start
  exact hx ▸ ⟨hw.finish, hw.exports⟩

theorem exists_expand {source : Text} (naming : Export.Naming) (h : source.IsUtf8) :
    ∃ x, expand naming source = .ok x ∧
      (naming.IsWhole → x.rendering.text.IsUtf8 ∧ ∀ e ∈ x.rendering.exports, e.IsWhole) := by
  have ⟨comments, hc, hd⟩ := Comment.exists_blocks h
  have hw := fun e (he : e ∈ Comment.deletions comments) => Comment.isUtf8_of_mem_deletions he
  have hu := hd.isUtf8_spliceFrom h hw
  have ⟨ks, hk⟩ := Token.exists_scans (Edit.spliceFrom source 0 (Comment.deletions comments))
  have ⟨x, hx⟩ := exists_render naming (hk.isWhole hu)
  refine ⟨⟨comments, ks, x⟩, ?_, fun hn => isWhole_render (hk.isWhole hu) hn hx⟩
  simp [expand, hc, hd.applyAll h hw, Token.scan_eq hk hu, hx, bind, Except.bind, pure, Except.pure]

theorem expand_cases {source : Text} {x : Expansion} (hs : source.IsUtf8)
    (h : expand naming source = .ok x) :
    ∃ stripped, Comment.strip source = .ok stripped ∧ stripped.IsUtf8 ∧
      Token.Scans stripped x.tokens ∧ render naming x.tokens = .ok x.rendering := by
  have ⟨comments, hc, hd⟩ := Comment.exists_blocks hs
  have ⟨stripped, hst, hu⟩ := Comment.exists_strip hs
  have ⟨ks, hk⟩ := Token.exists_scans stripped
  have ⟨rendering, hr⟩ := exists_render naming (hk.isWhole hu)
  have ha : Edit.applyAll (Comment.deletions comments) source = .ok stripped := by
    simpa [Comment.strip, hc, bind, Except.bind] using hst
  simp only [expand, hc, ha, Token.scan_eq hk hu, hr, bind, Except.bind, pure, Except.pure,
    Except.ok.injEq] at h
  exact ⟨stripped, hst, hu, h ▸ hk, h ▸ hr⟩

-- What the scans of an attribute list rely on: the rest of the text can be cut off in front of
-- what may be the mark of a comment, a value is searched for where its delimiter opens, and there
-- is room for an `=`, or for a `!=`, in front of a value.
structure Cuts (t : Text) : Prop where
  body : ∀ body ∈ Text.lineBodies t, t.isBoundary body = true
  opens : ∀ start, (Delimiter.ofOpening ((t.drop start).headD 0)).closing?.isSome →
    t[start]? = some ((t.drop start).headD 0)
  operator : ∀ pos a, Assignment.find t pos = .ok (some a) →
    (if a.verbatim then 2 else 1) ≤ a.span.start

theorem cuts (ht : t.IsUtf8) : Cuts t where
  body _ hb := ht.isBoundary_lineBodies hb
  opens start h := by
    cases hd : t.drop start
    case nil =>
      rw [hd] at h
      exact absurd h (by decide)
    case cons b rest => rw [← List.head?_drop, hd]; rfl
  operator pos a h := by
    rcases Assignment.exists_parts t pos with hn | ⟨name, v, rest, hd, hn, hv⟩
    case inl => simp [h] at hn
    case inr =>
      obtain rfl : Assignment.ofParts t pos name v = a := by
        simpa using (Assignment.find_eq hd hn hv).symm.trans h
      split
      case isTrue hb =>
        have := (of_decide_eq_true hb).left
        simp only [Assignment.ofParts]
        omega
      case isFalse => simp [Assignment.ofParts]

end Attribute

end PugShorthand
