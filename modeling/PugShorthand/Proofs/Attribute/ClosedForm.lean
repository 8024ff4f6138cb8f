import PugShorthand.Proofs.Attribute.Folding

namespace PugShorthand.Attribute

variable {k : Token} {ks : List Token} {naming : Export.Naming} {bind : Text → Text}

def Value.content (v : Value) : Text :=
  if v.delimiter = .bare ∨ v.raw.length < 2 then v.raw else v.raw.tail.dropLast

theorem Value.content_eq {v : Value} {t : Text} (h : v.inner = .ok t) : v.content = t := by
  simp only [Value.inner] at h
  split at h
  case isTrue hb => exact (if_pos hb).trans (Except.ok.inj h)
  case isFalse hb =>
    simp only [Text.slice] at h
    split at h
    case isFalse => contradiction
    case isTrue =>
      have ht := Except.ok.inj h
      simp only [Value.content, hb, if_false, ← ht, ← List.dropLast_eq_take, List.drop_one]
      exact List.tail_dropLast.symm

namespace Token

def isSetting (k : Token) : Bool :=
  !k.verbatim && !k.isCustomProperty && k.conditional?.isNone

-- What an attribute with a colon folds into behind others: the last setting among them decides.
def mode (before : List Token) : Target :=
  match (before.filter isSetting).getLast? with
  | none => .none
  | some k => if k.isClass then .classes else if k.isStyle then .styles else .none

def moded (ks : List Token) : List (Target × Token) :=
  ks.mapIdx fun i k => (mode (ks.take i), k)

def isTaken : Target × Token → Bool
  | (mode, k) => k.isSetting || (!k.verbatim && k.conditional?.isSome && mode == .none)

def foldsIntoClass : Target × Token → Bool
  | (mode, k) => !k.verbatim && k.conditional?.isSome && mode == .classes

def foldsIntoStyle : Target × Token → Bool
  | (mode, k) =>
    !k.verbatim && (k.isCustomProperty || (k.conditional?.isSome && mode == .styles))

def assignsStyle (k : Token) : Bool :=
  !k.verbatim && k.isStyle

def classPart (k : Token) : Text :=
  let name := k.name.tail
  let condition := (k.value.map Value.content).getD name
  Text.ofString " " ++ Text.braced
    (condition ++ Text.ofString " ? ' " ++ name ++ Text.ofString "' : ''")

def stylePart (k : Token) : Text :=
  let property := if k.isCustomProperty then k.name else k.name.tail
  let value := k.value.map fun v => if v.delimiter.isQuote then v.content else v.raw
  Text.ofString ";" ++ property ++ Text.ofString ": " ++ value.getD [] ++ Text.ofString ";"

def bound? (bind : Text → Text) (k : Token) : Option Text :=
  let reference := exportReference (bind (normaliseName k.name)) k.isStyle
  (if k.exported then k.written?.map reference else k.written?).map rewrap

def assignment (bind : Text → Text) (k : Token) : Text :=
  match k.operator, k.bound? bind with
  | some operator, some value => operator.inverted.text ++ value
  | _, _ => []

def emission (bind : Text → Text) : Target × Token → Text
  | (mode, k) =>
    if k.verbatim then Text.ofString " " ++ k.display
    else if isTaken (mode, k) && !k.isClass && !k.isStyle then
      Text.ofString " " ++ normaliseName k.name ++ k.assignment bind
    else []

def lastValue (bind : Text → Text) (p : Token → Bool) (ks : List Token) : Option Text :=
  (ks.filter p).getLast?.bind (bound? bind)

def classDirective (bind : Text → Text) (ks : List Token) : Directive where
  value := lastValue bind makesClass ks
  fragments := ((moded ks).filter foldsIntoClass).flatMap fun p => p.2.classPart

def styleDirective (bind : Text → Text) (ks : List Token) : Directive where
  value := lastValue bind assignsStyle ks
  fragments := ((moded ks).filter foldsIntoStyle).flatMap fun p => p.2.stylePart

def exports (ks : List Token) : List Export :=
  ((moded ks).filter isTaken).flatMap fun p => p.2.export?.toList

theorem moded_concat : moded (ks ++ [k]) = moded ks ++ [(mode ks, k)] := by
  have ht : ∀ i (h : i < ks.length), (ks ++ [k]).take i = ks.take i := fun i h =>
    List.take_append_of_le_length (Nat.le_of_lt h)
  apply List.ext_getElem
  case hl => simp [moded]
  case h =>
    intro i h₁ h₂
    by_cases hi : i < ks.length
    case pos => simp [moded, hi, ht i hi]
    case neg =>
      have : i = ks.length := by simp [moded] at h₁; omega
      simp [moded, this]

theorem mem_of_mem_moded {p : Target × Token} (h : p ∈ moded ks) : p.2 ∈ ks := by
  have ⟨i, hi, hp⟩ := List.mem_mapIdx.mp h
  exact hp ▸ List.getElem_mem hi

theorem exists_isTaken (h : k ∈ ks) (hs : k.isSetting = true) :
    ∃ mode, (mode, k) ∈ moded ks ∧ isTaken (mode, k) = true := by
  have ⟨i, hi, hk⟩ := List.mem_iff_getElem.mp h
  exact ⟨mode (ks.take i), List.mem_mapIdx.mpr ⟨i, hi, by rw [hk]⟩, by simp [isTaken, hs]⟩

theorem isSetting_of_makesClass (h : k.makesClass = true) : k.isSetting = true := by
  have ⟨hb, hk⟩ : k.verbatim = false ∧ k.isClass = true := by simpa [makesClass] using h
  obtain ⟨hp, hn, -⟩ := plain_of_isClass hk
  simp [isSetting, hb, hp, hn]

theorem isSetting_of_assignsStyle (h : k.assignsStyle = true) : k.isSetting = true := by
  have ⟨hb, hk⟩ : k.verbatim = false ∧ k.isStyle = true := by simpa [assignsStyle] using h
  have ⟨hp, hn, _⟩ := plain_of_isStyle hk
  simp [isSetting, hb, hp, hn]

theorem mode_concat : mode (ks ++ [k]) =
    if k.isSetting then if k.isClass then .classes else if k.isStyle then .styles else .none
    else mode ks := by
  cases h : k.isSetting <;> simp [mode, List.filter_append, h]

theorem lastValue_concat {p : Token → Bool} : lastValue bind p (ks ++ [k]) =
    if p k then k.bound? bind else lastValue bind p ks := by
  cases h : p k <;> simp [lastValue, List.filter_append, h]

theorem expanded?_eq : k.expanded? naming = k.bound? naming.binding :=
  rfl

theorem setting_eq : k.setting naming = normaliseName k.name ++ k.assignment naming.binding := by
  simp only [setting, assignment, expanded?_eq]
  cases k.operator <;> cases k.bound? naming.binding <;> simp

theorem flatMap_filter_concat {α β : Type} {p : α → Bool} {f : α → List β} {xs : List α} {x : α} :
    ((xs ++ [x]).filter p).flatMap f =
      (xs.filter p).flatMap f ++ if p x then f x else [] := by
  cases h : p x <;> simp [List.filter_append, h]

theorem conditional?_eq_none (h : k.isCustomProperty = true) : k.conditional? = none := by
  have ⟨name, hn⟩ := List.isPrefixOf_iff_prefix.mp h
  simp only [conditional?, ← hn]
  rfl

theorem not_directive (h : k.isCustomProperty = true ∨ k.conditional?.isSome = true) :
    k.isClass = false ∧ k.isStyle = false := by
  constructor <;> by_contra hc
  case left =>
    have ⟨hp, hn, _⟩ := plain_of_isClass (k := k) (by simpa using hc)
    simp [hp, hn] at h
  case right =>
    have ⟨hp, hn, _⟩ := plain_of_isStyle (k := k) (by simpa using hc)
    simp [hp, hn] at h

theorem tail_eq {name : Text} (h : k.conditional? = some name) : k.name.tail = name := by
  rw [Text.eq_of_after? h]
  rfl

theorem isCustomProperty_eq_false {name : Text} (h : k.conditional? = some name) :
    k.isCustomProperty = false := by
  cases hp : k.isCustomProperty
  case false => rfl
  case true  => simp [conditional?_eq_none hp] at h

section

variable (hv : ∀ v ∈ k.value, ∃ t, v.inner = .ok t)
include hv

theorem styleValue_eq : k.styleValue =
    .ok ((k.value.map fun v => if v.delimiter.isQuote then v.content else v.raw).getD []) := by
  cases hk : k.value
  case none => simp [styleValue, hk]
  case some v =>
    have ⟨t, ht⟩ := hv v hk
    cases hq : v.delimiter.isQuote <;> simp [styleValue, hk, hq, ht, Value.content_eq ht]

theorem styleFragment_eq (h : k.isCustomProperty = true ∨ k.conditional?.isSome = true) :
    k.styleFragment = .ok k.stylePart := by
  have hp : k.conditional?.getD k.name = if k.isCustomProperty then k.name else k.name.tail := by
    cases hc : k.conditional?
    case none      => simp_all
    case some name => simp [isCustomProperty_eq_false hc, tail_eq hc]
  simp [styleFragment, stylePart, hp, styleValue_eq hv, bind, Except.bind, pure, Except.pure]

theorem classFragment_eq {name : Text} (h : k.conditional? = some name) :
    k.classFragment name = .ok k.classPart := by
  cases hk : k.value
  case none =>
    simp [classFragment, classPart, hk, tail_eq h, bind, Except.bind, pure, Except.pure]
  case some v =>
    obtain ⟨t, ht⟩ := hv v hk
    simp [classFragment, classPart, hk, ht, tail_eq h, Value.content_eq ht, bind, Except.bind, pure,
      Except.pure]

end

end Token

open Token

namespace Expander

def after (naming : Export.Naming) (ks : List Token) : Expander where
  naming
  output := (moded ks).flatMap (emission naming.binding)
  classes := { classDirective naming.binding ks with isOpen := mode ks == .classes }
  styles := { styleDirective naming.binding ks with isOpen := mode ks == .styles }
  exports := Token.exports ks

theorem after_concat : after naming (ks ++ [k]) = {
    naming
    output := (after naming ks).output ++ emission naming.binding (mode ks, k)
    classes := {
      value := if k.makesClass then k.expanded? naming else (after naming ks).classes.value
      isOpen := mode (ks ++ [k]) == .classes
      fragments := (after naming ks).classes.fragments ++
        if foldsIntoClass (mode ks, k) then k.classPart else [] }
    styles := {
      value := if k.assignsStyle then k.expanded? naming else (after naming ks).styles.value
      isOpen := mode (ks ++ [k]) == .styles
      fragments := (after naming ks).styles.fragments ++
        if foldsIntoStyle (mode ks, k) then k.stylePart else [] }
    exports := Token.exports ks ++ if isTaken (mode ks, k) then k.export?.toList else [] } := by
  simp only [after, Token.exports, classDirective, styleDirective, moded_concat, lastValue_concat,
    flatMap_filter_concat, expanded?_eq, List.flatMap_append, List.flatMap_singleton]

theorem after_verbatim (hb : k.verbatim = true) :
    after naming (ks ++ [k]) = (after naming ks).emit k.display := by
  have hs : k.isSetting = false := by simp [isSetting, hb]
  rw [after_concat, mode_concat]
  simp [hs, hb, isTaken, foldsIntoClass, foldsIntoStyle, makesClass,
    assignsStyle, emission, emit, after, classDirective, styleDirective]

theorem after_style (h : foldsIntoStyle (mode ks, k) = true) :
    after naming (ks ++ [k]) =
      { after naming ks with styles := (after naming ks).styles.append k.stylePart } := by
  have ⟨hb, hf⟩ : k.verbatim = false ∧ (k.isCustomProperty = true ∨
      k.conditional?.isSome = true ∧ mode ks = .styles) := by simpa [foldsIntoStyle] using h
  have ⟨hc, hs⟩ := not_directive (hf.imp_right And.left)
  have hn : k.isSetting = false := by
    cases hf
    case inl hf => simp [isSetting, hf]
    case inr hf => simp [isSetting, ← Option.not_isSome, hf]
  have ht : foldsIntoClass (mode ks, k) = false ∧ isTaken (mode ks, k) = false := by
    cases hf
    case inl hf => simp [foldsIntoClass, isTaken, hn, conditional?_eq_none hf]
    case inr hf => simp [foldsIntoClass, isTaken, hn, hf]
  rw [after_concat, mode_concat]
  simp [hn, hb, hc, hs, ht, h, makesClass, assignsStyle, emission,
    Directive.append, after, classDirective, styleDirective]

theorem after_class (h : foldsIntoClass (mode ks, k) = true) :
    after naming (ks ++ [k]) =
      { after naming ks with classes := (after naming ks).classes.append k.classPart } := by
  have ⟨⟨hb, hk⟩, hm⟩ : (k.verbatim = false ∧ k.conditional?.isSome = true) ∧
      mode ks = .classes := by simpa [foldsIntoClass] using h
  have ⟨name, hname⟩ := Option.isSome_iff_exists.mp hk
  have hp := isCustomProperty_eq_false hname
  have ⟨hc, hs⟩ := not_directive (.inr hk)
  have hn : k.isSetting = false := by simp [isSetting, hname]
  rw [after_concat, mode_concat]
  simp [hn, hb, hc, hs, hp, hm, hname, makesClass, assignsStyle, emission, foldsIntoClass,
    foldsIntoStyle, isTaken, Directive.append, after, classDirective, styleDirective]

theorem after_setting (h : isTaken (mode ks, k) = true) :
    after naming (ks ++ [k]) = (after naming ks).pushSetting k := by
  have ⟨hb, hm⟩ : k.verbatim = false ∧ (k.isSetting = true ∨
      k.conditional?.isSome = true ∧ mode ks = .none) := by
    cases hb : k.verbatim
    case true  => simp [isTaken, isSetting, hb] at h
    case false => simpa [isTaken, hb] using h
  have ⟨hs, hc⟩ : foldsIntoStyle (mode ks, k) = false ∧ foldsIntoClass (mode ks, k) = false := by
    cases hm
    case inl hm =>
      simp only [isSetting, Bool.and_eq_true, Bool.not_eq_true'] at hm
      simp_all [foldsIntoStyle, foldsIntoClass]
    case inr hm =>
      have ⟨name, hn⟩ := Option.isSome_iff_exists.mp hm.left
      simp [foldsIntoStyle, foldsIntoClass, hm, isCustomProperty_eq_false hn]
  have ho : mode (ks ++ [k]) =
      if k.isClass then .classes else if k.isStyle then .styles else .none := by
    cases hm
    case inl hm => rw [mode_concat, if_pos hm]
    case inr hm =>
      have ⟨hc, hs⟩ := not_directive (.inr hm.left)
      have hn : k.isSetting = false := by simp [isSetting, ← Option.not_isSome, hm]
      simp [mode_concat, hn, hc, hs, hm]
  rw [after_concat, ho]
  cases hcl : k.isClass
  case true =>
    have ⟨_, _, hst⟩ := plain_of_isClass hcl
    simp [h, hb, hs, hc, hcl, hst, makesClass, assignsStyle, emission, pushSetting, after,
      classDirective, styleDirective, Directive.close, Directive.assign]
  case false =>
    cases hst : k.isStyle <;>
      simp [h, hb, hs, hc, hcl, hst, makesClass, assignsStyle, emission, pushSetting, after,
        classDirective, styleDirective, Directive.close, Directive.assign, emit, setting_eq]

theorem Push.eq_after {r : Expander} (hv : ∀ v ∈ k.value, ∃ t, v.inner = .ok t)
    (hp : Push (after naming ks) k r) : r = after naming (ks ++ [k]) := by
  cases hp
  case verbatim hb => exact (after_verbatim hb).symm
  case style f hb hc hf =>
    have hm : k.isCustomProperty = true ∨ k.conditional?.isSome = true ∧ mode ks = .styles := by
      simpa [after, styleDirective, and_comm] using hc
    rw [styleFragment_eq hv (hm.imp_right And.left), Except.ok.injEq] at hf
    rw [← hf, after_style (by simpa [foldsIntoStyle, hb] using hm)]
  case «class» name f hb hp hs hn ho hf =>
    have hm : mode ks = .classes := by simpa [after, classDirective] using ho
    rw [classFragment_eq hv hn, Except.ok.injEq] at hf
    rw [← hf, after_class (by simp [foldsIntoClass, hb, hn, hm])]
  case setting hb hp hc =>
    refine (after_setting ?_).symm
    cases hc
    case inl hc => simp [isTaken, isSetting, hb, hp, hc]
    case inr hc =>
      have hm : mode ks = .none := by
        simp [after, classDirective, styleDirective] at hc
        cases h : mode ks <;> simp_all
      cases hn : k.conditional? <;> simp [isTaken, isSetting, hb, hp, hn, hm]

theorem push_after (hv : ∀ v ∈ k.value, ∃ t, v.inner = .ok t) :
    (after naming ks).push k = .ok (after naming (ks ++ [k])) := by
  have hs : ∃ f, k.styleFragment = .ok f := by
    simp [styleFragment, styleValue_eq hv, bind, Except.bind, pure, Except.pure]
  obtain ⟨r, hr⟩ := exists_push_of_fragments (r := after naming ks) hs
    fun _ hn => ⟨_, classFragment_eq hv hn⟩
  rw [hr, (push_of_ok hr).eq_after hv]

theorem foldlM_eq_after (h : ∀ k ∈ ks, ∀ v ∈ k.value, ∃ t, v.inner = .ok t) :
    ks.foldlM push { naming } = .ok (after naming ks) := by
  induction ks using List.reverseRecOn
  case nil => rfl
  case append_singleton ks k hi =>
    rw [List.foldlM_append, hi fun k hk => h k (by simp [hk])]
    have hp : (after naming ks).push k = _ := push_after (h k (by simp))
    simp [bind, Except.bind, hp]
    rfl

end Expander

theorem isSome_lastValue {p : Token → Bool} (naming : Export.Naming) (ks : List Token)
    (h : ∀ k, p k = true → k.isClass = true ∨ k.isStyle = true) :
    (lastValue naming.binding p ks).isSome = ks.any p := by
  induction ks using List.reverseRecOn
  case nil => rfl
  case append_singleton ks k hi =>
    rw [lastValue_concat, List.any_append, ← hi, ← expanded?_eq]
    cases hp : p k
    case false => simp [hp]
    case true  => simp [hp, isSome_expanded?_of_directive naming (h k hp)]

theorem isEmpty_flatMap_filter {α : Type} {p : α → Bool} {f : α → Text} (h : ∀ x, f x ≠ [])
    (xs : List α) : (!((xs.filter p).flatMap f).isEmpty) = xs.any p := by
  induction xs
  case nil => rfl
  case cons x xs hi => cases hp : p x <;> simp_all

theorem isUsed_classDirective (naming : Export.Naming) (ks : List Token) :
    (classDirective naming.binding ks).isUsed =
      (ks.any makesClass || (moded ks).any foldsIntoClass) := by
  have hv := @isSome_lastValue makesClass naming ks fun k hk => .inl (by simp_all [makesClass])
  have hf : ∀ p : Target × Token, p.2.classPart ≠ [] := fun p => by simp [classPart, Text.braced]
  rw [Directive.isUsed, classDirective, hv, isEmpty_flatMap_filter hf]

theorem isUsed_styleDirective (naming : Export.Naming) (ks : List Token) :
    (styleDirective naming.binding ks).isUsed =
      (ks.any assignsStyle || (moded ks).any foldsIntoStyle) := by
  have hv := @isSome_lastValue assignsStyle naming ks fun k hk => .inr (by simp_all [assignsStyle])
  have hf : ∀ p : Target × Token, p.2.stylePart ≠ [] := fun p => by
    have : Text.ofString ";" ≠ [] := by decide
    simp [stylePart, this]
  rw [Directive.isUsed, styleDirective, hv, isEmpty_flatMap_filter hf]

-- The expanded form of a list, all at once: what is verbatim or taken as a setting is emitted in
-- its order, and behind that stand a `class` and a `style` if there is something to put into them,
-- each with its last value and all that folds into it.
def closedForm (bind : Text → Text) (ks : List Token) : Text :=
  (moded ks).flatMap (emission bind)
    ++ (if ks.any makesClass || (moded ks).any foldsIntoClass then
      Text.ofString " class!=" ++ (classDirective bind ks).consolidate else [])
    ++ (if ks.any assignsStyle || (moded ks).any foldsIntoStyle then
      Text.ofString " style!=" ++ (styleDirective bind ks).consolidate else [])

theorem render_eq (h : ∀ k ∈ ks, ∀ v ∈ k.value, ∃ t, v.inner = .ok t) :
    render naming ks = .ok ⟨closedForm naming.binding ks, exports ks⟩ := by
  rw [render, Expander.foldlM_eq_after h, closedForm, ← isUsed_classDirective,
    ← isUsed_styleDirective]
  rfl

-- Taking in attribute after attribute comes to the same as looking at all of them at once.
theorem render_eq_closedForm (naming : Export.Naming) (table : Export.Table)
    (h : ∀ k ∈ ks, ∀ v ∈ k.value, ∃ t, v.inner = .ok t) :
    (render naming ks).map (fun x => (x.text, table.insertAll x.exports)) =
      .ok (closedForm naming.binding ks, table.insertAll (exports ks)) := by
  rw [render_eq h]
  rfl

theorem render_eq_closedForm_of_mixed :
    let ks : List Token := [
      .bare (.ofString ":a"),
      .assigned (.ofString "class") ⟨.ofString "'b'", .single⟩,
      .assigned (.ofString "--c") ⟨.ofString "1", .bare⟩,
      .assigned (.ofString ":d") ⟨.ofString "[e]", .bracket⟩,
      .escaped (.ofString "f") ⟨.ofString "g", .bare⟩,
      .bare (.ofString "style"),
      .assigned (.ofString ":h") ⟨.ofString "\"i\"", .double⟩,
      .assigned (.ofString "export:j") ⟨.ofString "2", .bare⟩,
      .bare (.ofString ":k")]
    let table : Export.Table := ⟨[⟨.ofString "j", none⟩]⟩
    (∀ k ∈ ks, ∀ v ∈ k.value, ∃ t, v.inner = .ok t) ∧
      (render {} ks).map (fun x => (x.text, table.insertAll x.exports)) = .ok (
        .ofString (" :a f!=g j!=`\x7b__export_j__\x7d` :k" ++
          " class!='b  \x7be ? \\' d\\' : \\'\\'\x7d' style!=' ;--c: 1;;h: i;'"),
        ⟨[⟨.ofString "j", some (.ofString "2")⟩]⟩) := by
  intro ks table
  have h : ∀ k ∈ ks, ∀ v ∈ k.value, ∃ t, v.inner = .ok t := by
    have he : ∀ k ∈ ks, ∀ v ∈ k.value, v.inner = .ok v.content := by decide +kernel
    exact fun k hk v hv => ⟨_, he k hk v hv⟩
  refine ⟨h, (render_eq_closedForm {} table h).trans ?_⟩
  decide +kernel

end PugShorthand.Attribute
