import PugShorthand.Proofs.Attribute.Folding

namespace PugShorthand

structure Export.Naming.IsIdentifier (n : Export.Naming) : Prop where
  before : ∀ b ∈ n.before, Text.isIdentifierByte b = true
  after : ∀ b ∈ n.after, Text.isIdentifierByte b = true

theorem ascii_of_isIdentifierByte {b : UInt8} : Text.isIdentifierByte b = true → b < 0x80 :=
  Text.forall_byte (p := fun b => Text.isIdentifierByte b = true → b < 0x80) (by decide +kernel) b

theorem Export.Naming.IsIdentifier.isWhole {n : Export.Naming} (h : n.IsIdentifier) :
    n.IsWhole where
  before := .of_ascii fun b hb => ascii_of_isIdentifierByte (h.before b hb)
  after := .of_ascii fun b hb => ascii_of_isIdentifierByte (h.after b hb)

namespace Attribute

namespace Token

variable {used rest name written : Text} {k : Token} {ks : List Token} {naming : Export.Naming}
variable {target : Target}

-- What can be written and read again: a name without a value is no assignment, and an exported name
-- is the name of a variable.
structure IsReadable (k : Token) : Prop where
  bare : k.value = none → '='.toUInt8 ∉ k.name
  exported : k.exported = true → k.name ≠ [] ∧ ∀ b ∈ k.name, Text.isIdentifierByte b = true

def readBack (naming : Export.Naming) (k : Token) : Token :=
  if k.verbatim then k
  else
    match k.expanded? naming with
    | some value => .escaped (normaliseName k.name) (.ofText value)
    | none => { name := normaliseName k.name }

inductive IsExpanded : Token → Prop
  | verbatim {k : Token} (hv : k.verbatim = true) : IsExpanded k
  | bare {name : Text} (hn : normaliseName name = name)
    (hp : isCustomProperty { name } = false) (hc : isClass { name } = false)
    (hs : isStyle { name } = false) : IsExpanded { name }

def listing (ks : List Token) : Text :=
  ks.flatMap fun k => Text.ofString " " ++ k.display

def Settles (k : Token) : Prop :=
  ∀ rest : Text, (∀ b ∈ rest.head?, Text.isBlank b = true) → Reads k.display k rest

theorem scans_listing (h : ∀ k ∈ ks, k.Settles) : Scans (listing ks) ks := by
  induction ks
  case nil => exact .nil
  case cons k ks hi =>
    have hb : ∀ b ∈ (listing ks).head?, Text.isBlank b = true := by
      cases ks
      case nil => simp [listing]
      case cons k' ks' =>
        have hs : (listing (k' :: ks')).head? = some ' '.toUInt8 := rfl
        rw [hs]
        intro b hb
        cases hb
        decide
    have hr := h k (by simp) (listing ks) hb
    exact .blank (by decide) (.token hr (hi fun k hk => h k (by simp [hk])))

theorem Scans.exists_reads {t : Text} (h : Scans t ks) :
    ∀ k ∈ ks, ∃ used rest, Reads used k rest := by
  induction h
  case nil           => simp
  case blank hi      => exact hi
  case token hk _ hi => simpa using ⟨⟨_, _, hk⟩, hi⟩

theorem settles_escaped {t : Text} (hn : Assignment.IsName name) (hv : Settled t) :
    (escaped name (.ofText t)).Settles := by
  intro rest hr
  have hd : (escaped name (.ofText t)).display =
      name ++ '!'.toUInt8 :: '='.toUInt8 :: (Value.ofText t).raw :=
    List.append_assoc _ _ _
  exact hd ▸ .escaped hn (hv.endsBefore hr)

theorem settled_expanded? (hk : k.IsReadable) (hw : k.IsWhole) (hn : naming.IsIdentifier) :
    ∀ t ∈ k.expanded? naming, Settled t := by
  refine settled_expanded?_of_unquoted hw fun he quote hq hm => ?_
  obtain ⟨_, hi⟩ := hk.exported he
  have hplain : Text.isIdentifierByte quote = true := by
    rw [normaliseName_of_identifier hi] at hm
    simp only [Export.Naming.binding, List.mem_append] at hm
    rcases hm with (hm | hm) | hm
    · exact hn.before quote hm
    · exact hi quote hm
    · exact hn.after quote hm
  simp [(not_plain_of_isQuote quote hq).left] at hplain

theorem bare_eq (h : Text.after? exportMark name = none) : bare name = { name } := by
  rw [bare, named, h]

theorem named_of_not_exported (h : (named written).exported = false) :
    Text.after? exportMark written = none ∧ (named written).name = written := by
  unfold named at h ⊢
  cases hm : Text.after? exportMark written <;> simp [hm] at h ⊢

theorem exportMark_of_identifier (h : ∀ b ∈ name, Text.isIdentifierByte b = true) :
    Text.after? exportMark name = none := by
  cases hm : Text.after? exportMark name
  case none => rfl
  case some t =>
    have hc := h ':'.toUInt8 (Text.eq_of_after? hm ▸ List.mem_append_left _ (by decide))
    exact absurd hc (by decide)

theorem exportMark_normaliseName (h : Text.after? exportMark name = none) :
    Text.after? exportMark (normaliseName name) = none := by
  rcases normaliseName_cases name with hn | ⟨t, hn⟩
  · rw [hn, h]
  · cases hm : Text.after? exportMark (normaliseName name)
    case none => rfl
    case some t' =>
      rw [hn] at hm
      have he : some '\''.toUInt8 = some 'e'.toUInt8 := congrArg List.head? (Text.eq_of_after? hm)
      exact absurd he (by decide)

theorem settles_bare (hn : Assignment.IsName name) (hne : name ≠ [])
    (he : Text.after? exportMark name = none) : Settles { name := normaliseName name } := by
  intro rest hr
  have hn := isName_normaliseName hn
  rw [← bare_eq (exportMark_normaliseName he)]
  have hd : (bare (normaliseName name)).display = normaliseName name := by
    rw [bare_eq (exportMark_normaliseName he)]
    rfl
  rw [hd]
  exact .bare (normaliseName_ne_nil hne) (fun b hb => (hn b hb).right) hr
    (Assignment.unassigned_of_isName hn hr)

theorem settles_readBack (h : Reads used k rest) (hk : k.IsReadable) (hw : k.IsWhole)
    (hn : naming.IsIdentifier) (hf : k.isFolded target = false) : (k.readBack naming).Settles := by
  have hs := settled_expanded? hk hw hn
  cases h
  case escaped name v hname hv =>
    have := settles_escaped hname hv.settled
    rwa [hv.ofText_eq] at this
  case assigned name v hname hl hv =>
    have hname : Assignment.IsName (named name).name := fun b hb => hname b (mem_named hb)
    obtain ⟨t, ht⟩ : ∃ t, (assigned name v).expanded? naming = some t := by
      rw [← Option.isSome_iff_exists, isSome_expanded?]
      exact isSome_written? (.inl (by simp))
    have hr : (assigned name v).readBack naming =
        escaped (normaliseName (named name).name) (.ofText t) := by
      rw [readBack, assigned_verbatim, ht]
      rfl
    exact hr ▸ settles_escaped (isName_normaliseName hname) (hs t ht)
  case bare hne hb hr h =>
    rw [bare] at hk hf ⊢
    obtain ⟨_, _, hc, hst⟩ := (isFolded_eq_false_iff named_verbatim).mp hf
    have hx : (named used).expanded? naming = none := by
      rw [← Option.not_isSome_iff_eq_none, isSome_expanded?]
      simp [written?, hc, hst]
    have hr : (named used).readBack naming = { name := normaliseName (named used).name } := by
      simp [readBack, hx]
    have hname : Assignment.IsName (named used).name := fun b hm =>
      ⟨fun he => hk.bare named_value (he ▸ hm), hb b (mem_named hm)⟩
    rw [hr]
    cases he : (named used).exported
    case true =>
      obtain ⟨hne, hi⟩ := hk.exported he
      exact settles_bare hname hne (exportMark_of_identifier hi)
    case false =>
      obtain ⟨hm, hu⟩ := named_of_not_exported he
      exact settles_bare hname (by rwa [hu]) (by rwa [hu])

theorem isExpanded_readBack (hf : k.isFolded target = false) : (k.readBack naming).IsExpanded := by
  rw [readBack]
  split
  case isTrue hv => exact .verbatim hv
  case isFalse hv =>
    have ⟨hp, _, hc, hs⟩ := (isFolded_eq_false_iff (by simpa using hv)).mp hf
    split
    case h_1 => exact .verbatim rfl
    case h_2 =>
      rcases normaliseName_cases k.name with h | ⟨t, h⟩
      · rw [h]
        exact .bare h hp hc hs
      · refine .bare normaliseName_normaliseName ?_ ?_ ?_ <;> rw [h] <;> rfl

theorem Reads.operator_eq (h : Reads used k rest) (hv : k.verbatim = false) :
    k.operator = k.value.map fun _ => .assign := by
  cases h
  case bare     => simp [Token.bare]
  case assigned => rfl
  case escaped  => simp [Token.escaped] at hv

theorem Reads.setting_eq (h : Reads used k rest) (hv : k.verbatim = false)
    (hf : k.isFolded target = false) : k.setting naming = (k.readBack naming).display := by
  obtain ⟨_, _, hc, hst⟩ := (isFolded_eq_false_iff hv).mp hf
  have ho := h.operator_eq hv
  have hx := isSome_expanded? k naming
  cases hval : k.value
  case none =>
    have hx : k.expanded? naming = none := by simpa [written?, hval, hc, hst] using hx
    simp [setting, readBack, hv, hx, display, ho, hval]
  case some v =>
    obtain ⟨t, ht⟩ : ∃ t, k.expanded? naming = some t := by
      simpa [written?, hval, Option.isSome_iff_exists] using hx
    simp [setting, readBack, hv, ht, display, ho, hval, Token.escaped,
      Operator.inverted, Value.ofText]

end Token

namespace Expander

open Token

variable {r r' : Expander} {k : Token} {ks : List Token} {naming : Export.Naming}
variable {used rest : Text} {target : Target}

theorem Push.output (hp : Push r k r') (h : Tracks target r) (hk : Reads used k rest) :
    r'.output = r.output ++
      listing (if k.isFolded target then [] else [k.readBack r.naming]) := by
  cases hp
  case verbatim hv => simp [isFolded, hv, readBack, listing, Expander.emit]
  case style f hv hc hf =>
    have : k.isFolded target = true := by
      rcases hc with hc | ⟨ho, hc⟩
      · simp [isFolded, hv, hc]
      · simp [isFolded, hv, hc, h.styles.mp ho]
    simp [this, listing]
  case «class» name f hv hp hs hn ho hf =>
    have : k.isFolded target = true := by simp [isFolded, hv, hn, h.classes.mp ho]
    simp [this, listing]
  case setting hv hp hc =>
    rw [Expander.pushSetting]
    split
    case isTrue hcl => simp [isFolded, hv, hcl, listing]
    case isFalse hcl =>
      split
      case isTrue hst => simp [isFolded, hv, hst, listing]
      case isFalse hst =>
        have hf : k.isFolded target = false := by
          refine (isFolded_eq_false_iff hv).mpr
            ⟨hp, fun hs => ?_, by simpa using hcl, by simpa using hst⟩
          rcases hc with hc | hc
          · simp [hc] at hs
          · exact h.closed_iff.mp hc
        simp [hf, listing, Expander.emit, hk.setting_eq hv hf]

structure Follows (target : Target) (ks : List Token) (r r' : Expander) : Prop where
  naming : r'.naming = r.naming
  output : r'.output = r.output ++ listing ((settings target ks).map (readBack r.naming))
  classes : r'.classes.isUsed = (r.classes.isUsed || ks.any makesClass)
  styles : r'.styles.isUsed = (r.styles.isUsed || ks.any makesStyle)

theorem follows_of_foldlM (h : ks.foldlM push r = .ok r') (ht : Tracks target r)
    (hk : ∀ k ∈ ks, ∃ used rest, Reads used k rest) : Follows target ks r r' := by
  induction ks generalizing r target
  case nil =>
    cases h
    exact ⟨rfl, by simp [settings, listing], by simp, by simp⟩
  case cons k ks hi =>
    cases hp : r.push k
    case error => simp [List.foldlM_cons, hp, bind, Except.bind] at h
    case ok r₁ =>
      obtain ⟨used, rest, hr⟩ := hk k (by simp)
      have h' : ks.foldlM push r₁ = .ok r' := by
        simpa [List.foldlM_cons, hp, bind, Except.bind] using h
      have hp := push_of_ok hp
      obtain ⟨hcl, hst⟩ := hp.isUsed ht
      have hf := hi h' (hp.tracks ht) fun k hk' => hk k (by simp [hk'])
      refine ⟨hf.naming.trans hp.naming_eq, ?_, ?_, ?_⟩
      · rw [hf.output, hp.output ht hr, hp.naming_eq, settings]
        split <;> simp [listing]
      · rw [hf.classes, hcl, List.any_cons, Bool.or_assoc]
      · rw [hf.styles, hst, List.any_cons, Bool.or_assoc]

structure IsSettled (naming : Export.Naming) (r : Expander) : Prop where
  naming : r.naming = naming
  classes : r.classes.IsSettled
  styles : r.styles.IsSettled

theorem Push.isSettled (hp : Push r k r') (hk : k.IsReadable) (hw : k.IsWhole)
    (hn : naming.IsIdentifier) (h : IsSettled naming r) : IsSettled naming r' := by
  have hx := h.naming ▸ settled_expanded? hk hw hn
  cases hp
  case verbatim => exact ⟨h.naming, h.classes, h.styles⟩
  case style f hv hc hf =>
    exact ⟨h.naming, h.classes, h.styles.append (getLast?_styleFragment hf) (by decide)⟩
  case «class» name f hv hp hs hn ho hf =>
    exact ⟨h.naming, h.classes.append (getLast?_classFragment hf) (by decide), h.styles⟩
  case setting =>
    have hcl : r.classes.close.IsSettled := ⟨h.classes.value, h.classes.fragments⟩
    have hst : r.styles.close.IsSettled := ⟨h.styles.value, h.styles.fragments⟩
    rw [Expander.pushSetting]
    repeat' split
    · exact ⟨h.naming, ⟨hx, h.classes.fragments⟩, hst⟩
    · exact ⟨h.naming, hcl, ⟨hx, h.styles.fragments⟩⟩
    · exact ⟨h.naming, hcl, hst⟩

theorem push_eq_emit (h : k.IsExpanded) (hc : r.classes.isOpen = false)
    (hs : r.styles.isOpen = false) : r.push k = .ok (r.emit k.display) := by
  cases h
  case verbatim hv => rw [push, if_pos hv]
  case bare name hn hp hcl hst =>
    have close {d : Directive} (h : d.isOpen = false) : d.close = d := by
      rw [Directive.close, ← h]
    have hset : r.pushSetting { name } = r.emit name := by
      simp [pushSetting, hcl, hst, close hc, close hs, export?, setting, hn]
    simp only [push, hp, hs, hc, Bool.false_and, Bool.or_self, Bool.false_eq_true, if_false]
    split <;> exact congrArg Except.ok hset

theorem foldlM_eq_listing (h : ∀ k ∈ ks, k.IsExpanded) (hc : r.classes.isOpen = false)
    (hs : r.styles.isOpen = false) :
    ks.foldlM push r = .ok { r with output := r.output ++ listing ks } := by
  induction ks generalizing r
  case nil => simp [listing, pure, Except.pure]
  case cons k ks hi =>
    have hr := hi (r := r.emit k.display) (fun k hk => h k (by simp [hk])) hc hs
    rw [List.foldlM_cons, push_eq_emit (h k (by simp)) hc hs]
    exact hr.trans (by simp [emit, listing])

end Expander

theorem render_eq_listing {ks : List Token} {naming : Export.Naming}
    (h : ∀ k ∈ ks, k.IsExpanded) : render naming ks = .ok ⟨Token.listing ks, []⟩ := by
  rw [render, Expander.foldlM_eq_listing h rfl rfl]
  simp [bind, Except.bind, pure, Except.pure, Expander.finish, Directive.render, Directive.isUsed]

def Expander.tokens (r : Expander) (ks : List Token) : List Token :=
  (Token.settings .none ks).map (Token.readBack r.naming)
    ++ (if ks.any Token.makesClass then
      [.escaped (Text.ofString "class") (.ofText r.classes.consolidate)] else [])
    ++ (if ks.any Token.makesStyle then
      [.escaped (Text.ofString "style") (.ofText r.styles.consolidate)] else [])

section

variable {text : Text} {ks : List Token} {naming : Export.Naming} {r : Expander}

theorem finish_eq_listing (h : Expander.Follows .none ks { naming } r) :
    r.finish = Token.listing (r.tokens ks) := by
  have directive {d : Directive} {name : Text} {p : Token → Bool} (hd : d.isUsed = ks.any p) :
      d.render name = Token.listing
        (if ks.any p then [.escaped name (.ofText d.consolidate)] else []) := by
    rw [Directive.render, hd]
    split
    case isTrue  => simp [Token.listing, Token.display, Token.escaped, Operator.text, Value.ofText]
    case isFalse => rfl
  rw [Expander.finish, h.output, directive (p := Token.makesClass) h.classes,
    directive (p := Token.makesStyle) h.styles]
  simp [Expander.tokens, Token.listing, h.naming]

theorem mem_tokens {k : Token} (h : k ∈ r.tokens ks) :
    (∃ k' ∈ ks, ∃ target, k'.isFolded target = false ∧ k'.readBack r.naming = k) ∨
      k = .escaped (Text.ofString "class") (.ofText r.classes.consolidate) ∨
      k = .escaped (Text.ofString "style") (.ofText r.styles.consolidate) := by
  rw [Expander.tokens, List.mem_append, List.mem_append] at h
  rcases h with (h | h) | h
  · obtain ⟨k', hm, rfl⟩ := List.mem_map.mp h
    have ⟨hk, target, hf⟩ := Token.mem_settings hm
    exact .inl ⟨k', hk, target, hf, rfl⟩
  · exact .inr (.inl (by simpa using (List.mem_ite_nil_right.mp h).right))
  · exact .inr (.inr (by simpa using (List.mem_ite_nil_right.mp h).right))

theorem settles_of_mem_tokens {k : Token} (hk : ∀ k ∈ ks, k.IsReadable) (hw : ∀ k ∈ ks, k.IsWhole)
    (hr : ∀ k ∈ ks, ∃ used rest, Token.Reads used k rest) (hn : naming.IsIdentifier)
    (hs : r.IsSettled naming) (hm : k ∈ r.tokens ks) : k.Settles := by
  rcases mem_tokens hm with ⟨k', hm', target, hf, rfl⟩ | rfl | rfl
  · have ⟨used, rest, h⟩ := hr k' hm'
    exact Token.settles_readBack h (hk k' hm') (hw k' hm') (hs.naming ▸ hn) hf
  · exact Token.settles_escaped (isName_of_all rfl)
      (settled_consolidate hs.classes.value hs.classes.fragments)
  · exact Token.settles_escaped (isName_of_all rfl)
      (settled_consolidate hs.styles.value hs.styles.fragments)

theorem isExpanded_of_mem_tokens {k : Token} (hm : k ∈ r.tokens ks) : k.IsExpanded := by
  rcases mem_tokens hm with ⟨k', _, target, hf, rfl⟩ | rfl | rfl
  · exact Token.isExpanded_readBack hf
  · exact .verbatim rfl
  · exact .verbatim rfl

-- The expanded form of a list is read as it was meant: the attributes that fold into nothing in
-- their order, and behind them a `class` and a `style` if there is one. What is read is expanded
-- already, so expanding it once more changes neither the text nor any table of exports.
theorem render_reads_back (ht : text.IsUtf8) (hs : Token.scan text = .ok ks)
    (hk : ∀ k ∈ ks, k.IsReadable) (hn : naming.IsIdentifier) :
    ∃ r, ks.foldlM Expander.push { naming } = .ok r ∧
      render naming ks = .ok ⟨r.finish, r.exports⟩ ∧
      r.classes.isUsed = ks.any Token.makesClass ∧ r.styles.isUsed = ks.any Token.makesStyle ∧
      Token.scan r.finish = .ok (r.tokens ks) ∧
      ∀ (naming' : Export.Naming) (table : Export.Table),
        ∃ x, (Token.scan r.finish >>= render naming') = .ok x ∧ x.text = r.finish ∧
          table.insertAll x.exports = table := by
  have scans := (Token.scan_eq_iff ht).mp hs
  have hw := scans.isWhole ht
  have ⟨r, hrun⟩ := Expander.exists_foldlM (r := { naming }) hw
  have hrender : render naming ks = .ok ⟨r.finish, r.exports⟩ := by
    rw [render, hrun]
    rfl
  have start : Expander.Tracks .none { naming } := ⟨by simp, by simp, by simp, by simp⟩
  have hf := Expander.follows_of_foldlM hrun start scans.exists_reads
  have settled : r.IsSettled naming := Expander.foldlM_induction
    (fun k hm r r' hp h => hp.isSettled (hk k hm) (hw k hm) hn h) hrun
    ⟨rfl, ⟨by simp, by simp⟩, ⟨by simp, by simp⟩⟩
  have hfinish := finish_eq_listing hf
  have hu := (isWhole_render hw hn.isWhole hrender).left
  have hread : Token.scan r.finish = .ok (r.tokens ks) := by
    refine Token.scan_eq ?_ hu
    rw [hfinish]
    exact Token.scans_listing fun k hm =>
      settles_of_mem_tokens hk hw scans.exists_reads hn settled hm
  refine ⟨r, hrun, hrender, hf.classes, hf.styles, hread, fun naming' table => ?_⟩
  refine ⟨⟨r.finish, []⟩, ?_, rfl, rfl⟩
  rw [hread, hfinish]
  exact render_eq_listing fun k hm => isExpanded_of_mem_tokens hm

theorem render_reads_back_of_mixed :
    let ks : List Token := [
      .assigned (.ofString "export:x") ⟨.ofString "'y'", .single⟩,
      .assigned (.ofString "class") ⟨.ofString "[u]", .bracket⟩,
      .assigned (.ofString ":q") ⟨.ofString "'r'", .single⟩,
      .escaped (.ofString "b") ⟨.ofString "z", .bare⟩,
      .bare (.ofString "d")]
    Token.scan (.ofString "export:x='y' class=[u] :q='r' b!=z d") = .ok ks ∧
      ∃ r, ks.foldlM Expander.push { naming := {} } = .ok r ∧
        r.finish = .ofString
          " x!='y \x7b__export_x__\x7d' b!=z d class!=`\x7b[u]\x7d  \x7br ? ' q' : ''\x7d`" ∧
        Token.scan r.finish = .ok (r.tokens ks) := by
  intro ks
  have hs : Token.scan (.ofString "export:x='y' class=[u] :q='r' b!=z d") = .ok ks := by
    decide +kernel
  have hk : ∀ k ∈ ks, k.IsReadable := by
    simp only [ks, List.forall_mem_cons, List.not_mem_nil, false_implies, implies_true, and_true]
    refine ⟨⟨?_, ?_⟩, ⟨?_, ?_⟩, ⟨?_, ?_⟩, ⟨?_, ?_⟩, ⟨?_, ?_⟩⟩ <;> decide +kernel
  have hn : Export.Naming.IsIdentifier {} :=
    ⟨List.all_eq_true.mp (by decide), List.all_eq_true.mp (by decide)⟩
  have ⟨r, hr, _, _, _, hread, _⟩ := render_reads_back (Text.isUtf8_ofString _) hs hk hn
  refine ⟨hs, r, hr, ?_, hread⟩
  have hf : (ks.foldlM Expander.push { naming := {} }).map Expander.finish = .ok (.ofString
      " x!='y \x7b__export_x__\x7d' b!=z d class!=`\x7b[u]\x7d  \x7br ? ' q' : ''\x7d`") := by
    decide +kernel
  rw [hr] at hf
  exact Except.ok.inj hf

end

end Attribute

end PugShorthand
