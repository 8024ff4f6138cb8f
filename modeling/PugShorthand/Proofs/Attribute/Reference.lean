import PugShorthand.Proofs.Attribute.ClosedForm

namespace PugShorthand.Attribute

namespace Token

variable {k : Token} {ks : List Token} {bind bind' : Text → Text} {name : Text}

def refers (p : Target × Token) : Bool :=
  isTaken p && p.2.exported && p.2.written?.isSome

def referenced (ks : List Token) : List Text :=
  ((moded ks).filter refers).map fun p => normaliseName p.2.name

theorem exists_export_of_referenced (h : name ∈ referenced ks) :
    ∃ e ∈ exports ks, e.name = name := by
  have ⟨p, hp, hn⟩ := List.mem_map.mp h
  have ⟨hm, hr⟩ := List.mem_filter.mp hp
  have ⟨⟨ht, hx⟩, _⟩ : (isTaken p = true ∧ p.2.exported = true) ∧ p.2.written?.isSome = true := by
    simpa [refers] using hr
  have he : p.2.export? = some ⟨normaliseName p.2.name, p.2.written?.map exportInitial⟩ := by
    simp [export?, hx]
  have hf : p ∈ (moded ks).filter isTaken := List.mem_filter.mpr ⟨hm, ht⟩
  exact ⟨_, List.mem_flatMap.mpr ⟨p, hf, by rw [he]; exact List.mem_singleton_self _⟩, hn⟩

section

variable (h : ∀ name ∈ referenced ks, bind name = bind' name)
include h

theorem bound?_congr {p : Target × Token} (hp : p ∈ moded ks) (ht : isTaken p = true) :
    p.2.bound? bind = p.2.bound? bind' := by
  cases hx : p.2.exported
  case false => simp [bound?, hx]
  case true =>
    cases hw : p.2.written?
    case none   => simp [bound?, hw]
    case some w =>
      have hr : refers p = true := by simp [refers, ht, hx, hw]
      have hm : p ∈ (moded ks).filter refers := List.mem_filter.mpr ⟨hp, hr⟩
      simp only [bound?, h _ (List.mem_map.mpr ⟨p, hm, rfl⟩)]

theorem emission_congr {p : Target × Token} (hp : p ∈ moded ks) :
    emission bind p = emission bind' p := by
  cases ht : isTaken p
  case false => simp [emission, ht]
  case true  => simp [emission, assignment, bound?_congr h hp ht]

theorem lastValue_congr {p : Token → Bool} (hp : ∀ k, p k = true → k.isSetting = true) :
    lastValue bind p ks = lastValue bind' p ks := by
  unfold lastValue
  cases hl : (ks.filter p).getLast?
  case none => rfl
  case some k =>
    have ⟨hm, hk⟩ := List.mem_filter.mp (List.mem_of_getLast? hl)
    have ⟨mode, hm, ht⟩ := exists_isTaken hm (hp k hk)
    exact bound?_congr h hm ht

theorem closedForm_congr : closedForm bind ks = closedForm bind' ks := by
  have he : (moded ks).flatMap (emission bind) = (moded ks).flatMap (emission bind') :=
    List.flatMap_congr fun p hp => emission_congr h hp
  have hc := lastValue_congr h fun _ => isSetting_of_makesClass
  have hs := lastValue_congr h fun _ => isSetting_of_assignsStyle
  simp only [closedForm, classDirective, styleDirective, he, hc, hs]

end

theorem IsWhole.exists_content (h : k.IsWhole) : ∀ v ∈ k.value, ∃ t, v.inner = .ok t := by
  intro v hv
  have ⟨hr, _, he⟩ := h.value v hv
  have ⟨t, ht, _⟩ := he.exists_inner hr
  exact ⟨t, ht⟩

end Token

theorem expand_eq_closedForm {naming : Export.Naming} {source : Text} {x : Expansion}
    (hs : source.IsUtf8) (h : expand naming source = .ok x) :
    x.rendering = ⟨closedForm naming.binding x.tokens, Token.exports x.tokens⟩ := by
  have ⟨stripped, _, hu, hk, hr⟩ := expand_cases hs h
  have hv : ∀ k ∈ x.tokens, ∀ v ∈ k.value, ∃ t, v.inner = .ok t := fun k hm =>
    (hk.isWhole hu k hm).exists_content
  exact Except.ok.inj (hr.symm.trans (render_eq hv))

end PugShorthand.Attribute
