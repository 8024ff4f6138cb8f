import PugShorthand.Proofs.Attribute.ReadBack
import PugShorthand.Proofs.Attribute.Reference

namespace PugShorthand.Attribute

namespace Token

variable {k : Token} {ks : List Token} {naming : Export.Naming} {target : Target} {name : Text}

theorem eq_of_normaliseName_eq (h : normaliseName k.name = name)
    (hn : name = Text.ofString "class" ∨ name = Text.ofString "style") : k.name = name := by
  rcases normaliseName_cases k.name with hk | ⟨t, hk⟩
  · exact hk.symm.trans h
  · have hq : name.head? = some '\''.toUInt8 := by rw [← h, hk, List.head?_cons]
    rcases hn with rfl | rfl <;> exact absurd hq (by decide)

theorem name_readBack : (k.readBack naming).name =
    if k.verbatim then k.name else normaliseName k.name := by
  rw [readBack]
  split
  case isTrue  => rfl
  case isFalse => split <;> rfl

theorem name_readBack_eq_iff (hf : k.isFolded target = false)
    (hn : name = Text.ofString "class" ∨ name = Text.ofString "style") :
    (k.readBack naming).name = name ↔ k.verbatim = true ∧ k.name = name := by
  rw [name_readBack]
  cases hv : k.verbatim
  case true  => simp
  case false =>
    have ⟨_, _, hc, hs⟩ := (isFolded_eq_false_iff hv).mp hf
    simp only [Bool.false_eq_true, if_false, false_and, iff_false]
    intro h
    have hk := eq_of_normaliseName_eq h hn
    rcases hn with rfl | rfl
    · exact absurd hc (by simp [isClass, hk])
    · exact absurd hs (by simp [isStyle, hk])

theorem countP_settings (hn : name = Text.ofString "class" ∨ name = Text.ofString "style") :
    ((settings target ks).map (readBack naming)).countP (·.name == name) =
      ks.countP fun k => k.verbatim && k.name == name := by
  -- By induction on the list: what folds is not passed on as it is written, so it counts for
  -- neither side.
  induction ks generalizing target
  case nil => rfl
  case cons k ks hi =>
    rw [settings, List.countP_cons]
    split
    case isTrue hf =>
      have hv : k.verbatim = false := by simp_all [isFolded]
      simp [hi, hv]
    case isFalse hf =>
      have hk := @name_readBack_eq_iff k naming target name (by simpa using hf) hn
      simp [List.countP_cons, hi, hk]

theorem sublist_settings :
    (ks.filter verbatim).Sublist ((settings target ks).map (readBack naming)) := by
  induction ks generalizing target
  case nil => exact .slnil
  case cons k ks hi =>
    rw [settings]
    cases hv : k.verbatim
    case true =>
      have hf : k.isFolded target = false := by simp [isFolded, hv]
      have hk : k.readBack naming = k := if_pos hv
      simpa [hv, hf, hk] using hi
    case false =>
      rw [List.filter_cons_of_neg (by simp [hv])]
      split
      case isTrue  => exact hi
      case isFalse => exact hi.cons _

end Token

theorem countP_tokens {ks : List Token} {r : Expander} {name : Text}
    (hn : name = Text.ofString "class" ∨ name = Text.ofString "style") :
    (r.tokens ks).countP (·.name == name) =
      (ks.countP fun k => k.verbatim && k.name == name)
        + (if ks.any Token.makesClass && Text.ofString "class" == name then 1 else 0)
        + (if ks.any Token.makesStyle && Text.ofString "style" == name then 1 else 0) := by
  have single (b : Bool) (name' : Text) (v : Value) :
      (if b then [Token.escaped name' v] else []).countP (·.name == name) =
        if b && name' == name then 1 else 0 := by
    cases b <;> simp [List.countP_cons, Token.escaped]
  rw [Expander.tokens, List.countP_append, List.countP_append, Token.countP_settings hn, single,
    single]

-- Beside what is written with `!=` and passed on as it is, one `class` and one `style` at most
-- come about, however often the list has them.
theorem directives_unrepeated (s : String) (naming : Export.Naming) :
    ∃ ks, Token.scan (.ofString s) = .ok ks ∧
      let emitted := (Expander.after naming ks).tokens ks
      (render naming ks).map Rendering.text = .ok (Token.listing emitted) ∧
      (ks.filter Token.verbatim).Sublist emitted ∧
      emitted.countP Token.isClass =
        (ks.countP fun k => k.verbatim && k.isClass) +
          (if ks.any Token.makesClass then 1 else 0) ∧
      emitted.countP Token.isStyle =
        (ks.countP fun k => k.verbatim && k.isStyle) +
          (if ks.any Token.makesStyle then 1 else 0) := by
  have hs := Text.isUtf8_ofString s
  have ⟨ks, hk⟩ := Token.exists_scans (Text.ofString s)
  have hrun : ks.foldlM Expander.push { naming } = .ok (Expander.after naming ks) :=
    Expander.foldlM_eq_after fun k hm => (hk.isWhole hs k hm).exists_content
  have start : Expander.Tracks .none { naming } := ⟨by simp, by simp, by simp, by simp⟩
  have hf := Expander.follows_of_foldlM hrun start hk.exists_reads
  refine ⟨ks, Token.scan_eq hk hs, ?_, ?_, ?_, ?_⟩
  · rw [render, hrun, ← finish_eq_listing hf]
    rfl
  · rw [Expander.tokens, List.append_assoc]
    exact Token.sublist_settings.trans (List.sublist_append_left _ _)
  · have h := @countP_tokens ks (Expander.after naming ks) _ (.inl rfl)
    have he : (Text.ofString "style" == Text.ofString "class") = false := by decide
    rwa [he, beq_self_eq_true, Bool.and_true, Bool.and_false, if_neg Bool.false_ne_true] at h
  · have h := @countP_tokens ks (Expander.after naming ks) _ (.inr rfl)
    have he : (Text.ofString "class" == Text.ofString "style") = false := by decide
    rwa [he, beq_self_eq_true, Bool.and_true, Bool.and_false, if_neg Bool.false_ne_true] at h

theorem verbatim_directives_repeat :
    (do
      let ks ← Token.scan (.ofString "class!=\"a\" style!='b' class=\"c\" style='d'")
      let rendering ← render {} ks
      let emitted ← Token.scan rendering.text
      return (rendering.text, emitted.countP Token.isClass, emitted.countP Token.isStyle)) =
      (.ok (.ofString " class!=\"a\" style!='b' class!=\"c \" style!='d '", 2, 2) :
        Except Fault (Text × Nat × Nat)) := by
  decide +kernel

end PugShorthand.Attribute
