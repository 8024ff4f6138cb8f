import PugShorthand.Proofs.Attribute.Reference

namespace PugShorthand

structure Export.Naming.IsUnquoted (n : Export.Naming) : Prop where
  before : ∀ quote ∈ Text.ofString "'\"`", quote ∉ n.before
  after : ∀ quote ∈ Text.ofString "'\"`", quote ∉ n.after

namespace Attribute

variable {naming : Export.Naming} {k : Token} {ks : List Token} {quote : UInt8}

theorem mem_quotes (h : (Delimiter.ofOpening quote).isQuote = true) :
    quote ∈ Text.ofString "'\"`" := by
  rcases isQuote_ofOpening_iff.mp h with rfl | rfl | rfl <;> decide

-- `t` is one literal from its first quote to its last. It is the literal of the directive, and in
-- front of the closing quote a space and what was folded into the directive, with that quote
-- escaped.
structure Directive.IsWritten (d : Directive) (quote : UInt8) (body shielded t : Text) : Prop where
  quoted : quote ∈ Text.ofString "'\"`"
  opened : body.head? = some quote
  closed : Nesting.find t 0 quote quote = .ok (some ⟨0, t.length⟩)
  text : t = body ++ Text.ofString " " ++ shielded ++ [quote]
  literal : d.literal = body ++ [quote]
  fragments : Text.unescape quote shielded = d.fragments

theorem Settled.find_eq {t : Text} (h : Settled t) (hq : leadingQuote? t = some quote) :
    Nesting.find t 0 quote quote = .ok (some ⟨0, t.length⟩) := by
  have ⟨hh, hq'⟩ := leadingQuote?_eq_some_iff.mp hq
  obtain ⟨region, rfl⟩ := List.head?_eq_some_iff.mp hh
  have ⟨hd, _⟩ := closing?_of_isQuote quote hq'
  have hs : Nesting.stop? quote quote 0 1 quote (region ++ []) = some (1 + region.length) :=
    (h.closes hd).stop?_eq
  rw [List.append_nil] at hs
  rw [Nesting.find_eq (List.drop_zero ..), Nat.zero_add, hs, List.length_cons, Nat.add_comm]
  rfl

theorem Directive.IsSettled.isWritten {d : Directive} (h : d.IsSettled) :
    ∃ quote body shielded, d.IsWritten quote body shielded d.consolidate := by
  have ⟨quote, hq, hc⟩ := d.exists_consolidate
  have ⟨_, hq'⟩ := leadingQuote?_eq_some_iff.mp hq
  have ⟨body, hl, _, _⟩ := (Directive.settled_literal h.value).exists_body hq
  have hbody : Text.dropTrailing quote d.literal = quote :: body := by
    rw [Text.dropTrailing, hl, ← List.cons_append, List.getLast?_concat, if_pos rfl,
      List.dropLast_concat]
  rw [hbody] at hc
  refine ⟨quote, quote :: body, Text.escape quote d.fragments, ?_⟩
  constructor
  case quoted    => exact mem_quotes hq'
  case opened    => rfl
  case closed    => exact (settled_consolidate h.value h.fragments).find_eq (by
    rw [hc, leadingQuote?_eq_some_iff]
    exact ⟨rfl, hq'⟩)
  case text      => exact hc
  case literal   => exact hl
  case fragments => exact Text.unescape_escape (closing?_of_isQuote quote hq').right

namespace Token

theorem not_mem_binding (hn : naming.IsUnquoted) (h : k.isClass = true ∨ k.isStyle = true)
    (hq : (Delimiter.ofOpening quote).isQuote = true) :
    quote ∉ naming.binding (normaliseName k.name) := by
  have hname : quote ∉ normaliseName k.name := by
    rcases h with h | h <;> rw [beq_iff_eq.mp h] <;>
      rcases isQuote_ofOpening_iff.mp hq with rfl | rfl | rfl <;> decide
  simp only [Export.Naming.binding, List.mem_append, not_or]
  exact ⟨⟨hn.before quote (mem_quotes hq), hname⟩, hn.after quote (mem_quotes hq)⟩

theorem settled_lastValue {p : Token → Bool} (hn : naming.IsUnquoted) (hw : ∀ k ∈ ks, k.IsWhole)
    (hp : ∀ k, p k = true → k.isClass = true ∨ k.isStyle = true) :
    ∀ t ∈ lastValue naming.binding p ks, Settled t := by
  intro t ht
  have ⟨k, hl, hk⟩ := Option.bind_eq_some_iff.mp ht
  have ⟨hm, hpk⟩ := List.mem_filter.mp (List.mem_of_getLast? hl)
  exact settled_expanded?_of_unquoted (hw k hm)
    (fun _ _ hq => not_mem_binding hn (hp k hpk) hq) t hk

theorem getLast?_flatMap {α : Type} {f : α → Text} {b : UInt8} (xs : List α)
    (hf : ∀ x, (f x).getLast? = some b) : ∀ x ∈ (xs.flatMap f).getLast?, x = b := by
  induction xs using List.reverseRecOn
  case nil => simp
  case append_singleton xs x _ => simp [List.getLast?_append, hf]

theorem isSettled_classDirective (hn : naming.IsUnquoted) (hw : ∀ k ∈ ks, k.IsWhole) :
    (classDirective naming.binding ks).IsSettled where
  value := settled_lastValue hn hw fun k h => .inl (by simp_all [makesClass])
  fragments h := by
    have hf (p : Target × Token) : p.2.classPart.getLast? = some '}'.toUInt8 := by
      rw [classPart, List.getLast?_append, getLast?_braced, Option.some_or]
    exact absurd (getLast?_flatMap _ hf _ h) (by decide)

theorem isSettled_styleDirective (hn : naming.IsUnquoted) (hw : ∀ k ∈ ks, k.IsWhole) :
    (styleDirective naming.binding ks).IsSettled where
  value := settled_lastValue hn hw fun k h => .inr (by simp_all [assignsStyle])
  fragments h := by
    have hf (p : Target × Token) : p.2.stylePart.getLast? = some ';'.toUInt8 :=
      List.getLast?_concat
    exact absurd (getLast?_flatMap _ hf _ h) (by decide)

end Token

-- Whatever an attribute list holds, the `class` and the `style` put behind its other attributes are
-- one closed literal each, from which the value and all that was folded into it can be read again.
theorem consolidated_literals_closed (s : String) (hn : naming.IsUnquoted) :
    ∃ ks, Token.scan (.ofString s) = .ok ks ∧
      let classes := Token.classDirective naming.binding ks
      let styles := Token.styleDirective naming.binding ks
      (render naming ks).map Rendering.text = .ok (
        (Token.moded ks).flatMap (Token.emission naming.binding)
          ++ (if classes.isUsed then Text.ofString " class!=" ++ classes.consolidate else [])
          ++ (if styles.isUsed then Text.ofString " style!=" ++ styles.consolidate else [])) ∧
      (∃ quote body shielded, classes.IsWritten quote body shielded classes.consolidate) ∧
      ∃ quote body shielded, styles.IsWritten quote body shielded styles.consolidate := by
  have ⟨ks, h⟩ := Token.exists_scans (Text.ofString s)
  have hu := Text.isUtf8_ofString s
  have hw := h.isWhole hu
  refine ⟨ks, Token.scan_eq h hu, ?_, (Token.isSettled_classDirective hn hw).isWritten,
    (Token.isSettled_styleDirective hn hw).isWritten⟩
  rw [render, Expander.foldlM_eq_after fun k hk => (hw k hk).exists_content]
  rfl

theorem consolidated_literals_closed_of_quotes :
    let naming : Export.Naming := ⟨.ofString "\\", .ofString "$"⟩
    naming.IsUnquoted ∧ ∃ ks,
      Token.scan (.ofString ("y=[ export:class='a\\'' :b=\"it's\" :c=\\ " ++
        "style=\x7be\x7d :f='`' --g='\\`'")) = .ok ks ∧
      (∃ quote body shielded, (Token.classDirective naming.binding ks).IsWritten quote body shielded
        (.ofString ("'a\\' \x7b\\class$\x7d  \x7bit\\'s ? \\' b\\' : \\'\\'\x7d" ++
          " \x7b\\ ? \\' c\\' : \\'\\'\x7d'"))) ∧
      ∃ quote body shielded, (Token.styleDirective naming.binding ks).IsWritten quote body shielded
        (.ofString "`\x7be\x7d ;f: \\`;;--g: \\\\`;`") := by
  intro naming
  have hn : naming.IsUnquoted := ⟨by decide +kernel, by decide +kernel⟩
  have ⟨ks, hs, _, hc, hst⟩ := consolidated_literals_closed
    ("y=[ export:class='a\\'' :b=\"it's\" :c=\\ " ++ "style=\x7be\x7d :f='`' --g='\\`'") hn
  have ht : (Token.scan (.ofString ("y=[ export:class='a\\'' :b=\"it's\" :c=\\ " ++
      "style=\x7be\x7d :f='`' --g='\\`'"))).map (fun ks =>
        ((Token.classDirective naming.binding ks).consolidate,
          (Token.styleDirective naming.binding ks).consolidate)) = .ok (
      .ofString ("'a\\' \x7b\\class$\x7d  \x7bit\\'s ? \\' b\\' : \\'\\'\x7d" ++
        " \x7b\\ ? \\' c\\' : \\'\\'\x7d'"),
      .ofString "`\x7be\x7d ;f: \\`;;--g: \\\\`;`") := by
    decide +kernel
  rw [hs] at ht
  have ⟨hclass, hstyle⟩ := Prod.mk.inj (Except.ok.inj ht)
  exact ⟨hn, ks, hs, hclass ▸ hc, hstyle ▸ hst⟩

end Attribute

end PugShorthand
