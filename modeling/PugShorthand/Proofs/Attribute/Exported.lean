import PugShorthand.Proofs.Attribute.Reference
import PugShorthand.Proofs.Attribute.WellFormed
import PugShorthand.Proofs.Export.Table

namespace PugShorthand

namespace Export.Table

variable {table : Table} {e : Export} {es : List Export} {name : Text}

def names (table : Table) : List Text :=
  table.entries.map Export.name

theorem mem_names_insert : name ∈ (table.insert e).names ↔ name ∈ table.names ∨ name = e.name := by
  rw [names, insert, map_name_go, List.mem_append]
  split
  case isTrue he => exact ⟨fun h => .inl (h.resolve_right List.not_mem_nil),
    fun h => .inl (h.elim id fun hn => hn ▸ he)⟩
  case isFalse   => rw [List.mem_singleton, names]

theorem mem_names_insertAll :
    name ∈ (table.insertAll es).names ↔ name ∈ table.names ∨ name ∈ es.map Export.name := by
  -- By induction from the back, where the last export meets the table of all the others.
  induction es using List.reverseRecOn
  case nil => simp [insertAll]
  case append_singleton es e hi =>
    rw [insertAll_concat, mem_names_insert, hi, List.map_append, List.mem_append, or_assoc,
      List.map_singleton, List.mem_singleton]

end Export.Table

namespace Attribute

open Export

namespace Token

variable {mode : Target} {k : Token} {ks : List Token} {t name : Text}

theorem isTaken_iff (hv : k.verbatim = false) : isTaken (mode, k) = true ↔
    foldsIntoClass (mode, k) = false ∧ foldsIntoStyle (mode, k) = false := by
  cases hc : k.conditional?
  case none => simp [isTaken, isSetting, foldsIntoClass, foldsIntoStyle, hv, hc]
  case some =>
    have hp := isCustomProperty_eq_false hc
    cases mode <;> simp [isTaken, isSetting, foldsIntoClass, foldsIntoStyle, hv, hp, hc]

theorem Scans.verbatim_of_exported (h : Scans t ks) (ht : t.IsUtf8) :
    ∀ k ∈ ks, k.exported = true → k.verbatim = false := by
  intro k hk he
  have ⟨_, _, hr, hu⟩ := h.exists_whole_reads ht k hk
  by_contra hv
  exact (hr.isWellFormed hu).apart ⟨he, by simpa using hv⟩

theorem mem_export? :
    name ∈ k.export?.toList.map Export.name ↔ k.exported = true ∧ normaliseName k.name = name := by
  cases he : k.exported <;> simp [export?, he, eq_comm]

theorem mem_names_exports (hv : ∀ k ∈ ks, k.exported = true → k.verbatim = false) :
    name ∈ (exports ks).map Export.name ↔ ∃ p ∈ moded ks, p.2.exported = true ∧
      foldsIntoClass p = false ∧ foldsIntoStyle p = false ∧ normaliseName p.2.name = name := by
  simp only [exports, List.map_flatMap, List.mem_flatMap, List.mem_filter, mem_export?]
  constructor
  case mp =>
    rintro ⟨⟨mode, k⟩, ⟨hp, ht⟩, he, hn⟩
    obtain ⟨hc, hs⟩ := (isTaken_iff (hv k (mem_of_mem_moded hp) he)).mp ht
    exact ⟨(mode, k), hp, he, hc, hs, hn⟩
  case mpr =>
    rintro ⟨⟨mode, k⟩, hp, he, hc, hs, hn⟩
    have ht := (isTaken_iff (hv k (mem_of_mem_moded hp) he)).mpr ⟨hc, hs⟩
    exact ⟨(mode, k), ⟨hp, ht⟩, he, hn⟩

end Token

-- An exported attribute is recorded under its normalised name unless it becomes a part of the
-- `class` or of the `style`. No other name gets into the table, and none is lost from it.
theorem exports_recorded_unless_folded (s : String) (naming : Naming) (table : Table) :
    ∃ stripped x, Comment.strip (.ofString s) = .ok stripped ∧
      Token.scan stripped = .ok x.tokens ∧ expand naming (.ofString s) = .ok x ∧
      ∀ name, name ∈ (table.insertAll x.rendering.exports).names ↔
        name ∈ table.names ∨ ∃ p ∈ Token.moded x.tokens, p.2.exported = true ∧
          Token.foldsIntoClass p = false ∧ Token.foldsIntoStyle p = false ∧
          normaliseName p.2.name = name := by
  have hs := Text.isUtf8_ofString s
  have ⟨x, hx, _⟩ := exists_expand naming hs
  have ⟨stripped, hst, hu, hk, _⟩ := expand_cases hs hx
  refine ⟨stripped, x, hst, Token.scan_eq hk hu, hx, fun name => ?_⟩
  rw [Table.mem_names_insertAll, expand_eq_closedForm hs hx,
    Token.mem_names_exports (hk.verbatim_of_exported hu)]

theorem folded_exports_unrecorded :
    (expand {} (.ofString "export:--gap=1 class export::on")).map (fun x =>
      ((x.tokens.filter Token.exported).map fun k => normaliseName k.name, x.rendering.text,
        (({} : Table).insertAll x.rendering.exports).names)) =
      .ok ([.ofString "--gap", .ofString ":on"],
        .ofString " class!='  \x7bon ? \\' on\\' : \\'\\'\x7d' style!=' ;--gap: 1;'", []) := by
  decide +kernel

end Attribute

end PugShorthand
