import PugShorthand.Proofs.Edit.Undo
import PugShorthand.Proofs.Export.Injection

namespace PugShorthand.Export

variable {table : Table} {naming : Naming} {code : Text} {placement : Placement}

namespace Placement

def IsPlace (code : Text) : Placement → Prop
  | extend block => Opens code block ∧ ∀ other, Opens code other → block.start ≤ other.start
  | append offset =>
    (∀ block, ¬Opens code block) ∧ scriptEnd <+: code.drop offset ∧
      ∀ i < offset, ¬scriptEnd <+: code.drop i
  | create => (∀ block, ¬Opens code block) ∧ ¬scriptEnd <:+: code

theorem find?_scriptEnd_eq_some_iff {offset : Nat} : Text.find? scriptEnd code = some offset ↔
    scriptEnd <+: code.drop offset ∧ ∀ i < offset, ¬scriptEnd <+: code.drop i := by
  rw [Text.find?_eq_some_iff]
  constructor
  case mp => exact fun ⟨hp, _, hi⟩ => ⟨hp, hi⟩
  case mpr =>
    intro ⟨hp, hi⟩
    refine ⟨hp, Nat.le_of_not_lt fun hlt => ?_, hi⟩
    rw [List.drop_eq_nil_of_le (Nat.le_of_lt hlt), List.prefix_nil] at hp
    cases hp

theorem isPlace_iff : IsPlace code placement ↔ find code = placement := by
  cases placement <;>
    simp only [IsPlace, ← block?_eq_some_iff, ← block?_eq_none_iff,
      ← find?_scriptEnd_eq_some_iff, ← Text.find?_eq_none_iff] <;>
    rw [find]
  case extend =>
    constructor
    case mp =>
      intro hb
      rw [hb]
    case mpr => split <;> simp_all
  case append | create =>
    constructor
    case mp =>
      intro ⟨hb, hs⟩
      rw [hb, hs]
    case mpr => split <;> simp_all

theorem isInsertion_of_mem_edits {e : Edit} (h : e ∈ placement.edits naming table) :
    e.IsInsertion := by
  have adds {a b : Text} (ha : a ≠ []) : a ++ b ≠ [] := List.append_ne_nil_of_left_ne_nil ha b
  cases placement <;> simp only [edits, List.mem_cons, List.not_mem_nil, or_false] at h
  case extend =>
    rcases h with rfl | rfl
    · exact ⟨rfl, List.append_ne_nil_of_right_ne_nil _ (by decide)⟩
    · exact ⟨rfl, adds (by decide)⟩
  case append =>
    subst h
    exact ⟨rfl, adds (by decide)⟩
  case create =>
    subst h
    exact ⟨rfl, adds (adds (by decide))⟩

end Placement

-- There is one place for the exports, and all that happens to the code is that text is put in
-- there: deleting it again leaves the code as it was.
theorem inject_only_inserts (h : table.IsWhole) (hn : naming.IsWhole) (hc : code.IsUtf8)
    (he : table.isEmpty = false) :
    (∃ placement, Placement.IsPlace code placement) ∧
    ∀ placement, Placement.IsPlace code placement →
      let out := placement.inserted (table.declarations naming) (table.specifiers naming) code
      table.inject naming code = .ok out ∧
        Edit.applyAll (Edit.undo 0 (placement.edits naming table).reverse) out = .ok code := by
  refine ⟨⟨_, Placement.isPlace_iff.mpr rfl⟩, fun placement hp => ?_⟩
  obtain rfl := Placement.isPlace_iff.mp hp
  refine ⟨Table.inject_eq h hn hc he, ?_⟩
  rw [← spliceFrom_edits]
  refine Edit.applyAll_undo (Placement.reverse_disciplined naming table hc) (fun e hm => ?_) hc
    fun e hm => ?_
  · exact Placement.isInsertion_of_mem_edits (List.mem_reverse.mp hm)
  · exact Placement.isUtf8_of_mem_edits h hn (List.mem_reverse.mp hm)

theorem inject_only_inserts_at_glued_keyword :
    let code := Text.ofString "exportexport\u3000\n\x7b a \x7d; export \x7b b \x7d;</script>"
    let out := Text.ofString ("export;let __export_n__ = 1;\n" ++
      "export\u3000\n\x7b__export_n__ as n,  a \x7d; export \x7b b \x7d;</script>")
    let table : Table := ⟨[⟨.ofString "n", some (.ofString "1")⟩]⟩
    table.isEmpty = false ∧ Placement.IsPlace code (.extend ⟨6, 17⟩) ∧
      table.inject {} code = .ok out ∧
      Edit.applyAll [.deletion 6 29, .deletion 40 59] out = .ok code := by
  intro code out table
  have hs := Text.isUtf8_ofString
  have hw : table.IsWhole := by
    intro e hm
    obtain rfl := List.mem_singleton.mp hm
    exact ⟨hs "n", fun initial hi => Option.some.inj hi ▸ hs "1"⟩
  have hp : Placement.IsPlace code (.extend ⟨6, 17⟩) :=
    Placement.isPlace_iff.mpr (by decide +kernel)
  have ⟨_, h⟩ := @inject_only_inserts table {} code hw ⟨hs _, hs _⟩ (hs _) rfl
  have hout : Placement.inserted (table.declarations {}) (table.specifiers {}) code
      (.extend ⟨6, 17⟩) = out := by decide +kernel
  have hundo : Edit.undo 0 ((Placement.extend ⟨6, 17⟩).edits {} table).reverse =
      [.deletion 6 29, .deletion 40 59] := by decide +kernel
  have ⟨hi, hd⟩ := h _ hp
  rw [hout] at hi hd
  rw [hundo] at hd
  exact ⟨rfl, hp, hi, hd⟩

end PugShorthand.Export
