import Mathlib.Data.List.Induction
import Mathlib.Data.List.Nodup
import PugShorthand.Export.Table

namespace PugShorthand.Export

theorem Naming.binding_injective (n : Naming) : Function.Injective n.binding := by
  intro a b h
  exact List.append_cancel_left (List.append_cancel_right h)

def latest? (es : List Export) (name : Text) : Option Export :=
  es.reverse.find? (·.name = name)

namespace Table

variable {e x : Export} {es : List Export}

theorem map_name_go : (insert.go e es).map Export.name =
    es.map Export.name ++ if e.name ∈ es.map Export.name then [] else [e.name] := by
  induction es
  case nil => simp [insert.go]
  case cons y es hi =>
    rw [insert.go]
    split
    case isTrue hy  => simp [hy]
    case isFalse hy => simp [hi, Ne.symm hy]

theorem mem_go_iff (h : (es.map Export.name).Nodup) :
    x ∈ insert.go e es ↔ x = e ∨ x ∈ es ∧ x.name ≠ e.name := by
  induction es
  case nil => simp [insert.go]
  case cons y es hi =>
    have ⟨hy, hes⟩ := List.nodup_cons.mp h
    have hr : ∀ z ∈ es, z.name ≠ y.name := fun z hz hn => hy (List.mem_map.mpr ⟨z, hz, hn⟩)
    rw [insert.go]
    split
    case isTrue hn  => grind
    case isFalse hn => grind

theorem insertAll_concat (table : Table) :
    table.insertAll (es ++ [e]) = (table.insertAll es).insert e := by
  simp [insertAll]

theorem map_name_insertAll :
    (({} : Table).insertAll es).entries.map Export.name = (es.map Export.name).eraseDups := by
  induction es using List.reverseRecOn
  case nil => rfl
  case append_singleton es e hi =>
    rw [insertAll_concat, insert, map_name_go, hi, List.map_append, List.eraseDups_append]
    simp only [List.mem_eraseDups]
    congr 1
    by_cases he : e.name ∈ es.map Export.name
    case pos => rw [if_pos he]; simp_all [List.removeAll]
    case neg => rw [if_neg he]; simp_all [List.removeAll, List.eraseDups_cons]

theorem nodup_insertAll : ((({} : Table).insertAll es).entries.map Export.name).Nodup := by
  induction es using List.reverseRecOn
  case nil => exact .nil
  case append_singleton es e hi =>
    rw [insertAll_concat, insert, map_name_go]
    split
    case isTrue     => simpa using hi
    case isFalse he => exact hi.append (List.nodup_singleton _) (by simpa using he)

theorem latest?_of_mem_insertAll (h : x ∈ (({} : Table).insertAll es).entries) :
    latest? es x.name = some x := by
  induction es using List.reverseRecOn
  case nil => cases h
  case append_singleton es e hi =>
    rw [insertAll_concat] at h
    cases (mem_go_iff nodup_insertAll).mp h
    case inl he => simp [latest?, he]
    case inr he =>
      have hx : latest? (es ++ [e]) x.name = latest? es x.name := by
        simp [latest?, Ne.symm he.right]
      rw [hx, hi he.left]

theorem nodup_bindings (naming : Naming) :
    ((({} : Table).insertAll es).entries.map fun e => naming.binding e.name).Nodup := by
  have h := (@nodup_insertAll es).map naming.binding_injective
  rwa [List.map_map] at h

theorem existsUnique_of_mem (naming : Naming) (h : e ∈ es) :
    ∃! x, x ∈ (({} : Table).insertAll es).entries ∧
      naming.binding x.name = naming.binding e.name := by
  have hm : e.name ∈ (({} : Table).insertAll es).entries.map Export.name := by
    rw [map_name_insertAll, List.mem_eraseDups]
    exact List.mem_map_of_mem h
  have ⟨x, hx, hn⟩ := List.mem_map.mp hm
  refine ⟨x, ⟨hx, by rw [hn]⟩, fun y ⟨hy, hb⟩ => ?_⟩
  have hyn := naming.binding_injective hb
  exact List.inj_on_of_nodup_map nodup_insertAll hy hx (hyn.trans hn.symm)

theorem eq_nil_of_isEmpty (h : (({} : Table).insertAll es).isEmpty = true) : es = [] := by
  have hn : (es.map Export.name).eraseDups = [] := by
    rw [← map_name_insertAll, List.isEmpty_iff.mp h]
    rfl
  apply List.eq_nil_iff_forall_not_mem.mpr
  intro e he
  have hm := List.mem_eraseDups.mpr (List.mem_map_of_mem (f := Export.name) he)
  simp [hn] at hm

end Table

end PugShorthand.Export
