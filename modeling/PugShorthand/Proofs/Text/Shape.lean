import Mathlib.Computability.Language
import PugShorthand.Proofs.Text.Utf8

namespace PugShorthand.Text

open scoped Computability

abbrev Shape := Language UInt8

namespace Shape

variable {p : UInt8 → Bool} {s : Shape} {w : Text} {x : UInt8}

def byte (p : UInt8 → Bool) : Shape :=
  {w | ∃ b, p b = true ∧ w = [b]}

def mark (b : UInt8) : Shape :=
  byte (· == b)

def many (s : Shape) : Shape :=
  s * s∗

-- A piece of the shape stands at the start of the text and ends between two characters.
def Begins (s : Shape) (t : Text) : Prop :=
  ∃ w ∈ s, ∃ rest : Text, t = w ++ rest ∧ rest.IsUtf8

theorem mem_byte : w ∈ byte p ↔ ∃ b, p b = true ∧ w = [b] :=
  Iff.rfl

theorem mem_mark : w ∈ mark x ↔ w = [x] := by
  simp [mark, mem_byte]

theorem mem_byte_mul : w ∈ byte p * s ↔ ∃ b, p b = true ∧ ∃ v ∈ s, w = b :: v := by
  simp only [Language.mem_mul, mem_byte]
  constructor
  · rintro ⟨-, ⟨b, hb, rfl⟩, v, hv, rfl⟩
    exact ⟨b, hb, v, hv, rfl⟩
  · rintro ⟨b, hb, v, hv, rfl⟩
    exact ⟨[b], ⟨b, hb, rfl⟩, v, hv, rfl⟩

theorem mem_mark_mul : w ∈ mark x * s ↔ ∃ v ∈ s, w = x :: v := by
  simp [mark, mem_byte_mul]

theorem mem_byte_kstar : w ∈ (byte p)∗ ↔ ∀ b ∈ w, p b = true := by
  rw [Language.mem_kstar]
  constructor
  · rintro ⟨ws, rfl, h⟩ b hb
    have ⟨v, hv, hbv⟩ := List.mem_flatten.mp hb
    obtain ⟨c, hc, rfl⟩ := h v hv
    simpa [List.mem_singleton.mp hbv] using hc
  · intro h
    refine ⟨w.map fun b => [b], (List.flatMap_singleton' w).symm, fun v hv => ?_⟩
    have ⟨b, hb, hv⟩ := List.mem_map.mp hv
    exact ⟨b, h b hb, hv.symm⟩

theorem mem_many_byte : w ∈ many (byte p) ↔ w ≠ [] ∧ ∀ b ∈ w, p b = true := by
  simp only [many, mem_byte_mul, mem_byte_kstar]
  cases w <;> simp

end Shape

end PugShorthand.Text
