import PugShorthand.Span

namespace PugShorthand.Nesting

-- Where the outermost region ends, for the bytes from offset `pos` on. Inside it `depth` more are
-- open, and `last` is the byte before `pos`. Closing is tried first, so that a quote, which opens
-- and closes alike, ends at its next occurrence.
def stop? (opening closing : UInt8) (depth pos : Nat) (last : UInt8) : Text → Option Nat
  | [] => none
  | b :: rest =>
    if last = '\\'.toUInt8 then stop? opening closing depth (pos + 1) b rest
    else if b = closing then
      match depth with
      | 0 => some (pos + 1)
      | depth + 1 => stop? opening closing depth (pos + 1) b rest
    else if b = opening then stop? opening closing (depth + 1) (pos + 1) b rest
    else stop? opening closing depth (pos + 1) b rest

/-- The region from the first `opening` at or after `start` to the `closing` that matches it. A
delimiter right after a backslash is plain text. There is no region if the text ends first, and it
is a fault to search where nothing opens. -/
def find (t : Text) (start : Nat) (opening closing : UInt8) : Except Fault (Option Span) :=
  match (t.drop start).findIdx? (· == opening) with
  | none => .error (.unmatchedOpening opening start)
  | some k =>
    let begin := start + k
    .ok <| (stop? opening closing 0 (begin + 1) opening (t.drop (begin + 1))).map (⟨begin, ·⟩)

def findBraces (t : Text) (start : Nat) : Except Fault (Option Span) :=
  find t start '{'.toUInt8 '}'.toUInt8

end PugShorthand.Nesting
