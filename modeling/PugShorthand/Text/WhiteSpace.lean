import PugShorthand.Text.Basic

namespace PugShorthand.Text.WhiteSpace

-- The code points of the Unicode property `White_Space`.
def codePoints : List Nat :=
  [0x09, 0x0A, 0x0B, 0x0C, 0x0D, 0x20, 0x85, 0xA0, 0x1680, 0x2000, 0x2001, 0x2002, 0x2003, 0x2004,
    0x2005, 0x2006, 0x2007, 0x2008, 0x2009, 0x200A, 0x2028, 0x2029, 0x202F, 0x205F, 0x3000]

def encodings : List Text :=
  codePoints.map fun n => String.utf8EncodeChar (Char.ofNat n)

def width (t : Text) : Nat :=
  (encodings.find? (·.isPrefixOf t)).elim 0 List.length

def leading (t : Text) : Nat :=
  go 0 t
where
  -- The first `skip` bytes are the rest of a character that was counted already.
  go (skip : Nat) : Text → Nat
    | [] => 0
    | b :: rest =>
      match skip with
      | skip + 1 => go skip rest
      | 0 =>
        match width (b :: rest) with
        | 0 => 0
        | n + 1 => n + 1 + go n rest

end PugShorthand.Text.WhiteSpace
