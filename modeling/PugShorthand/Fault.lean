namespace PugShorthand

/-- Everything that can go wrong, by cause. Offsets count bytes. -/
inductive Fault where
  -- No opening delimiter stands at or after the offset where the search began.
  | unmatchedOpening (opening : UInt8) (offset : Nat)
  -- The range is reversed, reaches past the end of its text, or cuts a character in two.
  | brokenRange (start stop : Nat)
  | invalidConfig
  | notUtf8
  deriving DecidableEq, Repr

namespace Fault

def message? : Fault → Option String
  | unmatchedOpening opening offset =>
    let mark := String.singleton (Char.ofNat opening.toNat)
    some ("no opening `" ++ mark ++ "` found at or after offset " ++ offset.repr)
  | notUtf8 => some "stream did not contain valid UTF-8"
  | brokenRange .. | invalidConfig => none

-- The diagnostic code; a broken range is a defect of the caller and has none.
def code? : Fault → Option String
  | unmatchedOpening .. => some "apug::unmatched_open"
  | invalidConfig => some "apug::config_parse"
  | notUtf8 => some "apug::io_error"
  | brokenRange .. => none

def help? : Fault → Option String
  | unmatchedOpening .. =>
    some "the delimited region must start at or after the search offset"
  | invalidConfig =>
    some <| "check that apug.toml is valid TOML with optional `template_lang`, `fragment_tag`, "
      ++ "`closing_blocks` and [exports] entries"
  | brokenRange .. | notUtf8 => none

end Fault

end PugShorthand
