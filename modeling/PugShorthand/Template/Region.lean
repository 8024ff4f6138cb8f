import PugShorthand.Span

namespace PugShorthand.Template

def openingTag (quote : UInt8) (lang : Text) : Text :=
  Text.ofString "<template lang=" ++ [quote] ++ lang ++ [quote] ++ Text.ofString ">"

def closingTag : Text :=
  Text.ofString "</template>"

/-- What stands between the earliest opening tag for `lang`, in either kind of quotes, and the first
closing tag behind it. -/
def region? (lang content : Text) : Option Span := do
  let double := openingTag '"'.toUInt8 lang
  let single := openingTag '\''.toUInt8 lang
  let opening ← Option.merge min (Text.find? double content) (Text.find? single content)
  -- Both opening tags have the same length.
  let start := opening + double.length
  let length ← Text.find? closingTag (content.drop start)
  return ⟨start, start + length⟩

end PugShorthand.Template
