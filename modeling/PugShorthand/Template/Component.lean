import PugShorthand.QualifiedName
import PugShorthand.Text.Line

namespace PugShorthand.Template.Component

-- A line that begins with a dotted name gets colons for the dots, which would be read as classes;
-- one that begins with an attribute list gets `fragmentTag` in front.
def edit? (fragmentTag line : Text) : Option Edit :=
  if line.head? = some '('.toUInt8 then some (.insertion 0 fragmentTag)
  else QualifiedName.dotted.rejoin? ':'.toUInt8 line

def edits (fragmentTag t : Text) : List Edit :=
  (Text.lineBodies t).filterMap fun body =>
    (edit? fragmentTag (t.drop body)).map (·.shift body)

end PugShorthand.Template.Component
