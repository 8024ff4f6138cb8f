import PugShorthand.Text.Basic

namespace PugShorthand.Export

structure Naming where
  before : Text := Text.ofString "__export_"
  after : Text := Text.ofString "__"
  deriving DecidableEq, Repr

def Naming.binding (n : Naming) (name : Text) : Text :=
  n.before ++ name ++ n.after

end PugShorthand.Export
