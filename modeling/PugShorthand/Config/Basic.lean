import PugShorthand.Export.Naming

namespace PugShorthand

structure Config where
  -- The language of the template region that is expanded.
  templateLang : Text := Text.ofString "pug"
  -- Stands in for the tag of an attribute list that has none.
  fragmentTag : Text := Text.ofString "svelte:fragment"
  -- The kinds of block statement whose closing is dropped.
  closingBlocks : List Text := ["if", "await", "key", "each"].map Text.ofString
  naming : Export.Naming := {}
  deriving DecidableEq, Repr

def Config.closes (c : Config) (kind : Text) : Bool :=
  c.closingBlocks.contains kind

end PugShorthand
