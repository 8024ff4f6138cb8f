import PugShorthand.Config.Basic
import PugShorthand.Toml.Document

namespace PugShorthand.Config

open Toml

def text? (value : Option Value) (default : Text) : Option Text :=
  match value with
  | none => some default
  | some (.string s) => some (Text.ofString s)
  | some _ => none

def texts? (value : Option Value) (default : List Text) : Option (List Text) :=
  match value with
  | none => some default
  | some (.array _ items) => items.mapM fun item => text? (some item) []
  | some _ => none

-- Entries without a meaning are skipped, but their numbers have to be readable.
def skips (known : List String) (entries : Entries) : Bool :=
  entries.all fun (key, v) => known.contains key || v.isRepresentable

-- The two parts can be named or listed in order. A date carries neither, and is read as a table
-- without entries of this name.
def naming? : Option Value → Option Export.Naming
  | none | some .datetime => some {}
  | some (.table _ entries) => do
    guard (skips ["prefix", "suffix"] entries)
    parts (entries.lookup "prefix") (entries.lookup "suffix")
  | some (.array _ items) => parts items[0]? items[1]?
  | some _ => none
where
  parts (before after : Option Value) : Option Export.Naming := do
    let default : Export.Naming := {}
    return ⟨← text? before default.before, ← text? after default.after⟩

def ofEntries? (entries : Entries) : Option Config := do
  let default : Config := {}
  guard (skips ["template_lang", "fragment_tag", "closing_blocks", "exports"] entries)
  return {
    templateLang := ← text? (entries.lookup "template_lang") default.templateLang
    fragmentTag := ← text? (entries.lookup "fragment_tag") default.fragmentTag
    closingBlocks := ← texts? (entries.lookup "closing_blocks") default.closingBlocks
    naming := ← naming? (entries.lookup "exports") }

def parse (source : String) : Except Fault Config :=
  match (Document.parse? source).bind ofEntries? with
  | some config => .ok config
  | none => .error .invalidConfig

end PugShorthand.Config
