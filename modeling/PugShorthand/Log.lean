import PugShorthand.Config.Discovery
import PugShorthand.Document

namespace PugShorthand

namespace Log

inductive Level where
  | debug
  | trace
  deriving DecidableEq, Repr

inductive Field where
  | text (t : Text)
  | number (n : Nat)
  deriving DecidableEq, Repr

-- A line of the log. `span` opens the stretch of work the lines behind it belong to.
inductive Record where
  | span (name : String) (fields : List (String × Field))
  | message (level : Level) (text : String) (fields : List (String × Field))
  deriving DecidableEq, Repr

end Log

inductive Event where
  | expanding (filename : Text)
  | restoring (filename : Text)
  | noRegion (lang : Text)
  | components (count : Nat)
  | lists (count : Nat)
  | statements (count : Nat)
  | exports (count : Nat)
  | tags (count : Nat)
  | comment (block : Span)
  | exported (name binding : Text)
  | unclosedList (tag : Text)
  | list (tag : Text) (attributes : Nat)
  | statement (kind : Text)
  | placed (placement : Export.Placement)
  | config (path : Text)
  deriving DecidableEq, Repr

namespace Event

open Log

def record : Event → Record
  | expanding filename => .span "pre" [("filename", .text filename)]
  | restoring filename => .span "post" [("filename", .text filename)]
  | noRegion lang => .message .debug "no template region found" [("lang", .text lang)]
  | components count => .message .debug "qualifying components" [("count", .number count)]
  | lists count => .message .debug "rewriting attribute lists" [("count", .number count)]
  | statements count => .message .debug "rewriting block statements" [("count", .number count)]
  | exports count => .message .debug "injecting exports" [("count", .number count)]
  | tags count => .message .debug "qualified tag names rewritten" [("tags", .number count)]
  | comment block =>
    .message .trace "removing commented attribute block"
      [("from", .number block.start), ("to", .number block.stop)]
  | exported name binding =>
    .message .trace "exporting attribute" [("name", .text name), ("binding", .text binding)]
  | unclosedList tag => .message .trace "attribute list is never closed" [("tag", .text tag)]
  | list tag attributes =>
    .message .trace "rewriting attribute list"
      [("tag", .text tag), ("attributes", .number attributes)]
  | statement kind => .message .trace "rewriting block statement" [("kind", .text kind)]
  | placed (.extend block) =>
    .message .debug "extending existing export statement" [("offset", .number block.start)]
  | placed (.append offset) =>
    .message .debug "appending exports to script block" [("offset", .number offset)]
  | placed .create => .message .debug "prepending script block for exports" []
  | config path => .message .debug "loading config" [("path", .text path)]

end Event

namespace Attribute

def exportEvents (naming : Export.Naming) (exports : List Export) : List Event :=
  exports.map fun e => .exported e.name (naming.binding e.name)

def Rendering.events (naming : Export.Naming) (r : Rendering) : List Event :=
  exportEvents naming r.exports

def Expander.progress (r : Expander) : List Token → Expander
  | [] => r
  | k :: rest =>
    match r.push k with
    | .ok r => r.progress rest
    | .error _ => r

def renderEvents (naming : Export.Naming) (tokens : List Token) : List Event :=
  exportEvents naming (({ naming } : Expander).progress tokens).exports

def renderAllEvents (naming : Export.Naming) : List (List Token) → List Event
  | [] => []
  | tokens :: rest =>
    renderEvents naming tokens ++
      match render naming tokens with
      | .ok _ => renderAllEvents naming rest
      | .error _ => []

def Expansion.events (naming : Export.Naming) (x : Expansion) : List Event :=
  x.comments.map .comment ++ x.rendering.events naming

end Attribute

namespace Template

def Element.events (naming : Export.Naming) : Element → List Event
  | unclosed tag => [.unclosedList tag]
  | expanded tag _ expansion =>
    expansion.events naming ++ [.list tag expansion.tokens.length]

def Statement.event? : Statement → Option Event
  | opening kind _ => some (.statement kind)
  | closing _ => none

def Statement.events (occurrences : List Statement.Occurrence) : List Event :=
  occurrences.filterMap (·.statement.event?)

end Template

namespace Document

def Layers.events (naming : Export.Naming) (l : Layers) : List Event :=
  [.components l.components.length]
    ++ l.elements.flatMap (Template.Element.events naming)
    ++ [.lists (Template.Element.edits l.elements).length]
    ++ Template.Statement.events l.statements
    ++ [.statements l.statements.length]

def Outcome.events (config : Config) (filename : Text) (o : Outcome) : List Event :=
  .expanding filename ::
    match o with
    | untouched _ lang => [.noRegion lang]
    | expanded layers placement _ =>
      layers.events config.naming ++
        match placement with
        | some placement => [.exports layers.exports.size, .placed placement]
        | none => []

def restoreEvents (filename content : Text) : List Event :=
  [.restoring filename, .tags (Markup.Tag.edits content).length]

end Document

def Config.loadEvents (tree : FileTree) (root : String) : List Event :=
  (locate? tree root).toList.map fun path => .config (Text.ofString (join root path))

end PugShorthand
