import PugShorthand.Text.Basic

namespace PugShorthand

structure Edit where
  start : Nat
  stop : Nat
  text : Text
  deriving DecidableEq, Repr

namespace Edit

def insertion (offset : Nat) (text : Text) : Edit :=
  ⟨offset, offset, text⟩

def deletion (start stop : Nat) : Edit :=
  ⟨start, stop, []⟩

def shift (n : Nat) (e : Edit) : Edit :=
  ⟨n + e.start, n + e.stop, e.text⟩

def apply (e : Edit) (t : Text) : Except Fault Text :=
  Text.splice t e.start e.stop e.text

def place (e : Edit) : List Edit → List Edit
  | [] => [e]
  | x :: rest => if x.start < e.start then e :: x :: rest else x :: place e rest

-- The edits by falling start; those of one start stay in order.
def latestFirst (edits : List Edit) : List Edit :=
  edits.foldl (fun placed e => place e placed) []

end Edit

structure Draft where
  base : Text := []
  edits : List Edit := []
  deriving DecidableEq, Repr

namespace Draft

def record (d : Draft) (e : Edit) : Draft :=
  { d with edits := d.edits ++ [e] }

def recordAll (d : Draft) (es : List Edit) : Draft :=
  { d with edits := d.edits ++ es }

def pending (d : Draft) : Nat :=
  d.edits.length

/-- The base with every edit made. The last edit comes first, so that no replacement moves the
bytes an edit still to come refers to. -/
def preview (d : Draft) : Except Fault Text :=
  (Edit.latestFirst d.edits).foldlM (fun t e => e.apply t) d.base

def commit (d : Draft) : Except Fault Draft := do
  return { base := ← d.preview }

def finish (d : Draft) : Except Fault Text := do
  return (← d.commit).base

end Draft

def Edit.applyAll (edits : List Edit) (t : Text) : Except Fault Text :=
  ({ base := t, edits } : Draft).finish

end PugShorthand
