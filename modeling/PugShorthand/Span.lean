import PugShorthand.Text.Basic

namespace PugShorthand

structure Span where
  start : Nat
  stop : Nat
  deriving DecidableEq, Repr

namespace Span

def length (s : Span) : Nat :=
  s.stop - s.start

def isEmpty (s : Span) : Bool :=
  s.start == s.stop

def shift (n : Nat) (s : Span) : Span :=
  ⟨n + s.start, n + s.stop⟩

def text (s : Span) (t : Text) : Except Fault Text :=
  Text.slice t s.start s.stop

def inner (s : Span) (t : Text) : Except Fault Text :=
  if s.length < 2 then .ok [] else Text.slice t (s.start + 1) (s.stop - 1)

end Span

end PugShorthand
