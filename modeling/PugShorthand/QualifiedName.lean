import PugShorthand.Edit

namespace PugShorthand

structure QualifiedName where
  separator : UInt8
  isStop : UInt8 → Bool

namespace QualifiedName

def startsUpper (t : Text) : Bool :=
  t.head?.any Text.isUpper

def reach (q : QualifiedName) : Text → Nat
  | [] => 0
  | b :: rest =>
    if b = q.separator then
      if startsUpper rest then q.reach rest + 1 else 0
    else if q.isStop b then 0
    else q.reach rest + 1

-- For a text that begins with a name of at least two segments, the edit that joins them with
-- `separator`. It covers the name from its first separator on.
def rejoin? (q : QualifiedName) (separator : UInt8) (t : Text) : Option Edit :=
  if startsUpper t then
    let name := t.take (q.reach t)
    (name.findIdx? (· == q.separator)).map fun k =>
      ⟨k, name.length, Text.replace q.separator separator (name.drop k)⟩
  else none

def dotted : QualifiedName where
  separator := '.'.toUInt8
  isStop b := Text.isBlank b || b == '('.toUInt8

-- `Forms:Input`, as tags are written where a dot would start a class.
def coloned : QualifiedName where
  separator := ':'.toUInt8
  isStop b := Text.isBlank b || b == '>'.toUInt8

end QualifiedName

end PugShorthand
