import PugShorthand.Fault

namespace PugShorthand

/-- A text is the list of its UTF-8 bytes, so that an offset is an index and every cut is exact. -/
abbrev Text := List UInt8

namespace Text

def ofString (s : String) : Text :=
  s.toList.flatMap String.utf8EncodeChar

def toString? (t : Text) : Option String :=
  String.fromUTF8? ⟨t.toArray⟩

def isBlank (b : UInt8) : Bool :=
  b == ' '.toUInt8 || b == '\t'.toUInt8 || b == '\n'.toUInt8 || b == '\r'.toUInt8

def isUpper (b : UInt8) : Bool :=
  'A'.toUInt8 ≤ b && b ≤ 'Z'.toUInt8

def isLower (b : UInt8) : Bool :=
  'a'.toUInt8 ≤ b && b ≤ 'z'.toUInt8

def isDigit (b : UInt8) : Bool :=
  '0'.toUInt8 ≤ b && b ≤ '9'.toUInt8

-- The second and later bytes of a character are `10xxxxxx`, and no first byte is.
def isContinuation (b : UInt8) : Bool :=
  b &&& 0xC0 == 0x80

def isBoundary (t : Text) (i : Nat) : Bool :=
  i == 0 ||
    match t[i]? with
    | some b => !isContinuation b
    | none => i == t.length

def isRange (t : Text) (start stop : Nat) : Bool :=
  start ≤ stop && isBoundary t start && isBoundary t stop

def slice (t : Text) (start stop : Nat) : Except Fault Text :=
  if isRange t start stop then .ok ((t.take stop).drop start) else .error (.brokenRange start stop)

def splice (t : Text) (start stop : Nat) (new : Text) : Except Fault Text :=
  if isRange t start stop then .ok (t.take start ++ new ++ t.drop stop)
  else .error (.brokenRange start stop)

def braced (t : Text) : Text :=
  '{'.toUInt8 :: t ++ ['}'.toUInt8]

def escape (quote : UInt8) (t : Text) : Text :=
  t.flatMap fun b => if b = quote then ['\\'.toUInt8, b] else [b]

def replace (old new : UInt8) (t : Text) : Text :=
  t.map fun b => if b = old then new else b

def after? (mark t : Text) : Option Text :=
  if mark.isPrefixOf t then some (t.drop mark.length) else none

def dropTrailing (b : UInt8) (t : Text) : Text :=
  if t.getLast? = some b then t.dropLast else t

def find? (needle : Text) : Text → Option Nat
  | [] => if needle.isEmpty then some 0 else none
  | b :: rest =>
    if needle.isPrefixOf (b :: rest) then some 0 else (find? needle rest).map (· + 1)

def run (p : UInt8 → Bool) (t : Text) : Nat :=
  (t.takeWhile p).length

end Text

end PugShorthand
