namespace PugShorthand.Toml

-- A parser takes what it reads off the front of the remaining characters, or fails for good.
abbrev Parser := StateT (List Char) Option

namespace Parser

def peek? : Parser (Option Char) := do
  return (← get).head?

def next : Parser Char := do
  match ← get with
  | c :: rest => set rest; return c
  | [] => failure

def skip (n : Nat) : Parser Unit :=
  modify (·.drop n)

def takeWhile (p : Char → Bool) : Parser (List Char) := do
  let rest ← get
  set (rest.dropWhile p)
  return rest.takeWhile p

def accept (mark : String) : Parser Bool := do
  let rest ← get
  if mark.toList.isPrefixOf rest then
    set (rest.drop mark.length)
    return true
  else return false

def expect (mark : String) : Parser Unit := do
  guard (← accept mark)

-- Runs a loop that reads at least one character each time round: the number of characters is
-- bound enough.
def bounded {α : Type} (loop : Nat → Parser α) : Parser α := do
  loop ((← get).length + 1)

def isPrintable (c : Char) : Bool :=
  c = '\t' || (0x20 ≤ c.toNat && c.toNat ≠ 0x7F)

def isBlank (c : Char) : Bool :=
  c = ' ' || c = '\t'

def blanks : Parser Unit := do
  let _ ← takeWhile isBlank

def newline : Parser Bool := do
  if ← accept "\n" then return true else accept "\r\n"

def comment : Parser Unit := do
  if ← accept "#" then
    let _ ← takeWhile isPrintable

def endOfLine : Parser Unit := do
  blanks
  comment
  unless ← newline do
    guard (← get).isEmpty

def blankLines : Parser Unit :=
  bounded loop
where
  loop : Nat → Parser Unit
    | 0 => failure
    | n + 1 => do
      blanks
      if ← newline then loop n

def gap : Parser Unit :=
  bounded loop
where
  loop : Nat → Parser Unit
    | 0 => failure
    | n + 1 => do
      blanks
      comment
      if ← newline then loop n

end Parser

end PugShorthand.Toml
