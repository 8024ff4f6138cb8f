import PugShorthand.Toml.Parser

namespace PugShorthand.Toml.Parser

def hexDigit? (c : Char) : Option Nat :=
  if '0' ≤ c ∧ c ≤ '9' then some (c.toNat - '0'.toNat)
  else if 'a' ≤ c ∧ c ≤ 'f' then some (c.toNat - 'a'.toNat + 10)
  else if 'A' ≤ c ∧ c ≤ 'F' then some (c.toNat - 'A'.toNat + 10)
  else none

def codePoint (width : Nat) : Parser Char := do
  let written := (← get).take width
  skip width
  let digits ← written.mapM fun c => (hexDigit? c : Option Nat)
  guard (digits.length = width)
  let n := digits.foldl (fun n d => n * 16 + d) 0
  guard n.isValidChar
  return Char.ofNat n

def escapeSequence : Parser Char := do
  match ← next with
  | 'b' => return '\x08'
  | 't' => return '\t'
  | 'n' => return '\n'
  | 'f' => return '\x0c'
  | 'r' => return '\r'
  | 'e' => return '\x1b'
  | '"' => return '"'
  | '\\' => return '\\'
  | 'x' => codePoint 2
  | 'u' => codePoint 4
  | 'U' => codePoint 8
  | _ => failure

def basicString : Parser (List Char) :=
  bounded loop
where
  loop : Nat → Parser (List Char)
    | 0 => failure
    | n + 1 => do
      match ← next with
      | '"' => return []
      | '\\' => return (← escapeSequence) :: (← loop n)
      | c =>
        guard (isPrintable c)
        return c :: (← loop n)

def literalString : Parser (List Char) := do
  let body ← takeWhile fun c => isPrintable c && c ≠ '\''
  expect "'"
  return body

def lineContinuation : Parser Bool := do
  let rest ← get
  blanks
  if ← newline then
    blankLines
    return true
  else
    set rest
    return false

-- Three quotes close; up to two more in front of them are text.
def closingQuotes? (quote : Char) : Parser (Option (List Char)) := do
  let quotes := (← get).takeWhile (· = quote)
  if quotes.length < 3 then return none
  else
    guard (quotes.length ≤ 5)
    skip quotes.length
    return some (quotes.drop 3)

def lineBreak? : Parser (Option (List Char)) := do
  if ← accept "\n" then return some ['\n']
  else if ← accept "\r\n" then return some ['\r', '\n']
  else return none

-- The rest of a string over several lines. A newline right behind the opening quotes is no part
-- of it, and a backslash has a meaning only between double quotes.
def multiline (quote : Char) : Parser (List Char) := do
  let _ ← newline
  bounded loop
where
  loop : Nat → Parser (List Char)
    | 0 => failure
    | n + 1 => do
      if let some body ← closingQuotes? quote then return body
      if let some written ← lineBreak? then return written ++ (← loop n)
      let c ← next
      if c = '\\' ∧ quote = '"' then
        if ← lineContinuation then loop n
        else return (← escapeSequence) :: (← loop n)
      else
        guard (isPrintable c)
        return c :: (← loop n)

def string? : Parser (Option String) := do
  if ← accept "\"\"\"" then return some (String.ofList (← multiline '"'))
  else if ← accept "'''" then return some (String.ofList (← multiline '\''))
  else if ← accept "\"" then return some (String.ofList (← basicString))
  else if ← accept "'" then return some (String.ofList (← literalString))
  else return none

def isBareKey (c : Char) : Bool :=
  c.isAlphanum || c = '_' || c = '-'

def simpleKey : Parser String := do
  if ← accept "\"" then return String.ofList (← basicString)
  else if ← accept "'" then return String.ofList (← literalString)
  else
    let key ← takeWhile isBareKey
    guard !key.isEmpty
    return String.ofList key

def key : Parser (List String × String) :=
  bounded loop
where
  loop : Nat → Parser (List String × String)
    | 0 => failure
    | n + 1 => do
      let name ← simpleKey
      blanks
      if ← accept "." then
        blanks
        let (path, last) ← loop n
        return (name :: path, last)
      else return ([], name)

end PugShorthand.Toml.Parser
