import PugShorthand.Toml.Parser
import PugShorthand.Toml.Value

namespace PugShorthand.Toml.Scalar

def digitValue (c : Char) : Nat :=
  if c.isDigit then c.toNat - '0'.toNat else c.toLower.toNat - 'a'.toNat + 10

def ofDigits (base : Nat) (digits : List Char) : Nat :=
  digits.foldl (fun n c => n * base + digitValue c) 0

def isDigitOf (base : Nat) (c : Char) : Bool :=
  (c.isDigit || ('a' ≤ c.toLower && c.toLower ≤ 'f')) && digitValue c < base

def digits? (base : Nat) : List Char → Option (List Char)
  | [] => none
  | [c] => if isDigitOf base c then some [c] else none
  | c :: '_' :: rest => if isDigitOf base c then (digits? base rest).map (c :: ·) else none
  | c :: rest => if isDigitOf base c then (digits? base rest).map (c :: ·) else none

def natural? (written : List Char) : Option Nat := do
  let digits ← digits? 10 written
  guard (digits.head? ≠ some '0' ∨ digits.length = 1)
  return ofDigits 10 digits

def sign : List Char → Bool × List Char
  | '+' :: rest => (false, rest)
  | '-' :: rest => (true, rest)
  | rest => (false, rest)

def isDivided (last : Char) : List Char → Bool
  | [] => true
  | c :: rest =>
    (c ≠ '_' || (isDigitOf 16 last && rest.head?.any (isDigitOf 16))) && isDivided c rest

-- From its first underscore on, a decimal numeral can hold what is no digit, and is then without a
-- number.
def isLoose (written : List Char) : Bool :=
  let rest := written.dropWhile Char.isDigit
  written.head?.any (fun c => '1' ≤ c && c ≤ '9') && rest.head? = some '_' &&
    !rest.any (fun c => c = ' ' || c = '.' || c = 'e' || c = 'E') && isDivided '0' rest

-- Behind the mark of a base there can be no digits at all, which is no number either.
def based? (base : Nat) (written : List Char) : Option (Option Int) :=
  if written.isEmpty then some none
  else (digits? base written).map fun ds => some (ofDigits base ds)

def integer? : List Char → Option (Option Int)
  | '0' :: 'x' :: rest => based? 16 rest
  | '0' :: 'o' :: rest => based? 8 rest
  | '0' :: 'b' :: rest => based? 2 rest
  | written =>
    let (negative, rest) := sign written
    match natural? rest with
    | some n => some (some (if negative then -n else n))
    | none => if isLoose rest then some none else none

def isExponentMark (c : Char) : Bool :=
  c = 'e' || c = 'E'

def exponent? (written : List Char) : Option Int := do
  let (negative, rest) := sign written
  let n := ofDigits 10 (← digits? 10 rest)
  return if negative then -n else n

def splitAt (p : Char → Bool) (cs : List Char) : List Char × Option (List Char) :=
  (cs.takeWhile (!p ·), (cs.dropWhile (!p ·)).tail?)

def decimal? (written : List Char) : Option Decimal := do
  let (mantissa, exponent) := splitAt isExponentMark written
  let (whole, fraction) := splitAt (· = '.') mantissa
  guard (fraction.isSome ∨ exponent.isSome)
  let whole ← natural? whole
  let fraction ← (fraction.map (digits? 10)).getD (some [])
  let exponent ← (exponent.map exponent?).getD (some 0)
  return ⟨whole * Nat.pow 10 fraction.length + ofDigits 10 fraction, exponent - fraction.length⟩

def float? (written : List Char) : Option (Option Decimal) :=
  let (_, rest) := sign written
  if rest = ['i', 'n', 'f'] ∨ rest = ['n', 'a', 'n'] then some none
  else (decimal? rest).map some

def isLeapYear (year : Nat) : Bool :=
  year % 4 = 0 && (year % 100 ≠ 0 || year % 400 = 0)

def daysOf (year month : Nat) : Nat :=
  if month = 2 then if isLeapYear year then 29 else 28
  else if month = 4 ∨ month = 6 ∨ month = 9 ∨ month = 11 then 30
  else 31

def fixed? (width : Nat) (cs : List Char) : Option (Nat × List Char) :=
  let digits := cs.take width
  if digits.length = width ∧ digits.all Char.isDigit then some (ofDigits 10 digits, cs.drop width)
  else none

def after? (mark : Char) : List Char → Option (List Char)
  | [] => none
  | c :: rest => if c = mark then some rest else none

def date? (cs : List Char) : Option (List Char) := do
  let (year, cs) ← fixed? 4 cs
  let (month, cs) ← fixed? 2 (← after? '-' cs)
  let (day, cs) ← fixed? 2 (← after? '-' cs)
  guard (1 ≤ month ∧ month ≤ 12 ∧ 1 ≤ day ∧ day ≤ daysOf year month)
  return cs

def fraction? (cs : List Char) : Option (List Char) :=
  match cs with
  | '.' :: rest => do
    guard (rest.head?.any Char.isDigit)
    return rest.dropWhile Char.isDigit
  | _ => some cs

def time? (cs : List Char) : Option (List Char) := do
  let (hour, cs) ← fixed? 2 cs
  let (minute, cs) ← fixed? 2 (← after? ':' cs)
  guard (hour ≤ 23 ∧ minute ≤ 59)
  match after? ':' cs with
  | none => return cs
  | some cs =>
    let (second, cs) ← fixed? 2 cs
    guard (second ≤ 60)
    fraction? cs

def isOffset : List Char → Bool
  | [] => true
  | [c] => c = 'Z' || c = 'z'
  | c :: rest =>
    let written := do
      let (hour, cs) ← fixed? 2 rest
      let (minute, cs) ← fixed? 2 (← after? ':' cs)
      return hour ≤ 23 && minute ≤ 59 && cs.isEmpty
    (c = '+' || c = '-') && written.getD false

def isDatetime (cs : List Char) : Bool :=
  match date? cs with
  | some [] => true
  | some (c :: rest) => (c = 'T' || c = 't' || c = ' ') && (time? rest).any isOffset
  | none => (time? cs).any List.isEmpty

def ofChars? (written : List Char) : Option Value :=
  if written = "true".toList then some (.boolean true)
  else if written = "false".toList then some (.boolean false)
  else
    ((integer? written).map Value.integer).or <|
    ((float? written).map Value.float).or <|
    if isDatetime written then some .datetime else none

def isWordChar (c : Char) : Bool :=
  !"=,[]\x7b\x7d# \t\r\n".toList.contains c

def startsWord (c : Char) : Bool :=
  isWordChar c && c ≠ '.' && c ≠ '"' && c ≠ '\''

def words : Parser (List Char) :=
  Parser.bounded loop
where
  loop : Nat → Parser (List Char)
    | 0 => failure
    | n + 1 => do
      let word ← Parser.takeWhile isWordChar
      let blanks := (← get).takeWhile Parser.isBlank
      if !blanks.isEmpty && ((← get).drop blanks.length).head?.any startsWord then
        Parser.skip blanks.length
        return word ++ blanks ++ (← loop n)
      else return word

-- A number, truth value, date or time. All words up to the next mark are taken for one value, for a
-- space can divide a date from a time.
def parse : Parser Value := do
  ofChars? (← words)

end PugShorthand.Toml.Scalar
