/-
The words of TOML: blanks and comments, keys, strings, numbers, dates.

Every reader takes the characters that are left and gives back those it
leaves, behind what it read.  Line ends are single line feeds here.
-/
import SymbolicHeap.Decimal.Float
import SymbolicHeap.Datum

namespace SymbolicHeap.Toml

/-- Why a document is not well formed. -/
inductive Fault
  | unexpectedEnd
  | unexpectedCharacter (c : Char)
  /-- A control character in a comment or a string. -/
  | illegalCharacter (c : Char)
  | badEscape
  | noValue
  | badDate
  /-- A whole number in full form is too long to be read. -/
  | tooManyDigits
  /-- A table or a key is declared a second time. -/
  | repeated (path : List String)
  /-- A path leads through something that is not a table. -/
  | notATable (path : List String)
  /-- A value written in full is added to. -/
  | closed (path : List String)
deriving DecidableEq, Repr

/-- A path as dotted keys write it. -/
def pathText (path : List String) : String := ".".intercalate path

def Fault.message : Fault → String
  | unexpectedEnd => "unexpected end of the document"
  | unexpectedCharacter c => s!"unexpected character {Text.quoted (String.singleton c)}"
  | illegalCharacter c => s!"illegal character {Text.quoted (String.singleton c)}"
  | badEscape => "invalid escape in a string"
  | noValue => "invalid value"
  | badDate => "invalid date"
  | tooManyDigits => "a number has too many digits"
  | repeated path => s!"{pathText path} is declared twice"
  | notATable path => s!"{pathText path} is not a table"
  | closed path => s!"{pathText path} cannot be added to"

-- ==================================================== blanks and comments

def isBlank (c : Char) : Bool := c = ' ' || c = '\t'

def isBlankOrLineEnd (c : Char) : Bool := isBlank c || c = '\n'

def skipBlanks (chars : List Char) : List Char := chars.dropWhile isBlank

/-- The control characters, of which only the tab may stand in comments
and strings. -/
def isControl (c : Char) : Bool := c.toNat < 0x20 || c.toNat = 0x7f

def isIllegal (c : Char) : Bool := isControl c && c != '\t'

/-- Lets characters pass that none of is illegal. -/
def requireLegal (illegal : Char → Bool) (chars : List Char) : Except Fault Unit :=
  match chars.find? illegal with
  | some c => .error (.illegalCharacter c)
  | none => .ok ()

/-- Skips a comment, if there is one, up to the end of its line. -/
def skipComment : List Char → Except Fault (List Char)
  | '#' :: rest => do
      requireLegal isIllegal (rest.takeWhile (· ≠ '\n'))
      return rest.dropWhile (· ≠ '\n')
  | chars => .ok chars

/-- Skips blanks, line ends and comments, at most `fuel` comments. -/
def skipLayout : (fuel : Nat) → List Char → Except Fault (List Char)
  | 0, chars => .ok chars
  | fuel + 1, chars =>
      match chars.dropWhile isBlankOrLineEnd with
      | '#' :: rest => do skipLayout fuel (← skipComment ('#' :: rest))
      | rest => .ok rest

-- ================================================================ strings

def hexValue? (c : Char) : Option Nat :=
  if c.isDigit then some (c.toNat - '0'.toNat)
  else if 'a' ≤ c ∧ c ≤ 'f' then some (c.toNat - 'a'.toNat + 10)
  else if 'A' ≤ c ∧ c ≤ 'F' then some (c.toNat - 'A'.toNat + 10)
  else none

/-- The character with a hexadecimal code. -/
def charOfHex (digits : List Char) : Except Fault Char :=
  match digits.mapM hexValue? with
  | some values =>
      let code := values.foldl (fun n d => 16 * n + d) 0
      if code.isValidChar then .ok (Char.ofNat code) else .error .badEscape
  | none => .error .badEscape

/-- The character that a letter stands for behind a backslash. -/
def escaped? : Char → Option Char
  | 'b' => some '\x08'
  | 't' => some '\t'
  | 'n' => some '\n'
  | 'f' => some '\x0c'
  | 'r' => some '\r'
  | '"' => some '"'
  | '\\' => some '\\'
  | _ => none

/-- What a reader of characters gives back: those it read and those it
leaves. -/
abbrev Read := Except Fault (List Char × List Char)

/-- Puts a character in front of what a reader read. -/
def prepend (c : Char) (step : Read) : Read :=
  step.map fun (chars, rest) => (c :: chars, rest)

/-- Goes on with the character that was escaped, if it was one. -/
def prependEscaped (c : Except Fault Char) (step : Read) : Read :=
  c.bind fun c => prepend c step

/-- A string behind its opening quote, on one line. -/
def basicString : List Char → Read
  | [] => .error .unexpectedEnd
  | '"' :: rest => .ok ([], rest)
  | '\\' :: 'u' :: a :: b :: c :: d :: rest =>
      prependEscaped (charOfHex [a, b, c, d]) (basicString rest)
  | '\\' :: 'U' :: a :: b :: c :: d :: e :: f :: g :: h :: rest =>
      prependEscaped (charOfHex [a, b, c, d, e, f, g, h]) (basicString rest)
  | '\\' :: c :: rest =>
      match escaped? c with
      | some c => prepend c (basicString rest)
      | none => .error .badEscape
  | c :: rest => if isIllegal c then .error (.illegalCharacter c) else prepend c (basicString rest)

/-- A literal string behind its opening quote: nothing is escaped. -/
def literalString (chars : List Char) : Read := do
  let body := chars.takeWhile (· ≠ '\'')
  match chars.dropWhile (· ≠ '\'') with
  | [] => throw .unexpectedEnd
  | _ :: rest =>
      requireLegal isIllegal body
      return (body, rest)

/-- What is passed over behind a backslash in a string of several lines. -/
inductive Passing
  | nothing
  /-- Blanks up to the end of the line, which must come. -/
  | toLineEnd
  /-- Blanks and line ends. -/
  | blanks
deriving DecidableEq

/-- A closing delimiter of three quotes may have up to two more in front,
which belong to the string. -/
def closing (quote : Char) : List Char → List Char × List Char
  | c :: d :: rest =>
      if c = quote then if d = quote then ([quote, quote], rest) else ([quote], d :: rest)
      else ([], c :: d :: rest)
  | [c] => if c = quote then ([quote], []) else ([], [c])
  | [] => ([], [])

/-- A string of several lines behind its opening quotes. -/
def multilineString : Passing → List Char → Read
  | _, [] => .error .unexpectedEnd
  | passing, c :: rest =>
      if passing = .toLineEnd then
        if isBlank c then multilineString .toLineEnd rest
        else if c = '\n' then multilineString .blanks rest
        else .error .badEscape
      else if passing = .blanks ∧ isBlankOrLineEnd c then multilineString .blanks rest
      else
        match c, rest with
        | '"', '"' :: '"' :: rest => .ok (closing '"' rest)
        | '\\', 'u' :: a :: b :: c :: d :: rest =>
            prependEscaped (charOfHex [a, b, c, d]) (multilineString .nothing rest)
        | '\\', 'U' :: a :: b :: c :: d :: e :: f :: g :: h :: rest =>
            prependEscaped (charOfHex [a, b, c, d, e, f, g, h]) (multilineString .nothing rest)
        | '\\', '\n' :: rest => multilineString .blanks rest
        | '\\', ' ' :: rest => multilineString .toLineEnd rest
        | '\\', '\t' :: rest => multilineString .toLineEnd rest
        | '\\', e :: rest =>
            match escaped? e with
            | some e => prepend e (multilineString .nothing rest)
            | none => .error .badEscape
        | '\\', [] => .error .unexpectedEnd
        | c, rest =>
            if isIllegal c && c != '\n' then .error (.illegalCharacter c)
            else prepend c (multilineString .nothing rest)

/-- A literal string of several lines behind its opening quotes. -/
def multilineLiteral : List Char → Read
  | [] => .error .unexpectedEnd
  | '\'' :: '\'' :: '\'' :: rest => .ok (closing '\'' rest)
  | c :: rest =>
      if isIllegal c && c != '\n' then .error (.illegalCharacter c)
      else prepend c (multilineLiteral rest)

/-- A line end right behind the opening quotes does not belong to the
string. -/
def dropLineEnd : List Char → List Char
  | '\n' :: rest => rest
  | chars => chars

/-- A string of any kind, if one begins here. -/
def string? : List Char → Option Read
  | '"' :: '"' :: '"' :: rest => some (multilineString .nothing (dropLineEnd rest))
  | '"' :: rest => some (basicString rest)
  | '\'' :: '\'' :: '\'' :: rest => some (multilineLiteral (dropLineEnd rest))
  | '\'' :: rest => some (literalString rest)
  | _ => none

-- =================================================================== keys

def isBare (c : Char) : Bool := c.isAlphanum || c = '-' || c = '_'

/-- One part of a key: bare, or a string on one line. -/
def keyPart : List Char → Except Fault (String × List Char)
  | '"' :: rest => (basicString rest).map fun (chars, rest) => (String.ofList chars, rest)
  | '\'' :: rest => (literalString rest).map fun (chars, rest) => (String.ofList chars, rest)
  | chars =>
      match chars.takeWhile isBare with
      | [] => .error ((chars.head?.map Fault.unexpectedCharacter).getD .unexpectedEnd)
      | bare => .ok (String.ofList bare, chars.dropWhile isBare)

/-- The further parts of a dotted key, at most `fuel` of them. -/
def keyTail : (fuel : Nat) → List Char → Except Fault (List String × List Char)
  | 0, chars => .ok ([], chars)
  | fuel + 1, chars =>
      match skipBlanks chars with
      | '.' :: rest => do
          let (part, rest) ← keyPart (skipBlanks rest)
          let (parts, rest) ← keyTail fuel rest
          return (part :: parts, rest)
      | rest => .ok ([], rest)

/-- A key with the blanks behind it. -/
def key (chars : List Char) : Except Fault (List String × List Char) := do
  let (part, rest) ← keyPart chars
  let (parts, rest) ← keyTail chars.length rest
  return (part :: parts, rest)

-- ================================================================ numbers

/-- The digits that go on a row of digits; an underscore may stand between
two of them. -/
def moreDigits (isDigit : Char → Bool) : List Char → List Char × List Char
  | '_' :: c :: rest =>
      if isDigit c then
        let (digits, rest) := moreDigits isDigit rest
        (c :: digits, rest)
      else ([], '_' :: c :: rest)
  | c :: rest =>
      if isDigit c then
        let (digits, rest) := moreDigits isDigit rest
        (c :: digits, rest)
      else ([], c :: rest)
  | [] => ([], [])

/-- A row of digits, at least one. -/
def digitRow (isDigit : Char → Bool) : List Char → Option (List Char × List Char)
  | c :: rest =>
      if isDigit c then
        let (digits, rest) := moreDigits isDigit rest
        some (c :: digits, rest)
      else none
  | [] => none

/-- The value of digits in a base. -/
def valueInBase (base : Nat) (digits : List Char) : Nat :=
  digits.foldl (fun n c => base * n + (hexValue? c).getD 0) 0

/-- A number with a base mark. -/
def basedNumber? : List Char → Option (Datum × List Char)
  | '0' :: mark :: rest => do
      let base ←
        match mark with
        | 'x' => some 16
        | 'o' => some 8
        | 'b' => some 2
        | _ => none
      let (digits, rest) ← digitRow (fun c => (hexValue? c).any (· < base)) rest
      return (.int (valueInBase base digits), rest)
  | _ => none

/-- The digits behind a decimal point, if there are any. -/
def fractionDigits : List Char → Option (List Char × List Char)
  | '.' :: rest => digitRow Char.isDigit rest
  | _ => none

/-- A sign, if there is one, and whether it is a minus. -/
def sign : List Char → Bool × List Char
  | '-' :: rest => (true, rest)
  | '+' :: rest => (false, rest)
  | chars => (false, chars)

/-- An exponent, if there is one. -/
def exponent? : List Char → Option (Int × List Char)
  | c :: rest =>
      if c = 'e' ∨ c = 'E' then do
        let (negative, rest) := sign rest
        let (digits, rest) ← digitRow Char.isDigit rest
        let size : Int := Decimal.digitsValue digits
        return (if negative then -size else size, rest)
      else none
  | [] => none

/-- The digits in front of the point: none lead with zero but zero. -/
def wholeDigits : List Char → Option (List Char × List Char)
  | '0' :: rest => some (['0'], rest)
  | chars => digitRow Char.isDigit chars

/-- A whole number, unless its digits are too many. -/
def wholeNumber (negative : Bool) (digits : List Char) : Except Fault Datum :=
  if Text.maxDigits < digits.length then .error .tooManyDigits
  else
    let size : Int := Decimal.digitsValue digits
    .ok (.int (if negative then -size else size))

/-- A decimal number: a float if it has a fraction or an exponent. -/
def decimalNumber? (chars : List Char) : Option (Except Fault (Datum × List Char)) := do
  let (negative, rest) := sign chars
  let (whole, rest) ← wholeDigits rest
  let (fraction, rest') := (fractionDigits rest).getD ([], rest)
  match fraction, exponent? rest' with
  | [], none => return (wholeNumber negative whole).map fun value => (value, rest)
  | fraction, power =>
      let (power, rest) := power.getD (0, rest')
      let digits := Decimal.digitsValue (whole ++ fraction)
      let size := Decimal.toFloat digits (power - fraction.length)
      return .ok (.float (if negative then -size else size), rest)

/-- A float that is no number or has no bound. -/
def specialFloat? (chars : List Char) : Option (Datum × List Char) :=
  let (negative, rest) := sign chars
  match rest with
  | 'i' :: 'n' :: 'f' :: rest => some (.float (if negative then -(1 / 0) else 1 / 0), rest)
  | 'n' :: 'a' :: 'n' :: rest => some (.float (0 / 0), rest)
  | _ => none

/-- A number of any kind, if one begins here. -/
def number? (chars : List Char) : Option (Except Fault (Datum × List Char)) :=
  match basedNumber? chars with
  | some read => some (.ok read)
  | none =>
      (decimalNumber? chars).orElse fun _ => (specialFloat? chars).map .ok

-- ================================================================== dates

/-- Two digits with a value in a range. -/
def twoDigits (low high : Nat) : List Char → Option (Nat × List Char)
  | a :: b :: rest =>
      let value := Decimal.digitsValue [a, b]
      if a.isDigit ∧ b.isDigit ∧ low ≤ value ∧ value ≤ high then some (value, rest) else none
  | _ => none

/-- A character that must come next. -/
def mark (c : Char) : List Char → Option (List Char)
  | d :: rest => if d = c then some rest else none
  | [] => none

/-- A time of day; what is left behind it. -/
def timeOfDay? (chars : List Char) : Option (List Char) := do
  let (_, rest) ← twoDigits 0 23 chars
  let (_, rest) ← twoDigits 0 59 (← mark ':' rest)
  let (_, rest) ← twoDigits 0 59 (← mark ':' rest)
  match rest with
  | '.' :: c :: _ => return if c.isDigit then (rest.drop 1).dropWhile Char.isDigit else rest
  | _ => return rest

/-- The distance from universal time, if it is given; what is left. -/
def skipOffset (chars : List Char) : List Char :=
  match chars with
  | [] => []
  | c :: rest =>
      if c = 'Z' ∨ c = 'z' then rest
      else if c = '+' ∨ c = '-' then
        ((do
          let (_, rest) ← twoDigits 0 23 rest
          let (_, rest) ← twoDigits 0 59 (← mark ':' rest)
          return rest : Option (List Char))).getD chars
      else chars

/-- The number of days of a month. -/
def daysIn (year month : Nat) : Nat :=
  if month = 2 then
    if year % 4 = 0 ∧ (year % 100 ≠ 0 ∨ year % 400 = 0) then 29 else 28
  else if month = 4 ∨ month = 6 ∨ month = 9 ∨ month = 11 then 30
  else 31

/-- A date, if the digits make one: year, month, day and what is left. -/
def date? (chars : List Char) : Option (Nat × Nat × Nat × List Char) := do
  let (century, rest) ← twoDigits 0 99 chars
  let (year, rest) ← twoDigits 0 99 rest
  let (month, rest) ← twoDigits 1 12 (← mark '-' rest)
  let (day, rest) ← twoDigits 1 31 (← mark '-' rest)
  return (100 * century + year, month, day, rest)

/-- The time of day behind a date, if there is one; what is left. -/
def skipTime (chars : List Char) : List Char :=
  match chars with
  | c :: rest =>
      if c = 'T' ∨ c = 't' ∨ c = ' ' then
        match timeOfDay? rest with
        | some rest => skipOffset rest
        | none => chars
      else chars
  | [] => []

/-- What was read, given what was left before and after. -/
def writtenBetween (before after : List Char) : Datum :=
  .moment (String.ofList (before.take (before.length - after.length)))

/-- A date with or without a time, or a time, if one begins here. -/
def moment? (chars : List Char) : Option (Except Fault (Datum × List Char)) :=
  match date? chars with
  | some (year, month, day, rest) =>
      if year = 0 ∨ daysIn year month < day then some (.error .badDate)
      else
        let rest := skipTime rest
        some (.ok (writtenBetween chars rest, rest))
  | none => (timeOfDay? chars).map fun rest => .ok (writtenBetween chars rest, rest)

end SymbolicHeap.Toml
