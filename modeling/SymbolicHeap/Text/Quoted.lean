/-
Quoted text, as names and values appear inside messages.

A text is put between single quotes, or between double quotes when it
holds a single one and no double one.  The quote in use and the backslash
are escaped by a backslash; the line and column marks have their letters;
other hidden characters, and surrogates, are written by their code in as
few of two, four or eight hexadecimal digits as hold it.
-/
import SymbolicHeap.Text.Points
import SymbolicHeap.Text.Printable

namespace SymbolicHeap.Text

/-- One hexadecimal digit, lower case. -/
def hexDigit (n : Nat) : Char :=
  if n < 10 then Char.ofNat ('0'.toNat + n) else Char.ofNat ('a'.toNat + (n - 10))

/-- The lowest `width` hexadecimal digits of a number, highest first. -/
def hexDigits : (width : Nat) → Nat → List Char
  | 0, _ => []
  | width + 1, n => hexDigits width (n / 16) ++ [hexDigit (n % 16)]

/-- The code of what is hidden, behind the letter that tells its
width. -/
def escapeCode (code : Nat) : List Char :=
  if code < 0x100 then '\\' :: 'x' :: hexDigits 2 code
  else if code < 0x10000 then '\\' :: 'u' :: hexDigits 4 code
  else '\\' :: 'U' :: hexDigits 8 code

/-- What stands for a character between quotes of the given kind. -/
def escapeChar (quote c : Char) : List Char :=
  if c = quote ∨ c = '\\' then ['\\', c]
  else if c = '\n' then ['\\', 'n']
  else if c = '\t' then ['\\', 't']
  else if c = '\r' then ['\\', 'r']
  else if isPrintable c then [c]
  else escapeCode c.toNat

/-- What stands for a code point. -/
def escapePoint (quote : Char) (point : Nat) : List Char :=
  if isSurrogate point then escapeCode point else escapeChar quote (Char.ofNat point)

/-- The quote that needs the fewest escapes, single unless it occurs alone. -/
def quoteFor (chars : List Char) : Char :=
  if '\'' ∈ chars ∧ '"' ∉ chars then '"' else '\''

/-- A text in quotes. -/
def quoted (text : String) : String :=
  let quote := quoteFor text.toList
  String.ofList (quote :: (points text.toList).flatMap (escapePoint quote) ++ [quote])

/-- What is said of a text that cannot be encoded: where its first
surrogates are. -/
def complaint (text : String) : String :=
  let before := (points text.toList).takeWhile fun point => !isSurrogate point
  let row := ((points text.toList).drop before.length).takeWhile isSurrogate
  let first := before.length
  let last := first + row.length - 1
  let written := String.ofList (row.flatMap escapeCode)
  let place :=
    if first = last then s!"character '{written}' in position {first}"
    else s!"characters in position {first}-{last}"
  s!"'utf-8' codec can't encode {place}: surrogates not allowed"

end SymbolicHeap.Text
