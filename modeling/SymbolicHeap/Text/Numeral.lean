/-
Whole numbers read from text.

Between white space a number is a sign or none, then digits of any script,
where one underscore may stand between two digits.  A row of more than
`maxDigits` digits is not read.
-/
import SymbolicHeap.Text.Blank

namespace SymbolicHeap.Text

/-- Code points of the zeros of the decimal digit rows beyond ASCII; each
is followed by the digits one to nine. -/
def digitRows : List Nat :=
  [0x660, 0x6f0, 0x7c0, 0x966, 0x9e6, 0xa66, 0xae6, 0xb66, 0xbe6, 0xc66, 0xce6, 0xd66, 0xde6,
   0xe50, 0xed0, 0xf20, 0x1040, 0x1090, 0x17e0, 0x1810, 0x1946, 0x19d0, 0x1a80, 0x1a90, 0x1b50,
   0x1bb0, 0x1c40, 0x1c50, 0xa620, 0xa8d0, 0xa900, 0xa9d0, 0xa9f0, 0xaa50, 0xabf0, 0xff10,
   0x104a0, 0x10d30, 0x11066, 0x110f0, 0x11136, 0x111d0, 0x112f0, 0x11450, 0x114d0, 0x11650,
   0x116c0, 0x11730, 0x118e0, 0x11950, 0x11c50, 0x11d50, 0x11da0, 0x16a60, 0x16ac0, 0x16b50,
   0x1d7ce, 0x1d7d8, 0x1d7e2, 0x1d7ec, 0x1d7f6, 0x1e140, 0x1e2f0, 0x1e950, 0x1fbf0]

/-- The value of a decimal digit of any script. -/
def digitValue? (c : Char) : Option Nat :=
  (('0'.toNat :: digitRows).find? fun row => row ≤ c.toNat && c.toNat < row + 10).map
    (c.toNat - ·)

/-- The longest row of decimal digits that is read as a whole number; what
is longer takes too long to convert. -/
def maxDigits : Nat := 4300

/-- Reads the digits that follow a digit, given the value so far. -/
def readDigits (value : Nat) : List Char → Option Nat
  | [] => some value
  | '_' :: c :: rest =>
      match digitValue? c with
      | some d => readDigits (10 * value + d) rest
      | none => none
  | c :: rest =>
      match digitValue? c with
      | some d => readDigits (10 * value + d) rest
      | none => none

/-- Reads a number without sign. -/
def readNatural : List Char → Option Nat
  | [] => none
  | c :: rest =>
      match digitValue? c with
      | some d => readDigits d rest
      | none => none

/-- Reads a number with or without sign. -/
def readSigned : List Char → Option Int
  | '-' :: rest => (readNatural rest).map fun n => -(n : Int)
  | '+' :: rest => (readNatural rest).map fun n => (n : Int)
  | chars => (readNatural chars).map fun n => (n : Int)

/-- The whole number that a text stands for. -/
def integer? (text : String) : Option Int :=
  let chars := trim isSpace text.toList
  if maxDigits < chars.countP (fun c => (digitValue? c).isSome) then none else readSigned chars

end SymbolicHeap.Text
