/-
Data of no fixed type.

Literals, field indices and settings arrive as values whose type is only
known when they are looked at.  A datum is such a value; this file holds
its two texts, its truth, its reading as a whole number, and when two
data are equal.

The written text (`literal`) shows a text in quotes, the displayed one
(`display`) shows it bare; inside lists and records both write.
-/
import SymbolicHeap.Decimal.Float
import SymbolicHeap.Text.Numeral
import SymbolicHeap.Text.Quoted

namespace SymbolicHeap

/-- A value whose type is known only when it is looked at. -/
inductive Datum
  | null
  | bool (value : Bool)
  | int (value : Int)
  | float (value : Float)
  | text (value : String)
  /-- A date or a time of day, kept as it was written. -/
  | moment (written : String)
  | list (items : List Datum)
  | record (fields : List (String × Datum))
deriving Inhabited

instance : Coe String Datum := ⟨Datum.text⟩

namespace Datum

-- ================================================================ texts

/-- The name of a datum's type in messages. -/
def typeName : Datum → String
  | null => "NoneType"
  | bool _ => "bool"
  | int _ => "int"
  | float _ => "float"
  | text _ => "str"
  | moment _ => "datetime"
  | list _ => "list"
  | record _ => "dict"

/-- Floats are written in full between one ten-thousandth and ten to the
sixteenth. -/
def floatLayout : Decimal.Layout := ⟨-4, 16⟩

mutual

/-- The written text of a datum. -/
def literal : Datum → String
  | null => "None"
  | bool true => "True"
  | bool false => "False"
  | int value => toString value
  | float value => Decimal.floatText floatLayout value
  | text value => Text.quoted value
  | moment written => written
  | list items => "[" ++ ", ".intercalate (literals items) ++ "]"
  | record fields => "\x7b" ++ ", ".intercalate (fieldLiterals fields) ++ "\x7d"

/-- The written texts of a list's items. -/
def literals : List Datum → List String
  | [] => []
  | item :: rest => literal item :: literals rest

/-- The written texts of a record's fields. -/
def fieldLiterals : List (String × Datum) → List String
  | [] => []
  | (name, value) :: rest => (Text.quoted name ++ ": " ++ literal value) :: fieldLiterals rest

end

/-- The displayed text of a datum: a text is shown bare. -/
def display : Datum → String
  | text value => value
  | other => other.literal

/-- Whether a whole number has few enough digits to be written. -/
def isShort (value : Int) : Bool :=
  (Nat.toDigits 10 value.natAbs).length ≤ Text.maxDigits

mutual

/-- Whether the written text of a datum can be had: all whole numbers in it
are short. -/
def isWritable : Datum → Bool
  | int value => isShort value
  | list items => areWritable items
  | record fields => fieldsAreWritable fields
  | null | bool _ | float _ | text _ | moment _ => true

def areWritable : List Datum → Bool
  | [] => true
  | item :: rest => isWritable item && areWritable rest

def fieldsAreWritable : List (String × Datum) → Bool
  | [] => true
  | (_, value) :: rest => isWritable value && fieldsAreWritable rest

end

-- ============================================================= readings

/-- Whether a datum counts as true: all but the empty and the zero ones
do. -/
def truth : Datum → Bool
  | null => false
  | bool value => value
  | int value => value != 0
  | float value => value != 0
  | text value => value != ""
  | moment _ => true
  | list items => !items.isEmpty
  | record fields => !fields.isEmpty

/-- Why a datum does not stand for a whole number. -/
inductive NoInteger
  /-- It is of a type that no number is read from. -/
  | wrongType
  /-- It is a text without a number, or an undefined float. -/
  | notANumber
  /-- It is an infinite float. -/
  | unbounded
deriving DecidableEq, Repr

/-- The whole number that a datum stands for: floats go toward zero, a
truth value is one or zero, a text is read. -/
def integer : Datum → Except NoInteger Int
  | int value => .ok value
  | bool value => .ok (if value then 1 else 0)
  | float value =>
      match Decimal.truncate? value with
      | some n => .ok n
      | none => .error (if value.isNaN then .notANumber else .unbounded)
  | text value =>
      match Text.integer? value with
      | some n => .ok n
      | none => .error .notANumber
  | null | moment _ | list _ | record _ => .error .wrongType

/-- Whether a float is exactly a whole number. -/
def isWhole (value : Float) (n : Int) : Bool :=
  match Decimal.fraction? value with
  | some (numerator, denominator) => numerator = n * denominator
  | none => false

/-- The natural number that a datum is equal to, if any: truth values are
equal to one and zero, and a float may be whole. -/
def natural? : Datum → Option Nat
  | int (.ofNat n) => some n
  | bool value => some (if value then 1 else 0)
  | float value =>
      match Decimal.truncate? value with
      | some (.ofNat n) => if isWhole value n then some n else none
      | _ => none
  | _ => none

/-- Whether a datum is the given text. -/
def isText (text : String) : Datum → Bool
  | .text other => other = text
  | _ => false

/-- The whole number that counts as a truth value or is one. -/
def count? : Datum → Option Int
  | int value => some value
  | bool value => some (if value then 1 else 0)
  | _ => none

/-- Why a datum does not stand for a float. -/
inductive NoFloat
  /-- It is not a number. -/
  | wrongType
  /-- It is nearer to infinity than to any finite float. -/
  | tooLarge
deriving DecidableEq, Repr

/-- The float that a number counts as: the nearest one. -/
def toFloat : Datum → Except NoFloat Float
  | float value => .ok value
  | other =>
      match other.count? with
      | some n =>
          match Decimal.ofInt? n with
          | some value => .ok value
          | none => .error .tooLarge
      | none => .error .wrongType

/-- The sum of two numbers: a whole one if both are, and else a float. -/
def sum (a b : Datum) : Except NoFloat Datum :=
  match a.count?, b.count? with
  | some m, some n => .ok (.int (m + n))
  | _, _ => do
      let y ← b.toFloat
      let x ← a.toFloat
      return .float (x + y)

/-- Whether two data are equal numbers, whatever their types. -/
def sameNumber : Datum → Datum → Bool
  | float a, float b => a == b
  | float a, b => b.count?.any (isWhole a)
  | a, float b => a.count?.any (isWhole b)
  | a, b =>
      match a.count?, b.count? with
      | some m, some n => m = n
      | _, _ => false

mutual

/-- Whether two data are equal: numbers by value, records whatever the
order of their fields. -/
def same : Datum → Datum → Bool
  | null, null => true
  | text a, text b => a = b
  | moment a, moment b => a = b
  | list as, list bs => sameItems as bs
  | record fields, record others =>
      fields.length = others.length && sameFields fields others
  | a, b => sameNumber a b

/-- Whether two lists have equal items. -/
def sameItems : List Datum → List Datum → Bool
  | [], [] => true
  | a :: as, b :: bs => same a b && sameItems as bs
  | _, _ => false

/-- Whether each field is equal to one of some others. -/
def sameFields : List (String × Datum) → List (String × Datum) → Bool
  | [], _ => true
  | (name, value) :: rest, others =>
      (match others.find? (·.1 = name) with
        | some (_, other) => same value other
        | none => false)
        && sameFields rest others

end

/-- Whether a datum has parts; such a datum is no key of a map. -/
def isCompound : Datum → Bool
  | list _ | record _ => true
  | _ => false

/-- The value of a record's last field of a name. -/
def field? (name : String) (fields : List (String × Datum)) : Option Datum :=
  (fields.reverse.find? (·.1 = name)).map (·.2)

end Datum

end SymbolicHeap
