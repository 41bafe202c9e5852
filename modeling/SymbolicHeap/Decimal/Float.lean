/-
Floats of exact numbers, and exact numbers of floats.

The float nearest to a quotient is found by its bits.  The quotient is
counted in units of the last of fifty-three binary places, but never in
smaller ones than the least float, and the count is rounded to even.
Exponent and count are then added up: a count of fifty-three places
carries its first one into the exponent, where it stands for itself.
-/
import SymbolicHeap.Decimal.Fixed
import SymbolicHeap.Decimal.Shortest

namespace SymbolicHeap.Decimal

-- ======================================================== exact to float

/-- The greatest `power` with `2^power ≤ numerator / denominator`, for a
quotient above zero. -/
def binaryPower (numerator denominator : Nat) : Int :=
  let power : Int := (numerator.log2 : Int) - denominator.log2
  if numerator <<< (-power).toNat < denominator <<< power.toNat then power - 1 else power

/-- The bits of the float nearest to a quotient, a tie going to the even
one.  Beyond the greatest float they are those of infinity. -/
def nearestBits (numerator denominator : Nat) : Nat :=
  if numerator = 0 then 0
  else
    let exponent := max (binaryPower numerator denominator - 52) (-1074)
    let count :=
      roundToEven (numerator <<< (-exponent).toNat) (denominator <<< exponent.toNat)
    min (((exponent + 1074).toNat <<< 52) + count) 0x7ff0000000000000

/-- The float nearest to a quotient. -/
def nearest (numerator denominator : Nat) : Float :=
  Float.ofBits (UInt64.ofNat (nearestBits numerator denominator))

/-- The float nearest to a whole number, unless that is infinite. -/
def ofInt? (n : Int) : Option Float :=
  let size := nearest n.natAbs 1
  if size.isInf then none else some (if n < 0 then -size else size)

/-- The value of a row of decimal digits. -/
def digitsValue (digits : List Char) : Nat :=
  digits.foldl (fun value c => 10 * value + (c.toNat - '0'.toNat)) 0

/-- The float nearest to `significand · 10^exponent`.  Beyond four hundred
places the answer is infinity or zero whatever the digits are. -/
def toFloat (significand : Nat) (exponent : Int) : Float :=
  let places : Int := (Nat.toDigits 10 significand).length + exponent
  if significand = 0 ∨ places < -400 then 0
  else if 400 < places then 1 / 0
  else nearest (significand * tenTo exponent) (tenTo (-exponent))

-- ======================================================== float to exact

/-- A finite float as an exact fraction. -/
def fraction? (x : Float) : Option (Int × Nat) :=
  if x.isFinite then
    let parts := Parts.ofBits x.toBits.toNat
    let size := parts.significand <<< parts.exponent.toNat
    some (if parts.negative then -(size : Int) else size, 1 <<< (-parts.exponent).toNat)
  else none

/-- A finite float toward zero. -/
def truncate? (x : Float) : Option Int :=
  (fraction? x).map fun (numerator, denominator) => numerator.tdiv denominator

/-- A finite float toward the lesser whole number. -/
def floor? (x : Float) : Option Int :=
  (fraction? x).map fun (numerator, denominator) => numerator.fdiv denominator

/-- The whole number nearest to a finite float, a tie going to the even
one. -/
def round? (x : Float) : Option Int :=
  (fraction? x).map fun (numerator, denominator) =>
    let size : Int := roundToEven numerator.natAbs denominator
    if numerator < 0 then -size else size

/-- A float with three places, a tie going to the even thousandth; the
sign stays even if nothing else does. -/
def fixedText (x : Float) : String :=
  if x.isNaN then "nan"
  else
    let size :=
      match fraction? x with
      | some (numerator, denominator) =>
          thousandthsText (roundToEven (1000 * numerator.natAbs) denominator)
      | none => "inf"
    if (Parts.ofBits x.toBits.toNat).negative then "-" ++ size else size

end SymbolicHeap.Decimal
