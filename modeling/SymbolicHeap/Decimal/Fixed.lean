/-
Decimals with a fixed number of places.
-/
namespace SymbolicHeap.Decimal

/-- A quotient rounded to the nearest integer, a tie to the even one. -/
def roundToEven (numerator denominator : Nat) : Nat :=
  let quotient := numerator / denominator
  let twice := 2 * (numerator % denominator)
  if twice < denominator then quotient
  else if denominator < twice then quotient + 1
  else if quotient % 2 = 0 then quotient
  else quotient + 1

/-- A number in at least `width` digits, zeros in front. -/
def padded (width n : Nat) : String :=
  let digits := Nat.toDigits 10 n
  String.ofList (List.replicate (width - digits.length) '0' ++ digits)

/-- A number of thousandths as a decimal with three places. -/
def thousandthsText (n : Nat) : String :=
  toString (n / 1000) ++ "." ++ padded 3 (n % 1000)

end SymbolicHeap.Decimal
