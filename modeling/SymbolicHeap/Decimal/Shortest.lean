/-
The shortest decimal of a binary fraction.

A finite binary fraction `significand · 2^exponent` is read back from
every decimal in an interval around it: half way to its two neighbours,
the ends included when the significand is even.  The shortest decimal is
the one with the fewest digits in that interval, and the nearest of those
with equally many.  All comparisons are made in whole numbers: the
interval is scaled until its ends and the value itself are naturals over
one denominator.

Only the two points next to the value need a test on each grid of
decimals: if any grid point lies in the interval, so does one of these.
-/
namespace SymbolicHeap.Decimal

/-- A positive decimal `0.d₁d₂… · 10^point`. -/
structure Digits where
  digits : List Char
  point : Int
deriving DecidableEq, Repr

/-- The decimals that are read back as one binary fraction: all over one
denominator, the ends belonging to it or not. -/
structure Interval where
  low : Nat
  value : Nat
  high : Nat
  denominator : Nat
  closed : Bool

/-- The interval of `significand · 2^exponent`; below a power of two the
neighbour is only half as far away. -/
def Interval.around (significand : Nat) (exponent : Int) (powerOfTwo : Bool) : Interval :=
  let scale := 1 <<< (exponent - 2).toNat
  { low := (4 * significand - (if powerOfTwo then 1 else 2)) * scale
    value := 4 * significand * scale
    high := (4 * significand + 2) * scale
    denominator := 1 <<< (2 - exponent).toNat
    closed := significand % 2 = 0 }

/-- How often ten must be applied to reach a bound, at most `fuel` times. -/
def decades (bound : Nat) : (fuel : Nat) → Nat → Nat
  | 0, _ => 0
  | fuel + 1, n => if bound ≤ n then 0 else decades bound fuel (10 * n) + 1

/-- The least `point` with `value < 10^point`. -/
def Interval.point (i : Interval) : Int :=
  if i.denominator ≤ i.value then
    ((Nat.toDigits 10 (i.value / i.denominator)).length : Nat)
  else
    1 - (decades i.denominator (i.denominator.log2 + 1) i.value : Nat)

/-- A power of ten, one below the zeroth. -/
def tenTo (exponent : Int) : Nat :=
  Nat.pow 10 exponent.toNat

/-- Whether `count` steps of `10^(-shift)` lie in the interval. -/
def Interval.contains (i : Interval) (shift : Int) (count : Nat) : Bool :=
  let up := tenTo shift
  let reached := count * i.denominator * tenTo (-shift)
  if i.closed then i.low * up ≤ reached && reached ≤ i.high * up
  else i.low * up < reached && reached < i.high * up

/-- The grid point next to the value that lies in the interval, the nearer
one if both do; of two equally near ones the even one. -/
def Interval.onGrid (i : Interval) (shift : Int) : Option Nat :=
  let scaled := i.value * tenTo shift
  let step := i.denominator * tenTo (-shift)
  let below := scaled / step
  match i.contains shift below, i.contains shift (below + 1) with
  | false, false => none
  | true, false => some below
  | false, true => some (below + 1)
  | true, true =>
      let down := scaled - below * step
      let up := (below + 1) * step - scaled
      if down < up ∨ (down = up ∧ below % 2 = 0) then some below else some (below + 1)

/-- The first grid with a point in the interval, trying `tries` grids from
`count` digits on. -/
def Interval.search (i : Interval) (point : Int) : (tries count : Nat) → Digits
  | 0, _ => ⟨['0'], 1⟩
  | tries + 1, count =>
      match i.onGrid (count - point) with
      | none => i.search point tries (count + 1)
      | some n =>
          let digits := Nat.toDigits 10 n
          ⟨(digits.reverse.dropWhile (· = '0')).reverse, point + digits.length - count⟩

/-- The shortest decimal of `significand · 2^exponent`; seventeen digits
tell any two fractions of 53 bits apart. -/
def shortest (significand : Nat) (exponent : Int) (powerOfTwo : Bool) : Digits :=
  let i := Interval.around significand exponent powerOfTwo
  i.search i.point 17 1

-- ============================================================== layout

/-- Where positional notation ends: the decimal exponents written
without `e`, from `least` up to but not including `bound`. -/
structure Layout where
  least : Int
  bound : Int

/-- The exponent of scientific notation: signed, of two digits or more. -/
def exponentText (e : Int) : List Char :=
  let digits := Nat.toDigits 10 e.natAbs
  (if e < 0 then '-' else '+') :: (if digits.length < 2 then '0' :: digits else digits)

/-- A decimal in the notation that its exponent asks for; positional
notation always has a point with a digit on either side. -/
def Digits.layOut (d : Digits) (layout : Layout) : List Char :=
  let e := d.point - 1
  if layout.least ≤ e ∧ e < layout.bound then
    if d.point ≤ 0 then
      '0' :: '.' :: List.replicate (-d.point).toNat '0' ++ d.digits
    else
      let whole := d.point.toNat
      let padded := d.digits ++ List.replicate (whole - d.digits.length) '0'
      let fraction := padded.drop whole
      padded.take whole ++ '.' :: (if fraction.isEmpty then ['0'] else fraction)
  else
    match d.digits with
    | [] => []
    | first :: [] => first :: 'e' :: exponentText e
    | first :: rest => first :: '.' :: rest ++ 'e' :: exponentText e

-- ============================================================== floats

/-- Sign, significand, exponent of a finite float, and whether its lower
neighbour is the nearer one. -/
structure Parts where
  negative : Bool
  significand : Nat
  exponent : Int
  powerOfTwo : Bool

/-- The parts of a float that is neither infinite nor undefined. -/
def Parts.ofBits (bits : Nat) : Parts :=
  let field := (bits >>> 52) % 2048
  let fraction := bits % (1 <<< 52)
  { negative := bits >>> 63 = 1
    significand := if field = 0 then fraction else fraction + (1 <<< 52)
    exponent := (if field = 0 then 1 else field : Nat) - 1075
    powerOfTwo := fraction = 0 ∧ 1 < field }

/-- The text of a float in a given layout. -/
def floatText (layout : Layout) (x : Float) : String :=
  if x.isNaN then "nan"
  else
    let parts := Parts.ofBits x.toBits.toNat
    let size :=
      if x.isInf then "inf".toList
      else if parts.significand = 0 then "0.0".toList
      else (shortest parts.significand parts.exponent parts.powerOfTwo).layOut layout
    String.ofList (if parts.negative then '-' :: size else size)

end SymbolicHeap.Decimal
