/-
Points in time.

A time is a number of seconds, either exact or in floating point.  It is
shown as a time of day if the calendar has a place for it, and there are
four reasons why it may have none.
-/
import SymbolicHeap.Decimal.Float

namespace SymbolicHeap

/-- A point in time, in seconds. -/
inductive Instant
  | whole (seconds : Int)
  | fractional (seconds : Float)
deriving Inhabited

namespace Instant

/-- Why an instant has no place in the calendar. -/
inductive Fault
  /-- It is no number of seconds at all. -/
  | undefined
  /-- The seconds do not fit into sixty-four bits. -/
  | beyondClock
  /-- The years do not fit into thirty-two bits. -/
  | beyondYears
  /-- The years do not fit even if they are counted from 1900. -/
  | beyondCalendar
deriving DecidableEq, Repr

-- ================================================================ seconds

/-- The seconds that are over, in sixty-four bits.  The bound above is
itself no such number, but the test of a float does not tell it from the
last one that is. -/
def seconds : Instant → Except Fault Int
  | whole n =>
      if -0x8000000000000000 ≤ n ∧ n < 0x8000000000000000 then .ok n else .error .beyondClock
  | fractional x =>
      if x.isNaN then .error .undefined
      else
        match Decimal.floor? x with
        | some n =>
            if -0x8000000000000000 ≤ n ∧ n ≤ 0x8000000000000000 then .ok n
            else .error .beyondClock
        | none => .error .beyondClock

/-- The nearest microsecond; the product is rounded before it is. -/
def microseconds : Instant → Except Fault Int
  | whole n => .ok (1000000 * n)
  | fractional x =>
      if x.isNaN then .error .undefined
      else
        match Decimal.round? (x * 1000000) with
        | some n => .ok n
        | none => .error .beyondClock

-- =============================================================== calendar

/-- Where the first year counted from 1900 in thirty-two bits begins. -/
def firstSecond : Int := -67768040609740800

/-- Where the first year begins that does not fit into thirty-two bits. -/
def endOfYears : Int := 67767976233532800

/-- Where the first year begins that does not fit although it is counted
from 1900. -/
def endOfCalendar : Int := 67768036191676800

/-- The time of day, in hours, minutes and seconds. -/
def clockText (seconds : Int) : String :=
  let second := (seconds % 86400).toNat
  Decimal.padded 2 (second / 3600) ++ ":" ++ Decimal.padded 2 (second / 60 % 60) ++ ":"
    ++ Decimal.padded 2 (second % 60)

/-- The time of day of an instant that the calendar has a place for. -/
def timeOfDay (time : Instant) : Except Fault String := do
  let seconds ← time.seconds
  if seconds < firstSecond ∨ endOfCalendar ≤ seconds then .error .beyondCalendar
  else if endOfYears ≤ seconds then .error .beyondYears
  else .ok (clockText seconds)

end Instant

end SymbolicHeap
