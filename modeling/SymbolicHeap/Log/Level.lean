/-
Log levels: ranks on a scale of integers, five of which have names.
Levels are compared by their ranks alone.
-/
import SymbolicHeap.Text.Blank

namespace SymbolicHeap

/-- How much detail an entry belongs to. -/
inductive Level
  | quiet
  | normal
  | verbose
  | debug
  | trace
  /-- A rank given as a bare number.  It has no name, even if a named level
  has the same rank. -/
  | bare (rank : Int)
deriving DecidableEq, Repr

namespace Level

/-- The place of a level on the scale. -/
def rank : Level → Int
  | quiet => 0
  | normal => 1
  | verbose => 2
  | debug => 3
  | trace => 4
  | bare rank => rank

instance : LE Level := ⟨fun a b => a.rank ≤ b.rank⟩
instance (a b : Level) : Decidable (a ≤ b) := inferInstanceAs (Decidable (a.rank ≤ b.rank))

def name? : Level → Option String
  | quiet => some "QUIET"
  | normal => some "NORMAL"
  | verbose => some "VERBOSE"
  | debug => some "DEBUG"
  | trace => some "TRACE"
  | bare _ => none

/-- The levels that have names. -/
def named : List Level := [quiet, normal, verbose, debug, trace]

/-- The capital of a letter whose capital is a letter of ASCII; the
dotless i and the long s are such letters. -/
def capital (c : Char) : Char :=
  if c.toNat = 0x131 then 'I' else if c.toNat = 0x17f then 'S' else c.toUpper

/-- The level of a name in any case, with blanks around it or not. -/
def ofName? (name : String) : Option Level :=
  let key := String.ofList ((Text.trim Text.isBlank name.toList).map capital)
  named.find? (·.name? = some key)

end Level

end SymbolicHeap
