/-
What terms mean while only some unknowns have a value.

The unknowns are the constants, the elements of arrays, the applications
of functions and the results of divisions by zero.  The meaning of a term
is put together from those of its arguments, so each distinct subterm is
looked at once however often it occurs.

An array differs from one value, that of the rest of its indices, at only
finitely many of them.  Two arrays are the same if they agree on the rest
and wherever one of them is told apart; the list of all that (`Extent`) is
also what stands for an array among the arguments of a function.
-/
import SymbolicHeap.Smt.Dag

namespace SymbolicHeap

-- ============================================================== unknowns

/-- The value of an integer or truth-valued term. -/
inductive Scalar
  | int (value : Int)
  | bool (value : Bool)
deriving DecidableEq, Repr

/-- An index of an array, or none for all the indices that are not told
apart. -/
abbrev Cell := Option Int

/-- The elements of an array by the cells that lead to them, one for each
level of nesting; a scalar is its own only element. -/
abbrev Extent := List (List Cell × Scalar)

/-- Something whose value is to be chosen. -/
inductive Unknown
  /-- A symbol applied to values, and looked up at the given cells if it
  is an array. -/
  | element (symbol : Symbol) (args : List Extent) (path : List Cell)
  | quotientByZero (dividend : Int)
  | remainderByZero (dividend : Int)
deriving DecidableEq, Repr

/-- The sort of the elements that a path of cells leads to. -/
def sortAt : Srt → List Cell → Option Srt
  | .array element, _ :: path => sortAt element path
  | .int, [] => some .int
  | .bool, [] => some .bool
  | _, _ => none

/-- Whether an unknown is a truth value. -/
def Unknown.isBool : Unknown → Bool
  | element symbol _ path => sortAt symbol.result path = some .bool
  | quotientByZero _ | remainderByZero _ => false

/-- Why a term has no value yet. -/
inductive Gap
  /-- An unknown has not been chosen. -/
  | missing (unknown : Unknown)
  /-- The term is not well sorted, or is an array. -/
  | outOfReach
deriving DecidableEq, Repr

/-- Where the values of unknowns are looked up. -/
structure Lookup where
  value : Unknown → Except Gap Scalar
  /-- The indices at which an array is told apart from its rest. -/
  near : Symbol → List Extent → List Cell → List Int

-- ============================================================== meanings

/-- The meaning of a term.  What is asked of an array at a path is asked
of the array that the path leads to. -/
structure Meaning where
  sort : Srt
  /-- The value of a scalar. -/
  value : Except Gap Scalar
  /-- The value at the end of a path that is not empty. -/
  element : List Cell → Except Gap Scalar
  /-- The indices at which an array is told apart from its rest. -/
  near : List Cell → Except Gap (List Int)

namespace Meaning

/-- The value at the end of a path. -/
def read (m : Meaning) : List Cell → Except Gap Scalar
  | [] => m.value
  | path => m.element path

def int (m : Meaning) : Except Gap Int := do
  match ← m.value with
  | .int value => return value
  | .bool _ => throw .outOfReach

def truth (m : Meaning) : Except Gap Bool := do
  match ← m.value with
  | .bool value => return value
  | .int _ => throw .outOfReach

/-- Whether two terms of a sort are the same at the end of a path: arrays
have to agree on their rests and wherever one of them is told apart. -/
def agreeAt (a b : Meaning) : Srt → List Cell → Except Gap Bool
  | .array element, path => do
      let near := ((← a.near path) ++ (← b.near path)).eraseDups
      (none :: near.map some).allM fun cell => agreeAt a b element (path ++ [cell])
  | _, path => return (← a.read path) = (← b.read path)

/-- Whether two terms are the same. -/
def agrees (a b : Meaning) : Except Gap Bool :=
  agreeAt a b a.sort []

/-- The elements at cells below the given one. -/
def under (cell : Cell) (extent : Extent) : Extent :=
  extent.map fun (path, value) => (cell :: path, value)

/-- All elements of the given sort at the end of a path.  Indices come in
order, and only those whose elements differ from the rest, so that arrays
are the same only if their extents are. -/
def extentAt (m : Meaning) : Srt → List Cell → Except Gap Extent
  | .array element, path => do
      let rest ← m.extentAt element (path ++ [none])
      let near := (← m.near path).eraseDups.mergeSort
      let told ← near.mapM fun index => do
        let extent ← m.extentAt element (path ++ [some index])
        return if extent = rest then [] else under (some index) extent
      return under none rest ++ told.flatten
  | _, path => return [([], ← m.read path)]

def extent (m : Meaning) : Except Gap Extent :=
  m.extentAt m.sort []

-- ==================================================== constructed meanings

/-- A scalar of a known value. -/
def scalar (sort : Srt) (value : Except Gap Scalar) : Meaning :=
  ⟨sort, value, fun _ => .error .outOfReach, fun _ => .error .outOfReach⟩

/-- A term that may be an array. -/
def indexed (sort : Srt) (element : List Cell → Except Gap Scalar)
    (near : List Cell → Except Gap (List Int)) : Meaning :=
  let value :=
    match sort with
    | .array _ => .error .outOfReach
    | _ => element []
  ⟨sort, value, element, near⟩

/-- A symbol applied to values. -/
def symbol (look : Lookup) (symbol : Symbol) (args : Except Gap (List Extent)) : Meaning :=
  indexed symbol.result
    (fun path => do
      let args ← args
      match sortAt symbol.result path with
      | some _ => look.value (.element symbol args path)
      | none => throw .outOfReach)
    (fun path => do return look.near symbol (← args) path)

/-- The element of an array at an index. -/
def select (array index : Meaning) : Meaning :=
  let sort :=
    match array.sort with
    | .array element => element
    | other => other
  indexed sort
    (fun path => do array.read (some (← index.int) :: path))
    (fun path => do array.near (some (← index.int) :: path))

/-- An array with another value at an index. -/
def store (array index value : Meaning) : Meaning :=
  indexed array.sort
    (fun
      | [] => .error .outOfReach
      | cell :: path => do
          if cell = some (← index.int) then value.read path else array.read (cell :: path))
    (fun
      | [] => do return (← index.int) :: (← array.near [])
      | cell :: path => do
          if cell = some (← index.int) then value.near path else array.near (cell :: path))

/-- One of two terms. -/
def ite (condition thenTerm elseTerm : Meaning) : Meaning :=
  indexed thenTerm.sort
    (fun path => do if ← condition.truth then thenTerm.read path else elseTerm.read path)
    (fun path => do if ← condition.truth then thenTerm.near path else elseTerm.near path)

-- ============================================================ operations

/-- An arithmetic operation or a comparison of integers; division is the
Euclidean one. -/
def arithmetic (look : Lookup) (op : Op) (a b : Int) : Except Gap Scalar :=
  match op with
  | .add => .ok (.int (a + b))
  | .sub => .ok (.int (a - b))
  | .mul => .ok (.int (a * b))
  | .div => if b = 0 then look.value (.quotientByZero a) else .ok (.int (a / b))
  | .mod => if b = 0 then look.value (.remainderByZero a) else .ok (.int (a % b))
  | .lt => .ok (.bool (a < b))
  | .le => .ok (.bool (a ≤ b))
  | .gt => .ok (.bool (b < a))
  | .ge => .ok (.bool (b ≤ a))
  | _ => .error .outOfReach

/-- Whether no two terms of a list are the same. -/
def allDiffer : List Meaning → Except Gap Bool
  | [] => .ok true
  | a :: rest => do
      if ← rest.anyM a.agrees then return false else allDiffer rest

/-- The value of an operation that yields a scalar.  A connective whose
first operand decides does not look at the second. -/
def operation (look : Lookup) : Op → List Meaning → Except Gap Scalar
  | .not, [a] => do return .bool !(← a.truth)
  | .and, [a, b] => do if ← a.truth then b.value else return .bool false
  | .or, [a, b] => do if ← a.truth then return .bool true else b.value
  | .implies, [a, b] => do if ← a.truth then b.value else return .bool true
  | .neg, [a] => do return .int (-(← a.int))
  | .eq, [a, b] => do return .bool (← a.agrees b)
  | .distinct, args => do return .bool (← allDiffer args)
  | op, [a, b] => do arithmetic look op (← a.int) (← b.int)
  | _, _ => .error .outOfReach

/-- Whether an operation yields an integer; otherwise it yields a truth
value. -/
def yieldsInt : Op → Bool
  | .neg | .add | .sub | .mul | .div | .mod => true
  | _ => false

/-- The meaning of a term by those of its arguments. -/
def ofHead (look : Lookup) : Head → List Meaning → Meaning
  | .numeral value, _ => scalar .int (.ok (.int value))
  | .truth value, _ => scalar .bool (.ok (.bool value))
  | .symbol s, args => symbol look s (args.mapM extent)
  | .op .select, [array, index] => select array index
  | .op .store, [array, index, value] => store array index value
  | .op .ite, [condition, thenTerm, elseTerm] => ite condition thenTerm elseTerm
  | .op op, args => scalar (if yieldsInt op then .int else .bool) (operation look op args)

/-- The meanings of several nodes, each put together from earlier ones. -/
def ofNodes (look : Lookup) (nodes : List DagNode) : Array Meaning :=
  nodes.foldl (fun done node => done.push (ofHead look node.head (node.args.filterMap (done[·]?))))
    #[]

end Meaning

namespace Forest

/-- The values of the terms of a forest. -/
def values (forest : Forest) (look : Lookup) : List (Except Gap Scalar) :=
  let meanings := Meaning.ofNodes look forest.nodes
  forest.roots.map fun root => (meanings[root]?.map Meaning.value).getD (.error .outOfReach)

end Forest

end SymbolicHeap
