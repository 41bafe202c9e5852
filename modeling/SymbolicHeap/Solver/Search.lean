/-
A decision procedure by bounded search.

An integer unknown ranges over the small integers, over each numeral that
occurs with its two neighbours, and over as many integers from one on as
there are constants, so that all of them may differ.

The search evaluates all conjuncts under the choices made so far.  If one
is false the last choice is taken back; if all are true they are
satisfiable; otherwise the first unknown that some conjunct lacks gets its
values in turn.

A model completes the choices: an element that has not been chosen is that
of the rest of its array, and what is still open is zero or false.
-/
import SymbolicHeap.Solver.Basic
import SymbolicHeap.Solver.Meaning

namespace SymbolicHeap.Search

-- =============================================================== choices

/-- The choices made, latest first. -/
abbrev Choices := List (Unknown × Scalar)

def chosen (choices : Choices) (unknown : Unknown) : Option Scalar :=
  (choices.find? (·.1 = unknown)).map (·.2)

/-- The paths to the chosen elements of an array. -/
def paths (choices : Choices) (symbol : Symbol) (args : List Extent) : List (List Cell) :=
  choices.filterMap fun (unknown, _) =>
    match unknown with
    | .element s values path => if s = symbol ∧ values = args then some path else none
    | _ => none

/-- What is left of the paths that begin at a cell. -/
def below (paths : List (List Cell)) (cell : Cell) : List (List Cell) :=
  paths.filterMap fun
    | first :: path => if first = cell then some path else none
    | [] => none

/-- The indices at which an array has chosen elements. -/
def near (choices : Choices) (symbol : Symbol) (args : List Extent) (path : List Cell) :
    List Int :=
  (path.foldl below (paths choices symbol args)).filterMap fun
    | some index :: _ => some index
    | _ => none

/-- The choices as they are: an unknown that has not been chosen is
missing. -/
def made (choices : Choices) : Lookup :=
  ⟨fun unknown => (chosen choices unknown).elim (.error (.missing unknown)) .ok, near choices⟩

-- ================================================================ domains

/-- The numerals among some nodes. -/
def numerals (nodes : List DagNode) : List Int :=
  nodes.filterMap fun node =>
    match node.head with
    | .numeral value => some value
    | _ => none

/-- The names of the constants among some nodes. -/
def constants (nodes : List DagNode) : List String :=
  (nodes.filterMap fun node =>
    match node.head, node.args with
    | .symbol symbol, [] => some symbol.name
    | _, _ => none).eraseDups

/-- The values that an integer unknown of some conjuncts may take. -/
def integerDomain (conjuncts : Forest) : List Int :=
  let near := (numerals conjuncts.nodes).flatMap fun c => [c, c - 1, c + 1]
  let names :=
    (List.range (constants conjuncts.nodes).length).map fun (n : Nat) => (n : Int) + 1
  ([0, 1, 2, 3, -1, -2, -3] ++ near ++ names).eraseDups

/-- The values that an unknown may take. -/
def domain (integers : List Int) (unknown : Unknown) : List Scalar :=
  if unknown.isBool then [.bool false, .bool true] else integers.map .int

-- ================================================================= search

/-- What the conjuncts say under the choices made. -/
inductive Standing
  | holds
  | fails
  | lacks (gap : Gap)

/-- A false conjunct counts more than one that lacks something, the first
lack more than later ones. -/
def standing : List (Except Gap Scalar) → Standing
  | [] => .holds
  | .ok (.bool true) :: rest => standing rest
  | .ok _ :: _ => .fails
  | .error gap :: rest =>
      match standing rest with
      | .fails => .fails
      | _ => .lacks gap

/-- The outcome of a search. -/
inductive Found
  | choices (choices : Choices)
  | nothing
  | gaveUp

/-- Tries the alternatives in turn until one of them yields something. -/
def firstOf (attempt : Scalar → Found) : List Scalar → Found
  | [] => .nothing
  | value :: rest =>
      match attempt value with
      | .nothing => firstOf attempt rest
      | found => found

/-- Extends the choices, at most `fuel` of them, until all conjuncts hold. -/
def extend (integers : List Int) (conjuncts : Forest) : (fuel : Nat) → Choices → Found
  | 0, _ => .gaveUp
  | fuel + 1, choices =>
      match standing (conjuncts.values (made choices)) with
      | .holds => .choices choices
      | .fails => .nothing
      | .lacks .outOfReach => .gaveUp
      | .lacks (.missing unknown) =>
          firstOf (fun value => extend integers conjuncts fuel ((unknown, value) :: choices))
            (domain integers unknown)

/-- The most unknowns that a search chooses. -/
def maxChoices : Nat := 100000

-- ================================================================= models

/-- The path to the chosen element that stands for the one asked for: an
index with nothing chosen at it belongs to the rest. -/
def settle : List (List Cell) → List Cell → List Cell
  | _, [] => []
  | paths, cell :: path =>
      let settled := if (below paths cell).isEmpty then none else cell
      settled :: settle (below paths settled) path

/-- The unknown whose choice an unknown shares. -/
def settled (choices : Choices) : Unknown → Unknown
  | .element symbol args path =>
      .element symbol args (settle (paths choices symbol args) path)
  | unknown => unknown

/-- The value of an unknown that nothing speaks about. -/
def fallback (unknown : Unknown) : Scalar :=
  if unknown.isBool then .bool false else .int 0

/-- The choices with all that is open filled in. -/
def completed (choices : Choices) : Lookup :=
  ⟨fun unknown => .ok ((chosen choices (settled choices unknown)).getD (fallback unknown)),
    near choices⟩

/-- The term of a value. -/
def toTerm : Scalar → Term
  | .int value => Term.numeral value
  | .bool value => Term.truth value

/-- The model that completes some choices; an array is its own value. -/
def model (choices : Choices) : Model :=
  ⟨fun term =>
    match (Forest.ofTerms [term]).values (completed choices) with
    | [.ok value] => toTerm value
    | _ => term⟩

/-- The verdict of the search. -/
def decide (conjuncts : List Term) : Verdict :=
  let forest := Forest.ofTerms conjuncts
  match extend (integerDomain forest) forest maxChoices [] with
  | .choices choices => .sat (model choices)
  | .nothing => .unsat
  | .gaveUp => .unknown (some "incomplete")

/-- The bounded search as an engine. -/
def engine : Engine :=
  ⟨Search.decide, (model []).eval⟩

end SymbolicHeap.Search
