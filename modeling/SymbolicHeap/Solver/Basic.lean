/-
Solvers: a stack of assertions over a decision procedure.

The decision procedure (`Engine`) is a parameter; a solver adds the
assertion stack, the model of the last question and the statistics.
Assertions are kept in the order in which they came, and each open scope
remembers how many there were when it was opened.  Only truth-valued
terms can be asserted.
-/
import SymbolicHeap.Lowering.Basic

namespace SymbolicHeap

/-- A model, by the value it gives to each term. -/
structure Model where
  eval : Term → Term

/-- The answer of a decision procedure. -/
inductive Verdict
  | sat (model : Model)
  | unsat
  | unknown (reason : Option String)

namespace Verdict

def isSat : Verdict → Bool
  | sat _ => true
  | _ => false

def isUnsat : Verdict → Bool
  | unsat => true
  | _ => false

def isUnknown : Verdict → Bool
  | unknown _ => true
  | _ => false

def status : Verdict → String
  | sat _ => "sat"
  | unsat => "unsat"
  | unknown _ => "unknown"

/-- Why there is no verdict, where that is known. -/
def reason? : Verdict → Option String
  | unknown reason => reason
  | _ => none

def model? : Verdict → Option Model
  | sat model => some model
  | _ => none

end Verdict

/-- A decision procedure for conjunctions of truth-valued terms. -/
structure Engine where
  decide : List Term → Verdict
  /-- The value of a term that is the same in every model. -/
  simplify : Term → Term

/-- The truth-valued term that something lowered to, if it is one. -/
def Lowered.formula? : Lowered → Option Term
  | .term t => if t.srt = .bool then some t else none
  | .declaration _ => none

structure Solver where
  /-- What is asserted, oldest first. -/
  assertions : List Term := []
  /-- How many assertions there were when each open scope was opened,
  innermost scope first. -/
  scopes : List Nat := []
  model : Option Model := none
  queries : Nat := 0
  satCount : Nat := 0
  unsatCount : Nat := 0
  unknownCount : Nat := 0

instance : Inhabited Solver := ⟨{}⟩

namespace Solver

/-- How often a solver was asked, in words; its time limit is given. -/
def summary (solver : Solver) (timeout : Int) : String :=
  s!"SymbolicSolver(queries={solver.queries}, timeout_ms={timeout})"

/-- Why a solver refuses an operation. -/
inductive Fault
  /-- Something other than a truth-valued term was to be asserted. -/
  | notAFormula
  /-- Something other than a term was to be evaluated. -/
  | notATerm
  /-- There is no scope to close. -/
  | noScope
deriving DecidableEq, Repr

/-- An operation on a solver; the solver survives a refusal. -/
abbrev Run := ExceptT Fault (StateM Solver)

-- ========================================================= the assertions

/-- Asserts one truth-valued term after the other, up to the first thing
that is none. -/
def add : List Lowered → Run Unit
  | [] => return
  | lowered :: rest =>
      match lowered.formula? with
      | none => throw .notAFormula
      | some term => do
          modify fun solver => { solver with assertions := solver.assertions ++ [term] }
          add rest

def push : Run Unit :=
  modify fun solver => { solver with scopes := solver.assertions.length :: solver.scopes }

/-- Closes the innermost scope and drops what was asserted in it. -/
def pop : Run Unit := do
  let solver ← get
  match solver.scopes with
  | [] => throw .noScope
  | mark :: scopes => set { solver with assertions := solver.assertions.take mark, scopes }

/-- Drops assertions, scopes and model; the statistics stay. -/
def reset : Run Unit :=
  modify fun solver => { solver with assertions := [], scopes := [], model := none }

-- ============================================================== questions

/-- Takes note of a verdict: the model is that of the last verdict. -/
def note (solver : Solver) (verdict : Verdict) : Solver :=
  match verdict with
  | .sat model => { solver with model := some model, satCount := solver.satCount + 1 }
  | .unsat => { solver with model := none, unsatCount := solver.unsatCount + 1 }
  | .unknown _ => { solver with model := none, unknownCount := solver.unknownCount + 1 }

/-- The truth-valued terms among the things given, if all are such. -/
def formulas (given : List Lowered) : Except Fault (List Term) :=
  match given.mapM Lowered.formula? with
  | some terms => .ok terms
  | none => .error .notAFormula

/-- Decides the assertions together with assumptions for this question
only.  A question counts as asked even if an assumption is refused. -/
def check (engine : Engine) (assumptions : List Lowered) : Run Verdict := do
  modify fun solver => { solver with queries := solver.queries + 1 }
  let terms ← liftM (formulas assumptions)
  let verdict := engine.decide ((← get).assertions ++ terms)
  modify (·.note verdict)
  return verdict

/-- The negations of truth-valued terms. -/
def denials (given : List Lowered) : Except Fault (List Lowered) := do
  return (← formulas given).map fun term => .term (Term.not term)

/-- Whether one term follows from another.  This is a question of its own:
neither assertions nor statistics take part. -/
def implies (engine : Engine) (premise conclusion : Lowered) : Except Fault Bool := do
  match formulas [premise, conclusion] with
  | .ok [premise, conclusion] => return (engine.decide [premise, Term.not conclusion]).isUnsat
  | _ => throw .notAFormula

/-- Whether terms hold together in some model. -/
def satisfiable (engine : Engine) (constraints : List Lowered) : Except Fault Bool := do
  return (engine.decide (← formulas constraints)).isSat

/-- Whether a term holds in all models. -/
def valid (engine : Engine) (claim : Lowered) : Except Fault Bool := do
  match claim.formula? with
  | some term => return (engine.decide [Term.not term]).isUnsat
  | none => throw .notAFormula

/-- The value of a term in the last model, if there is one. -/
def evaluate (solver : Solver) (lowered : Lowered) : Except Fault (Option Term) :=
  match solver.model, lowered with
  | none, _ => .ok none
  | some model, .term term => .ok (some (model.eval term))
  | some _, .declaration _ => .error .notATerm

end Solver

-- ================================================================= values

/-- A value read back: a number, a truth value, or a term that is none of
these. -/
inductive Reading
  | int (value : Int)
  | bool (value : Bool)
  | other (lowered : Lowered)

/-- The value that a term spells out. -/
def Reading.of : Lowered → Reading
  | .term (.app (.numeral value) []) => .int value
  | .term (.app (.truth value) []) => .bool value
  | lowered => .other lowered

end SymbolicHeap
