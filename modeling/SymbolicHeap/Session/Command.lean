/-
The steps of a session as data.

A program is a list of commands; a command that fails leaves the program
going, with whatever it had done up to its failure.
-/
import SymbolicHeap.Session.Basic

namespace SymbolicHeap

/-- One step of a session. -/
inductive Command
  -- the heaps
  | heap (action : Heap.Action)
  | otherHeap (action : Heap.Action)
  -- the lowering
  | lower (expr : Expr)
  | lowerAll (exprs : List Expr)
  | sameTerm (a b : Expr)
  | simplify (expr : Expr)
  /-- The axiom that roots are different objects; without roots, that all
  objects seen so far are. -/
  | distinct (roots : Option (List Expr))
  | distinctAllocated
  | axioms
  | forgetSymbols
  -- the session
  | assume (exprs : List Expr)
  | check (exprs : List Expr)
  | isSatisfiable (exprs : List Expr)
  | prove (expr : Expr)
  | valueOf (expr : Expr)
  | reset
  -- the solver
  | assert (exprs : List Expr)
  | push
  | pop
  | resetSolver
  | checkAssuming (exprs : List Expr)
  | isSatWith (exprs : List Expr)
  | implies (premise conclusion : Expr)
  | evaluate (expr : Expr)
  -- questions of their own
  | satisfiable (exprs : List Expr)
  | valid (expr : Expr)
  | readBack (expr : Expr)

/-- What a step answers. -/
inductive Answer
  | done
  | heap (answer : Heap.Answer)
  | lowered (lowered : Lowered)
  | loweredAll (lowered : List Lowered)
  | truth (value : Bool)
  | verdict (verdict : Verdict)
  | reading (value : Option Reading)

namespace Workspace

/-- What several expressions lower to. -/
def lowerAll (exprs : List Expr) : Run (List Lowered) :=
  onLowering (Lowering.loweredAll exprs)

/-- What an expression lowers to. -/
def lowerOne (expr : Expr) : Run Lowered :=
  onLowering (Lowering.lowered expr)

/-- An axiom as an answer. -/
def axiomAnswer (step : Lowering.Run Term) : Run Answer :=
  (fun term => .lowered (.term term)) <$> onLowering step

/-- Drops what has been interned. -/
def forgetSymbols : Run Unit :=
  modify fun space => { space with session := { space.session with lowering := {} } }

def perform (engine : Engine) : Command → Run Answer
  | .heap action => .heap <$> onHeap action
  | .otherHeap action => .heap <$> onOther action
  | .lower expr => .lowered <$> lowerOne expr
  | .lowerAll exprs => .loweredAll <$> lowerAll exprs
  | .sameTerm a b => do
      let a ← lowerOne a
      let b ← lowerOne b
      let (a, b) := shared (a, b)
      return .truth (a = b)
  | .simplify expr => do
      match ← lowerOne expr with
      | .term term => return .lowered (.term (engine.simplify term))
      | .declaration _ => throw (.solver .notATerm)
  | .distinct (some roots) => axiomAnswer (Lowering.distinctRoots roots)
  | .distinct none => axiomAnswer Lowering.distinctSeen
  | .distinctAllocated => do axiomAnswer (Lowering.distinctRoots (← get).session.heap.roots)
  | .axioms => do return .loweredAll [.term (← axiomTerm)]
  | .forgetSymbols => (fun _ => .done) <$> forgetSymbols
  | .assume exprs => (fun _ => .done) <$> assume exprs
  | .check exprs => .verdict <$> check engine exprs
  | .isSatisfiable exprs => do return .truth (← check engine exprs).isSat
  | .prove expr => .truth <$> prove engine expr
  | .valueOf expr => .reading <$> valueOf expr
  | .reset => (fun _ => .done) <$> reset
  | .assert exprs => do
      let terms ← lowerAll exprs
      onSolver (Solver.add terms)
      return .done
  | .push => (fun _ => .done) <$> onSolver Solver.push
  | .pop => (fun _ => .done) <$> onSolver Solver.pop
  | .resetSolver => (fun _ => .done) <$> onSolver Solver.reset
  | .checkAssuming exprs => do
      let terms ← lowerAll exprs
      return .verdict (← ask engine terms)
  | .isSatWith exprs => do
      let terms ← lowerAll exprs
      let verdict ← inScope (askWith engine terms)
      return .truth verdict.isSat
  | .implies premise conclusion => do
      let premise ← lowerOne premise
      let conclusion ← lowerOne conclusion
      return .truth (← solverAnswer (Solver.implies engine premise conclusion))
  | .evaluate expr => .reading <$> valueOf expr
  | .satisfiable exprs => do
      let terms ← lowerAll exprs
      return .truth (← solverAnswer (Solver.satisfiable engine terms))
  | .valid expr => do
      let term ← lowerOne expr
      return .truth (← solverAnswer (Solver.valid engine term))
  | .readBack expr => do return .reading (some (Reading.of (← lowerOne expr)))

/-- The answer of one step and the workspace after it. -/
def step (engine : Engine) (space : Workspace) (command : Command) :
    Except Fault Answer × Workspace :=
  (perform engine command).run space

/-- The answers of a program, and the workspace after it. -/
def run (engine : Engine) (space : Workspace) :
    List Command → List (Except Fault Answer) × Workspace
  | [] => ([], space)
  | command :: rest =>
      let (answer, space) := step engine space command
      let (answers, space) := run engine space rest
      (answer :: answers, space)

end Workspace

end SymbolicHeap
