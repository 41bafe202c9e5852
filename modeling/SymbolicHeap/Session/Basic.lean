/-
Analysis sessions.

A session joins one heap, one lowering and one solver.  Its questions
take expressions: constraints are checked to be truth values, lowered,
and decided together with the assumptions and with the axiom that the
objects allocated are all different.  Each question asserts in a scope of
its own, so that it leaves the assertions as they were.

Around the session stands a workspace: the logger that all parts write
to, a heap that has nothing to do with the session, and the heaps that
the session dropped when it was reset; handles on these may still turn
up.
-/
import SymbolicHeap.Heap.Action
import SymbolicHeap.Log.Logger
import SymbolicHeap.Solver.Basic

namespace SymbolicHeap

structure Session where
  heap : Heap
  lowering : Lowering := {}
  solver : Solver := {}
  /-- Time limit of a question, in milliseconds. -/
  timeout : Int := 10000
  /-- Whether all objects seen count as different, not only the allocated
  ones. -/
  assumeDistinct : Bool := false

/-- The parts of a session, each in words. -/
def Session.summary (session : Session) : String :=
  s!"AnalysisSession({session.heap.summary}, {session.lowering.symbols.summary}, "
    ++ s!"{session.solver.summary session.timeout})"

structure Workspace where
  session : Session
  /-- A heap that has nothing to do with the session. -/
  other : Heap
  /-- The heaps that the session has dropped, latest first. -/
  dropped : List Heap := []
  log : Logger := {}

/-- Why a step of a session failed. -/
inductive Fault
  | heap (cause : Heap.Fault)
  | lowering (cause : Lowering.Fault)
  | solver (cause : Solver.Fault)
  /-- A constraint is not a truth value. -/
  | constraintNotBool (constraint : Expr)

namespace Workspace

/-- A step of a session; the workspace survives a failure. -/
abbrev Run := ExceptT Fault (StateM Workspace)

/-- A workspace with a new session. -/
def fresh (timeout : Int) (assumeDistinct : Bool) (log : Logger) : Workspace :=
  { session := { heap := { id := 1 }, timeout, assumeDistinct }, other := { id := 0 }, log }

-- ================================================================ logging

def logWith (write : Logger → Logger) : Run Unit :=
  modify fun space => { space with log := write space.log }

def debug (message : String) (category : Datum) : Run Unit :=
  logWith (·.note .debug message category)

/-- Runs a step and logs how long it took, whether it fails or not. -/
def timed {α : Type} (name : String) (category : Datum) (step : Run α) : Run α := fun space =>
  let (outcome, after) := step.run space
  (outcome, { after with log := (after.log.stopTimer name category space.log.clock).2 })

/-- Traces the variables that a lowering has interned since there were
`known` of them. -/
def traceInterned (known : Nat) (lowering : Lowering) (log : Logger) : Logger :=
  (lowering.symbols.vars.entries.drop known).foldl
    (fun log (name, ty, _) => log.traceIfEnabled (fun _ => s!"intern {name}: {ty}") "translate")
    log

/-- Notes how an action on a heap went: a refusal always, unless it was
left to others, a success as a trace. -/
def noteAction (heap : Heap) (action : Heap.Action) (result : Except Heap.Fault Heap.Answer)
    (log : Logger) : Logger :=
  match result with
  | .error fault => if fault.isNoted then log.note .debug fault.message "memory" else log
  | .ok answer =>
      if log.isEnabled .trace then
        match heap.trace? action answer with
        | some trace => log.note .trace trace.message "memory" trace.context
        | none => log
      else log

-- ============================================================== the parts

/-- An action on the heap of the session. -/
def onHeap (action : Heap.Action) : Run Heap.Answer := fun space =>
  let (result, heap) := (Heap.perform action).run space.session.heap
  (result.mapError .heap,
    { space with
      session := { space.session with heap }
      log := noteAction heap action result space.log })

/-- An action on the unrelated heap. -/
def onOther (action : Heap.Action) : Run Heap.Answer := fun space =>
  let (result, other) := (Heap.perform action).run space.other
  (result.mapError .heap, { space with other, log := noteAction other action result space.log })

/-- A step of the session's lowering. -/
def onLowering {α : Type} (step : Lowering.Run α) : Run α := fun space =>
  let known := space.session.lowering.symbols.vars.size
  let (result, lowering) := step.run space.session.lowering
  (result.mapError .lowering,
    { space with
      session := { space.session with lowering }
      log := traceInterned known lowering space.log })

/-- A step of the session's solver. -/
def onSolver {α : Type} (step : Solver.Run α) : Run α := fun space =>
  let (result, solver) := step.run space.session.solver
  (result.mapError .solver, { space with session := { space.session with solver } })

def solverAnswer {α : Type} (answer : Except Solver.Fault α) : Run α :=
  liftM (answer.mapError Fault.solver)

/-- The heap that issued a handle, as it stands or as it was dropped. -/
def heapOf? (space : Workspace) (ref : Ref) : Option Heap :=
  (space.session.heap :: space.other :: space.dropped).find? (·.id = ref.heap)

/-- The newest state behind a handle of any heap. -/
def current (space : Workspace) (ref : Ref) : Except Heap.Fault Expr :=
  match space.heapOf? ref with
  | some heap => heap.current ref
  | none => .error (.noStates ref)

/-- The number of writes made to what is behind a handle of any heap. -/
def version (space : Workspace) (ref : Ref) : Nat :=
  ((space.heapOf? ref).map (·.version ref)).getD 0

-- ============================================================== questions

/-- Runs a step in a scope of its own, which is closed in any case. -/
def inScope {α : Type} (step : Run α) : Run α := do
  onSolver Solver.push
  try
    let result ← step
    onSolver Solver.pop
    pure result
  catch fault =>
    onSolver Solver.pop
    throw fault

/-- Puts the question whether the assertions hold together with
assumptions. -/
def ask (engine : Engine) (assumptions : List Lowered) : Run Verdict := do
  let asserted := (← get).session.solver.assertions.length
  logWith (·.traceIfEnabled (fun _ => s!"check with {asserted} assertions") "solver"
    [("assumptions", .int assumptions.length)])
  let verdict ← onSolver (Solver.check engine assumptions)
  -- the engine takes its time
  logWith Logger.wait
  match verdict with
  | .unknown reason => debug ("solver returned unknown: " ++ reason.getD "None") "solver"
  | _ => pure ()
  return verdict

/-- Asserts terms and puts the question whether all assertions hold. -/
def askWith (engine : Engine) (terms : List Lowered) : Run Verdict := do
  onSolver (Solver.add terms)
  ask engine []

/-- The same, and logs how long the question took. -/
def askTimed (engine : Engine) (terms : List Lowered) : Run Verdict := do
  onSolver (Solver.add terms)
  timed "check" "session" (ask engine [])

/-- Lets only truth values pass as constraints. -/
def requireBools : List Expr → Run Unit
  | [] => return
  | expr :: rest =>
      if expr.typeOf = .bool then requireBools rest else throw (.constraintNotBool expr)

/-- The terms of constraints, once all are known to be truth values. -/
def constraints (exprs : List Expr) : Run (List Lowered) := do
  requireBools exprs
  onLowering (Lowering.loweredAll exprs)

/-- The objects that the session takes to be different: those allocated,
and on demand all those seen. -/
def distinctRoots (session : Session) : List Expr :=
  session.heap.roots ++
    if session.assumeDistinct then
      session.lowering.symbols.identities.map fun (name, _) => Expr.var name .object
    else []

/-- The axiom that the session's objects are different. -/
def axiomTerm : Run Term := do
  let roots := distinctRoots (← get).session
  onLowering (Lowering.distinctRoots roots)

/-- Asserts constraints for all later questions. -/
def assume (exprs : List Expr) : Run Unit := do
  let terms ← constraints exprs
  onSolver (Solver.add terms)

/-- Decides the assumptions together with constraints for this question
only. -/
def check (engine : Engine) (exprs : List Expr) : Run Verdict := do
  let terms ← constraints exprs
  let distinct ← axiomTerm
  let verdict ← inScope (askTimed engine (terms ++ [.term distinct]))
  logWith fun log => (log.count "session.checks").2
  return verdict

/-- Whether an expression is true in every model of the assumptions.  If
it is not, the last model is one in which it is false. -/
def prove (engine : Engine) (expr : Expr) : Run Bool := do
  let terms ← constraints [expr]
  let verdict ← inScope do
    let distinct ← axiomTerm
    let denied ← solverAnswer (Solver.denials terms)
    askWith engine (.term distinct :: denied)
  return verdict.isUnsat

/-- The value of an expression in the last model, if there is one. -/
def valueOf (expr : Expr) : Run (Option Reading) := do
  let lowered ← onLowering (Lowering.lowered expr)
  let value ← solverAnswer ((← get).session.solver.evaluate lowered)
  return value.map fun term => Reading.of (.term term)

/-- Drops the heap, all interned symbols and all assumptions; the
statistics stay. -/
def reset : Run Unit := do
  modify fun space =>
    { space with
      dropped := space.session.heap :: space.dropped
      session :=
        { space.session with heap := { id := space.session.heap.id + 1 }, lowering := {} } }
  onSolver Solver.reset
  debug "session reset" "session"

end Workspace

end SymbolicHeap
