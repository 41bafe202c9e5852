/-
What every command keeps.

A command uses the heaps, the lowering and the solver, puts a question, or
drops something, whatever it does with the answer and wherever it fails.
A relation that all of these keep (`Upheld`) is kept by all commands that
assert nothing for good (`perform_leads`).  If in addition it is kept by
every step of the solver whatever (`Framed`), all commands and all runs
keep it (`Framed.perform`, `Framed.run`).  An invariant of workspaces is a
relation of this kind, and so is a change that never goes back.
-/
import SymbolicHeap.Proofs.Outcome
import SymbolicHeap.Session.Command

namespace SymbolicHeap

/-- Whether a command asserts something for good. -/
def Command.asserts : Command → Bool
  | .assume _ | .assert _ => true
  | _ => false

namespace Workspace

/-- A relation that is kept by whatever a command uses. -/
structure Upheld (engine : Engine) (R : Workspace → Workspace → Prop) : Prop where
  steady : Steady R
  heap : ∀ action, Leads R (onHeap action)
  other : ∀ action, Leads R (onOther action)
  lowerOne : ∀ e, Leads R (lowerOne e)
  lowerAll : ∀ exprs, Leads R (lowerAll exprs)
  distinctRoots : ∀ roots, Leads R (onLowering (Lowering.distinctRoots roots))
  distinctSeen : Leads R (onLowering Lowering.distinctSeen)
  push : Leads R (onSolver Solver.push)
  pop : Leads R (onSolver Solver.pop)
  resetSolver : Leads R (onSolver Solver.reset)
  ask : ∀ assumptions, Leads R (ask engine assumptions)
  askWith : ∀ terms, Leads R (inScope (askWith engine terms))
  check : ∀ exprs, Leads R (check engine exprs)
  prove : ∀ e, Leads R (prove engine e)
  forget : Leads R forgetSymbols
  reset : Leads R reset

/-- A relation that each kind of step keeps. -/
structure Framed (R : Workspace → Workspace → Prop) : Prop where
  steady : Steady R
  heap : ∀ action, Leads R (onHeap action)
  other : ∀ action, Leads R (onOther action)
  lowerOne : ∀ e, Leads R (lowerOne e)
  lowerAll : ∀ exprs, Leads R (lowerAll exprs)
  distinctRoots : ∀ roots, Leads R (onLowering (Lowering.distinctRoots roots))
  distinctSeen : Leads R (onLowering Lowering.distinctSeen)
  solver : ∀ {α : Type} (step : Solver.Run α), Leads R (onSolver step)
  log : ∀ write, Leads R (logWith write)
  forget : Leads R forgetSymbols
  drop : ∀ space : Workspace, R space { space with
    dropped := space.session.heap :: space.dropped
    session := { space.session with heap := { id := space.session.heap.id + 1 }, lowering := {} } }

variable {R : Workspace → Workspace → Prop} {engine : Engine} {α : Type}

/-- A step in a scope keeps what it keeps outside, if opening and closing
the scope do. -/
theorem inScope_keeps (steady : Steady R) (opening : Leads R (onSolver Solver.push))
    (closing : Leads R (onSolver Solver.pop)) {step : Run α} (h : Leads R step) :
    Leads R (inScope step) := by
  refine .bind steady opening fun _ => .tryCatch steady ?_ fun _ => ?_
  · exact .bind steady h fun _ => .bind steady closing fun _ => .pure steady _
  · exact .bind steady closing fun _ => .throw steady _

namespace Framed

variable (framed : Framed R)

include framed

theorem inScope {step : Run α} (h : Leads R step) : Leads R (inScope step) :=
  inScope_keeps framed.steady (framed.solver _) (framed.solver _) h

theorem ask (assumptions : List Lowered) : Leads R (ask engine assumptions) := by
  refine .bind framed.steady (.get framed.steady) fun _ => ?_
  refine .bind framed.steady (framed.log _) fun _ => ?_
  refine .bind framed.steady (framed.solver _) fun verdict => ?_
  refine .bind framed.steady (framed.log _) fun _ => ?_
  cases verdict with
  | unknown reason => exact .bind framed.steady (framed.log _) fun _ => .pure framed.steady _
  | sat model => exact .pure framed.steady _
  | unsat => exact .pure framed.steady _

theorem askWith (terms : List Lowered) : Leads R (askWith engine terms) :=
  .bind framed.steady (framed.solver _) fun _ => framed.ask []

/-- What a timer adds to a step is an entry in the log. -/
theorem timed {step : Run α} (h : Leads R step) (name : String) (category : Datum) :
    Leads R (timed name category step) := fun space =>
  framed.steady.trans (h space)
    (framed.log (fun log => (log.stopTimer name category space.log.clock).2) (step.run space).2)

theorem askTimed (terms : List Lowered) : Leads R (askTimed engine terms) :=
  .bind framed.steady (framed.solver _) fun _ => framed.timed (framed.ask []) _ _

theorem constraints (exprs : List Expr) : Leads R (constraints exprs) := by
  refine .bind framed.steady ?_ fun _ => framed.lowerAll exprs
  induction exprs with
  | nil => exact .pure framed.steady _
  | cons e rest ih =>
      unfold requireBools
      split
      next => exact ih
      next => exact .throw framed.steady _

theorem axiomTerm : Leads R axiomTerm :=
  .bind framed.steady (.get framed.steady) fun _ => framed.distinctRoots _

theorem check (exprs : List Expr) : Leads R (check engine exprs) := by
  refine .bind framed.steady (framed.constraints exprs) fun terms => ?_
  refine .bind framed.steady framed.axiomTerm fun distinct => ?_
  refine .bind framed.steady (framed.inScope (framed.askTimed _)) fun verdict => ?_
  exact .bind framed.steady (framed.log _) fun _ => .pure framed.steady _

theorem prove (e : Expr) : Leads R (prove engine e) := by
  refine .bind framed.steady (framed.constraints [e]) fun terms => ?_
  refine .bind framed.steady (framed.inScope ?_) fun _ => .pure framed.steady _
  refine .bind framed.steady framed.axiomTerm fun distinct => ?_
  exact .bind framed.steady (.liftM framed.steady _) fun _ => framed.askWith _

theorem reset : Leads R reset :=
  .bind framed.steady (.modify framed.drop) fun _ =>
    .bind framed.steady (framed.solver _) fun _ => framed.log _

theorem upheld : Upheld engine R where
  steady := framed.steady
  heap := framed.heap
  other := framed.other
  lowerOne := framed.lowerOne
  lowerAll := framed.lowerAll
  distinctRoots := framed.distinctRoots
  distinctSeen := framed.distinctSeen
  push := framed.solver _
  pop := framed.solver _
  resetSolver := framed.solver _
  ask := framed.ask
  askWith _ := framed.inScope (framed.askWith _)
  check := framed.check
  prove := framed.prove
  forget := framed.forget
  reset := framed.reset

end Framed

/-- A value is read off the last model; nothing is asked. -/
theorem Upheld.valueOf (upheld : Upheld engine R) (e : Expr) : Leads R (valueOf e) := by
  refine .bind upheld.steady (upheld.lowerOne e) fun lowered => ?_
  refine .bind upheld.steady (.get upheld.steady) fun _ => ?_
  exact .bind upheld.steady (.liftM upheld.steady _) fun _ => .pure upheld.steady _

/-- One command; what is to be said of those that assert something is
left open. -/
theorem perform_leads (upheld : Upheld engine R) {command : Command}
    (asserting : command.asserts = true → Leads R (perform engine command)) :
    Leads R (perform engine command) := by
  have steady := upheld.steady
  cases command with
  | heap action => exact (upheld.heap action).map _
  | otherHeap action => exact (upheld.other action).map _
  | lower e => exact (upheld.lowerOne e).map _
  | lowerAll exprs => exact (upheld.lowerAll exprs).map _
  | sameTerm a b =>
      refine .bind steady (upheld.lowerOne a) fun _ => ?_
      exact .bind steady (upheld.lowerOne b) fun _ => .pure steady _
  | simplify e =>
      refine .bind steady (upheld.lowerOne e) fun lowered => ?_
      cases lowered with
      | term t => exact .pure steady _
      | declaration symbol => exact .throw steady _
  | distinct roots =>
      cases roots with
      | some roots => exact (upheld.distinctRoots roots).map _
      | none => exact upheld.distinctSeen.map _
  | distinctAllocated =>
      exact .bind steady (.get steady) fun _ => (upheld.distinctRoots _).map _
  | axioms =>
      refine .bind steady ?_ fun _ => .pure steady _
      exact .bind steady (.get steady) fun _ => upheld.distinctRoots _
  | forgetSymbols => exact upheld.forget.map _
  | assume | assert => exact asserting rfl
  | check exprs => exact (upheld.check exprs).map _
  | isSatisfiable exprs => exact .bind steady (upheld.check exprs) fun _ => .pure steady _
  | prove e => exact (upheld.prove e).map _
  | valueOf e | evaluate e => exact (upheld.valueOf e).map _
  | reset => exact upheld.reset.map _
  | push => exact upheld.push.map _
  | pop => exact upheld.pop.map _
  | resetSolver => exact upheld.resetSolver.map _
  | checkAssuming exprs =>
      refine .bind steady (upheld.lowerAll exprs) fun _ => ?_
      exact .bind steady (upheld.ask _) fun _ => .pure steady _
  | isSatWith exprs =>
      refine .bind steady (upheld.lowerAll exprs) fun _ => ?_
      exact .bind steady (upheld.askWith _) fun _ => .pure steady _
  | implies premise conclusion =>
      refine .bind steady (upheld.lowerOne premise) fun _ => ?_
      refine .bind steady (upheld.lowerOne conclusion) fun _ => ?_
      exact .bind steady (.liftM steady _) fun _ => .pure steady _
  | satisfiable exprs =>
      refine .bind steady (upheld.lowerAll exprs) fun _ => ?_
      exact .bind steady (.liftM steady _) fun _ => .pure steady _
  | valid e =>
      refine .bind steady (upheld.lowerOne e) fun _ => ?_
      exact .bind steady (.liftM steady _) fun _ => .pure steady _
  | readBack e => exact .bind steady (upheld.lowerOne e) fun _ => .pure steady _

/-- One command after the other, whatever fails on the way. -/
theorem run_leads (steady : Steady R) {commands : List Command}
    (kept : ∀ command ∈ commands, Leads R (perform engine command)) (space : Workspace) :
    R space (run engine space commands).2 := by
  induction commands generalizing space with
  | nil => exact steady.refl space
  | cons command rest ih =>
      rw [List.forall_mem_cons] at kept
      exact steady.trans (kept.1 space) (ih kept.2 _)

theorem Framed.perform (framed : Framed R) (command : Command) :
    Leads R (perform engine command) := by
  refine perform_leads framed.upheld fun asserts => ?_
  cases command with
  | assume exprs =>
      exact Leads.map (.bind framed.steady (framed.constraints exprs) fun _ => framed.solver _) _
  | assert exprs =>
      refine .bind framed.steady (framed.lowerAll exprs) fun _ => ?_
      exact .bind framed.steady (framed.solver _) fun _ => .pure framed.steady _
  | _ => cases asserts

theorem Framed.run (framed : Framed R) (engine : Engine) (space : Workspace)
    (commands : List Command) : R space (run engine space commands).2 :=
  run_leads framed.steady (fun command _ => framed.perform command) space

end Workspace

end SymbolicHeap
