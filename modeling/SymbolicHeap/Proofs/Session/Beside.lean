/-
Two workspaces side by side.

Two workspaces whose sessions differ only in the numbers of their heaps
and in questions that one of them answered before go on alike, command by
command (`perform_beside`, `run_beside`).  How else they may differ is
said by a `Bond`: what their logs have to do with each other, and the
heaps outside of the sessions, as long as the steps of a session keep it.

That is what a session does not look at: the number of its heap, its
statistics, its log, and whatever there is outside.
-/
import SymbolicHeap.Proofs.Heap.Renumber
import SymbolicHeap.Session.Command

namespace SymbolicHeap

-- ============================================================= statistics

namespace Solver

/-- A solver that had answered other questions before. -/
def countedFrom (earlier solver : Solver) : Solver :=
  { solver with
    queries := earlier.queries + solver.queries
    satCount := earlier.satCount + solver.satCount
    unsatCount := earlier.unsatCount + solver.unsatCount
    unknownCount := earlier.unknownCount + solver.unknownCount }

variable {α : Type}

/-- A step that adds to the statistics without looking at them. -/
def Oblivious (step : Run α) : Prop :=
  ∀ earlier solver : Solver, step.run (earlier.countedFrom solver) =
    ((step.run solver).1, earlier.countedFrom (step.run solver).2)

theorem push_oblivious : Oblivious push := fun _ _ => rfl

theorem pop_oblivious : Oblivious pop := by
  rintro earlier ⟨assertions, scopes, model, queries, sat, unsat, unknown⟩
  cases scopes with
  | nil => rfl
  | cons mark rest => rfl

theorem reset_oblivious : Oblivious reset := fun _ _ => rfl

/-- What is given to a solver, or refused by it, hangs on its assertions
only. -/
theorem add_oblivious (given : List Lowered) : Oblivious (add given) := by
  intro earlier solver
  induction given generalizing solver with
  | nil => rfl
  | cons lowered rest ih =>
      unfold add
      cases lowered.formula? with
      | none => rfl
      | some term => exact ih { solver with assertions := solver.assertions ++ [term] }

/-- A verdict is counted on top of whatever was counted before. -/
theorem note_countedFrom (earlier solver : Solver) (verdict : Verdict) :
    (earlier.countedFrom solver).note verdict = earlier.countedFrom (solver.note verdict) := by
  cases verdict with
  | sat model => rfl
  | unsat => rfl
  | unknown reason => rfl

/-- The engine is asked about the assertions, not about the statistics. -/
theorem check_oblivious (engine : Engine) (assumptions : List Lowered) :
    Oblivious (check engine assumptions) := by
  intro earlier solver
  unfold check
  cases formulas assumptions with
  | error fault => rfl
  | ok terms =>
      exact congrArg (Prod.mk _) (note_countedFrom earlier
        { solver with queries := solver.queries + 1 } (engine.decide (solver.assertions ++ terms)))

end Solver

-- =============================================================== renaming

/-- A fault with the handles in it under new numbers. -/
def Fault.renumber (f : Nat → Nat) : Fault → Fault
  | .heap cause => .heap (cause.renumber f)
  | fault => fault

/-- An answer with the handles in it under new numbers. -/
def Answer.renumber (f : Nat → Nat) : Answer → Answer
  | .heap answer => .heap (answer.renumber f)
  | answer => answer

/-- The command with the handles in it under new numbers. -/
def Command.renumber (f : Nat → Nat) : Command → Command
  | .heap action => .heap (action.renumber f)
  | .otherHeap action => .otherHeap (action.renumber f)
  | command => command

theorem Fault.renumber_same (fault : Fault) :
    fault.renumber Numbering.same.number = fault := by
  cases fault with
  | heap cause => exact congrArg Fault.heap cause.renumber_same
  | lowering | solver | constraintNotBool => rfl

theorem Answer.renumber_same (answer : Answer) :
    answer.renumber Numbering.same.number = answer := by
  cases answer with
  | heap answer => exact congrArg Answer.heap answer.renumber_same
  | done | lowered | loweredAll | truth | verdict | reading => rfl

theorem Command.renumber_same (command : Command) :
    command.renumber Numbering.same.number = command := by
  cases command with
  | heap action => exact congrArg Command.heap action.renumber_same
  | otherHeap action => exact congrArg Command.otherHeap action.renumber_same
  | _ => rfl

namespace Workspace

-- ================================================================== bonds

/-- How two workspaces may differ. -/
structure Bond where
  numbering : Numbering
  /-- What one of the solvers has counted before. -/
  earlier : Solver
  /-- How the unrelated heaps and the dropped ones stand to each other. -/
  outside : Heap → List Heap → Heap → List Heap → Prop
  drop : ∀ {other other' : Heap} {dropped dropped' : List Heap} (heap : Heap),
    outside other dropped other' dropped' →
      outside other (heap :: dropped) other' (heap.renumber numbering.number :: dropped')
  logs : Logger → Logger → Prop
  note : ∀ {log log' : Logger} (level : Level) (message : String) (category : Datum),
    level ≠ .trace → logs log log' →
      logs (log.note level message category) (log'.note level message category)
  trace : ∀ {log log' : Logger} (message : Unit → String) (category : Datum)
    (context : List (String × Datum)), logs log log' →
      logs (log.traceIfEnabled message category context)
        (log'.traceIfEnabled message category context)
  count : ∀ {log log' : Logger} (key : Datum), logs log log' →
    logs (log.count key).2 (log'.count key).2
  wait : ∀ {log log' : Logger}, logs log log' → logs log.wait log'.wait
  /-- The timer was started when `start` and `start'` were the logs. -/
  stopTimer : ∀ {start start' log log' : Logger} (name : String) (category : Datum),
    logs start start' → logs log log' →
      logs (log.stopTimer name category start.clock).2 (log'.stopTimer name category start'.clock).2

/-- Two workspaces that are the same but for what their bond allows. -/
structure Beside (bond : Bond) (a b : Workspace) : Prop where
  heap : a.session.heap.Renumbered bond.numbering b.session.heap
  lowering : b.session.lowering = a.session.lowering
  solver : a.session.solver = bond.earlier.countedFrom b.session.solver
  timeout : b.session.timeout = a.session.timeout
  assumeDistinct : b.session.assumeDistinct = a.session.assumeDistinct
  outside : bond.outside a.other a.dropped b.other b.dropped
  log : bond.logs a.log b.log

variable {bond : Bond} {engine : Engine} {α : Type}

/-- Two steps that keep workspaces side by side and come to the same. -/
abbrev InStep (bond : Bond) (x y : Run α) : Prop :=
  Lockstep (Beside bond) (Fault.renumber bond.numbering.number) (fun a => a) x y

-- ================================================================== logs

/-- A bond decides alone which writing keeps two logs related. -/
theorem logWith_inStep {write : Logger → Logger}
    (kept : ∀ log log', bond.logs log log' → bond.logs (write log) (write log')) :
    InStep bond (logWith write) (logWith write) :=
  .modify fun a b h => { h with log := kept a.log b.log h.log }

theorem debug_inStep (message : String) (category : Datum) :
    InStep bond (debug message category) (debug message category) :=
  logWith_inStep fun _ _ => bond.note .debug message category nofun

/-- What was interned is noted of the lowering, which both sides have. -/
theorem traceInterned_logs (known : Nat) (lowering : Lowering) {log log' : Logger}
    (h : bond.logs log log') :
    bond.logs (traceInterned known lowering log) (traceInterned known lowering log') := by
  unfold traceInterned
  induction lowering.symbols.vars.entries.drop known generalizing log log' with
  | nil => exact h
  | cons entry rest ih => exact ih (bond.trace _ _ _ h)

/-- What is noted of an action does not name the number of the heap. -/
theorem noteAction_renumber {numbering : Numbering} {heap other : Heap}
    (same : heap.Renumbered numbering other) (action : Heap.Action)
    (result : Except Heap.Fault Heap.Answer) (log : Logger) :
    noteAction other (action.renumber numbering.number)
      (renamed (Heap.Fault.renumber numbering.number) (Heap.Answer.renumber numbering.number)
        result) log = noteAction heap action result log := by
  cases result with
  | error fault =>
      simp only [noteAction, renamed_error, Heap.Fault.isNoted_renumber,
        Heap.Fault.message_renumber]
  | ok answer => simp only [noteAction, renamed_ok, same.trace?]

/-- What is noted of an action has no number of a heap in it. -/
theorem noteAction_logs (heap : Heap) (action : Heap.Action)
    (result : Except Heap.Fault Heap.Answer) {log log' : Logger} (h : bond.logs log log') :
    bond.logs (noteAction heap action result log) (noteAction heap action result log') := by
  cases result with
  | error fault =>
      simp only [noteAction]
      split
      next => exact bond.note .debug _ _ nofun h
      next => exact h
  | ok answer =>
      simp only [noteAction]
      cases heap.trace? action answer with
      | none => simpa using h
      | some trace => exact bond.trace (fun _ => trace.message) _ _ h

-- ============================================================== the parts

/-- The one step in which numbers play a part: the action of the other side
is that on its own handles. -/
theorem onHeap_beside (action : Heap.Action) :
    Lockstep (Beside bond) (Fault.renumber bond.numbering.number)
      (Heap.Answer.renumber bond.numbering.number) (onHeap action)
      (onHeap (action.renumber bond.numbering.number)) := by
  intro a b h
  obtain ⟨outcome, kept⟩ := Heap.perform_renumber action a.session.heap b.session.heap h.heap
  refine ⟨?_, { h with heap := kept, log := ?_ }⟩
  · show (((Heap.perform _).run b.session.heap).1).mapError Fault.heap
      = renamed _ _ ((((Heap.perform action).run a.session.heap).1).mapError Fault.heap)
    rw [outcome]
    cases ((Heap.perform action).run a.session.heap).1 with
    | error fault => rfl
    | ok answer => rfl
  · show bond.logs (noteAction ((Heap.perform action).run a.session.heap).2 action
        ((Heap.perform action).run a.session.heap).1 a.log)
      (noteAction ((Heap.perform _).run b.session.heap).2 _
        ((Heap.perform _).run b.session.heap).1 b.log)
    rw [outcome, noteAction_renumber kept]
    exact noteAction_logs _ _ _ h.log

/-- Both sides lower with the same lowering. -/
theorem onLowering_inStep (step : Lowering.Run α) :
    InStep bond (onLowering step) (onLowering step) := by
  intro a b h
  refine ⟨?_, { h with lowering := ?_, log := ?_ }⟩
  · show (step.run b.session.lowering).1.mapError Fault.lowering
      = renamed _ _ ((step.run a.session.lowering).1.mapError Fault.lowering)
    rw [h.lowering]
    cases (step.run a.session.lowering).1 with
    | error fault => rfl
    | ok a => rfl
  · show (step.run b.session.lowering).2 = (step.run a.session.lowering).2
    rw [h.lowering]
  · show bond.logs (traceInterned _ (step.run a.session.lowering).2 a.log)
      (traceInterned _ (step.run b.session.lowering).2 b.log)
    rw [h.lowering]
    exact traceInterned_logs _ _ h.log

/-- A step of the solvers that does not look at the statistics. -/
theorem onSolver_inStep {step : Solver.Run α} (oblivious : Solver.Oblivious step) :
    InStep bond (onSolver step) (onSolver step) := by
  intro a b h
  have counted := oblivious bond.earlier b.session.solver
  rw [← h.solver] at counted
  refine ⟨?_, { h with solver := ?_ }⟩
  · show (step.run b.session.solver).1.mapError Fault.solver
      = renamed _ _ ((step.run a.session.solver).1.mapError Fault.solver)
    rw [counted]
    dsimp only
    cases (step.run b.session.solver).1 with
    | error fault => rfl
    | ok a => rfl
  · show (step.run a.session.solver).2 = _
    rw [counted]
    rfl

theorem solverAnswer_inStep (answer : Except Solver.Fault α) :
    InStep bond (solverAnswer answer) (solverAnswer answer) := by
  refine .liftM ?_
  cases answer with
  | error fault => rfl
  | ok a => rfl

-- ============================================================== questions

/-- A scope is opened and closed on both sides, also where the step between
fails. -/
theorem inScope_inStep {x y : Run α} (h : InStep bond x y) :
    InStep bond (inScope x) (inScope y) := by
  have closing : InStep bond (onSolver Solver.pop) (onSolver Solver.pop) :=
    onSolver_inStep Solver.pop_oblivious
  refine (onSolver_inStep Solver.push_oblivious).bind fun _ => .tryCatch ?_ ?_
  · exact h.bind fun _ => closing.bind fun _ => .pure rfl
  · exact fun _ => closing.bind fun _ => .throw rfl

/-- A timer runs on both sides, each by its own clock. -/
theorem timed_inStep {x y : Run α} (h : InStep bond x y) (name : String) (category : Datum) :
    InStep bond (timed name category x) (timed name category y) := by
  intro a b beside
  obtain ⟨outcome, kept⟩ := h a b beside
  exact ⟨outcome, { kept with log := bond.stopTimer name category beside.log kept.log }⟩

/-- The engine gets the same assertions from both, so it answers the same.
-/
theorem ask_inStep (assumptions : List Lowered) :
    InStep bond (ask engine assumptions) (ask engine assumptions) := by
  refine .get_bind fun a b h => ?_
  rw [show a.session.solver.assertions = b.session.solver.assertions by
    rw [h.solver]
    rfl]
  refine (logWith_inStep fun _ _ => bond.trace _ _ _).bind fun _ => ?_
  refine (onSolver_inStep (Solver.check_oblivious engine assumptions)).bind fun verdict => ?_
  refine (logWith_inStep fun _ _ => bond.wait).bind fun _ => ?_
  cases verdict with
  | unknown reason => exact (debug_inStep _ _).bind fun _ => .pure rfl
  | sat model => exact .pure rfl
  | unsat => exact .pure rfl

theorem askWith_inStep (terms : List Lowered) :
    InStep bond (askWith engine terms) (askWith engine terms) :=
  (onSolver_inStep (Solver.add_oblivious terms)).bind fun _ => ask_inStep []

theorem askTimed_inStep (terms : List Lowered) :
    InStep bond (askTimed engine terms) (askTimed engine terms) :=
  (onSolver_inStep (Solver.add_oblivious terms)).bind fun _ => timed_inStep (ask_inStep []) _ _

theorem requireBools_inStep (exprs : List Expr) :
    InStep bond (requireBools exprs) (requireBools exprs) := by
  induction exprs with
  | nil => exact .pure rfl
  | cons expr rest ih => exact .ite Iff.rfl (fun _ => ih) fun _ => .throw rfl

theorem constraints_inStep (exprs : List Expr) :
    InStep bond (constraints exprs) (constraints exprs) :=
  (requireBools_inStep exprs).bind fun _ => onLowering_inStep _

/-- The roots of a heap are named by their variables, not by handles. -/
theorem Beside.roots {a b : Workspace} (h : Beside bond a b) :
    b.session.heap.roots = a.session.heap.roots := by
  rw [h.heap.eq]
  rfl

theorem Beside.distinctRoots {a b : Workspace} (h : Beside bond a b) :
    Workspace.distinctRoots b.session = Workspace.distinctRoots a.session := by
  unfold Workspace.distinctRoots
  rw [h.roots, h.assumeDistinct, h.lowering]

/-- The axiom is made of the roots and of what the lowering has interned. -/
theorem axiomTerm_inStep : InStep bond axiomTerm axiomTerm :=
  .get_bind fun a b h => by
    rw [h.distinctRoots]
    exact onLowering_inStep _

theorem assume_inStep (exprs : List Expr) : InStep bond (assume exprs) (assume exprs) :=
  (constraints_inStep exprs).bind fun terms => onSolver_inStep (Solver.add_oblivious terms)

/-- A check, counted by the log and timed. -/
theorem check_inStep (exprs : List Expr) :
    InStep bond (check engine exprs) (check engine exprs) := by
  refine (constraints_inStep exprs).bind fun terms => axiomTerm_inStep.bind fun distinct => ?_
  refine (inScope_inStep (askTimed_inStep _)).bind fun verdict => ?_
  exact (logWith_inStep fun _ _ => bond.count _).bind fun _ => .pure rfl

theorem prove_inStep (e : Expr) : InStep bond (prove engine e) (prove engine e) := by
  refine (constraints_inStep [e]).bind fun terms => ?_
  refine (inScope_inStep ?_).bind fun _ => .pure rfl
  refine axiomTerm_inStep.bind fun distinct => ?_
  exact (solverAnswer_inStep _).bind fun _ => askWith_inStep _

/-- A value is read off the model, which both sides have. -/
theorem valueOf_inStep (e : Expr) : InStep bond (valueOf e) (valueOf e) := by
  refine (onLowering_inStep _).bind fun lowered => .get_bind fun a b h => ?_
  rw [show a.session.solver.evaluate lowered = b.session.solver.evaluate lowered by
    rw [h.solver]
    rfl]
  exact (solverAnswer_inStep _).bind fun _ => .pure rfl

/-- The heap that a reset starts with comes next on both sides. -/
theorem reset_inStep : InStep bond reset reset := by
  refine .bind (.modify fun a b h => ?_) fun _ =>
    (onSolver_inStep Solver.reset_oblivious).bind fun _ => debug_inStep _ _
  refine { h with heap := ?_, lowering := rfl, outside := ?_ }
  · show Heap.Renumbered bond.numbering { id := a.session.heap.id + 1 }
      { id := b.session.heap.id + 1 }
    rw [h.heap.eq, Heap.renumber_id, ← bond.numbering.next _ h.heap.counted]
    exact .start (Nat.le_succ_of_le h.heap.counted)
  · show bond.outside a.other (a.session.heap :: a.dropped) b.other (b.session.heap :: b.dropped)
    rw [h.heap.eq]
    exact bond.drop _ h.outside

theorem forgetSymbols_inStep : InStep bond forgetSymbols forgetSymbols :=
  .modify fun _ _ h => { h with lowering := rfl }

-- =============================================================== commands

/-- An action on an unrelated heap that is the same on both sides, or does
not occur. -/
def Outside (bond : Bond) (command : Command) : Prop :=
  ∀ action, command = .otherHeap action →
    Lockstep (Beside bond) (Fault.renumber bond.numbering.number)
      (Heap.Answer.renumber bond.numbering.number) (onOther action)
      (onOther (action.renumber bond.numbering.number))

/-- One command. -/
theorem perform_beside {command : Command} (outside : Outside bond command) :
    Lockstep (Beside bond) (Fault.renumber bond.numbering.number)
      (Answer.renumber bond.numbering.number) (perform engine command)
      (perform engine (command.renumber bond.numbering.number)) := by
  have lowerOne_inStep (e : Expr) : InStep bond (lowerOne e) (lowerOne e) := onLowering_inStep _
  have lowerAll_inStep (exprs : List Expr) : InStep bond (lowerAll exprs) (lowerAll exprs) :=
    onLowering_inStep _
  have axiom_inStep (step : Lowering.Run Term) :
      Lockstep (Beside bond) (Fault.renumber bond.numbering.number)
        (Answer.renumber bond.numbering.number) (axiomAnswer step) (axiomAnswer step) :=
    (onLowering_inStep step).map fun _ => rfl
  cases command with
  | heap action => exact (onHeap_beside action).map fun _ => rfl
  | otherHeap action => exact (outside action rfl).map fun _ => rfl
  | lower e => exact (lowerOne_inStep e).map fun _ => rfl
  | lowerAll exprs => exact (lowerAll_inStep exprs).map fun _ => rfl
  | sameTerm a b =>
      exact (lowerOne_inStep a).bind fun _ => (lowerOne_inStep b).bind fun _ => .pure rfl
  | simplify e =>
      refine (lowerOne_inStep e).bind fun lowered => ?_
      cases lowered with
      | term t => exact .pure rfl
      | declaration symbol => exact .throw rfl
  | distinct roots =>
      cases roots with
      | some roots => exact axiom_inStep _
      | none => exact axiom_inStep _
  | distinctAllocated =>
      refine .get_bind fun a b h => ?_
      rw [h.roots]
      exact axiom_inStep _
  | axioms => exact axiomTerm_inStep.bind fun _ => .pure rfl
  | forgetSymbols => exact forgetSymbols_inStep.map fun _ => rfl
  | assume exprs => exact (assume_inStep exprs).map fun _ => rfl
  | check exprs => exact (check_inStep exprs).map fun _ => rfl
  | isSatisfiable exprs => exact (check_inStep exprs).bind fun _ => .pure rfl
  | prove e => exact (prove_inStep e).map fun _ => rfl
  | valueOf e | evaluate e => exact (valueOf_inStep e).map fun _ => rfl
  | reset => exact reset_inStep.map fun _ => rfl
  | assert exprs =>
      refine (lowerAll_inStep exprs).bind fun terms => ?_
      exact (onSolver_inStep (Solver.add_oblivious terms)).bind fun _ => .pure rfl
  | push => exact (onSolver_inStep Solver.push_oblivious).map fun _ => rfl
  | pop => exact (onSolver_inStep Solver.pop_oblivious).map fun _ => rfl
  | resetSolver => exact (onSolver_inStep Solver.reset_oblivious).map fun _ => rfl
  | checkAssuming exprs =>
      exact (lowerAll_inStep exprs).bind fun _ => (ask_inStep _).bind fun _ => .pure rfl
  | isSatWith exprs =>
      refine (lowerAll_inStep exprs).bind fun terms => ?_
      exact (inScope_inStep (askWith_inStep terms)).bind fun _ => .pure rfl
  | implies premise conclusion =>
      refine (lowerOne_inStep premise).bind fun _ => (lowerOne_inStep conclusion).bind fun _ => ?_
      exact (solverAnswer_inStep _).bind fun _ => .pure rfl
  | satisfiable exprs =>
      exact (lowerAll_inStep exprs).bind fun _ => (solverAnswer_inStep _).bind fun _ => .pure rfl
  | valid e =>
      exact (lowerOne_inStep e).bind fun _ => (solverAnswer_inStep _).bind fun _ => .pure rfl
  | readBack e => exact (lowerOne_inStep e).bind fun _ => .pure rfl

/-- Programs answer the same, but for the numbers in handles, and leave
the workspaces side by side. -/
theorem run_beside (engine : Engine) {a b : Workspace} (h : Beside bond a b)
    (commands : List Command)
    (outside : ∀ command ∈ commands, Outside bond command) :
    (run engine b (commands.map (Command.renumber bond.numbering.number))).1
        = (run engine a commands).1.map
            (renamed (Fault.renumber bond.numbering.number)
              (Answer.renumber bond.numbering.number)) ∧
      Beside bond (run engine a commands).2
        (run engine b (commands.map (Command.renumber bond.numbering.number))).2 := by
  induction commands generalizing a b with
  | nil => exact ⟨rfl, h⟩
  | cons command rest ih =>
      rw [List.forall_mem_cons] at outside
      have hstep : Lockstep (Beside bond) _ _ (perform engine command) _ :=
        perform_beside outside.1
      obtain ⟨answer, kept⟩ := hstep a b h
      obtain ⟨answers, kept⟩ := ih kept outside.2
      exact ⟨congr (congrArg List.cons answer) answers, kept⟩

end Workspace

end SymbolicHeap
