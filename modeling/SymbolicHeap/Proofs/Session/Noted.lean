/-
Refusals in the log.

A heap notes its refusals at debug level.  Nothing else does: a clash of
symbols, a read that does not match its state, a constraint that is no
truth value, a solver that is given something else than a formula, and
parts that make no expression even where a heap was to put them together,
all of these fail without a word.

So the entries of a step that fails say which kind it was: its debug
entries are the one note of a heap's refusal, or there are none
(`refusals_noted`).  That is in three layers.  Most of what a session does
records traces at most, and its failures are not to be noted (`Quiet`).
What remains is a step of a heap, which notes its own refusal, and a
question, which notes an engine that gives up, but only ever fails before
the engine is asked (`Records`).  A program adds up its steps
(`run_gains`); no step takes an entry back, and only a question that is
answered takes any time.
-/
import SymbolicHeap.Proofs.Session.Logging

namespace SymbolicHeap

-- =============================================================== the notes

/-- What the log is to hold of a failure, at a time. -/
def Fault.notes (clock : Float) : Fault → List Entry
  | .heap cause =>
      if cause.isNoted then
        [{ level := .debug, message := cause.message, category := "memory",
           time := .fractional clock }]
      else []
  | _ => []

/-- What the log is to hold of the outcome of a step. -/
def notesOf {α : Type} (clock : Float) : Except Fault α → List Entry
  | .error fault => fault.notes clock
  | .ok _ => []

/-- An entry at debug level that is about a heap. -/
def Entry.isHeapNote (entry : Entry) : Bool :=
  entry.level = .debug && entry.category.isText "memory"

/-- Notes are at debug level and about a heap. -/
theorem Fault.filter_notes (clock : Float) (fault : Fault) :
    (fault.notes clock).filter Entry.isHeapNote = fault.notes clock := by
  cases fault with
  | heap cause =>
      unfold notes
      dsimp only
      split
      next => rfl
      next => rfl
  | lowering | solver | constraintNotBool => rfl

namespace Logger

/-- What came to a log. -/
def Gains (P : List Entry → Prop) (before after : Logger) : Prop :=
  ∃ gained, after.entries = before.entries ++ gained ∧ P gained

/-- Entries below debug level, or above it. -/
def Traces (gained : List Entry) : Prop := gained.filter (·.level = .debug) = []

variable {P Q S : List Entry → Prop} {a b c : Logger}

namespace Gains

theorem trans (h : Gains P a b) (k : Gains Q b c)
    (together : ∀ {first second}, P first → Q second → S (first ++ second)) :
    Gains S a c := by
  obtain ⟨first, entries, p⟩ := h
  obtain ⟨second, entries', q⟩ := k
  refine ⟨first ++ second, ?_, together p q⟩
  rw [entries', entries, List.append_assoc]

theorem mono (h : Gains P a b) (weaker : ∀ {gained}, P gained → Q gained) : Gains Q a b := by
  obtain ⟨gained, entries, p⟩ := h
  exact ⟨gained, entries, weaker p⟩

/-- A log that nothing was added to. -/
theorem none (entries : b.entries = a.entries) (nothing : P []) : Gains P a b := by
  refine ⟨[], ?_, nothing⟩
  rw [entries, List.append_nil]

theorem note {level : Level} {message : String} {category : Datum}
    {context : List (String × Datum)} (h : P [a.entryOf level message category context]) :
    Gains P a (a.note level message category context) := by
  obtain ⟨written, hnote⟩ := a.note_eq level message category context
  rw [hnote]
  exact ⟨_, rfl, h⟩

end Gains

theorem traces_append {first second : List Entry} (h : Traces first) (k : Traces second) :
    Traces (first ++ second) := by
  unfold Traces at h k ⊢
  rw [List.filter_append, h, k]
  rfl

/-- Traces are below the level of what is noted of a refusal. -/
theorem Traces.noHeapNotes {gained : List Entry} (h : Traces gained) :
    gained.filter Entry.isHeapNote = [] := by
  rw [Traces, List.filter_eq_nil_iff] at h
  rw [List.filter_eq_nil_iff]
  intro entry among note
  unfold Entry.isHeapNote at note
  rw [Bool.and_eq_true] at note
  exact h entry among note.1

/-- What is traced is traced at once. -/
def Tracing (before after : Logger) : Prop :=
  after.clock = before.clock ∧ Gains Traces before after

/-- Waiting takes time, but nothing comes of it. -/
theorem gains_wait (log : Logger) :
    Gains (·.filter Entry.isHeapNote = []) log log.wait := by
  unfold wait
  cases log.delays with
  | nil => exact .none rfl rfl
  | cons delay rest => exact .none rfl rfl

theorem tracing_steady : Steady Tracing where
  refl _ := ⟨rfl, .none rfl rfl⟩
  trans h k := ⟨k.1.trans h.1, h.2.trans k.2 traces_append⟩

/-- Only an entry at the level of the refusals is no trace. -/
theorem tracing_note (level : Level) (message : String) (category : Datum)
    (context : List (String × Datum)) (other : level ≠ .debug) (log : Logger) :
    Tracing log (log.note level message category context) := by
  refine ⟨?_, .note ?_⟩
  · obtain ⟨written, hnote⟩ := log.note_eq level message category context
    rw [hnote]
  · have passed : ¬decide (level = .debug) = true := fun same => other (of_decide_eq_true same)
    exact List.filter_cons_of_neg passed

theorem tracing_traceIfEnabled (log : Logger) (message : Unit → String) (category : Datum)
    (context : List (String × Datum)) :
    Tracing log (log.traceIfEnabled message category context) := by
  unfold traceIfEnabled
  split
  next => exact tracing_note .trace _ _ _ nofun log
  next => exact tracing_steady.refl log

/-- One line for what has been interned, at most. -/
theorem tracing_traceInterned (known : Nat) (lowering : Lowering) (log : Logger) :
    Tracing log (Workspace.traceInterned known lowering log) := by
  unfold Workspace.traceInterned
  induction lowering.symbols.vars.entries.drop known generalizing log with
  | nil => exact tracing_steady.refl log
  | cons entry rest ih =>
      exact tracing_steady.trans (tracing_traceIfEnabled _ _ _ _) (ih _)

end Logger

namespace Workspace

open Logger (Gains Traces Tracing)

variable {α β : Type} {engine : Engine}

-- ============================================================= quiet steps

/-- A step that takes no time and records traces at most, and none of whose
failures is to be noted. -/
def Quiet (x : Run α) : Prop := ∀ space,
  Tracing space.log (x.run space).2.log ∧ ∀ clock, notesOf clock (x.run space).1 = []

namespace Quiet

theorem pure (a : α) : Quiet (pure a : Run α) :=
  fun space => ⟨Logger.tracing_steady.refl space.log, fun _ => rfl⟩

theorem get : Quiet (get : Run Workspace) :=
  fun space => ⟨Logger.tracing_steady.refl space.log, fun _ => rfl⟩

theorem modify {f : Workspace → Workspace} (h : ∀ space, (f space).log = space.log) :
    Quiet (modify f : Run Unit) := by
  intro space
  refine ⟨?_, fun _ => rfl⟩
  show Tracing space.log (f space).log
  rw [h]
  exact Logger.tracing_steady.refl space.log

/-- To fail is quiet where nothing is noted of the fault. -/
theorem throw {fault : Fault} (h : ∀ clock, fault.notes clock = []) :
    Quiet (throw fault : Run α) :=
  fun space => ⟨Logger.tracing_steady.refl space.log, h⟩

theorem bind {x : Run α} {f : α → Run β} (hx : Quiet x) (hf : ∀ a, Quiet (f a)) :
    Quiet (x >>= f) := by
  intro space
  obtain ⟨tracing, unnoted⟩ := hx space
  rw [run_bind]
  rcases hr : x.run space with ⟨fault | a, reached⟩
  · rw [hr] at tracing unnoted
    exact ⟨tracing, unnoted⟩
  · rw [hr] at tracing
    obtain ⟨tracing', unnoted'⟩ := hf a reached
    exact ⟨Logger.tracing_steady.trans tracing tracing', unnoted'⟩

theorem map {x : Run α} (hx : Quiet x) (f : α → β) : Quiet (f <$> x) := by
  intro space
  obtain ⟨tracing, unnoted⟩ := hx space
  rw [run_map]
  refine ⟨tracing, fun clock => ?_⟩
  rw [← unnoted clock]
  cases (x.run space).1 with
  | error fault => rfl
  | ok a => rfl

end Quiet

/-- The solver does not log. -/
theorem onSolver_quiet (step : Solver.Run α) : Quiet (onSolver step) := by
  intro space
  refine ⟨Logger.tracing_steady.refl space.log, fun clock => ?_⟩
  show notesOf clock ((step.run space.session.solver).1.mapError Fault.solver) = []
  cases (step.run space.session.solver).1 with
  | error fault => rfl
  | ok a => rfl

theorem solverAnswer_quiet (answer : Except Solver.Fault α) : Quiet (solverAnswer answer) := by
  cases answer with
  | error fault => exact .throw fun _ => rfl
  | ok a => exact .pure a

/-- What is interned is traced; the lowering says nothing of its failures. -/
theorem onLowering_quiet (step : Lowering.Run α) : Quiet (onLowering step) := by
  intro space
  refine ⟨Logger.tracing_traceInterned _ _ _, fun clock => ?_⟩
  show notesOf clock ((step.run space.session.lowering).1.mapError Fault.lowering) = []
  cases (step.run space.session.lowering).1 with
  | error fault => rfl
  | ok a => rfl

theorem logWith_quiet {write : Logger → Logger} (h : ∀ log, Tracing log (write log)) :
    Quiet (logWith write) :=
  fun space => ⟨h space.log, fun _ => rfl⟩

theorem count_quiet (key : Datum) : Quiet (logWith fun log => (log.count key).2) := by
  refine logWith_quiet fun log => ?_
  unfold Logger.count
  dsimp only
  split
  next => exact ⟨rfl, .none rfl rfl⟩
  next => exact ⟨rfl, .none rfl rfl⟩

/-- A constraint that is not a truth value is refused without a note. -/
theorem constraints_quiet (exprs : List Expr) : Quiet (constraints exprs) := by
  refine .bind ?_ fun _ => onLowering_quiet _
  induction exprs with
  | nil => exact .pure _
  | cons e rest ih =>
      unfold requireBools
      split
      next => exact ih
      next => exact .throw fun _ => rfl

theorem axiomTerm_quiet : Quiet axiomTerm := .bind .get fun _ => onLowering_quiet _

/-- Assumptions are checked, lowered and given to the solver, none of which
is noted. -/
theorem assume_quiet (exprs : List Expr) : Quiet (assume exprs) :=
  .bind (constraints_quiet exprs) fun _ => onSolver_quiet _

theorem valueOf_quiet (e : Expr) : Quiet (valueOf e) := by
  refine .bind (onLowering_quiet _) fun _ => .bind .get fun _ => ?_
  exact .bind (solverAnswer_quiet _) fun _ => .pure _

-- ========================================================== what is recorded

/-- What a step may record, by how it went: its debug entries are the notes
of its failure, and if it succeeds none of them is about a heap. -/
def Recorded (clock : Float) : Except Fault α → List Entry → Prop
  | .error fault, gained => gained.filter (·.level = .debug) = fault.notes clock
  | .ok _, gained => gained.filter Entry.isHeapNote = []

def Records (x : Run α) : Prop := ∀ space,
  Gains (Recorded space.log.clock (x.run space).1) space.log (x.run space).2.log

namespace Records

theorem of_quiet {x : Run α} (h : Quiet x) : Records x := by
  intro space
  obtain ⟨⟨-, gains⟩, unnoted⟩ := h space
  refine gains.mono fun {gained} traces => ?_
  have nothing := unnoted space.log.clock
  cases hr : (x.run space).1 with
  | error fault =>
      rw [hr] at nothing
      exact traces.trans nothing.symm
  | ok a => exact traces.noHeapNotes

theorem pure (a : α) : Records (pure a : Run α) := .of_quiet (.pure a)

theorem map {x : Run α} (hx : Records x) (f : α → β) : Records (f <$> x) := by
  intro space
  rw [run_map]
  refine (hx space).mono fun {gained} recorded => ?_
  cases hr : (x.run space).1 with
  | error fault =>
      rw [hr] at recorded
      exact recorded
  | ok a =>
      rw [hr] at recorded
      exact recorded

theorem bind {x : Run α} {f : α → Run β} (hx : Quiet x) (hf : ∀ a, Records (f a)) :
    Records (x >>= f) := by
  intro space
  have first := Records.of_quiet hx space
  obtain ⟨⟨clock, gains⟩, -⟩ := hx space
  rw [run_bind]
  rcases hr : x.run space with ⟨fault | a, reached⟩
  · rw [hr] at first
    exact first
  · rw [hr] at clock gains
    have rest := hf a reached
    rw [clock] at rest
    refine gains.trans rest fun {first second} traces recorded => ?_
    unfold Recorded at recorded ⊢
    cases hout : ((f a).run reached).1 with
    | error fault =>
        rw [hout] at recorded
        dsimp only at recorded ⊢
        rw [List.filter_append, traces, recorded]
        rfl
    | ok b =>
        rw [hout] at recorded
        dsimp only at recorded ⊢
        rw [List.filter_append, traces.noHeapNotes, recorded]
        rfl

/-- Where what follows does not fail, what comes first may be noted, and
may take time. -/
theorem bind_of_ok {x : Run α} {f : α → Run β} (hx : Records x) (hf : ∀ a, Records (f a))
    (ok : ∀ a space, ((f a).run space).1.isOk = true) : Records (x >>= f) := by
  intro space
  have first := hx space
  rw [run_bind]
  rcases hr : x.run space with ⟨fault | a, reached⟩
  · rw [hr] at first
    exact first
  · rw [hr] at first
    obtain ⟨b, after, hout⟩ := eq_ok_of_isOk (ok a reached)
    have rest := hf a reached
    dsimp only
    rw [hout] at rest ⊢
    refine first.trans rest fun {first second} recorded recorded' => ?_
    unfold Recorded at recorded recorded' ⊢
    dsimp only at recorded recorded' ⊢
    rw [List.filter_append, recorded, recorded']
    rfl

end Records

theorem logWith_records {write : Logger → Logger}
    (h : ∀ log, Gains (·.filter Entry.isHeapNote = []) log (write log)) :
    Records (logWith write) :=
  fun space => h space.log

/-- The note of a timer is at another level. -/
theorem timed_records {x : Run α} (h : Records x) (name : String) (category : Datum) :
    Records (timed name category x) := by
  intro space
  obtain ⟨-, gains⟩ := Logger.tracing_note .verbose (Logger.elapsedText name
    ((x.run space).2.log.clock - space.log.clock)) category [] nofun (x.run space).2.log
  refine (h space).trans gains fun {first second} recorded traces => ?_
  show Recorded space.log.clock (x.run space).1 (first ++ second)
  cases hr : (x.run space).1 with
  | error fault =>
      rw [hr] at recorded
      unfold Recorded at recorded ⊢
      dsimp only at recorded ⊢
      rw [List.filter_append, recorded, traces, List.append_nil]
  | ok a =>
      rw [hr] at recorded
      unfold Recorded at recorded ⊢
      dsimp only at recorded ⊢
      rw [List.filter_append, recorded, traces.noHeapNotes]
      rfl

/-- What a session notes at debug level about other things than a heap. -/
theorem debug_records (message : String) {category : Datum}
    (other : category.isText "memory" = false) : Records (debug message category) := by
  intro space
  refine .note ?_
  show List.filter Entry.isHeapNote [_] = []
  rw [List.filter_cons_of_neg, List.filter_nil]
  unfold Entry.isHeapNote
  simpa [Logger.entryOf] using other

-- =================================================================== heaps

/-- What is noted of an action at the level of refusals is the message of
its fault. -/
theorem noteAction_gains (heap : Heap) (action : Heap.Action)
    (result : Except Heap.Fault Heap.Answer) (log : Logger) :
    Gains (Recorded log.clock (result.mapError Fault.heap)) log
      (noteAction heap action result log) := by
  cases result with
  | error fault =>
      unfold noteAction
      dsimp only
      split
      next noted =>
        refine .note ?_
        show [_] = Fault.notes log.clock (.heap fault)
        unfold Fault.notes
        dsimp only
        rw [if_pos noted]
        rfl
      next silent =>
        refine .none rfl ?_
        show [] = Fault.notes log.clock (.heap fault)
        unfold Fault.notes
        dsimp only
        rw [if_neg silent]
  | ok answer =>
      have traced : Gains Traces log (noteAction heap action (.ok answer) log) := by
        unfold noteAction
        dsimp only
        split
        next =>
          cases heap.trace? action answer with
          | none => exact .none rfl rfl
          | some trace => exact .note rfl
        next => exact .none rfl rfl
      exact traced.mono Traces.noHeapNotes

/-- The heap of the session notes its refusals. -/
theorem onHeap_records (action : Heap.Action) : Records (onHeap action) :=
  fun _ => noteAction_gains _ action _ _

/-- And so does the one beside it. -/
theorem onOther_records (action : Heap.Action) : Records (onOther action) :=
  fun _ => noteAction_gains _ action _ _

-- =============================================================== questions

/-- An engine that gives up is noted, but a question fails before that. -/
theorem ask_records (assumptions : List Lowered) : Records (ask engine assumptions) := by
  refine .bind .get fun _ => .bind (logWith_quiet fun _ => ?_) fun _ => ?_
  · exact Logger.tracing_traceIfEnabled _ _ _ _
  · refine .bind (onSolver_quiet _) fun verdict => ?_
    refine .bind_of_ok (logWith_records Logger.gains_wait) (fun _ => ?_) fun _ _ => ?_
    · cases verdict with
      | unknown reason => exact .bind_of_ok (debug_records _ rfl) (fun _ => .pure _) fun _ _ => rfl
      | sat model | unsat => exact .pure _
    · cases verdict with
      | unknown reason => rfl
      | sat model | unsat => rfl

theorem askWith_records (given : List Lowered) : Records (askWith engine given) :=
  .bind (onSolver_quiet _) fun _ => ask_records []

theorem askTimed_records (given : List Lowered) : Records (askTimed engine given) :=
  .bind (onSolver_quiet _) fun _ => timed_records (ask_records []) _ _

/-- A step that does not touch the log. -/
def Unlogged (before after : Workspace) : Prop := after.log = before.log

theorem unlogged_steady : Steady Unlogged where
  refl _ := rfl
  trans h k := Eq.trans k h

/-- Opening and closing a scope is not recorded. -/
theorem inScope_log (step : Run α) (space : Workspace) :
    ((inScope step).run space).2.log = (step.run (opened space)).2.log := by
  have pop : Leads Unlogged (onSolver Solver.pop) := fun _ => rfl
  have failing (fault : Fault) :
      Leads Unlogged (onSolver Solver.pop >>= fun _ => throw fault : Run α) :=
    .bind unlogged_steady pop fun _ => .throw unlogged_steady _
  have hrun : (inScope step).run space
      = (tryCatch (step >>= fun result => onSolver Solver.pop >>= fun _ => pure result)
          fun fault => onSolver Solver.pop >>= fun _ => throw fault).run (opened space) := rfl
  rw [hrun, run_tryCatch, run_bind]
  rcases step.run (opened space) with ⟨fault | a, reached⟩
  · exact failing fault reached
  · have closing : Leads Unlogged (onSolver Solver.pop >>= fun _ => pure a : Run α) :=
      .bind unlogged_steady pop fun _ => .pure unlogged_steady _
    dsimp only
    rcases hr : (onSolver Solver.pop >>= fun _ => pure a : Run α).run reached with
      ⟨fault | b, closed⟩
    · exact (failing fault closed).trans (closing.of_run hr)
    · exact closing.of_run hr

/-- The scope is closed without a note, so the fault that ended the question
is still the last. -/
theorem inScope_records {step : Run α} {L : Lowering → Lowering → Prop}
    (leads : Leads (Around L Solver.Grown) step) (h : Records step) : Records (inScope step) := by
  intro space
  obtain ⟨closed, hrun, -⟩ := inScope_run leads space
  have recorded := h (opened space)
  rw [← inScope_log] at recorded
  rw [show ((inScope step).run space).1 = (step.run (opened space)).1 by rw [hrun]]
  exact recorded

/-- A question in a scope fails before the engine is asked, or not at all. -/
theorem check_records (exprs : List Expr) : Records (check engine exprs) := by
  refine .bind (constraints_quiet exprs) fun terms => .bind axiomTerm_quiet fun distinct => ?_
  refine .bind_of_ok (inScope_records (askTimed_leads same_steady _) (askTimed_records _))
    (fun _ => ?_) fun _ _ => rfl
  exact .bind (count_quiet _) fun _ => .pure _

theorem prove_records (e : Expr) : Records (prove engine e) := by
  refine .bind (constraints_quiet [e]) fun terms => ?_
  refine .bind_of_ok (inScope_records (proveScope_leads _) ?_) (fun _ => .pure _) fun _ _ => rfl
  exact .bind axiomTerm_quiet fun _ => .bind (solverAnswer_quiet _) fun _ => askWith_records _

theorem reset_records : Records reset :=
  .bind (.modify fun _ => rfl) fun _ => .bind (onSolver_quiet _) fun _ => debug_records _ rfl

-- ================================================================ commands

theorem perform_records (engine : Engine) (command : Command) :
    Records (perform engine command) := by
  have lower (e : Expr) : Quiet (lowerOne e) := onLowering_quiet _
  have lowerAll (exprs : List Expr) : Quiet (lowerAll exprs) := onLowering_quiet _
  cases command with
  | heap action => exact (onHeap_records action).map _
  | otherHeap action => exact (onOther_records action).map _
  | lower e => exact .of_quiet ((lower e).map _)
  | lowerAll exprs => exact .of_quiet ((lowerAll exprs).map _)
  | sameTerm a b => exact .of_quiet (.bind (lower a) fun _ => .bind (lower b) fun _ => .pure _)
  | simplify e =>
      refine .of_quiet (.bind (lower e) fun lowered => ?_)
      cases lowered with
      | term t => exact .pure _
      | declaration symbol => exact .throw fun _ => rfl
  | distinct roots =>
      cases roots with
      | some roots => exact .of_quiet ((onLowering_quiet _).map _)
      | none => exact .of_quiet ((onLowering_quiet _).map _)
  | distinctAllocated => exact .of_quiet (.bind .get fun _ => (onLowering_quiet _).map _)
  | axioms => exact .of_quiet (.bind axiomTerm_quiet fun _ => .pure _)
  | forgetSymbols =>
      have forget : Quiet forgetSymbols := .modify fun _ => rfl
      exact .of_quiet (forget.map _)
  | assume exprs => exact .of_quiet ((assume_quiet exprs).map _)
  | check exprs => exact (check_records exprs).map _
  | isSatisfiable exprs => exact .bind_of_ok (check_records exprs) (fun _ => .pure _) fun _ _ => rfl
  | prove e => exact (prove_records e).map _
  | valueOf e | evaluate e => exact .of_quiet ((valueOf_quiet e).map _)
  | reset => exact reset_records.map _
  | assert exprs =>
      exact .of_quiet (.bind (lowerAll exprs) fun _ => .bind (onSolver_quiet _) fun _ => .pure _)
  | push | pop | resetSolver => exact .of_quiet ((onSolver_quiet _).map _)
  | checkAssuming exprs =>
      exact .bind (lowerAll exprs) fun _ =>
        .bind_of_ok (ask_records _) (fun _ => .pure _) fun _ _ => rfl
  | isSatWith exprs =>
      exact .bind (lowerAll exprs) fun _ =>
        .bind_of_ok (inScope_records (askWith_leads same_steady _) (askWith_records _))
          (fun _ => .pure _) fun _ _ => rfl
  | implies premise conclusion =>
      exact .of_quiet (.bind (lower premise) fun _ => .bind (lower conclusion) fun _ =>
        .bind (solverAnswer_quiet _) fun _ => .pure _)
  | satisfiable exprs =>
      exact .of_quiet (.bind (lowerAll exprs) fun _ =>
        .bind (solverAnswer_quiet _) fun _ => .pure _)
  | valid e =>
      exact .of_quiet (.bind (lower e) fun _ => .bind (solverAnswer_quiet _) fun _ => .pure _)
  | readBack e => exact .of_quiet (.bind (lower e) fun _ => .pure _)

-- ================================================================= programs

/-- What is noted about heaps in one step is what is to be noted of its
outcome. -/
theorem Recorded.heapNotes {clock : Float} {outcome : Except Fault α} {gained : List Entry}
    (h : Recorded clock outcome gained) :
    gained.filter Entry.isHeapNote = notesOf clock outcome := by
  cases outcome with
  | error fault =>
      have split : gained.filter Entry.isHeapNote
          = (gained.filter (·.level = .debug)).filter Entry.isHeapNote := by
        rw [List.filter_filter]
        refine List.filter_congr fun entry _ => ?_
        unfold Entry.isHeapNote
        cases decide (entry.level = .debug) with
        | true => simp
        | false => simp
      rw [split, show gained.filter (·.level = .debug) = fault.notes clock from h]
      exact fault.filter_notes clock
  | ok a => exact h

/-- The times at which the steps of a program begin. -/
def clocksAlong (engine : Engine) : Workspace → List Command → List Float
  | _, [] => []
  | space, command :: rest =>
      space.log.clock :: clocksAlong engine (step engine space command).2 rest

/-- What the log is to hold of the outcomes of steps, with the times at
which they began. -/
def notesAlong (clocks : List Float) (answers : List (Except Fault Answer)) : List Entry :=
  (List.zipWith notesOf clocks answers).flatten

/-- The notes about heaps in the log of a program are those of the
refusals among its answers, in their order. -/
theorem run_gains (engine : Engine) (space : Workspace) (commands : List Command) :
    Gains (·.filter Entry.isHeapNote
        = notesAlong (clocksAlong engine space commands) (run engine space commands).1)
      space.log (run engine space commands).2.log := by
  induction commands generalizing space with
  | nil => exact .none rfl rfl
  | cons command rest ih =>
      have first : Gains _ space.log (step engine space command).2.log :=
        perform_records engine command space
      refine first.trans (ih (step engine space command).2)
        fun {before after} recorded notes => ?_
      rw [List.filter_append, notes, recorded.heapNotes]
      rfl

/-- In any program, wherever it started: a step that fails adds to the log,
at debug level, the note of the refusal if it is a heap's own, and nothing
if it is anyone else's.  The notes about heaps that the program has put
into the log by then are the notes of the heaps' refusals among its
answers, in their order, this one last.  Each is dated when the step that
was refused began. -/
theorem refusals_noted {engine : Engine} {space reached after : Workspace}
    {commands : List Command} {answers : List (Except Fault Answer)}
    (ran : run engine space commands = (answers, reached)) {command : Command} {fault : Fault}
    (failed : step engine reached command = (.error fault, after)) :
    (∃ gained, after.log.entries = reached.log.entries ++ gained ∧
      gained.filter (·.level = .debug) = fault.notes reached.log.clock) ∧
    ∃ gained, after.log.entries = space.log.entries ++ gained ∧
      gained.filter Entry.isHeapNote
        = notesAlong (clocksAlong engine space commands) answers
            ++ fault.notes reached.log.clock := by
  have before := run_gains engine space commands
  have last := perform_records engine command reached
  rw [ran] at before
  rw [show (perform engine command).run reached = (.error fault, after) from failed] at last
  refine ⟨last, before.trans last fun {first second} notes recorded => ?_⟩
  rw [List.filter_append, notes, recorded.heapNotes]
  rfl

/-- A variable that comes up at another type is refused. -/
theorem step_redeclared (engine : Engine) {space : Workspace} {name : String} {known ty : Ty}
    {term : Term}
    (found : space.session.lowering.symbols.vars.find? name = some (known, term))
    (other : known ≠ ty) :
    (step engine space (.lower (.var name ty))).1
      = .error (.lowering (.redeclared name known ty)) := by
  have clash : space.session.lowering.symbols.internVariable name ty
      = (.error (.redeclared name known ty), space.session.lowering.symbols) := by
    unfold Lowering.SymbolTable.internVariable
    rw [found]
    exact if_neg other
  have refused : (Lowering.lower (.var name ty) : Lowering.Run Term).run space.session.lowering
      = (.error (.redeclared name known ty), space.session.lowering) := by
    show (Lowering.internVar name ty : Lowering.Run Term).run space.session.lowering = _
    simp only [Lowering.internVar, Lowering.intern, ExceptT.run, clash]
  have lowered : (Lowering.lowered (.var name ty) : Lowering.Run Lowered).run
      space.session.lowering
        = (.error (.redeclared name known ty), space.session.lowering) :=
    run_bind_of_error refused _
  unfold step perform lowerOne
  rw [run_map]
  show (((Lowering.lowered (.var name ty) : Lowering.Run Lowered).run
    space.session.lowering).1.mapError Fault.lowering).map Answer.lowered = _
  rw [lowered]
  rfl

/-- A session in which `x` is an integer. -/
def declared : Workspace := (step undecided (fresh 0 false {}) (.lower (.var "x" .int))).2

theorem declared_clash : (run undecided declared [.lower (.var "x" .bool)]).1 =
    [.error (.lowering (.redeclared "x" .int .bool))] := by
  have known : (declared.session.lowering.symbols.vars.find? "x").map Prod.fst = some .int := by
    decide +kernel
  obtain ⟨⟨ty, term⟩, found, rfl⟩ := Option.map_eq_some_iff.1 known
  exact congrArg (fun answer => [answer]) (step_redeclared undecided found nofun)

/-- The clash of two variables is not noted, the refusal of a heap after it
is. -/
theorem refusals_noted_unallocatable :
    let reached := (run undecided declared [.lower (.var "x" .bool)]).2
    let refused := step undecided reached (.heap (.allocate .ref none none))
    ∃ gained, refused.2.log.entries = declared.log.entries ++ gained ∧
      gained.filter Entry.isHeapNote =
        [{ level := .debug, message := "cannot allocate a value of type reference",
           category := "memory", time := .fractional reached.log.clock }] := by
  have failed : (step undecided (run undecided declared [.lower (.var "x" .bool)]).2
      (.heap (.allocate .ref none none))).1 = .error (.heap (.unallocatable .ref)) := rfl
  have text : (Heap.Fault.unallocatable .ref).message
      = "cannot allocate a value of type reference" := by decide +kernel
  obtain ⟨-, gained, entries, notes⟩ := refusals_noted rfl (Prod.ext failed rfl)
  refine ⟨gained, entries, notes.trans ?_⟩
  rw [declared_clash, ← text]
  rfl

/-- A variable that comes up at another type is refused, and the log does
not say so. -/
theorem clash_unnoted :
    (run undecided declared [.lower (.var "x" .bool)]).1 =
        [.error (.lowering (.redeclared "x" .int .bool))] ∧
      ∀ entry ∈ (run undecided declared [.lower (.var "x" .bool)]).2.log.entries,
        entry.level ≠ .debug :=
  ⟨declared_clash, by decide +kernel⟩

end Workspace

end SymbolicHeap
