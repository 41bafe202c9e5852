/-
Runs of a session.

A run of a session is followed beside the list of what has been assumed
since the last reset (`Tracked`).  What one step does, raised or not, is
said once (`Moves`), and all that holds along a run is read off it.
Whatever is done and whatever fails on the way, the assertions of the
solver go on describing exactly the interpretations that make all of the
assumptions true (`Coherent`).
-/
import SymbolicHeap.Proofs.Heap.History
import SymbolicHeap.Proofs.Lowering.Owner
import SymbolicHeap.Proofs.Session.Question

namespace SymbolicHeap

open Lowering

/-- The steps of an analysis that uses its session only as a session. -/
inductive Command.InSession : Command → Prop
  | heap (action : Heap.Action) : InSession (.heap action)
  | lower (e : Expr) : InSession (.lower e)
  | lowerAll (exprs : List Expr) : InSession (.lowerAll exprs)
  | assume {exprs : List Expr} : (∀ e ∈ exprs, e.Made) → InSession (.assume exprs)
  | check (exprs : List Expr) : InSession (.check exprs)
  | isSatisfiable (exprs : List Expr) : InSession (.isSatisfiable exprs)
  | prove (e : Expr) : InSession (.prove e)
  | valueOf (e : Expr) : InSession (.valueOf e)
  | reset : InSession .reset

/-- The steps that put a question about a session to the engine. -/
def Command.isQuery : Command → Bool
  | .check _ | .isSatisfiable _ | .prove _ => true
  | _ => false

/-- The constraints of a question. -/
def Command.questions : Command → List Expr
  | .check exprs | .isSatisfiable exprs => exprs
  | .prove e => [e]
  | _ => []

/-- What a question looks for: something that makes its constraints true,
or false if it is to be proved that there is nothing. -/
def Command.Seeks (command : Command) (I : Interp) : Prop :=
  match command with
  | .prove e => I.value e = .bool false
  | command => ∀ e ∈ command.questions, I.Holds e

/-- What a question answers, by what is found about it. -/
def Command.answerTo (command : Command) (verdict : Verdict) : Answer :=
  match command with
  | .isSatisfiable _ => .truth verdict.isSat
  | .prove _ => .truth verdict.isUnsat
  | _ => .verdict verdict

namespace Workspace

/-- A workspace, and what has been assumed since the last reset. -/
structure Tracked where
  space : Workspace
  assumed : List Expr := []

/-- What is assumed after a step.  An assumption that is refused assumes
nothing. -/
def assumedAfter (assumed : List Expr) : Command → Except Fault Answer → List Expr
  | .assume exprs, .ok _ => assumed ++ exprs
  | .reset, _ => []
  | _, _ => assumed

def Tracked.after (engine : Engine) (tracked : Tracked) (command : Command) : Tracked :=
  let (answer, space) := step engine tracked.space command
  ⟨space, assumedAfter tracked.assumed command answer⟩

/-- Several steps, from a new session. -/
def Tracked.afterAll (engine : Engine) (space : Workspace) (commands : List Command) : Tracked :=
  commands.foldl (Tracked.after engine) { space }

-- =============================================================== one step

/-- What a step of a session does, raised or not. -/
inductive Moves (before : Tracked) : Command → Except Fault Answer → Tracked → Prop
  | heap {after : Workspace} (action : Heap.Action) (answer : Except Fault Answer) :
      after.session = { before.space.session with
        heap := before.space.session.heap.after action } →
      Moves before (.heap action) answer ⟨after, before.assumed⟩
  /-- Constraints have been asserted, one formula for each. -/
  | assumed {after : Workspace} {exprs : List Expr} {terms : List Term} :
      (Describes terms fun I => ∀ e ∈ exprs, I.Holds e) →
      (∀ e ∈ exprs, after.session.lowering.symbols.Knows e) →
      Around Fit (fun before after =>
        after = { before with assertions := before.assertions ++ terms }) before.space after →
      Moves before (.assume exprs) (.ok .done) ⟨after, before.assumed ++ exprs⟩
  | reset {after : Workspace} (answer : Except Fault Answer) :
      after.session.lowering = {} → (∃ id, after.session.heap = { id }) →
      after.session.solver.assertions = [] → Moves before .reset answer ⟨after, []⟩
  /-- Nothing has been asked or asserted. -/
  | quiet {after : Workspace} {command : Command} {answer : Except Fault Answer} :
      command ≠ .reset → Around Fit Eq before.space after →
      Moves before command answer ⟨after, before.assumed⟩
  /-- A question was answered. -/
  | answered {after : Workspace} {command : Command} (answer : Answer) :
      command.isQuery = true → Around Fit Solver.Kept before.space after →
      Moves before command (.ok answer) ⟨after, before.assumed⟩

section

variable {engine : Engine} {tracked : Tracked}

/-- A step that asks nothing. -/
theorem Moves.of_leads {command : Command} (leads : Leads (Around Fit Eq) (perform engine command))
    (other : command ≠ .reset)
    (same : ∀ answer, assumedAfter tracked.assumed command answer = tracked.assumed) :
    Moves tracked command (step engine tracked.space command).1
      (tracked.after engine command) := by
  have hafter : tracked.after engine command
      = ⟨(step engine tracked.space command).2, tracked.assumed⟩ := by
    rw [← same (step engine tracked.space command).1]
    rfl
  rw [hafter]
  exact .quiet other (leads tracked.space)

/-- A question: it is answered, or leaves the solver as it was. -/
theorem Moves.of_query {command : Command} (query : command.isQuery = true)
    (leads : Leads (Around Fit Solver.Kept) (perform engine command))
    (refuses : Refuses (Around Fit Eq) (perform engine command)) :
    Moves tracked command (step engine tracked.space command).1
      (tracked.after engine command) := by
  have other : command ≠ .reset := by
    rintro rfl
    cases query
  have hafter : tracked.after engine command
      = ⟨(step engine tracked.space command).2, tracked.assumed⟩ := by
    cases command with
    | check | isSatisfiable | prove => rfl
    | _ => cases query
  rw [hafter]
  rcases hr : step engine tracked.space command with ⟨fault | answer, after⟩
  · exact .quiet other (refuses tracked.space fault after hr)
  · exact .answered answer query (leads.of_run hr)

theorem Moves.of_assume {exprs : List Expr} (made : ∀ e ∈ exprs, e.Made)
    (faithful : Faithful tracked.space.session.lowering) :
    Moves tracked (.assume exprs) (step engine tracked.space (.assume exprs)).1
      (tracked.after engine (.assume exprs)) := by
  rcases hr : (assume exprs).run tracked.space with ⟨outcome, after⟩
  have hstep : step engine tracked.space (.assume exprs)
      = (outcome.map fun _ => .done, after) := by
    show ((fun _ => Answer.done) <$> assume exprs).run tracked.space = _
    rw [run_map, hr]
  have hafter : tracked.after engine (.assume exprs)
      = ⟨after, assumedAfter tracked.assumed (.assume exprs) (outcome.map fun _ => .done)⟩ := by
    show Tracked.mk (step engine tracked.space (.assume exprs)).2
      (assumedAfter _ _ (step engine tracked.space (.assume exprs)).1) = _
    rw [hstep]
  rw [hafter, hstep]
  rcases assume_run (fun e he => (made e he).isFormula) faithful hr with
    ⟨⟨fault, rfl⟩, quiet⟩ | ⟨rfl, terms, -, hterms, hknows, asserted⟩
  · exact .quiet nofun quiet
  · exact .assumed hterms hknows asserted

/-- One step of a session, raised or not. -/
theorem Moves.of_step {command : Command} (inSession : command.InSession)
    (faithful : Faithful tracked.space.session.lowering) :
    Moves tracked command (step engine tracked.space command).1
      (tracked.after engine command) := by
  cases inSession with
  | heap action =>
      have hstep : step engine tracked.space (.heap action)
          = (((onHeap action).run tracked.space).1.map .heap,
              ((onHeap action).run tracked.space).2) := run_map _ _ _
      have hafter : tracked.after engine (.heap action)
          = ⟨((onHeap action).run tracked.space).2, tracked.assumed⟩ := by
        show Tracked.mk (step engine tracked.space (.heap action)).2 tracked.assumed = _
        rw [hstep]
      rw [hafter]
      exact .heap action _ rfl
  | assume made => exact .of_assume made faithful
  | reset => exact .reset _ rfl ⟨_, rfl⟩ rfl
  | lower e =>
      exact .of_leads ((onLowering_leads same_steady (lowered_runsAs e)).map _) nofun
        fun _ => rfl
  | lowerAll exprs =>
      exact .of_leads ((onLowering_leads same_steady (loweredAll_runsAs exprs)).map _) nofun
        fun _ => rfl
  | valueOf e => exact .of_leads ((valueOf_leads same_steady e).map _) nofun fun _ => rfl
  | check exprs => exact .of_query rfl ((check_leads exprs).map _) ((check_refuses exprs).map _)
  | isSatisfiable exprs =>
      have steady := around_steady fit_steady Solver.kept_steady
      refine .of_query rfl (.bind steady (check_leads exprs) fun _ => .pure steady _) ?_
      exact .bind_of_ok (check_refuses exprs) fun _ _ _ _ h => by cases h
  | prove e => exact .of_query rfl ((prove_leads e).map _) ((prove_refuses e).map _)

end

-- ========================================================== the invariant

/-- The lowering is fit for use, the heap is that of a run, and the
assertions are what has been assumed. -/
structure Coherent (tracked : Tracked) : Prop where
  lowering : Faithful tracked.space.session.lowering
  heap : ∃ cells, tracked.space.session.heap.Refines cells
  assertions : Describes tracked.space.session.solver.assertions
    fun I => ∀ e ∈ tracked.assumed, I.Holds e

namespace Coherent

variable {engine : Engine} {space : Workspace} {assumed : List Expr}

theorem start (timeout : Int) (assumeDistinct : Bool) (log : Logger) :
    Coherent { space := fresh timeout assumeDistinct log } where
  lowering := .fresh
  heap := ⟨_, .start 1⟩
  assertions := Describes.nil.congr fun I => by simp

/-- A step that leaves heap and assertions alone. -/
theorem around {after : Workspace} (coherent : Coherent ⟨space, assumed⟩)
    (h : Around Fit Solver.Kept space after) : Coherent ⟨after, assumed⟩ where
  lowering := (h.lowering coherent.lowering).1
  heap := by
    rw [h.heap]
    exact coherent.heap
  assertions := by
    rw [h.solver.1]
    exact coherent.assertions

/-- One step of a session, raised or not. -/
theorem moves {before after : Tracked} {command : Command} {answer : Except Fault Answer}
    (coherent : Coherent before) (moves : Moves before command answer after) :
    Coherent after := by
  cases moves with
  | heap action answer session =>
      obtain ⟨cells, refines⟩ := coherent.heap
      refine ⟨?_, ?_, ?_⟩
      · rw [session]
        exact coherent.lowering
      · rw [session]
        exact ⟨_, refines.change (Heap.perform_change rfl)⟩
      · rw [session]
        exact coherent.assertions
  | assumed hterms _ asserted =>
      refine ⟨(asserted.lowering coherent.lowering).1, ?_, ?_⟩
      · rw [asserted.heap]
        exact coherent.heap
      · rw [asserted.solver]
        refine (coherent.assertions.append hterms).congr fun I => ?_
        rw [List.forall_mem_append]
  | reset answer lowering heap assertions =>
      obtain ⟨id, heap⟩ := heap
      refine ⟨?_, ?_, ?_⟩
      · rw [lowering]
        exact .fresh
      · rw [heap]
        exact ⟨_, .start id⟩
      · rw [assertions]
        exact Describes.nil.congr fun I => by simp
  | quiet _ quiet => exact coherent.around quiet.kept
  | answered answer _ kept => exact coherent.around kept

end Coherent

-- ------------------------------------------------------- what else is kept

/-- Beside that, every symbol has its owner, the symbols of the
assumptions are known, and the heap is that of a run of actions. -/
structure Grounded (tracked : Tracked) : Prop extends Coherent tracked where
  owned : tracked.space.session.lowering.symbols.Owned
  knows : ∀ e ∈ tracked.assumed, tracked.space.session.lowering.symbols.Knows e
  actions : ∃ id actions, tracked.space.session.heap = Heap.afterActions { id } actions

/-- What is left of a workspace later on, with no reset in between. -/
structure Onward (before after : Workspace) : Prop where
  assumeDistinct : after.session.assumeDistinct = before.session.assumeDistinct
  lowering : Fit before.session.lowering after.session.lowering
  /-- An address keeps its root. -/
  roots : ∀ address history, before.session.heap.histories.find? address = some history →
    ∃ history', after.session.heap.histories.find? address = some history' ∧
      history'.root = history.root

theorem onward_steady : Steady Onward where
  refl _ := ⟨rfl, fit_steady.refl _, fun _ history found => ⟨history, found, rfl⟩⟩
  trans h k := by
    refine ⟨k.assumeDistinct.trans h.assumeDistinct, fit_steady.trans h.lowering k.lowering, ?_⟩
    intro address history found
    obtain ⟨middle, hmiddle, same⟩ := h.roots address history found
    obtain ⟨last, hlast, same'⟩ := k.roots address middle hmiddle
    exact ⟨last, hlast, same'.trans same⟩

theorem Around.onward {R : Solver → Solver → Prop} {before after : Workspace}
    (h : Around Fit R before after) : Onward before after := by
  refine ⟨h.assumeDistinct, h.lowering, fun address history found => ⟨history, ?_, rfl⟩⟩
  rw [h.heap]
  exact found

namespace Grounded

variable {engine : Engine} {before after : Tracked} {command : Command}
  {answer : Except Fault Answer}

theorem start (timeout : Int) (assumeDistinct : Bool) (log : Logger) :
    Grounded { space := fresh timeout assumeDistinct log } where
  toCoherent := .start timeout assumeDistinct log
  owned := .empty
  knows e he := by cases he
  actions := ⟨1, [], rfl⟩

/-- The heap is as histories say. -/
theorem wellShaped (grounded : Grounded before) :
    ∃ events, before.space.session.heap.WellShaped events := by
  obtain ⟨id, actions, heap⟩ := grounded.actions
  rw [heap]
  exact ⟨_, (Heap.afterActions_wellShaped id actions).1⟩

/-- A step that changes at most symbols and what is asserted. -/
theorem around {space after : Workspace} {assumed : List Expr} {R : Solver → Solver → Prop}
    (grounded : Grounded ⟨space, assumed⟩) (h : Around Fit R space after) :
    after.session.lowering.symbols.Owned ∧
      (∀ e ∈ assumed, after.session.lowering.symbols.Knows e) ∧
      ∃ id actions, after.session.heap = Heap.afterActions { id } actions := by
  obtain ⟨-, reached⟩ := h.lowering grounded.lowering
  have grown := reached.grows grounded.lowering.symbols
  rw [h.heap]
  exact ⟨grounded.owned.reaches reached, fun e he => (grounded.knows e he).mono grown,
    grounded.actions⟩

theorem moves (grounded : Grounded before) (moves : Moves before command answer after) :
    Grounded after := by
  have coherent := grounded.toCoherent.moves moves
  cases moves with
  | heap action answer session =>
      refine ⟨coherent, ?_, ?_, ?_⟩
      · rw [session]
        exact grounded.owned
      · rw [session]
        exact grounded.knows
      · obtain ⟨id, actions, heap⟩ := grounded.actions
        refine ⟨id, actions ++ [action], ?_⟩
        rw [session, Heap.afterActions, List.foldl_append]
        exact congrArg (Heap.after · action) heap
  | assumed _ hknows asserted =>
      obtain ⟨owned, knows, actions⟩ := grounded.around asserted
      refine ⟨coherent, owned, ?_, actions⟩
      exact List.forall_mem_append.2 ⟨knows, hknows⟩
  | reset answer lowering heap _ =>
      obtain ⟨id, heap⟩ := heap
      refine ⟨coherent, ?_, nofun, id, [], heap⟩
      rw [lowering]
      exact .empty
  | quiet _ quiet =>
      obtain ⟨owned, knows, actions⟩ := grounded.around quiet
      exact ⟨coherent, owned, knows, actions⟩
  | answered answer _ kept =>
      obtain ⟨owned, knows, actions⟩ := grounded.around kept
      exact ⟨coherent, owned, knows, actions⟩

theorem onward (grounded : Grounded before) (moves : Moves before command answer after)
    (other : command ≠ .reset) : Onward before.space after.space := by
  cases moves with
  | heap action answer session =>
      obtain ⟨cells, refines⟩ := grounded.heap
      refine ⟨?_, ?_, ?_⟩
      · rw [session]
      · rw [session]
        exact fit_steady.refl _
      · rw [session]
        exact (refines.extends rfl).roots
  | assumed _ _ asserted => exact asserted.onward
  | reset => exact absurd rfl other
  | quiet _ quiet => exact quiet.onward
  | answered answer _ kept => exact kept.onward

/-- Any run of a session. -/
theorem afterAll {commands : List Command} (inSession : ∀ command ∈ commands, command.InSession)
    (timeout : Int) (assumeDistinct : Bool) (log : Logger) :
    Grounded (Tracked.afterAll engine (fresh timeout assumeDistinct log) commands) := by
  suffices h : ∀ tracked, Grounded tracked →
      Grounded (commands.foldl (Tracked.after engine) tracked) from
    h _ (start timeout assumeDistinct log)
  induction commands with
  | nil => exact fun _ grounded => grounded
  | cons command rest ih =>
      rw [List.forall_mem_cons] at inSession
      intro tracked grounded
      exact ih inSession.2 _ (grounded.moves (.of_step inSession.1 grounded.lowering))

/-- A run that goes on from where a session is, with no reset. -/
theorem onwardAll {commands : List Command} (inSession : ∀ command ∈ commands, command.InSession)
    (others : ∀ command ∈ commands, command ≠ .reset) (grounded : Grounded before) :
    Grounded (commands.foldl (Tracked.after engine) before) ∧
      Onward before.space (commands.foldl (Tracked.after engine) before).space := by
  induction commands generalizing before with
  | nil => exact ⟨grounded, onward_steady.refl _⟩
  | cons command rest ih =>
      rw [List.forall_mem_cons] at inSession others
      have moves : Moves before command (step engine before.space command).1
          (before.after engine command) := .of_step inSession.1 grounded.lowering
      obtain ⟨later, onward⟩ := ih inSession.2 others.2 (grounded.moves moves)
      exact ⟨later, onward_steady.trans (grounded.onward moves others.1) onward⟩

end Grounded

-- ================================================================ verdicts

/-- Whatever way a question is put, if it is answered it was put to the
engine, and the answer is by the verdict. -/
theorem query_posed {engine : Engine} {space after : Workspace} {query : Command} {answer : Answer}
    (h : step engine space query = (.ok answer, after)) (asking : query.isQuery = true)
    (formulas : ∀ e ∈ query.questions, e.IsFormula)
    (faithful : Faithful space.session.lowering) :
    ∃ verdict, answer = query.answerTo verdict ∧
      Posed engine space query.questions query.Seeks verdict after := by
  cases query with
  | check exprs =>
      obtain ⟨verdict, hcheck, hanswer⟩ := run_map_eq_ok.1 h
      exact ⟨verdict, hanswer.symm, check_posed formulas faithful hcheck⟩
  | isSatisfiable exprs =>
      obtain ⟨verdict, _, hcheck, hanswer⟩ := run_bind_eq_ok.1 h
      cases hanswer
      exact ⟨verdict, rfl, check_posed formulas faithful hcheck⟩
  | prove e =>
      obtain ⟨proved, hprove, hanswer⟩ := run_map_eq_ok.1 h
      obtain ⟨verdict, rfl, posed⟩ :=
        prove_posed (formulas e List.mem_cons_self) faithful hprove
      exact ⟨verdict, hanswer.symm, posed⟩
  | _ => cases asking

namespace Posed

variable {engine : Engine} {space after : Workspace} {assumed exprs : List Expr}
  {asked : Interp → Prop} {verdict : Verdict}

/-- Once a question has been answered, all that it is about is known. -/
theorem known (posed : Posed engine space exprs asked verdict after)
    (grounded : Grounded ⟨space, assumed⟩) :
    after.session.lowering.symbols.Owned ∧
      ∀ e ∈ assumed ++ exprs, after.session.lowering.symbols.Knows e := by
  obtain ⟨owned, knows, -⟩ := grounded.around posed.around
  exact ⟨owned, List.forall_mem_append.2 ⟨knows, posed.knows⟩⟩

/-- A question is found satisfiable if something that it asks for goes
with the assumptions and tells the objects apart. -/
theorem isSat_iff (posed : Posed engine space exprs asked verdict after) (exact : engine.Exact)
    (coherent : Coherent ⟨space, assumed⟩) :
    verdict.isSat = true ↔ ∃ I : Interp, (∀ e ∈ assumed, I.Holds e) ∧ asked I ∧
      I.Separates (distinctNames after.session) := by
  obtain ⟨terms, hverdict, hterms⟩ := posed.decided
  rw [hverdict]
  exact exact.isSat (coherent.assertions.append hterms)

theorem isUnsat_iff (posed : Posed engine space exprs asked verdict after) (exact : engine.Exact)
    (coherent : Coherent ⟨space, assumed⟩) :
    verdict.isUnsat = true ↔ ¬∃ I : Interp, (∀ e ∈ assumed, I.Holds e) ∧ asked I ∧
      I.Separates (distinctNames after.session) := by
  obtain ⟨terms, hverdict, hterms⟩ := posed.decided
  rw [hverdict]
  exact exact.isUnsat (coherent.assertions.append hterms)

end Posed

end Workspace

end SymbolicHeap
