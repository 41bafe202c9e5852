/-
The assertion stack.

Whatever has been done to a session and to its solver, however many
scopes are open, a question leaves assertions and scopes as it found them,
whether it is answered or fails, and wherever it fails (`put_leads`).  A
question to the session that fails leaves the solver as it was in every
respect (`put_refuses`).  An assumption is asserted whole or not at all.

That constraints lower to formulas hangs on the memo of the lowering, so
the last of these is about lowerings that are fit for use; this is what
every run leads to, of whatever commands (`faithful_run`).
-/
import SymbolicHeap.Proofs.Lowering.Owner
import SymbolicHeap.Proofs.Session.Frame
import SymbolicHeap.Proofs.Session.Question

namespace SymbolicHeap

/-- A question to a session, or about given terms to its solver alone. -/
inductive Question
  | check (exprs : List Expr)
  | isSatisfiable (exprs : List Expr)
  | prove (e : Expr)
  | valueOf (e : Expr)
  | checkAssuming (given : List Lowered)
  | isSatWith (given : List Lowered)
  | implies (premise conclusion : Lowered)

/-- Whether a question is put to the session. -/
def Question.toSession : Question → Bool
  | check _ | isSatisfiable _ | prove _ | valueOf _ => true
  | checkAssuming _ | isSatWith _ | implies _ _ => false

namespace Workspace

open Lowering

variable {engine : Engine}

-- ============================================================== questions

/-- Puts a question. -/
def put (engine : Engine) : Question → Run Answer
  | .check exprs => perform engine (.check exprs)
  | .isSatisfiable exprs => perform engine (.isSatisfiable exprs)
  | .prove e => perform engine (.prove e)
  | .valueOf e => perform engine (.valueOf e)
  | .checkAssuming given => .verdict <$> ask engine given
  | .isSatWith given => (fun verdict => .truth verdict.isSat) <$> inScope (askWith engine given)
  | .implies premise conclusion =>
      .truth <$> solverAnswer (Solver.implies engine premise conclusion)

theorem put_leads (question : Question) :
    Leads (Around Fit Solver.Kept) (put engine question) := by
  have steady := around_steady fit_steady Solver.kept_steady
  cases question with
  | check exprs => exact (check_leads exprs).map _
  | isSatisfiable exprs => exact .bind steady (check_leads exprs) fun _ => .pure steady _
  | prove e => exact (prove_leads e).map _
  | valueOf e => exact (valueOf_leads Solver.kept_steady e).map _
  | checkAssuming given => exact (ask_leads fit_steady given).map _
  | isSatWith given => exact (inScope_leads (askWith_leads fit_steady given)).map _
  | implies premise conclusion =>
      exact (solverAnswer_leads fit_steady Solver.kept_steady _).map _

theorem put_refuses {question : Question} (toSession : question.toSession = true) :
    Refuses (Around Fit Eq) (put engine question) := by
  cases question with
  | check exprs => exact (check_refuses exprs).map _
  | isSatisfiable exprs =>
      exact .bind_of_ok (check_refuses exprs) fun _ _ _ _ h => by cases h
  | prove e => exact (prove_refuses e).map _
  | valueOf e => exact .of_leads ((valueOf_leads same_steady e).map _)
  | checkAssuming | isSatWith | implies => cases toSession

-- ================================================================== runs

/-- A lowering fit for use stays so, or is a new one. -/
def Ready (before after : Workspace) : Prop :=
  Faithful before.session.lowering → Faithful after.session.lowering

theorem ready_steady : Steady Ready where
  refl _ := id
  trans h k faithful := k (h faithful)

/-- Nothing is said of the solver. -/
theorem any_steady : Steady fun _ _ : Solver => True where
  refl _ := trivial
  trans _ _ := trivial

theorem distinctSeen_leads :
    Leads (Around Fit fun _ _ => True) (onLowering Lowering.distinctSeen) := by
  intro space
  refine ⟨rfl, rfl, ?_, trivial⟩
  show Fit _ (Lowering.distinctSeen.run space.session.lowering).2
  rw [distinctSeen_run]
  exact fit_steady.refl _

theorem ready_framed : Framed Ready := by
  have ready {α : Type} {R : Solver → Solver → Prop} {x : Run α}
      (h : Leads (Around Fit R) x) : Leads Ready x :=
    h.mono fun around faithful => (around.lowering faithful).1
  exact {
    steady := ready_steady
    heap := fun _ _ => id
    other := fun _ _ => id
    lowerOne := fun e => ready (onLowering_leads any_steady (lowered_runsAs e))
    lowerAll := fun exprs => ready (onLowering_leads any_steady (loweredAll_runsAs exprs))
    distinctRoots := fun roots => ready (onLowering_leads any_steady (distinctRoots_runsAs roots))
    distinctSeen := ready distinctSeen_leads
    solver := fun _ _ => id
    log := fun _ _ => id
    forget := fun _ _ => .fresh
    drop := fun _ _ => .fresh }

/-- Any run leads to a lowering that is fit for use. -/
theorem faithful_run {space : Workspace} (faithful : Faithful space.session.lowering)
    (commands : List Command) : Faithful (run engine space commands).2.session.lowering :=
  ready_framed.run engine space commands faithful

-- ============================================================== the stack

/-- Whatever commands have been given to a new session: a question keeps
the assertions in their order and the scopes, raised or not, and a
question to the session that fails changes nothing about the solver, its
statistics and its model included.  An assumption that fails asserts
nothing; one that succeeds asserts the terms of its constraints, one for
each and in order, and that is all it does to the solver. -/
theorem assertions_survive (engine : Engine) (timeout : Int) (assumeDistinct : Bool)
    (log : Logger) (commands : List Command) :
    let space := (run engine (fresh timeout assumeDistinct log) commands).2
    (∀ (question : Question) (outcome : Except Fault Answer) (after : Workspace),
      (put engine question).run space = (outcome, after) →
      after.session.solver.assertions = space.session.solver.assertions ∧
      after.session.solver.scopes = space.session.solver.scopes ∧
      (question.toSession = true → ∀ fault, outcome = .error fault →
        after.session.solver = space.session.solver)) ∧
    ∀ (exprs : List Expr) (outcome : Except Fault Unit) (after : Workspace),
      (∀ e ∈ exprs, e.Made) → (assume exprs).run space = (outcome, after) →
      (∀ fault, outcome = .error fault → after.session.solver = space.session.solver) ∧
      (outcome = .ok () → ∃ terms : List Term, terms.length = exprs.length ∧
        (Lowering.loweredAll exprs).run space.session.lowering
          = (.ok (terms.map .term), after.session.lowering) ∧
        after.session.solver = { space.session.solver with
          assertions := space.session.solver.assertions ++ terms }) := by
  intro space
  constructor
  · intro question outcome after h
    have hkept := (put_leads question).of_run h
    refine ⟨hkept.solver.1, hkept.solver.2, ?_⟩
    rintro toSession fault rfl
    exact (put_refuses toSession space fault after h).solver.symm
  · intro exprs outcome after made h
    have faithful : Faithful space.session.lowering := faithful_run .fresh commands
    have formulas : ∀ e ∈ exprs, e.IsFormula := fun e he => (made e he).isFormula
    rcases assume_run formulas faithful h with
      ⟨⟨fault, rfl⟩, quiet⟩ | ⟨rfl, terms, ⟨hlowered, hlength⟩, -, -, asserted⟩
    · exact ⟨fun _ _ => quiet.solver.symm, nofun⟩
    · exact ⟨nofun, fun _ => ⟨terms, hlength, hlowered, asserted.solver⟩⟩

/-- An engine that gives up on everything. -/
def undecided : Engine where
  decide _ := .unknown none
  simplify := id

/-- A workspace with a scope open, where the identity of the object
allocated is taken. -/
def identityTaken : Workspace :=
  (run undecided (fresh 0 false {}) [.assert [.var "x" .bool], .push,
    .heap (.allocate .object (some "T") (some "o")), .lower (.var "o!id" .int)]).2

theorem identityTaken_prove :
    ((put undecided (.prove (.var "x" .bool))).run identityTaken).1.isOk = false := by
  decide +kernel

theorem identityTaken_assume : ((assume [.var "y" .bool]).run identityTaken).1.isOk = true := by
  decide +kernel

/-- A proof fails in a scope of its own; an assumption goes through. -/
theorem assertions_survive_taken :
    (∃ fault after,
      (put undecided (.prove (.var "x" .bool))).run identityTaken = (.error fault, after) ∧
      after.session.solver = identityTaken.session.solver) ∧
    ∃ after terms, (assume [.var "y" .bool]).run identityTaken = (.ok (), after) ∧
      terms.length = 1 ∧
      after.session.solver.assertions = identityTaken.session.solver.assertions ++ terms := by
  have made : ∀ e ∈ [Expr.var "y" .bool], e.Made := List.forall_mem_singleton.2 (.var rfl)
  obtain ⟨fault, after, fails⟩ := eq_error_of_isOk identityTaken_prove
  obtain ⟨_, after', goes⟩ := eq_ok_of_isOk identityTaken_assume
  unfold identityTaken at fails goes ⊢
  obtain ⟨questions, assumptions⟩ := assertions_survive undecided 0 false {}
    [.assert [.var "x" .bool], .push, .heap (.allocate .object (some "T") (some "o")),
      .lower (.var "o!id" .int)]
  obtain ⟨_, _, same⟩ := questions _ _ _ fails
  obtain ⟨-, asserted⟩ := assumptions _ _ _ made goes
  obtain ⟨terms, hlength, -, hsolver⟩ := asserted rfl
  refine ⟨⟨fault, after, fails, same rfl fault rfl⟩, after', terms, goes, hlength, ?_⟩
  rw [hsolver]

end Workspace

end SymbolicHeap
