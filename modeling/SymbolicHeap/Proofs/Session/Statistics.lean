/-
The statistics of a solver.

A solver counts a question when it is put and a verdict when it is given.
Between the two it looks at the assumptions, and a question with an
assumption that is no formula ends there: it has been counted, and no
verdict will ever be counted for it.  Nothing else that fails has counted
anything before: a satisfiability test asserts its constraints first, and
puts a question without assumptions after that.

So the questions are the verdicts and the questions refused
(`questions_accounted`).
-/
import SymbolicHeap.Proofs.Session.Stack

namespace SymbolicHeap

namespace Solver

-- =============================================================== the calls

/-- A call of a solver, on whatever a lowering may give. -/
inductive Call
  | add (given : List Lowered)
  | push
  | pop
  | reset
  | check (assumptions : List Lowered)
  | isSat (constraints : List Lowered)
  | implies (premise conclusion : Lowered)
  | evaluate (lowered : Lowered)

/-- Whether a call is a question with an assumption that is no formula. -/
def Call.isRefused : Call → Bool
  | .check assumptions => assumptions.any (·.formula?.isNone)
  | _ => false

/-- The verdicts that have been counted. -/
def answered (solver : Solver) : Nat :=
  solver.satCount + solver.unsatCount + solver.unknownCount

/-- In between, `n` more questions than verdicts have been counted. -/
def Owes (n : Nat) (before after : Solver) : Prop :=
  after.queries + before.answered = before.queries + after.answered + n

theorem Owes.trans {m n : Nat} {a b c : Solver} (h : Owes m a b) (k : Owes n b c) :
    Owes (m + n) a c := by
  unfold Owes at h k ⊢
  omega

theorem Unasked.owes {before after : Solver} (h : Unasked before after) : Owes 0 before after := by
  have queries : after.tally.queries = before.tally.queries := congrArg Solver.queries h
  have answers : after.tally.answered = before.tally.answered := congrArg Solver.answered h
  show after.tally.queries + before.tally.answered = before.tally.queries + after.tally.answered + 0
  rw [queries, answers, Nat.add_zero]

theorem add_settled (given : List Lowered) : Leads (Owes 0) (add given) :=
  (add_unasked given).mono Unasked.owes

theorem pop_settled : Leads (Owes 0) pop := by
  intro solver
  unfold pop
  rw [run_get_bind]
  cases solver.scopes with
  | nil => rfl
  | cons mark scopes => rfl

-- ============================================================== questions

/-- A verdict is counted along with its question. -/
theorem asked_owes (solver : Solver) (verdict : Verdict) :
    Owes 0 solver (solver.asked verdict) := by
  cases verdict with
  | sat model | unsat | unknown reason =>
      simp only [Owes, answered, asked, note]
      omega

theorem formulas_isOk (given : List Lowered) :
    (formulas given).isOk = !(Call.check given).isRefused := by
  have found : (given.mapM Lowered.formula?).isSome = !given.any (·.formula?.isNone) := by
    induction given with
    | nil => rfl
    | cons first rest ih =>
        rw [List.mapM_cons, List.any_cons]
        cases first.formula? with
        | none => rfl
        | some t =>
            show ((rest.mapM Lowered.formula?).bind fun terms => some (t :: terms)).isSome = _
            rw [Option.isSome_bind]
            simpa using ih
  rw [Call.isRefused, ← found, formulas]
  cases given.mapM Lowered.formula? with
  | none => rfl
  | some terms => rfl

/-- A question whose assumptions are formulas is answered, and one with
another assumption fails after it has been counted. -/
theorem check_accounted (engine : Engine) (given : List Lowered) (solver : Solver) :
    let refused := (Call.check given).isRefused
    ((check engine given).run solver).1.isOk = !refused ∧
      Owes refused.toNat solver ((check engine given).run solver).2 := by
  intro refused
  have formed := formulas_isOk given
  show Except.isOk ((check engine given).run solver).1 = !(Call.check given).isRefused ∧ _
  rw [← formed, ← Bool.not_not refused, ← formed]
  unfold check
  cases hterms : formulas given with
  | error fault =>
      refine ⟨rfl, ?_⟩
      show solver.queries + 1 + solver.answered = solver.queries + solver.answered + 1
      omega
  | ok terms => exact ⟨rfl, solver.asked_owes _⟩

end Solver

namespace Workspace

variable {engine : Engine}

/-- The workspace's answer to a call of its solver. -/
def serve (engine : Engine) : Solver.Call → Run Answer
  | .add given => (fun _ => .done) <$> onSolver (Solver.add given)
  | .push => (fun _ => .done) <$> onSolver Solver.push
  | .pop => (fun _ => .done) <$> onSolver Solver.pop
  | .reset => (fun _ => .done) <$> onSolver Solver.reset
  | .check assumptions => .verdict <$> ask engine assumptions
  | .isSat constraints =>
      (fun verdict => .truth verdict.isSat) <$> inScope (askWith engine constraints)
  | .implies premise conclusion =>
      .truth <$> solverAnswer (Solver.implies engine premise conclusion)
  | .evaluate lowered => do
      let value ← solverAnswer ((← get).session.solver.evaluate lowered)
      return .reading (value.map fun term => Reading.of (.term term))

/-- The workspace after calls of its solver, whichever of them fail. -/
def afterCalls (engine : Engine) (space : Workspace) (calls : List Solver.Call) : Workspace :=
  calls.foldl (fun space call => ((serve engine call).run space).2) space

/-- The solver is asked, and the log told of it. -/
theorem ask_accounted (engine : Engine) (given : List Lowered) (space : Workspace) :
    let asked := (Solver.check engine given).run space.session.solver
    ((ask engine given).run space).1.isOk = asked.1.isOk ∧
      ((ask engine given).run space).2.session.solver = asked.2 := by
  intro asked
  unfold ask
  rw [run_get_bind, run_bind, logWith_run]
  dsimp only
  rcases h : asked with ⟨outcome, solver⟩
  have told (log : Logger) : (onSolver (Solver.check engine given)).run { space with log }
      = (outcome.mapError .solver,
          { space with session := { space.session with solver }, log }) := onSolver_run h
  rw [run_bind, told]
  cases outcome with
  | error fault => exact ⟨rfl, rfl⟩
  | ok verdict =>
      cases verdict with
      | sat model | unsat | unknown reason => exact ⟨rfl, rfl⟩

/-- In between, as many questions as verdicts have been counted. -/
def Settled (before after : Workspace) : Prop :=
  Solver.Owes 0 before.session.solver after.session.solver

theorem settled_steady : Steady Settled where
  refl _ := rfl
  trans := Solver.Owes.trans

theorem onSolver_settled {step : Solver.Run Unit} (h : Leads (Solver.Owes 0) step) :
    Leads Settled (onSolver step) :=
  fun space => h space.session.solver

theorem push_settled : Leads Settled (onSolver Solver.push) :=
  onSolver_settled (.modify fun _ => rfl)

theorem pop_settled : Leads Settled (onSolver Solver.pop) := onSolver_settled Solver.pop_settled

/-- A test of satisfiability asserts first, and then asks without
assumptions, so that its question is answered if it comes to it. -/
theorem isSat_settled (constraints : List Lowered) :
    Leads Settled (inScope (askWith engine constraints)) := by
  refine inScope_keeps settled_steady push_settled pop_settled ?_
  refine .bind settled_steady (onSolver_settled (Solver.add_settled constraints)) fun _ space => ?_
  rw [Settled, (ask_accounted engine [] space).2]
  exact (Solver.check_accounted engine [] _).2

/-- One call leaves a question without verdict if it is one that is
refused, and otherwise none. -/
theorem serve_owes (engine : Engine) (call : Solver.Call) (space : Workspace) :
    Solver.Owes call.isRefused.toNat space.session.solver
      ((serve engine call).run space).2.session.solver := by
  have settled {x : Run Answer} (h : Leads Settled x) :
      Solver.Owes 0 space.session.solver (x.run space).2.session.solver := h space
  cases call with
  | add given => exact settled ((onSolver_settled (Solver.add_settled given)).map _)
  | push => exact settled (push_settled.map _)
  | pop => exact settled (pop_settled.map _)
  | reset =>
      have reset : Leads (Solver.Owes 0) Solver.reset := .modify fun _ => rfl
      exact settled ((onSolver_settled reset).map _)
  | check assumptions =>
      unfold serve
      rw [run_map, (ask_accounted engine assumptions space).2]
      exact (Solver.check_accounted engine assumptions _).2
  | isSat constraints => exact settled ((isSat_settled constraints).map _)
  | implies premise conclusion => exact settled ((Leads.liftM settled_steady _).map _)
  | evaluate lowered =>
      refine settled (.bind settled_steady (.get settled_steady) fun _ => ?_)
      exact .bind settled_steady (.liftM settled_steady _) fun _ => .pure settled_steady _

theorem afterCalls_owes (calls : List Solver.Call) (space : Workspace) :
    Solver.Owes (calls.countP Solver.Call.isRefused) space.session.solver
      (afterCalls engine space calls).session.solver := by
  induction calls generalizing space with
  | nil => rfl
  | cons call rest ih =>
      have both := (serve_owes engine call space).trans (ih _)
      rw [List.countP_cons]
      cases hrefused : call.isRefused with
      | true =>
          rw [hrefused, Nat.add_comm] at both
          exact both
      | false =>
          rw [hrefused, Nat.add_comm] at both
          exact both

/-- A refused question is a question that fails. -/
theorem isRefused_iff (call : Solver.Call) (space : Workspace) :
    call.isRefused = true ↔
      (∃ assumptions, call = .check assumptions) ∧
        ((serve engine call).run space).1.isOk = false := by
  cases call with
  | check assumptions =>
      have answered : ((serve engine (.check assumptions)).run space).1.isOk
          = !(Solver.Call.check assumptions).isRefused := by
        have asked := (ask_accounted engine assumptions space).1
        rw [(Solver.check_accounted engine assumptions _).1] at asked
        rw [← asked]
        unfold serve
        rw [run_map]
        cases ((ask engine assumptions).run space).1 with
        | error fault => rfl
        | ok verdict => rfl
      rw [answered]
      cases (Solver.Call.check assumptions).isRefused with
      | true => simp
      | false => simp
  | add | push | pop | reset | isSat | implies | evaluate =>
      constructor
      · nofun
      · rintro ⟨⟨_, h⟩, -⟩
        cases h

/-- Whatever calls a new solver has been given, with whatever terms, and
whichever of them failed: its questions are the verdicts that it has
counted and the questions that were refused, so these add up to the
questions exactly if none was.  A call is such a question if it is a check
that fails, and a check fails over an assumption that is no formula. -/
theorem questions_accounted (engine : Engine) (timeout : Int) (assumeDistinct : Bool)
    (log : Logger) (calls : List Solver.Call) :
    let space := afterCalls engine (fresh timeout assumeDistinct log) calls
    let solver := space.session.solver
    solver.queries = solver.satCount + solver.unsatCount + solver.unknownCount
      + calls.countP Solver.Call.isRefused ∧
    (solver.queries = solver.satCount + solver.unsatCount + solver.unknownCount ↔
      ∀ call ∈ calls, call.isRefused = false) ∧
    ∀ call : Solver.Call, call.isRefused = true ↔
      (∃ assumptions, call = .check assumptions) ∧
        ((serve engine call).run space).1.isOk = false := by
  intro space solver
  have owes : Solver.Owes _ {} solver :=
    afterCalls_owes calls (fresh timeout assumeDistinct log)
  have sum : solver.queries = solver.satCount + solver.unsatCount + solver.unknownCount
      + calls.countP Solver.Call.isRefused := by
    unfold Solver.Owes at owes
    simpa [Solver.answered, Nat.add_comm] using owes
  refine ⟨sum, ?_, fun call => isRefused_iff call space⟩
  rw [sum, Nat.add_eq_left, List.countP_eq_zero]
  simp

/-- A number is no formula: the question is counted, and no verdict is. -/
theorem questions_outnumber_verdicts :
    ∃ calls : List Solver.Call,
      let solver := (afterCalls undecided (fresh 0 false {}) calls).session.solver
      solver.queries ≠ solver.satCount + solver.unsatCount + solver.unknownCount :=
  ⟨[.check [.term (.numeral 5)]], by decide +kernel⟩

end Workspace

end SymbolicHeap
