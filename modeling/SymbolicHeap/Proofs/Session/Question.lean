/-
What a session asks its engine.

An assumption is asserted whole or not at all (`assume_run`).  A question
that is answered was put to the engine as the assertions with the
formulas of the question, and nothing else (`Posed`): these describe the
interpretations that the question is about, among those that tell the
objects of the session apart.  What remains of it are symbols and a
verdict that the solver has taken note of.  A question that fails has not
been put to the engine, and not even that much remains of it
(`check_refuses`, `prove_refuses`).
-/
import SymbolicHeap.Proofs.Session.Step

namespace SymbolicHeap.Workspace

open Lowering

variable {L : Lowering → Lowering → Prop} {R : Solver → Solver → Prop} {engine : Engine}
  {space after : Workspace}

-- ============================================================= assumptions

/-- An assumption is asserted whole, one formula for each constraint, or
not at all. -/
theorem assume_run {exprs : List Expr} (formulas : ∀ e ∈ exprs, e.IsFormula)
    (faithful : Faithful space.session.lowering) {outcome : Except Fault Unit}
    (h : (assume exprs).run space = (outcome, after)) :
    ((∃ fault, outcome = .error fault) ∧ Around Fit Eq space after) ∨
      (outcome = .ok () ∧ ∃ terms : List Term,
        ((Lowering.loweredAll exprs).run space.session.lowering
          = (.ok (terms.map .term), after.session.lowering) ∧ terms.length = exprs.length) ∧
        (Describes terms fun I => ∀ e ∈ exprs, I.Holds e) ∧
        (∀ e ∈ exprs, after.session.lowering.symbols.Knows e) ∧
        Around Fit (fun before after =>
          after = { before with assertions := before.assertions ++ terms }) space after) := by
  have hfirst := constraints_leads same_steady exprs space
  unfold assume at h
  rw [run_bind] at h
  rcases hr : (constraints exprs).run space with ⟨fault | found, reached⟩
  · rw [hr] at h hfirst
    cases h
    exact .inl ⟨⟨fault, rfl⟩, hfirst⟩
  · rw [hr] at h hfirst
    obtain ⟨terms, rfl, hlength, hterms, hknows, -⟩ := constraints_eq_ok formulas faithful hr
    have hadd := onSolver_run (Solver.add_run hterms.sorts reached.session.solver)
    dsimp only at h
    rw [hadd] at h
    cases h
    have hlowered := onLowering_run_eq_ok (constraints_run hr).2
    refine .inr ⟨rfl, terms, ⟨hlowered, hlength⟩, hterms, hknows, hfirst.heap,
      hfirst.assumeDistinct, hfirst.lowering, ?_⟩
    rw [hfirst.solver]

-- ================================================================= asking

theorem ask_leads (hL : Steady L) (given : List Lowered) :
    Leads (Around L Solver.Kept) (ask engine given) := by
  have steady := around_steady hL Solver.kept_steady
  refine .bind steady (.get steady) fun _ => ?_
  refine .bind steady (logWith_leads hL Solver.kept_steady _) fun _ => ?_
  refine .bind steady (onSolver_leads hL (Solver.check_leads engine given)) fun verdict => ?_
  refine .bind steady (logWith_leads hL Solver.kept_steady _) fun _ => ?_
  cases verdict with
  | sat model => exact .pure steady _
  | unsat => exact .pure steady _
  | unknown reason =>
      exact .bind steady (debug_leads hL Solver.kept_steady _ _) fun _ => .pure steady _

/-- A question about the assertions alone is answered, and the verdict is
noted. -/
theorem ask_run (engine : Engine) (space : Workspace) :
    ∃ verdict reached, verdict = engine.decide space.session.solver.assertions ∧
      (ask engine []).run space = (.ok verdict, reached) ∧
      Around Eq (fun before after => after = before.asked verdict) space reached := by
  unfold ask
  rw [run_get_bind, run_bind, logWith_run]
  dsimp only
  rw [run_bind, onSolver_run (Solver.check_run engine _)]
  rw [mapError_ok]
  generalize engine.decide space.session.solver.assertions = verdict
  cases verdict with
  | sat model => exact ⟨_, _, rfl, rfl, rfl, rfl, rfl, rfl⟩
  | unsat => exact ⟨_, _, rfl, rfl, rfl, rfl, rfl, rfl⟩
  | unknown reason => exact ⟨_, _, rfl, rfl, rfl, rfl, rfl, rfl⟩

theorem askWith_leads (hL : Steady L) (given : List Lowered) :
    Leads (Around L Solver.Grown) (askWith engine given) :=
  .bind (around_steady hL Solver.grown_steady) (onSolver_leads hL (Solver.add_leads given))
    fun _ => (ask_leads hL []).mono Around.grown

/-- Asking fails over what cannot be asserted, before the question is
put. -/
theorem askWith_refuses (given : List Lowered) :
    Refuses (Around Eq Solver.Unasked) (askWith engine given) := by
  refine .bind_of_ok (.of_leads (onSolver_leads same_steady (Solver.add_unasked given))) ?_
  intro _ reached fault after h
  obtain ⟨verdict, _, -, hrun, -⟩ := ask_run engine reached
  rw [hrun] at h
  cases h

/-- Formulas are asserted for the question, and the verdict is noted. -/
theorem askWith_eq_ok {terms : List Term} {verdict : Verdict}
    (hsorts : ∀ t ∈ terms, t.sort? = some .bool)
    (h : (askWith engine (terms.map .term)).run space = (.ok verdict, after)) :
    verdict = engine.decide (space.session.solver.assertions ++ terms) ∧
      Around Eq (fun before after => after.tally = before.tally.asked verdict) space after := by
  obtain ⟨_, _, hadd, hask⟩ := run_bind_eq_ok.1 h
  rw [onSolver_run (Solver.add_run hsorts _)] at hadd
  cases hadd
  obtain ⟨_, _, hdecided, hrun, hasked⟩ := ask_run engine _
  rw [hrun] at hask
  cases hask
  refine ⟨hdecided, hasked.heap, hasked.assumeDistinct, hasked.lowering, ?_⟩
  rw [hasked.solver, Solver.tally_asked]
  rfl

/-- Taking the time of a question changes nothing but the log. -/
theorem askTimed_run (engine : Engine) (given : List Lowered) (space : Workspace) :
    ∃ log, (askTimed engine given).run space =
      (((askWith engine given).run space).1, { ((askWith engine given).run space).2 with log }) := by
  rw [askTimed, askWith, run_bind, run_bind]
  rcases (onSolver (Solver.add given)).run space with ⟨fault | _, reached⟩
  · exact ⟨_, rfl⟩
  · exact ⟨_, rfl⟩

theorem askTimed_leads (hL : Steady L) (given : List Lowered) :
    Leads (Around L Solver.Grown) (askTimed engine given) := by
  intro space
  obtain ⟨log, hrun⟩ := askTimed_run engine given space
  rw [hrun]
  have asked : Around L Solver.Grown space ((askWith engine given).run space).2 :=
    askWith_leads hL given space
  exact ⟨asked.heap, asked.assumeDistinct, asked.lowering, asked.solver⟩

theorem askTimed_refuses (given : List Lowered) :
    Refuses (Around Eq Solver.Unasked) (askTimed engine given) := by
  intro space fault after h
  obtain ⟨log, hrun⟩ := askTimed_run engine given space
  rw [hrun] at h
  injection h with failed reached
  subst reached
  have unasked := askWith_refuses given space fault _ (Prod.ext failed rfl)
  exact ⟨unasked.heap, unasked.assumeDistinct, unasked.lowering, unasked.solver⟩

/-- The verdict of a question whose time is taken is noted all the same. -/
theorem askTimed_eq_ok {terms : List Term} {verdict : Verdict}
    (hsorts : ∀ t ∈ terms, t.sort? = some .bool)
    (h : (askTimed engine (terms.map .term)).run space = (.ok verdict, after)) :
    verdict = engine.decide (space.session.solver.assertions ++ terms) ∧
      Around Eq (fun before after => after.tally = before.tally.asked verdict) space after := by
  obtain ⟨log, hrun⟩ := askTimed_run engine (terms.map .term) space
  rw [hrun] at h
  injection h with answered reached
  subst reached
  obtain ⟨decided, asked⟩ := askWith_eq_ok hsorts (Prod.ext answered rfl)
  exact ⟨decided, asked.heap, asked.assumeDistinct, asked.lowering, asked.solver⟩

-- ============================================================== questions

/-- A question about expressions that was answered.  The verdict is that
of the engine on the assertions and on formulas that describe what was
asked, about interpretations that tell the objects apart.  All of these
have symbols by then, and the expressions are known. -/
structure Posed (engine : Engine) (space : Workspace) (exprs : List Expr)
    (asked : Interp → Prop) (verdict : Verdict) (after : Workspace) : Prop where
  decided : ∃ terms, verdict = engine.decide (space.session.solver.assertions ++ terms) ∧
    Describes terms fun I => asked I ∧ I.Separates (distinctNames after.session)
  around : Around Fit (fun before after => after = before.asked verdict) space after
  has : ∀ name ∈ distinctNames after.session,
    after.session.lowering.symbols.Has (.var name .object)
  knows : ∀ e ∈ exprs, after.session.lowering.symbols.Knows e
  /-- The objects told apart were so before, or are asked for. -/
  names : ∀ name ∈ distinctNames after.session, name ∈ distinctNames space.session ∨
    space.session.assumeDistinct = true ∧ .var name .object ∈ Plan.requestsAll exprs

namespace Posed

variable {exprs : List Expr} {asked : Interp → Prop} {verdict : Verdict}

/-- What was asked is not asserted any more. -/
theorem kept (posed : Posed engine space exprs asked verdict after) :
    Around Fit Solver.Kept space after := by
  refine ⟨posed.around.heap, posed.around.assumeDistinct, posed.around.lowering, ?_⟩
  rw [posed.around.solver]
  exact Solver.asked_kept _ _

/-- The question in terms of what the session admits. -/
theorem admits (posed : Posed engine space exprs asked verdict after)
    (names : (space.session.heap.histories.values.map History.root).Nodup) :
    ∃ terms, verdict = engine.decide (space.session.solver.assertions ++ terms) ∧
      Describes terms fun I => asked I ∧ after.session.Admits I := by
  obtain ⟨terms, hverdict, hterms⟩ := posed.decided
  rw [← posed.around.heap] at names
  refine ⟨terms, hverdict, hterms.congr fun I => ?_⟩
  rw [admits_iff names posed.has]

end Posed

/-- Objects that are told apart after constraints have been lowered. -/
theorem old_or_asked {exprs : List Expr} (h : Around L R space after)
    (objects : ∀ name ∈ after.session.lowering.symbols.objects,
      name ∈ space.session.lowering.symbols.objects ∨
        .var name .object ∈ Plan.requestsAll exprs)
    {name : String} (hname : name ∈ distinctNames after.session) :
    name ∈ distinctNames space.session ∨
      space.session.assumeDistinct = true ∧ .var name .object ∈ Plan.requestsAll exprs := by
  rw [mem_distinctNames, h.heap, h.assumeDistinct] at hname
  rw [mem_distinctNames]
  rcases hname with allocated | ⟨demanded, seen⟩
  · exact .inl (.inl allocated)
  · rcases objects name seen with old | asked
    · exact .inl (.inr ⟨demanded, old⟩)
    · exact .inr ⟨demanded, asked⟩

-- ------------------------------------------------------------------- check

theorem check_leads (exprs : List Expr) : Leads (Around Fit Solver.Kept) (check engine exprs) := by
  have steady := around_steady fit_steady Solver.kept_steady
  refine .bind steady (constraints_leads Solver.kept_steady exprs) fun terms => ?_
  refine .bind steady (axiomTerm_leads Solver.kept_steady) fun distinct => ?_
  refine .bind steady ((inScope_leads (askTimed_leads same_steady _)).mono Around.fit) fun verdict => ?_
  exact .bind steady (logWith_leads fit_steady Solver.kept_steady _) fun _ => .pure steady _

/-- A check that fails leaves the solver as it was. -/
theorem check_refuses (exprs : List Expr) : Refuses (Around Fit Eq) (check engine exprs) := by
  have steady := around_steady fit_steady same_steady
  refine .bind steady (constraints_leads same_steady exprs) fun terms => ?_
  refine .bind steady (axiomTerm_leads same_steady) fun distinct => ?_
  have hscope : Refuses (Around Eq Eq) (inScope (askTimed engine (terms ++ [.term distinct]))) :=
    inScope_refuses (askTimed_leads same_steady _) (askTimed_refuses _)
  refine .bind_of_ok (fun before fault after h => (hscope before fault after h).fit) ?_
  intro _ _ _ _ h
  cases h

/-- The constraints of a check are put to the engine with the axiom that
the objects are different, and are known from then on. -/
theorem check_posed {exprs : List Expr} {verdict : Verdict}
    (formulas : ∀ e ∈ exprs, e.IsFormula) (faithful : Faithful space.session.lowering)
    (h : (check engine exprs).run space = (.ok verdict, after)) :
    Posed engine space exprs (fun I => ∀ e ∈ exprs, I.Holds e) verdict after := by
  obtain ⟨found, lowered, hconstraints, h⟩ := run_bind_eq_ok.1 h
  obtain ⟨distinct, ready, haxiom, h⟩ := run_bind_eq_ok.1 h
  obtain ⟨decided, closed, hscope, h⟩ := run_bind_eq_ok.1 h
  obtain ⟨_, counted, hcount, h⟩ := run_bind_eq_ok.1 h
  cases h
  -- what each of the steps is about
  have hlowered := (constraints_leads same_steady exprs).of_run hconstraints
  have hready := (axiomTerm_leads same_steady).of_run haxiom
  have hcounted := (logWith_leads same_steady same_steady _).of_run hcount
  obtain ⟨terms, rfl, -, hterms, hknows, hobjects⟩ :=
    constraints_eq_ok formulas faithful hconstraints
  obtain ⟨faithful', -⟩ := hlowered.lowering faithful
  obtain ⟨hdistinct, has, hold⟩ := axiomTerm_eq_ok faithful' haxiom
  have hall := hterms.append hdistinct
  obtain ⟨reached, hask, hclosed, hkept⟩ := inScope_eq_ok (askTimed_leads same_steady _) hscope
  rw [show terms.map .term ++ [.term distinct] = (terms ++ [distinct]).map Lowered.term by
    rw [List.map_append]
    rfl] at hask
  obtain ⟨hverdict, hasked⟩ := askTimed_eq_ok hall.sorts hask
  -- and what they leave
  have hquiet := (around_steady fit_steady same_steady).trans hlowered hready
  have noted := hclosed.solver.trans hasked.solver
  have hnoted := (hkept.asked noted).before_quiet same_steady hcounted
  have hnames := hnoted.distinctNames
  have hgrown := (hready.lowering faithful').2.grows faithful'.symbols
  refine ⟨⟨terms ++ [distinct], ?_, ?_⟩, hquiet.after_quiet fit_steady hnoted.fit, ?_, ?_, ?_⟩
  · rw [hverdict, hquiet.solver]
    rfl
  · rw [hnames]
    exact hall
  · rw [hnames, ← hnoted.lowering]
    exact has
  · rw [← hnoted.lowering]
    exact fun e he => (hknows e he).mono hgrown
  · rw [hnames]
    exact fun name hname => old_or_asked hlowered hobjects (hold name hname)

/-- The constraints of a check are decided with the assertions, for the
interpretations that the session admits. -/
theorem check_eq_ok {exprs : List Expr} {verdict : Verdict} (made : ∀ e ∈ exprs, e.Made)
    (names : (space.session.heap.histories.values.map History.root).Nodup)
    (faithful : Faithful space.session.lowering)
    (h : (check engine exprs).run space = (.ok verdict, after)) :
    ∃ terms, verdict = engine.decide (space.session.solver.assertions ++ terms) ∧
      Describes terms fun I => (∀ e ∈ exprs, I.Holds e) ∧ after.session.Admits I :=
  (check_posed (fun e he => (made e he).isFormula) faithful h).admits names

-- ------------------------------------------------------------------- prove

/-- What a proof does in its scope. -/
theorem proveScope_leads (given : List Lowered) :
    Leads (Around Fit Solver.Grown) (do
      let distinct ← axiomTerm
      let denied ← solverAnswer (Solver.denials given)
      askWith engine (.term distinct :: denied)) := by
  have steady := around_steady fit_steady Solver.grown_steady
  refine .bind steady (axiomTerm_leads Solver.grown_steady) fun _ => ?_
  refine .bind steady (solverAnswer_leads fit_steady Solver.grown_steady _) fun _ => ?_
  exact askWith_leads fit_steady _

theorem prove_leads (e : Expr) : Leads (Around Fit Solver.Kept) (prove engine e) := by
  have steady := around_steady fit_steady Solver.kept_steady
  refine .bind steady (constraints_leads Solver.kept_steady [e]) fun terms => ?_
  exact .bind steady (inScope_leads (proveScope_leads _)) fun _ => .pure steady _

/-- A proof that fails leaves the solver as it was, also if it fails in
its scope. -/
theorem prove_refuses (e : Expr) : Refuses (Around Fit Eq) (prove engine e) := by
  have steady := around_steady fit_steady Solver.unasked_steady
  refine .bind (around_steady fit_steady same_steady) (constraints_leads same_steady [e])
    fun terms => ?_
  refine .bind_of_ok (inScope_refuses (proveScope_leads _) ?_) ?_
  · refine .bind steady (axiomTerm_leads Solver.unasked_steady) fun _ => ?_
    refine .bind steady (solverAnswer_leads fit_steady Solver.unasked_steady _) fun _ => ?_
    exact fun before fault after h => (askWith_refuses _ before fault after h).fit
  · intro _ _ _ _ h
    cases h

/-- The denial of an expression is put to the engine with the axiom that
the objects are different, and the expression is known from then on. -/
theorem prove_posed {e : Expr} {proved : Bool} (formula : e.IsFormula)
    (faithful : Faithful space.session.lowering)
    (h : (prove engine e).run space = (.ok proved, after)) :
    ∃ verdict, proved = verdict.isUnsat ∧
      Posed engine space [e] (fun I => I.value e = .bool false) verdict after := by
  obtain ⟨found, lowered, hconstraints, h⟩ := run_bind_eq_ok.1 h
  obtain ⟨verdict, closed, hscope, h⟩ := run_bind_eq_ok.1 h
  cases h
  have hlowered := (constraints_leads same_steady [e]).of_run hconstraints
  have formulas : ∀ other ∈ [e], other.IsFormula := List.forall_mem_singleton.2 formula
  obtain ⟨-, -, -, -, hknows, hobjects⟩ := constraints_eq_ok formulas faithful hconstraints
  obtain ⟨t, rfl, hmeans⟩ := constraint_eq_ok formula faithful hconstraints
  obtain ⟨faithful', -⟩ := hlowered.lowering faithful
  obtain ⟨reached, hscope, hclosed, hkept⟩ := inScope_eq_ok (proveScope_leads _) hscope
  obtain ⟨distinct, ready, haxiom, hscope⟩ := run_bind_eq_ok.1 hscope
  obtain ⟨denied, denying, hdenied, hask⟩ := run_bind_eq_ok.1 hscope
  have hready := (axiomTerm_leads same_steady).of_run haxiom
  have faithfulOpened : Faithful (opened lowered).session.lowering := faithful'
  obtain ⟨hdistinct, has, hold⟩ := axiomTerm_eq_ok faithfulOpened haxiom
  have hall := hdistinct.append hmeans.denial
  -- the denial takes no step of its own
  obtain ⟨hdenials, rfl⟩ := run_liftM_eq_ok.1 hdenied
  rw [mapError_eq_ok, Solver.denials_of_sort hmeans.sort] at hdenials
  cases hdenials
  have hsorts : ∀ u ∈ [distinct, t.not], u.sort? = some .bool := hall.sorts
  obtain ⟨hverdict, hasked⟩ := askWith_eq_ok hsorts hask
  have hnames := hclosed.distinctNames.trans hasked.distinctNames
  have hlowering := hasked.lowering.trans hclosed.lowering
  have hgrown := (hready.lowering faithfulOpened).2.grows faithful'.symbols
  have noted : after.session.solver.tally = lowered.session.solver.tally.asked verdict := by
    rw [show after.session.solver.tally = _ from hclosed.solver, hasked.solver, ← hready.solver]
    rfl
  refine ⟨verdict, rfl, ⟨[distinct, t.not], ?_, ?_⟩,
    hlowered.after_quiet fit_steady (hkept.asked noted), ?_, ?_, ?_⟩
  · rw [hverdict, ← hready.solver, hlowered.solver]
    rfl
  · rw [hnames]
    exact hall.congr fun I => and_comm
  · rw [hnames, ← hlowering]
    exact has
  · rw [← hlowering]
    exact fun other hother => (hknows other hother).mono hgrown
  · rw [hnames]
    exact fun name hname => old_or_asked hlowered hobjects (hold name hname)

/-- A proof is a check of the denial, for the interpretations that the
session admits. -/
theorem prove_eq_ok {e : Expr} {proved : Bool} (made : e.Made)
    (names : (space.session.heap.histories.values.map History.root).Nodup)
    (faithful : Faithful space.session.lowering)
    (h : (prove engine e).run space = (.ok proved, after)) :
    ∃ terms, proved = (engine.decide (space.session.solver.assertions ++ terms)).isUnsat ∧
      Describes terms fun I => after.session.Admits I ∧ I.value e = .bool false := by
  obtain ⟨verdict, rfl, posed⟩ := prove_posed made.isFormula faithful h
  obtain ⟨terms, hverdict, hterms⟩ := posed.admits names
  exact ⟨terms, by rw [hverdict], hterms.congr fun I => and_comm⟩

-- --------------------------------------------------------------- the values

/-- A value is read off the last model; nothing is asked. -/
theorem valueOf_leads (hR : Steady R) (e : Expr) : Leads (Around Fit R) (valueOf e) := by
  have steady := around_steady fit_steady hR
  refine .bind steady (onLowering_leads hR (lowered_runsAs e)) fun lowered => ?_
  refine .bind steady (.get steady) fun _ => ?_
  exact .bind steady (solverAnswer_leads fit_steady hR _) fun _ => .pure steady _

end SymbolicHeap.Workspace
