/-
A proof is a failed search for a counterexample.

To prove an expression and to look for something that satisfies its
negation are two questions with code of their own.  They build the axiom
about the objects at different times and assert their terms in different
orders, and only one of them makes a node of the negation.  All the same
they are one question: from any state that a session gets into they are
refused for the same reason or have opposite answers, and they leave the
same symbols, assertions and statistics (`prove_is_dual`).

An engine that is exact may still hand over different models for the same
formulas in different orders, so all that is said of the models is that
there are two or none.
-/
import SymbolicHeap.Proofs.Semantics.Strict
import SymbolicHeap.Proofs.Session.Stack
import SymbolicHeap.Proofs.Session.Verdict

namespace SymbolicHeap

open Lowering

-- ====================================================== what is asserted

/-- What is well-sorted and a formula is of the sort of truth values. -/
theorem Lowered.HasSortOf.formula {e : Expr} {found : Lowered} {t : Term}
    (sorted : found.HasSortOf e) (h : found.formula? = some t) : t.sort? = some .bool := by
  have of_term {u : Term} {s : Srt} (hs : u.sort? = some s)
      (h : (Lowered.term u).formula? = some t) : t.sort? = some .bool := by
    replace h : (if u.srt = .bool then some u else none) = some t := h
    split at h
    next formula =>
      injection h with h
      rw [← h, hs, ← Term.srt_eq hs, formula]
    next => injection h
  cases sorted with
  | declaration => cases h
  | value _ hs => exact of_term hs h
  | root hs => exact of_term hs h
  | choice _ hs => exact of_term hs h
  | state _ hs => exact of_term hs h

theorem Lowering.loweredAll_hasSortOf {exprs : List Expr} (made : ∀ e ∈ exprs, e.Made)
    {found : List Lowered} (h : (Plan.loweredAll exprs).outcome = .ok found) :
    ∀ lowered ∈ found, ∃ e ∈ exprs, lowered.HasSortOf e := by
  induction exprs generalizing found with
  | nil =>
      cases h
      nofun
  | cons e rest ih =>
      rw [List.forall_mem_cons] at made
      obtain ⟨first, hfirst, h⟩ := Plan.outcome_bind_eq_ok.1 h
      obtain ⟨others, hothers, h⟩ := Plan.outcome_bind_eq_ok.1 h
      cases h
      rw [List.forall_mem_cons]
      refine ⟨⟨e, List.mem_cons_self, hasSortOf_of_outcome made.1 hfirst⟩, ?_⟩
      intro lowered among
      obtain ⟨e', he', sorted⟩ := ih made.2 hothers lowered among
      exact ⟨e', List.mem_cons_of_mem _ he', sorted⟩

namespace Solver

/-- All that is asserted are well-sorted formulas. -/
def Sorted (solver : Solver) : Prop :=
  ∀ t ∈ solver.assertions, t.sort? = some .bool

/-- Formulas are asserted up to the first thing that is none. -/
theorem add_sorted {given : List Lowered}
    (formulas : ∀ lowered ∈ given, ∀ t, lowered.formula? = some t → t.sort? = some .bool) :
    Leads (fun before after => before.Sorted → after.Sorted) (add given) := by
  intro solver sorted
  induction given generalizing solver with
  | nil => exact sorted
  | cons lowered rest ih =>
      rw [List.forall_mem_cons] at formulas
      unfold add
      cases hformula : lowered.formula? with
      | none => exact sorted
      | some t =>
          refine ih formulas.2 { solver with assertions := solver.assertions ++ [t] } ?_
          rw [Sorted, List.forall_mem_append, List.forall_mem_singleton]
          exact ⟨sorted, formulas.1 t hformula⟩

end Solver

/-- What a command asserts for good. -/
def Command.asserted : Command → List Expr
  | .assume exprs | .assert exprs => exprs
  | _ => []

namespace Workspace

variable {engine : Engine} {space after : Workspace}

/-- Nothing is asserted that was not before. -/
def Dwindles (before after : Workspace) : Prop :=
  after.session.solver.assertions ⊆ before.session.solver.assertions

theorem dwindles_steady : Steady Dwindles where
  refl _ := List.Subset.refl _
  trans h k := List.Subset.trans k h

theorem Around.dwindles {L : Lowering → Lowering → Prop} (h : Around L Solver.Kept space after) :
    Dwindles space after := by
  unfold Dwindles
  rw [h.solver.1]
  exact List.Subset.refl _

theorem pop_dwindles : Leads Dwindles (onSolver Solver.pop) := by
  rintro ⟨⟨heap, lowering, ⟨assertions, scopes, model, queries, sat, unsat, unknown⟩, timeout,
    assumeDistinct⟩, other, dropped, log⟩
  cases scopes with
  | nil => exact List.Subset.refl _
  | cons mark rest => exact List.take_subset _ _

theorem dwindles_upheld : Upheld engine Dwindles where
  steady := dwindles_steady
  heap _ _ := List.Subset.refl _
  other _ _ := List.Subset.refl _
  lowerOne _ _ := List.Subset.refl _
  lowerAll _ _ := List.Subset.refl _
  distinctRoots _ _ := List.Subset.refl _
  distinctSeen _ := List.Subset.refl _
  push _ := List.Subset.refl _
  pop := pop_dwindles
  resetSolver _ := List.nil_subset _
  ask assumptions := (ask_leads fit_steady assumptions).mono Around.dwindles
  askWith terms := (inScope_leads (askWith_leads fit_steady terms)).mono Around.dwindles
  check exprs := (check_leads exprs).mono Around.dwindles
  prove e := (prove_leads e).mono Around.dwindles
  forget _ := List.Subset.refl _
  reset _ := List.nil_subset _

/-- A lowering fit for use, and a solver in which formulas are asserted. -/
structure Proper (space : Workspace) : Prop where
  faithful : Faithful space.session.lowering
  sorted : space.session.solver.Sorted

/-- Formulas are asserted where formulas are. -/
def KeepsSorted (before after : Workspace) : Prop :=
  before.session.solver.Sorted → after.session.solver.Sorted

theorem keepsSorted_steady : Steady KeepsSorted where
  refl _ sorted := sorted
  trans h k sorted := k (h sorted)

/-- Steps that assert what made expressions lower to. -/
theorem asserting_sorted {exprs : List Expr} (made : ∀ e ∈ exprs, e.Made) (proper : space.Proper)
    {α : Type} {x : Run (List Lowered)} {rest : List Lowered → Run α}
    (around : Leads (Around Fit Eq) x)
    (lowers : ∀ found after, x.run space = (.ok found, after) →
      (onLowering (Lowering.loweredAll exprs)).run space = (.ok found, after))
    (asserts : ∀ found, Leads KeepsSorted (onSolver (Solver.add found)) →
      Leads KeepsSorted (rest found)) :
    ((x >>= rest).run space).2.session.solver.Sorted := by
  rw [run_bind]
  rcases hr : x.run space with ⟨fault | found, reached⟩
  · have quiet := around.of_run hr
    show reached.session.solver.Sorted
    rw [← quiet.solver]
    exact proper.sorted
  · have quiet := around.of_run hr
    obtain ⟨hout, -⟩ :=
      onLowering_eq_ok (loweredAll_runsAs exprs) proper.faithful (lowers found reached hr)
    have adding : Leads KeepsSorted (onSolver (Solver.add found)) := by
      intro before
      refine Solver.add_sorted (fun lowered among t formula => ?_) before.session.solver
      obtain ⟨e, -, sorted⟩ := loweredAll_hasSortOf made hout lowered among
      exact sorted.formula formula
    refine asserts found adding reached ?_
    rw [← quiet.solver]
    exact proper.sorted

theorem perform_proper {command : Command} (made : ∀ e ∈ command.asserted, e.Made) :
    Leads (fun before after => before.Proper → after.Proper) (perform engine command) := by
  intro space proper
  refine ⟨ready_framed.perform command space proper.faithful, ?_⟩
  cases hasserts : command.asserts with
  | false =>
      have dwindles : Leads Dwindles (perform engine command) :=
        perform_leads dwindles_upheld fun asserts => by
          rw [hasserts] at asserts
          cases asserts
      exact fun t among => proper.sorted t (dwindles space among)
  | true =>
      cases command with
      | assume exprs =>
          show (((fun _ => Answer.done) <$> assume exprs).run space).2.session.solver.Sorted
          rw [run_map]
          exact asserting_sorted made proper (constraints_leads same_steady exprs)
            (fun _ _ h => (constraints_run h).2) fun _ adding => adding
      | assert exprs =>
          refine asserting_sorted made proper
            (onLowering_leads same_steady (loweredAll_runsAs exprs)) (fun _ _ h => h) ?_
          exact fun _ adding => .bind keepsSorted_steady adding fun _ => .pure keepsSorted_steady _
      | _ => cases hasserts

/-- Whatever is done with made expressions. -/
theorem proper_run (timeout : Int) (assumeDistinct : Bool) (log : Logger)
    {commands : List Command} (made : ∀ command ∈ commands, ∀ e ∈ command.asserted, e.Made) :
    (run engine (fresh timeout assumeDistinct log) commands).2.Proper := by
  have steady : Steady fun before after : Workspace => before.Proper → after.Proper :=
    ⟨fun _ proper => proper, fun h k proper => k (h proper)⟩
  exact run_leads steady (fun command among => perform_proper (made command among)) _
    ⟨.fresh, nofun⟩

-- ========================================================== the negation

/-- The lowering of an expression that is no bare function. -/
theorem lowered_run {e : Expr} (value : ∀ signature, e ≠ .function signature)
    (lowering : Lowering) :
    (lowered e).run lowering
      = (((lower e).run lowering).1.map .term, ((lower e).run lowering).2) := by
  have hlowered : (lowered e : Lowering.Run Lowered) = lower e >>= fun t => pure (.term t) := by
    cases e with
    | function signature => exact absurd rfl (value signature)
    | _ => rfl
  rw [hlowered, run_bind]
  rcases (lower e).run lowering with ⟨fault | t, after⟩
  · rfl
  · rfl

theorem lower_not_run (e : Expr) (lowering : Lowering) :
    (lower (.logical .not [e])).run lowering
      = (((lower e).run lowering).1.map Term.not, ((lower e).run lowering).2) := by
  show ((lower e >>= fun t => pure [t]) >>= fun terms =>
    Builder.ofExcept (connect .not terms) >>= pure : Lowering.Run Term).run lowering = _
  rw [run_bind, run_bind]
  rcases (lower e).run lowering with ⟨fault | t, after⟩
  · rfl
  · rfl

theorem loweredAll_run (e : Expr) (lowering : Lowering) :
    (loweredAll [e]).run lowering
      = (((lowered e).run lowering).1.map fun found => [found],
          ((lowered e).run lowering).2) := by
  show (lowered e >>= fun found => pure [found] : Lowering.Run (List Lowered)).run lowering = _
  rw [run_bind]
  rcases (lowered e).run lowering with ⟨fault | t, after⟩
  · rfl
  · rfl

/-- A step that does what another does, and one thing more with its
result. -/
theorem onLowering_run_map {α β : Type} {step : Lowering.Run α} {step' : Lowering.Run β}
    {f : α → β} {space : Workspace}
    (h : step'.run space.session.lowering = ((step.run space.session.lowering).1.map f,
      (step.run space.session.lowering).2)) :
    (onLowering step').run space
      = (((onLowering step).run space).1.map f, ((onLowering step).run space).2) := by
  have hrun {γ : Type} (step : Lowering.Run γ) : (onLowering step).run space =
      ((step.run space.session.lowering).1.mapError .lowering,
        { space with
          session := { space.session with lowering := (step.run space.session.lowering).2 }
          log := traceInterned space.session.lowering.symbols.vars.size
            (step.run space.session.lowering).2 space.log }) := rfl
  rw [hrun step', hrun step, h]
  cases (step.run space.session.lowering).1 with
  | error fault => rfl
  | ok a => rfl

/-- The negation of what something lowered to. -/
def denied : Lowered → Lowered
  | .term t => .term t.not
  | .declaration symbol => .declaration symbol

/-- To lower the negation is to negate what the expression lowers to. -/
theorem constraints_not {e : Expr} (bool : e.typeOf = .bool) (space : Workspace) :
    (constraints [.logical .not [e]]).run space
      = (((constraints [e]).run space).1.map (List.map denied),
          ((constraints [e]).run space).2) := by
  have plain : ∀ signature, e ≠ .function signature := by
    rintro signature rfl
    cases bool
  have hnot : (constraints [.logical .not [e]]).run space
      = (onLowering (loweredAll [.logical .not [e]])).run space := by
    show (requireBools _ >>= _).run space = _
    rw [run_bind]
    rfl
  have hsame : (constraints [e]).run space = (onLowering (loweredAll [e])).run space := by
    show (requireBools _ >>= _).run space = _
    rw [run_bind, requireBools, if_pos bool]
    rfl
  rw [hnot, hsame]
  refine onLowering_run_map ?_
  rw [loweredAll_run, loweredAll_run, lowered_run (fun _ same => by cases same),
    lowered_run plain, lower_not_run]
  cases ((lower e).run space.session.lowering).1 with
  | error fault => rfl
  | ok t => rfl

theorem axiomTerm_opened (space : Workspace) :
    axiomTerm.run (opened space)
      = ((axiomTerm.run space).1, opened (axiomTerm.run space).2) := rfl

-- ======================================================= the two questions

/-- Asking with formulas always gives a verdict. -/
theorem askWith_run (engine : Engine) {terms : List Term}
    (sorts : ∀ t ∈ terms, t.sort? = some .bool) (space : Workspace) :
    ∃ verdict reached, (askWith engine (terms.map .term)).run space = (.ok verdict, reached) ∧
      verdict = engine.decide (space.session.solver.assertions ++ terms) ∧
      Around Eq (fun before after => after.tally = before.tally.asked verdict) space reached := by
  obtain ⟨verdict, reached, -, hask, -⟩ := ask_run engine { space with
    session := { space.session with
      solver := { space.session.solver with
        assertions := space.session.solver.assertions ++ terms } } }
  have hrun : (askWith engine (terms.map .term)).run space = (.ok verdict, reached) := by
    rw [askWith, run_bind, onSolver_run (Solver.add_run sorts _)]
    exact hask
  exact ⟨verdict, reached, hrun, askWith_eq_ok sorts hrun⟩

/-- A question asked in a scope leaves its verdict and what was lowered in
the scope, and nothing else. -/
theorem inScope_asked {α : Type} {step : Run α} (leads : Leads (Around Fit Solver.Grown) step)
    {start ready reached : Workspace} {a : α} {verdict : Verdict}
    (hstep : step.run (opened start) = (.ok a, reached))
    (quiet : ready.session.solver = start.session.solver)
    (asked : Around Eq (fun before after => after.tally = before.tally.asked verdict)
      (opened ready) reached) :
    ∃ after, (inScope step).run start = (.ok a, after) ∧
      Around Eq (fun before after => after = before.asked verdict) ready after := by
  obtain ⟨closed, hscope, hkept, hclosed⟩ := inScope_run leads start
  rw [hstep] at hscope hclosed
  refine ⟨closed, hscope, hclosed.heap.trans asked.heap,
    hclosed.assumeDistinct.trans asked.assumeDistinct, asked.lowering.trans hclosed.lowering, ?_⟩
  refine Solver.Kept.eq_asked ?_ (Eq.trans hclosed.solver asked.solver)
  rw [quiet]
  exact hkept.solver

/-- A step that fails in a scope where it has lowered something leaves
that, and nothing else. -/
theorem inScope_failed {α : Type} {step : Run α} {start ready : Workspace} {fault : Fault}
    (hstep : step.run (opened start) = (.error fault, opened ready)) :
    (inScope step).run start = (.error fault, ready) := by
  have hpop : Solver.pop.run (opened ready).session.solver = (.ok (), ready.session.solver) := by
    show (Except.ok (), { ready.session.solver with
      assertions := ready.session.solver.assertions.take ready.session.solver.assertions.length })
        = _
    rw [List.take_length]
  have closed : (onSolver Solver.pop).run (opened ready) = (.ok (), ready) := onSolver_run hpop
  have hrun : (inScope step).run start
      = (tryCatch (step >>= fun result => onSolver Solver.pop >>= fun _ => pure result)
          fun fault => onSolver Solver.pop >>= fun _ => throw fault).run (opened start) := rfl
  rw [hrun, run_tryCatch, run_bind_of_error hstep]
  show ((onSolver Solver.pop >>= fun _ => throw fault) : Run α).run (opened ready) = _
  rw [run_bind, closed]
  rfl

section

variable {lowered ready : Workspace} {distinct : Term}

/-- A check whose terms are formulas is answered, and leaves what it has
lowered and its verdict. -/
theorem check_run (engine : Engine) {exprs : List Expr} {terms : List Term}
    (hconstraints : (constraints exprs).run space = (.ok (terms.map .term), lowered))
    (hobjects : axiomTerm.run lowered = (.ok distinct, ready))
    (sorts : ∀ t ∈ terms ++ [distinct], t.sort? = some .bool) :
    ∃ verdict after, (check engine exprs).run space = (.ok verdict, after) ∧
      verdict = engine.decide (ready.session.solver.assertions ++ (terms ++ [distinct])) ∧
      Around Eq (fun before after => after = before.asked verdict) ready after := by
  obtain ⟨verdict, reached, hask, hverdict, hasked⟩ :
    ∃ verdict reached, (askWith engine _).run (opened ready) = _ ∧ _ ∧ _ :=
    askWith_run engine sorts (opened ready)
  have hgiven : (terms ++ [distinct]).map Lowered.term = terms.map .term ++ [.term distinct] := by
    rw [List.map_append]
    rfl
  rw [hgiven] at hask
  obtain ⟨log, htimed⟩ := askTimed_run engine (terms.map .term ++ [.term distinct]) (opened ready)
  rw [hask] at htimed
  obtain ⟨closed, hclosed, hasked⟩ := inScope_asked
    ((askTimed_leads same_steady _).mono Around.fit) htimed rfl
    ⟨hasked.heap, hasked.assumeDistinct, hasked.lowering, hasked.solver⟩
  refine ⟨verdict, { closed with log := (closed.log.count "session.checks").2 }, ?_, hverdict,
    hasked.heap, hasked.assumeDistinct, hasked.lowering, hasked.solver⟩
  rw [check, run_bind, hconstraints]
  dsimp only
  rw [run_bind, hobjects]
  dsimp only
  rw [run_bind, hclosed]
  rfl

/-- A proof of a formula is answered likewise. -/
theorem prove_run (engine : Engine) {e : Expr} {t : Term}
    (hconstraints : (constraints [e]).run space = (.ok [.term t], lowered))
    (hobjects : axiomTerm.run lowered = (.ok distinct, ready))
    (hsort : t.sort? = some .bool) (hdistinct : distinct.sort? = some .bool)
    (quiet : ready.session.solver = lowered.session.solver) :
    ∃ verdict after, (prove engine e).run space = (.ok verdict.isUnsat, after) ∧
      verdict = engine.decide (ready.session.solver.assertions ++ [distinct, t.not]) ∧
      Around Eq (fun before after => after = before.asked verdict) ready after := by
  have sorts : ∀ u ∈ [distinct, t.not], u.sort? = some .bool := by
    rw [List.forall_mem_cons, List.forall_mem_singleton]
    exact ⟨hdistinct, Term.sort?_not hsort⟩
  obtain ⟨verdict, reached, hask, hverdict, hasked⟩ :
    ∃ verdict reached, (askWith engine _).run (opened ready) = _ ∧ _ ∧ _ :=
    askWith_run engine sorts (opened ready)
  have hscope : (do
      let distinct ← axiomTerm
      let denied ← solverAnswer (Solver.denials [.term t])
      askWith engine (.term distinct :: denied) : Run Verdict).run (opened lowered)
        = (.ok verdict, reached) := by
    rw [run_bind, axiomTerm_opened, hobjects]
    dsimp only
    rw [Solver.denials_of_sort hsort]
    exact hask
  obtain ⟨closed, hclosed, hasked⟩ := inScope_asked (proveScope_leads _) hscope quiet hasked
  refine ⟨verdict, closed, ?_, hverdict, hasked⟩
  rw [prove, run_bind, hconstraints]
  dsimp only
  rw [run_bind, hclosed]
  rfl

end

-- ============================================================= the duality

/-- Two workspaces with the same heap, symbols, assertions and statistics,
and with a model both or neither. -/
structure Matches (a b : Workspace) : Prop where
  heap : b.session.heap = a.session.heap
  lowering : b.session.lowering = a.session.lowering
  assertions : b.session.solver.assertions = a.session.solver.assertions
  scopes : b.session.solver.scopes = a.session.solver.scopes
  queries : b.session.solver.queries = a.session.solver.queries
  satCount : b.session.solver.satCount = a.session.solver.satCount
  unsatCount : b.session.solver.unsatCount = a.session.solver.unsatCount
  unknownCount : b.session.solver.unknownCount = a.session.solver.unknownCount
  model : b.session.solver.model.isSome = a.session.solver.model.isSome

theorem Matches.refl (space : Workspace) : Matches space space :=
  ⟨rfl, rfl, rfl, rfl, rfl, rfl, rfl, rfl, rfl⟩

/-- Two verdicts that say the same, perhaps with different models. -/
inductive SameVerdict : Verdict → Verdict → Prop
  | sat (model model' : Model) : SameVerdict (.sat model) (.sat model')
  | unsat : SameVerdict .unsat .unsat

theorem SameVerdict.of_isSat {verdict verdict' : Verdict} (first : verdict.isSat = true)
    (second : verdict'.isSat = true) : SameVerdict verdict verdict' := by
  cases verdict with
  | sat model =>
      cases verdict' with
      | sat model' => exact .sat model model'
      | unsat | unknown => cases second
  | unsat | unknown => cases first

theorem SameVerdict.of_isUnsat {verdict verdict' : Verdict} (first : verdict.isUnsat = true)
    (second : verdict'.isUnsat = true) : SameVerdict verdict verdict' := by
  cases verdict with
  | unsat =>
      cases verdict' with
      | unsat => exact .unsat
      | sat | unknown => cases second
  | sat | unknown => cases first

/-- To an exact engine the order of formulas does not matter. -/
theorem sameVerdict_of_perm (exact : engine.Exact) {terms more : List Term}
    (perm : terms.Perm more) (sorts : ∀ t ∈ terms, t.sort? = some .bool) :
    SameVerdict (engine.decide terms) (engine.decide more) := by
  have moreSorts : ∀ t ∈ more, t.sort? = some .bool := fun t among =>
    sorts t (perm.mem_iff.2 among)
  have same (I : Interp) :
      (∀ t ∈ more, I.eval t = .bool true) ↔ ∀ t ∈ terms, I.eval t = .bool true :=
    forall_congr' fun t => imp_congr_left perm.mem_iff.symm
  by_cases possible : ∃ I : Interp, ∀ t ∈ terms, I.eval t = .bool true
  · exact .of_isSat ((exact.sat terms sorts).2 possible)
      ((exact.sat more moreSorts).2 ((exists_congr same).2 possible))
  · exact .of_isUnsat ((exact.unsat terms sorts).2 possible)
      ((exact.unsat more moreSorts).2 (possible ∘ (exists_congr same).1))

/-- Two questions asked from one state that were given the same verdict. -/
theorem Matches.of_asked {ready a b : Workspace} {verdict verdict' : Verdict}
    (same : SameVerdict verdict verdict')
    (ha : Around Eq (fun before after => after = before.asked verdict) ready a)
    (hb : Around Eq (fun before after => after = before.asked verdict') ready b) :
    Matches a b := by
  obtain ⟨heap, -, lowering, solver⟩ := ha
  obtain ⟨heap', -, lowering', solver'⟩ := hb
  refine ⟨heap'.trans heap.symm, lowering'.symm.trans lowering, ?_, ?_, ?_, ?_, ?_, ?_, ?_⟩
  all_goals
    rw [solver, solver']
    cases same with
    | sat model model' => rfl
    | unsat => rfl

/-- From any state that can be got into by asserting made expressions only,
whatever has been pushed, popped, reset or refused on the way: to prove a
formula and to look for a counterexample are refused for the same reason,
or have opposite answers.  Either way they leave the same heap, symbols,
memo, assertions, scopes and statistics, and a model both or neither. -/
theorem prove_is_dual {engine : Engine} (exact : engine.Exact) (timeout : Int)
    (assumeDistinct : Bool) (log : Logger) {commands : List Command}
    (asserted : ∀ command ∈ commands, ∀ e ∈ command.asserted, e.Made)
    {e : Expr} (made : e.Made) (bool : e.typeOf = .bool) :
    let space := (run engine (fresh timeout assumeDistinct log) commands).2
    let proof := step engine space (.prove e)
    let search := step engine space (.isSatisfiable [.logical .not [e]])
    ((∃ fault, proof.1 = .error fault ∧ search.1 = .error fault) ∨
      ∃ found, proof.1 = .ok (.truth !found) ∧ search.1 = .ok (.truth found)) ∧
    Matches proof.2 search.2 := by
  intro space proof search
  have proper : space.Proper := proper_run timeout assumeDistinct log asserted
  have hproof : proof = (Answer.truth <$> prove engine e).run space := rfl
  have hsearch : search = (check engine [.logical .not [e]] >>= fun verdict =>
    pure (Answer.truth verdict.isSat)).run space := rfl
  have hnot := constraints_not bool space
  rcases hconstraints : (constraints [e]).run space with ⟨fault | found, lowered⟩
  · rw [hconstraints] at hnot
    have hcheck : (check engine [.logical .not [e]]).run space = (.error fault, lowered) :=
      run_bind_of_error hnot _
    have hprove : (prove engine e).run space = (.error fault, lowered) :=
      run_bind_of_error hconstraints _
    rw [hproof, hsearch, run_map, hprove, run_bind_of_error hcheck]
    exact ⟨.inl ⟨fault, rfl, rfl⟩, .refl _⟩
  obtain ⟨t, rfl, means⟩ := constraint_eq_ok made.isFormula proper.faithful hconstraints
  rw [hconstraints] at hnot
  have hdenied : (constraints [.logical .not [e]]).run space
      = (.ok ([t.not].map .term), lowered) := hnot
  have hlowered := (constraints_leads same_steady [e]).of_run hconstraints
  rcases hobjects : axiomTerm.run lowered with ⟨fault | distinct, ready⟩
  · have hcheck : (check engine [.logical .not [e]]).run space = (.error fault, ready) := by
      rw [check, run_bind, hdenied]
      exact run_bind_of_error hobjects _
    have hprove : (prove engine e).run space = (.error fault, ready) := by
      have hstep : axiomTerm.run (opened lowered) = (.error fault, opened ready) := by
        rw [axiomTerm_opened, hobjects]
      rw [prove, run_bind, hconstraints]
      exact run_bind_of_error (inScope_failed (run_bind_of_error hstep _)) _
    rw [hproof, hsearch, run_map, hprove, run_bind_of_error hcheck]
    exact ⟨.inl ⟨fault, rfl, rfl⟩, .refl _⟩
  · have hready := (axiomTerm_leads same_steady).of_run hobjects
    obtain ⟨faithful, -⟩ := hlowered.lowering proper.faithful
    obtain ⟨describes, -⟩ := axiomTerm_eq_ok faithful hobjects
    have hdistinct := describes.sorts distinct List.mem_cons_self
    have hterms : ∀ u ∈ [t.not, distinct], u.sort? = some .bool := by
      rw [List.forall_mem_cons, List.forall_mem_singleton]
      exact ⟨Term.sort?_not means.sort, hdistinct⟩
    obtain ⟨verdict, after, hprove, hverdict, asked⟩ :=
      prove_run engine hconstraints hobjects means.sort hdistinct hready.solver.symm
    obtain ⟨verdict', after', hcheck, hverdict', asked'⟩ :=
      check_run engine hdenied hobjects hterms
    have same : SameVerdict verdict verdict' := by
      have sorted : ready.session.solver.Sorted := by
        rw [← hready.solver, ← hlowered.solver]
        exact proper.sorted
      have perm : [t.not, distinct].Perm [distinct, t.not] := .swap _ _ _
      rw [hverdict, hverdict']
      refine sameVerdict_of_perm exact (perm.symm.append_left _) ?_
      rw [List.forall_mem_append]
      exact ⟨sorted, fun u among => hterms u (perm.mem_iff.2 among)⟩
    rw [hproof, hsearch, run_map, hprove, run_bind, hcheck]
    refine ⟨.inr ⟨verdict'.isSat, ?_, rfl⟩, .of_asked same asked asked'⟩
    cases same with
    | sat model model' => rfl
    | unsat => rfl

/-- Two objects have been allocated, so nothing is found where they are
the same. -/
theorem prove_is_dual_apart :
    let space := (run oracle (fresh 0 false {})
      [.heap (.allocate .object (some "T") (some "o")),
        .heap (.allocate .object (some "T") (some "p"))]).2
    let apart := Expr.binary .ne (.var "o" .object) (.var "p" .object)
    (step oracle space (.prove apart)).1 = .ok (.truth true) ∧
      (step oracle space (.isSatisfiable [.logical .not [apart]])).1 = .ok (.truth false) := by
  intro space apart
  have made : apart.Made := .binary (.var rfl) (.var rfl) rfl
  have asserted : ∀ command ∈ [Command.heap (.allocate .object (some "T") (some "o")),
      .heap (.allocate .object (some "T") (some "p"))], ∀ e ∈ command.asserted, e.Made := by
    rw [List.forall_mem_cons, List.forall_mem_singleton]
    exact ⟨nofun, nofun⟩
  have proved : (step oracle space (.prove apart)).1 = .ok (.truth true) := rfl
  refine ⟨proved, ?_⟩
  obtain ⟨⟨fault, fails, -⟩ | ⟨found, answer, search⟩, -⟩ :=
    prove_is_dual oracle_exact 0 false {} asserted made rfl
  · cases proved.symm.trans fails
  · cases found with
    | false => exact search
    | true => cases proved.symm.trans answer

end Workspace

end SymbolicHeap
