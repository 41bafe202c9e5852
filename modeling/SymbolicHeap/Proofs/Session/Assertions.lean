/-
What assertions describe.

A solver holds formulas, and these describe interpretations: those under
which they all hold (`Describes`).  The formulas that a session asserts
are those of constraints, of denials and of the distinctness axiom, and
what they describe together is put together from what each describes.
An exact engine (`Engine.Exact`) decides whether there is such an
interpretation.
-/
import SymbolicHeap.Proofs.Lowering.Order
import SymbolicHeap.Proofs.Session.Distinct
import SymbolicHeap.Solver.Basic

namespace SymbolicHeap

/-- A truth value that an interpretation makes true. -/
def Interp.Holds {σ : Type} [Named σ] (I : Interp σ) (e : Expr) : Prop := I.value e = .bool true

/-- Formulas that hold together exactly under the given interpretations. -/
structure Describes (terms : List Term) (models : Interp → Prop) : Prop where
  sorts : ∀ t ∈ terms, t.sort? = some .bool
  holds : ∀ I : Interp, (∀ t ∈ terms, I.eval t = .bool true) ↔ models I

namespace Describes

variable {terms more : List Term} {p q : Interp → Prop}

theorem nil : Describes [] fun _ => True where
  sorts t ht := by cases ht
  holds I := by simp

theorem one {t : Term} (hsort : t.sort? = some .bool)
    (hvalue : ∀ I : Interp, I.eval t = .bool true ↔ p I) : Describes [t] p where
  sorts u hu := by
    rw [List.mem_singleton.1 hu]
    exact hsort
  holds I := by
    rw [List.forall_mem_singleton]
    exact hvalue I

theorem append (hp : Describes terms p) (hq : Describes more q) :
    Describes (terms ++ more) fun I => p I ∧ q I where
  sorts t ht := by
    rcases List.mem_append.1 ht with ht | ht
    · exact hp.sorts t ht
    · exact hq.sorts t ht
  holds I := by
    rw [List.forall_mem_append, hp.holds, hq.holds]

theorem congr (hp : Describes terms p) (same : ∀ I, p I ↔ q I) : Describes terms q where
  sorts := hp.sorts
  holds I := (hp.holds I).trans (same I)

end Describes

theorem Term.Means.describes {t : Term} {value : Interp → Value} (h : t.Means .bool value) :
    Describes [t] fun I => value I = .bool true :=
  .one h.sort fun I => by rw [h.value]

/-- A denial describes the interpretations that make a formula false. -/
theorem Term.Means.denial {t : Term} {value : Interp → Value} (h : t.Means .bool value) :
    Describes [t.not] fun I => value I = .bool false := by
  refine .one (Term.sort?_not h.sort) fun I => ?_
  rw [I.eval_not, ← h.value, I.eval_eq_bool h.sort]
  simp [Value.truth]

-- ============================================================== the engine

/-- An engine that is right about every list of formulas, and gives up on
none. -/
structure Engine.Exact (engine : Engine) : Prop where
  sat : ∀ terms : List Term, (∀ t ∈ terms, t.sort? = some .bool) →
    ((engine.decide terms).isSat = true ↔ ∃ I : Interp, ∀ t ∈ terms, I.eval t = .bool true)
  unsat : ∀ terms : List Term, (∀ t ∈ terms, t.sort? = some .bool) →
    ((engine.decide terms).isUnsat = true ↔ ¬∃ I : Interp, ∀ t ∈ terms, I.eval t = .bool true)

namespace Engine.Exact

variable {engine : Engine} {terms : List Term} {p : Interp → Prop}

theorem isSat (exact : engine.Exact) (h : Describes terms p) :
    (engine.decide terms).isSat = true ↔ ∃ I, p I := by
  rw [exact.sat terms h.sorts]
  exact exists_congr h.holds

theorem isUnsat (exact : engine.Exact) (h : Describes terms p) :
    (engine.decide terms).isUnsat = true ↔ ¬∃ I, p I := by
  rw [exact.unsat terms h.sorts]
  exact not_congr (exists_congr h.holds)

end Engine.Exact

-- ========================================================= the constraints

/-- An expression of the type of truth values that lowers, if it does, to
a term which means it. -/
def Expr.IsFormula (e : Expr) : Prop :=
  e.typeOf = .bool → ∀ {found : Lowered}, (Lowering.Plan.lowered e).outcome = .ok found →
    ∃ t, found = .term t ∧ t.Means .bool fun I => I.value e

/-- What the constructors make lowers to what it means. -/
theorem Expr.Made.isFormula {e : Expr} (made : e.Made) : e.IsFormula := by
  intro hb found h
  have hs : e.typeOf.sort = .ok .bool := by
    rw [hb]
    rfl
  rw [Lowering.plan_lowered_of_sort hs] at h
  obtain ⟨t, ht, h⟩ := Lowering.Plan.outcome_bind_eq_ok.1 h
  injection h with h
  exact ⟨t, h.symm, (Lowering.plan_sound made).lower_of_sort hs ht⟩

namespace Lowering

theorem loweredAll_describes {exprs : List Expr} (formulas : ∀ e ∈ exprs, e.IsFormula)
    (hb : ∀ e ∈ exprs, e.typeOf = .bool) {found : List Lowered}
    (h : (Plan.loweredAll exprs).outcome = .ok found) :
    ∃ terms, found = terms.map .term ∧ terms.length = exprs.length ∧
      Describes terms fun I => ∀ e ∈ exprs, I.Holds e := by
  induction exprs generalizing found with
  | nil =>
      injection h with h
      subst h
      exact ⟨[], rfl, rfl, Describes.nil.congr fun I => by simp⟩
  | cons e rest ih =>
      obtain ⟨first, hfirst, h⟩ := Plan.outcome_bind_eq_ok.1 h
      obtain ⟨others, hothers, h⟩ := Plan.outcome_bind_eq_ok.1 h
      injection h with h
      rw [List.forall_mem_cons] at formulas hb
      obtain ⟨t, rfl, hmeans⟩ := formulas.1 hb.1 hfirst
      obtain ⟨ts, rfl, hlength, hrest⟩ := ih formulas.2 hb.2 hothers
      refine ⟨t :: ts, h.symm, congrArg Nat.succ hlength,
        (hmeans.describes.append hrest).congr fun I => ?_⟩
      rw [List.forall_mem_cons]
      exact Iff.rfl

/-- A table knows a constraint if it has granted all that the constraint
asks for: from then on it lowers to the same term, which means it. -/
structure SymbolTable.Knows (table : SymbolTable) (e : Expr) : Prop where
  formula : ∃ t, (Plan.lowered e).outcome = .ok (.term t) ∧ t.Means .bool fun I => I.value e
  has : ∀ request ∈ (Plan.lowered e).requests, table.Has request

theorem SymbolTable.Knows.mono {table after : SymbolTable} {e : Expr} (knows : table.Knows e)
    (h : table.Grows after) : after.Knows e where
  formula := knows.formula
  has request hrequest := (knows.has request hrequest).mono h

/-- Expressions that are lowered ask for what each of them does. -/
theorem requests_loweredAll {exprs : List Expr} {found : List Lowered}
    (h : (Plan.loweredAll exprs).outcome = .ok found) :
    (Plan.loweredAll exprs).requests = Plan.requestsAll exprs := by
  induction exprs generalizing found with
  | nil => rfl
  | cons e rest ih =>
      rw [Plan.loweredAll_cons] at h ⊢
      obtain ⟨first, hfirst, h⟩ := Plan.outcome_bind_eq_ok.1 h
      obtain ⟨others, hothers, -⟩ := Plan.outcome_bind_eq_ok.1 h
      rw [Plan.requests_bind hfirst, Plan.requests_bind hothers, ih hothers]
      exact congrArg ((Plan.lowered e).requests ++ ·) (List.append_nil _)

theorem mem_requestsAll {exprs : List Expr} {request : Request} :
    request ∈ Plan.requestsAll exprs ↔ ∃ e ∈ exprs, request ∈ (Plan.lowered e).requests :=
  List.mem_flatMap

/-- Constraints that have been lowered are known. -/
theorem loweredAll_knows {table : SymbolTable} {exprs : List Expr}
    (formulas : ∀ e ∈ exprs, e.IsFormula) (hb : ∀ e ∈ exprs, e.typeOf = .bool)
    {found : List Lowered} (h : (Plan.loweredAll exprs).outcome = .ok found)
    (has : ∀ request ∈ Plan.requestsAll exprs, table.Has request) :
    ∀ e ∈ exprs, table.Knows e := by
  have lowers : ∀ e ∈ exprs, ∃ each, (Plan.lowered e).outcome = .ok each := by
    clear formulas hb has
    induction exprs generalizing found with
    | nil => nofun
    | cons e rest ih =>
        obtain ⟨first, hfirst, h⟩ := Plan.outcome_bind_eq_ok.1 h
        obtain ⟨others, hothers, -⟩ := Plan.outcome_bind_eq_ok.1 h
        exact List.forall_mem_cons.2 ⟨⟨first, hfirst⟩, ih hothers⟩
  intro e he
  obtain ⟨each, heach⟩ := lowers e he
  obtain ⟨t, rfl, hmeans⟩ := formulas e he (hb e he) heach
  exact ⟨⟨t, heach, hmeans⟩, fun request hr => has request (mem_requestsAll.2 ⟨e, he, hr⟩)⟩

end Lowering

namespace Solver

-- ============================================================== the solver

theorem formula?_of_sort {t : Term} (h : t.sort? = some .bool) :
    (Lowered.term t).formula? = some t :=
  if_pos (Term.srt_eq h)

theorem formulas_of_sorts {terms : List Term} (h : ∀ t ∈ terms, t.sort? = some .bool) :
    formulas (terms.map .term) = .ok terms := by
  have hmap : (terms.map Lowered.term).mapM Lowered.formula? = some terms := by
    induction terms with
    | nil => rfl
    | cons t rest ih =>
        rw [List.forall_mem_cons] at h
        rw [List.map_cons, List.mapM_cons, formula?_of_sort h.1, ih h.2]
        rfl
  rw [formulas, hmap]

theorem denials_of_sort {t : Term} (h : t.sort? = some .bool) :
    denials [.term t] = .ok [.term t.not] := by
  have hone : ∀ u ∈ [t], u.sort? = some .bool := by
    rw [List.forall_mem_singleton]
    exact h
  have hformulas : formulas [.term t] = .ok [t] := formulas_of_sorts hone
  rw [denials, hformulas]
  rfl

/-- Formulas are asserted one and all. -/
theorem add_run {terms : List Term} (h : ∀ t ∈ terms, t.sort? = some .bool) (solver : Solver) :
    (add (terms.map .term)).run solver
      = (.ok (), { solver with assertions := solver.assertions ++ terms }) := by
  induction terms generalizing solver with
  | nil =>
      rw [List.append_nil]
      rfl
  | cons t rest ih =>
      rw [List.forall_mem_cons] at h
      rw [List.map_cons, add, formula?_of_sort h.1]
      show (add (rest.map .term)).run { solver with assertions := solver.assertions ++ [t] } = _
      rw [ih h.2, List.append_assoc]
      rfl

/-- A solver that has been asked, and takes note of the verdict. -/
def asked (solver : Solver) (verdict : Verdict) : Solver :=
  ({ solver with queries := solver.queries + 1 } : Solver).note verdict

/-- A question without assumptions is put about the assertions. -/
theorem check_run (engine : Engine) (solver : Solver) :
    (check engine []).run solver
      = (.ok (engine.decide solver.assertions),
          solver.asked (engine.decide solver.assertions)) := by
  have hdecide : engine.decide (solver.assertions ++ []) = engine.decide solver.assertions := by
    rw [List.append_nil]
  rw [← hdecide]
  rfl

-- ------------------------------------------------- what becomes of assertions

/-- Assertions and scopes are as they were. -/
def Kept (before after : Solver) : Prop :=
  after.assertions = before.assertions ∧ after.scopes = before.scopes

/-- Something may have been asserted, in the scopes there were. -/
def Grown (before after : Solver) : Prop :=
  before.assertions <+: after.assertions ∧ after.scopes = before.scopes

theorem kept_steady : Steady Kept where
  refl _ := ⟨rfl, rfl⟩
  trans h k := ⟨k.1.trans h.1, k.2.trans h.2⟩

theorem grown_steady : Steady Grown where
  refl _ := ⟨List.prefix_refl _, rfl⟩
  trans h k := ⟨h.1.trans k.1, k.2.trans h.2⟩

theorem Kept.grown {before after : Solver} (h : Kept before after) : Grown before after := by
  refine ⟨⟨[], ?_⟩, h.2⟩
  rw [List.append_nil, h.1]

theorem add_leads (given : List Lowered) : Leads Grown (add given) := by
  induction given with
  | nil => exact .pure grown_steady _
  | cons lowered rest ih =>
      rw [add]
      cases lowered.formula? with
      | none => exact .throw grown_steady _
      | some t =>
          refine .bind grown_steady (.modify fun solver => ?_) fun _ => ih
          exact ⟨List.prefix_append _ _, rfl⟩

theorem note_kept (solver : Solver) (verdict : Verdict) : Kept solver (solver.note verdict) := by
  cases verdict with
  | sat model => exact ⟨rfl, rfl⟩
  | unsat => exact ⟨rfl, rfl⟩
  | unknown reason => exact ⟨rfl, rfl⟩

theorem check_leads (engine : Engine) (given : List Lowered) : Leads Kept (check engine given) := by
  refine .bind kept_steady (.modify fun solver => ⟨rfl, rfl⟩) fun _ => ?_
  refine .bind kept_steady (.liftM kept_steady _) fun terms => ?_
  refine .bind kept_steady (.get kept_steady) fun solver => ?_
  exact .bind kept_steady (.modify fun solver => note_kept solver _) fun _ => .pure kept_steady _

-- ------------------------------------------------ what becomes of the rest

/-- What a solver keeps of its questions: the model and the counts. -/
def tally (solver : Solver) : Solver := { solver with assertions := [], scopes := [] }

/-- No question has been asked in between. -/
def Unasked (before after : Solver) : Prop := after.tally = before.tally

theorem unasked_steady : Steady Unasked where
  refl _ := rfl
  trans h k := Eq.trans k h

theorem add_unasked (given : List Lowered) : Leads Unasked (add given) := by
  induction given with
  | nil => exact .pure unasked_steady _
  | cons lowered rest ih =>
      rw [add]
      cases lowered.formula? with
      | none => exact .throw unasked_steady _
      | some t => exact .bind unasked_steady (.modify fun solver => rfl) fun _ => ih

theorem asked_kept (solver : Solver) (verdict : Verdict) : Kept solver (solver.asked verdict) :=
  note_kept { solver with queries := solver.queries + 1 } verdict

/-- A verdict is noted whatever is asserted. -/
theorem tally_asked (solver : Solver) (verdict : Verdict) :
    (solver.asked verdict).tally = solver.tally.asked verdict := by
  cases verdict with
  | sat model => rfl
  | unsat => rfl
  | unknown reason => rfl

/-- Assertions, scopes and tally are all there is to a solver. -/
theorem Kept.eq_of_tally {before after : Solver} (kept : Kept before after)
    (same : after.tally = before.tally) : after = before := by
  obtain ⟨assertions, scopes, model, queries, sat, unsat, unknown⟩ := before
  obtain ⟨hassertions, hscopes⟩ := kept
  dsimp only at hassertions hscopes
  subst hassertions hscopes
  injection same with _ _ hmodel hqueries hsat hunsat hunknown
  dsimp only at hmodel hqueries hsat hunsat hunknown
  subst hmodel hqueries hsat hunsat hunknown
  rfl

/-- A question that leaves no assertion behind leaves its verdict. -/
theorem Kept.eq_asked {before after : Solver} {verdict : Verdict} (kept : Kept before after)
    (noted : after.tally = before.tally.asked verdict) : after = before.asked verdict := by
  have hasked := before.asked_kept verdict
  refine Kept.eq_of_tally ⟨?_, ?_⟩ ?_
  · rw [kept.1, hasked.1]
  · rw [kept.2, hasked.2]
  · rw [noted, tally_asked]

-- ------------------------------------------------------------- the scopes

/-- Closing a scope drops what was asserted since it was opened. -/
theorem pop_run {before opened after : Solver} (hopened : push.run before = (.ok (), opened))
    (grown : Grown opened after) :
    ∃ closed, pop.run after = (.ok (), closed) ∧ Kept before closed ∧ Unasked after closed := by
  cases hopened
  obtain ⟨⟨more, hmore⟩, hscopes⟩ := grown
  refine ⟨{ after with
    assertions := after.assertions.take before.assertions.length, scopes := before.scopes },
    ?_, ⟨?_, rfl⟩, rfl⟩
  · unfold pop
    rw [run_get_bind, hscopes]
    rfl
  · show after.assertions.take before.assertions.length = before.assertions
    rw [← hmore]
    exact List.take_left

end Solver

end SymbolicHeap
