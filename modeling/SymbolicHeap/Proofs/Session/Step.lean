/-
What a step of a session changes.

Everything that a session does outside its heap, raised or not, can be
told by what becomes of its lowering and what becomes of its solver
(`Around`).  A question asserts inside a scope, and closing the scope
takes all of that away again, no matter where between the two the
question failed (`inScope_leads`).  So questions leave the assertions
alone, and an answer that a question does give is that of the engine on
the assertions and the formulas of the question (`check_eq_ok`,
`prove_eq_ok`).
-/
import SymbolicHeap.Proofs.Session.Assertions
import SymbolicHeap.Session.Command

namespace SymbolicHeap

open Lowering

/-- The interpretations under which the objects of a session are
different: the allocated ones, and on demand all that have been seen. -/
structure Session.Admits {σ : Type} [Named σ] (session : Session) (I : Interp σ) : Prop where
  allocated : (session.heap.roots.map I.value).Nodup
  seen : session.assumeDistinct = true → I.Separates session.lowering.symbols.objects

namespace Workspace

/-- The names of the objects that a session takes to be different. -/
def distinctNames (session : Session) : List String :=
  session.heap.histories.values.map History.root ++
    if session.assumeDistinct then session.lowering.symbols.objects else []

variable {L : Lowering → Lowering → Prop} {R : Solver → Solver → Prop} {α : Type}

/-- Heap and settings are as they were; lowering and solver have changed
as told. -/
structure Around (L : Lowering → Lowering → Prop) (R : Solver → Solver → Prop)
    (before after : Workspace) : Prop where
  heap : after.session.heap = before.session.heap
  assumeDistinct : after.session.assumeDistinct = before.session.assumeDistinct
  lowering : L before.session.lowering after.session.lowering
  solver : R before.session.solver after.session.solver

/-- A lowering fit for use stays so, and takes back no symbol. -/
def Fit (before after : Lowering) : Prop :=
  Faithful before → Faithful after ∧ before.symbols.Reaches after.symbols

theorem fit_steady : Steady Fit where
  refl _ faithful := ⟨faithful, .refl⟩
  trans h k faithful := by
    obtain ⟨middle, reached⟩ := h faithful
    obtain ⟨last, onward⟩ := k middle
    exact ⟨last, reached.trans onward⟩

theorem same_steady : Steady (Eq : α → α → Prop) where
  refl _ := rfl
  trans := Eq.trans

/-- A relation of the lowerings and one of the solvers, each kept up by
steps, make one of the workspaces. -/
theorem around_steady (hL : Steady L) (hR : Steady R) : Steady (Around L R) where
  refl _ := ⟨rfl, rfl, hL.refl _, hR.refl _⟩
  trans h k :=
    ⟨k.heap.trans h.heap, k.assumeDistinct.trans h.assumeDistinct,
      hL.trans h.lowering k.lowering, hR.trans h.solver k.solver⟩

namespace Around

variable {before after : Workspace}

/-- A solver that stands as it stood has grown by nothing. -/
theorem grown (h : Around L Solver.Kept before after) : Around L Solver.Grown before after :=
  ⟨h.heap, h.assumeDistinct, h.lowering, h.solver.grown⟩

/-- One that is unchanged keeps its assertions. -/
theorem kept (h : Around L Eq before after) : Around L Solver.Kept before after := by
  refine ⟨h.heap, h.assumeDistinct, h.lowering, ?_⟩
  rw [h.solver]
  exact Solver.kept_steady.refl _

theorem fit (h : Around Eq R before after) : Around Fit R before after := by
  refine ⟨h.heap, h.assumeDistinct, fun faithful => ?_, h.solver⟩
  rw [← h.lowering]
  exact ⟨faithful, .refl⟩

theorem distinctNames (h : Around Eq R before after) :
    distinctNames after.session = distinctNames before.session := by
  unfold Workspace.distinctNames
  rw [h.heap, h.assumeDistinct, h.lowering]

/-- What comes before a change may leave the solver alone. -/
theorem after_quiet {start : Workspace} (hL : Steady L) (h : Around L Eq start before)
    (k : Around L R before after) : Around L R start after := by
  refine ⟨k.heap.trans h.heap, k.assumeDistinct.trans h.assumeDistinct,
    hL.trans h.lowering k.lowering, ?_⟩
  rw [h.solver]
  exact k.solver

/-- So may what comes after it. -/
theorem before_quiet {last : Workspace} (hL : Steady L) (h : Around L R before after)
    (k : Around L Eq after last) : Around L R before last := by
  refine ⟨k.heap.trans h.heap, k.assumeDistinct.trans h.assumeDistinct,
    hL.trans h.lowering k.lowering, ?_⟩
  rw [← k.solver]
  exact h.solver

/-- A question that leaves no assertion behind leaves its verdict. -/
theorem asked {verdict : Verdict} (kept : Around L Solver.Kept before after)
    (noted : after.session.solver.tally = before.session.solver.tally.asked verdict) :
    Around L (fun before after => after = before.asked verdict) before after :=
  ⟨kept.heap, kept.assumeDistinct, kept.lowering, kept.solver.eq_asked noted⟩

end Around

-- =============================================================== the parts

/-- To write to the log never fails. -/
theorem logWith_run (write : Logger → Logger) (space : Workspace) :
    (logWith write).run space = (.ok (), { space with log := write space.log }) := rfl

section

variable (hL : Steady L) (hR : Steady R)
include hL hR

theorem logWith_leads (write : Logger → Logger) : Leads (Around L R) (logWith write) :=
  .modify fun _ => ⟨rfl, rfl, hL.refl _, hR.refl _⟩

theorem debug_leads (message : String) (category : Datum) :
    Leads (Around L R) (debug message category) :=
  logWith_leads hL hR _

theorem solverAnswer_leads (answer : Except Solver.Fault α) :
    Leads (Around L R) (solverAnswer answer) :=
  .liftM (around_steady hL hR) _

theorem requireBools_leads (exprs : List Expr) : Leads (Around L R) (requireBools exprs) := by
  induction exprs with
  | nil => exact .pure (around_steady hL hR) _
  | cons e rest ih =>
      unfold requireBools
      split
      next => exact ih
      next => exact .throw (around_steady hL hR) _

end

/-- A step of the solver leaves the lowering alone. -/
theorem onSolver_leads (hL : Steady L) {step : Solver.Run α} (h : Leads R step) :
    Leads (Around L R) (onSolver step) :=
  fun _ => ⟨rfl, rfl, hL.refl _, h _⟩

/-- A step of the solver, told by the solver that it leaves. -/
theorem onSolver_run {step : Solver.Run α} {space : Workspace} {solver : Solver}
    {outcome : Except Solver.Fault α} (h : step.run space.session.solver = (outcome, solver)) :
    (onSolver step).run space = (outcome.mapError .solver,
      { space with session := { space.session with solver } }) := by
  have hrun : (onSolver step).run space
      = ((step.run space.session.solver).1.mapError .solver,
          { space with
            session := { space.session with solver := (step.run space.session.solver).2 } }) :=
    rfl
  rw [hrun, h]

/-- A step of the lowering that runs as a plan. -/
theorem onLowering_leads (hR : Steady R) {step : Lowering.Run α} {plan : Plan α}
    (h : RunsAs step plan) : Leads (Around Fit R) (onLowering step) :=
  fun space => by
    refine ⟨rfl, rfl, fun faithful => ?_, hR.refl _⟩
    obtain ⟨-, symbols, kept⟩ := h _ faithful
    refine ⟨kept, ?_⟩
    show space.session.lowering.symbols.Reaches (step.run space.session.lowering).2.symbols
    rw [symbols, Plan.run_symbols]
    exact .requests .refl _

/-- A lowering that goes through, told by the lowering that it leaves. -/
theorem onLowering_run_eq_ok {step : Lowering.Run α} {space after : Workspace} {a : α}
    (h : (onLowering step).run space = (.ok a, after)) :
    step.run space.session.lowering = (.ok a, after.session.lowering) := by
  have hout := mapError_eq_ok.1 (congrArg Prod.fst h)
  have hafter : _ = after := congrArg Prod.snd h
  rw [← hafter]
  exact Prod.ext hout rfl

/-- The same by its plan: what was lowered is what the plan comes to. -/
theorem onLowering_eq_ok {step : Lowering.Run α} {plan : Plan α} {space after : Workspace} {a : α}
    (hplan : RunsAs step plan) (faithful : Faithful space.session.lowering)
    (h : (onLowering step).run space = (.ok a, after)) :
    plan.outcome = .ok a ∧
      space.session.lowering.symbols.grantAll plan.requests
        = (.ok (), after.session.lowering.symbols) := by
  obtain ⟨houtcome, hgranted, -⟩ := hplan.eq_ok faithful (onLowering_run_eq_ok h)
  exact ⟨houtcome, hgranted⟩

-- ============================================================== questions

/-- The check of the types comes before anything is lowered. -/
theorem requireBools_eq_ok {exprs : List Expr} {space after : Workspace} {u : Unit}
    (h : (requireBools exprs).run space = (.ok u, after)) :
    space = after ∧ ∀ e ∈ exprs, e.typeOf = .bool := by
  induction exprs with
  | nil =>
      obtain ⟨-, hsame⟩ := run_pure_eq_ok.1 h
      exact ⟨hsame, fun e he => by cases he⟩
  | cons e rest ih =>
      unfold requireBools at h
      split at h
      next hb =>
        obtain ⟨hsame, hrest⟩ := ih h
        refine ⟨hsame, ?_⟩
        rw [List.forall_mem_cons]
        exact ⟨hb, hrest⟩
      next => cases h

theorem constraints_leads (hR : Steady R) (exprs : List Expr) :
    Leads (Around Fit R) (constraints exprs) :=
  .bind (around_steady fit_steady hR) (requireBools_leads fit_steady hR exprs) fun _ =>
    onLowering_leads hR (loweredAll_runsAs exprs)

/-- Constraints are checked all, then lowered all. -/
theorem constraints_run {exprs : List Expr} {space after : Workspace} {found : List Lowered}
    (h : (constraints exprs).run space = (.ok found, after)) :
    (∀ e ∈ exprs, e.typeOf = .bool) ∧
      (onLowering (Lowering.loweredAll exprs)).run space = (.ok found, after) := by
  obtain ⟨_, _, hbools, hlowered⟩ := run_bind_eq_ok.1 h
  obtain ⟨rfl, hb⟩ := requireBools_eq_ok hbools
  exact ⟨hb, hlowered⟩

/-- Constraints that pass lower to formulas that mean them, and are known
from then on; the objects that come up are those they ask for. -/
theorem constraints_eq_ok {exprs : List Expr} {space after : Workspace} {found : List Lowered}
    (formulas : ∀ e ∈ exprs, e.IsFormula) (faithful : Faithful space.session.lowering)
    (h : (constraints exprs).run space = (.ok found, after)) :
    ∃ terms, found = terms.map .term ∧ terms.length = exprs.length ∧
      (Describes terms fun I => ∀ e ∈ exprs, I.Holds e) ∧
      (∀ e ∈ exprs, after.session.lowering.symbols.Knows e) ∧
      ∀ name ∈ after.session.lowering.symbols.objects,
        name ∈ space.session.lowering.symbols.objects ∨
          .var name .object ∈ Plan.requestsAll exprs := by
  obtain ⟨hb, hlowered⟩ := constraints_run h
  obtain ⟨hout, hgranted⟩ := onLowering_eq_ok (loweredAll_runsAs exprs) faithful hlowered
  rw [requests_loweredAll hout] at hgranted
  have has := SymbolTable.has_of_grantAll faithful.symbols hgranted
  obtain ⟨terms, hfound, hlength, hterms⟩ := loweredAll_describes formulas hb hout
  refine ⟨terms, hfound, hlength, hterms, loweredAll_knows formulas hb hout has, ?_⟩
  exact fun name => (SymbolTable.objects_grantAll hgranted name).1

/-- The only constraint of a question. -/
theorem constraint_eq_ok {e : Expr} {space after : Workspace} {found : List Lowered}
    (formula : e.IsFormula) (faithful : Faithful space.session.lowering)
    (h : (constraints [e]).run space = (.ok found, after)) :
    ∃ t, found = [.term t] ∧ t.Means .bool fun I => I.value e := by
  obtain ⟨hb, hlowered⟩ := constraints_run h
  obtain ⟨hout, -⟩ := onLowering_eq_ok (loweredAll_runsAs [e]) faithful hlowered
  obtain ⟨first, hfirst, hout⟩ := Plan.outcome_bind_eq_ok.1 hout
  injection hout with hout
  obtain ⟨t, rfl, hmeans⟩ := formula (hb e (List.mem_singleton.2 rfl)) hfirst
  exact ⟨t, hout.symm, hmeans⟩

-- ------------------------------------------------------------- the axiom

theorem axiomTerm_leads (hR : Steady R) : Leads (Around Fit R) axiomTerm :=
  .bind (around_steady fit_steady hR) (.get (around_steady fit_steady hR)) fun _ =>
    onLowering_leads hR (distinctRoots_runsAs _)

/-- The roots that are kept apart, as variables of their names. -/
theorem distinctRoots_eq (session : Session) :
    distinctRoots session = rootsOf (distinctNames session) := by
  unfold distinctRoots distinctNames rootsOf Heap.roots SymbolTable.objects
  rw [List.map_append, List.map_map]
  split
  next =>
    rw [List.map_map]
    rfl
  next => rfl

theorem allocated_iff {σ : Type} [Named σ] {heap : Heap}
    (names : (heap.histories.values.map History.root).Nodup) (I : Interp σ) :
    (heap.roots.map I.value).Nodup ↔ I.Separates (heap.histories.values.map History.root) := by
  rw [← Interp.nodup_identities names]
  unfold Heap.roots
  rw [List.map_map, List.map_map]
  have hvalue : I.value ∘ History.rootState
      = (fun name => I.var name .object) ∘ History.root := by
    funext history
    show I.value (.var history.root .object) = _
    rw [Interp.value]
    rfl
  rw [hvalue]

theorem mem_distinctNames {session : Session} {name : String} :
    name ∈ distinctNames session ↔ name ∈ session.heap.histories.values.map History.root ∨
      session.assumeDistinct = true ∧ name ∈ session.lowering.symbols.objects := by
  unfold distinctNames
  cases session.assumeDistinct with
  | true => simp
  | false => simp

theorem root_mem_distinctNames {session : Session} {address : Nat} {history : History}
    (found : session.heap.histories.find? address = some history) :
    history.root ∈ distinctNames session := by
  have entry := Table.mem_entries_of_find? found
  exact mem_distinctNames.2 (.inl (List.mem_map_of_mem (List.mem_map_of_mem entry)))

/-- The axiom is about the objects that the session takes to be different
once the axiom has been lowered, and all of these have symbols then. -/
theorem axiomTerm_eq_ok {space after : Workspace} {distinct : Term}
    (faithful : Faithful space.session.lowering)
    (h : axiomTerm.run space = (.ok distinct, after)) :
    (Describes [distinct] fun I => I.Separates (distinctNames after.session)) ∧
      (∀ name ∈ distinctNames after.session,
        after.session.lowering.symbols.Has (.var name .object)) ∧
      ∀ name ∈ distinctNames after.session, name ∈ distinctNames space.session := by
  have hstep := (axiomTerm_leads Solver.kept_steady).of_run h
  obtain ⟨_, _, hget, hlowered⟩ := run_bind_eq_ok.1 h
  cases hget
  rw [distinctRoots_eq] at hlowered
  obtain ⟨hout, hgranted⟩ := onLowering_eq_ok (distinctRoots_runsAs _) faithful hlowered
  obtain ⟨hrequests, hsort, hvalue⟩ := distinct_sound hout
  rw [hrequests] at hgranted
  -- the objects that the axiom brings in were roots before, so it is about them too
  have hnames (name : String) :
      name ∈ distinctNames space.session ↔ name ∈ distinctNames after.session := by
    have later : name ∈ distinctNames after.session ↔ _ := mem_distinctNames
    rw [later, hstep.heap, hstep.assumeDistinct, SymbolTable.objects_grantAll hgranted,
      mem_identityRequests, mem_distinctNames]
    tauto
  refine ⟨.one hsort fun I => (hvalue I).trans (Interp.separates_congr hnames), ?_,
    fun name => (hnames name).2⟩
  intro name hname
  exact SymbolTable.has_of_grantAll faithful.symbols hgranted _
    (mem_identityRequests.2 ((hnames name).2 hname))

/-- Where the objects of the axiom have symbols, a session admits what the
axiom does. -/
theorem admits_iff {σ : Type} [Named σ] {session : Session}
    (names : (session.heap.histories.values.map History.root).Nodup)
    (has : ∀ name ∈ distinctNames session, session.lowering.symbols.Has (.var name .object))
    (I : Interp σ) : session.Admits I ↔ I.Separates (distinctNames session) := by
  constructor
  · rintro ⟨allocated, seen⟩
    rw [allocated_iff names] at allocated
    cases demanded : session.assumeDistinct with
    | true =>
        refine (seen demanded).mono fun name hname => ?_
        exact SymbolTable.mem_objects_of_has (has name hname)
    | false =>
        refine allocated.mono fun name hname => ?_
        rw [mem_distinctNames, demanded] at hname
        simpa using hname
  · intro apart
    refine ⟨?_, fun demanded => ?_⟩
    · rw [allocated_iff names]
      exact apart.mono fun name hname => mem_distinctNames.2 (.inl hname)
    · exact apart.mono fun name hname => mem_distinctNames.2 (.inr ⟨demanded, hname⟩)

-- ------------------------------------------------------------- the scopes

/-- A workspace with one more scope open. -/
def opened (space : Workspace) : Workspace := ((onSolver Solver.push).run space).2

/-- Closing a scope takes away all that was asserted in it and keeps the
counts. -/
theorem pop_run {space reached : Workspace} (h : Around L Solver.Grown (opened space) reached) :
    ∃ closed, (onSolver Solver.pop).run reached = (.ok (), closed) ∧
      Around L Solver.Kept space closed ∧ Around Eq Solver.Unasked reached closed := by
  have hpush : Solver.push.run space.session.solver = (.ok (), (opened space).session.solver) :=
    rfl
  obtain ⟨solver, hpop, hkept, hsame⟩ := Solver.pop_run hpush h.solver
  refine ⟨{ reached with session := { reached.session with solver } }, ?_, ?_, ?_⟩
  · exact onSolver_run hpop
  · exact ⟨h.heap, h.assumeDistinct, h.lowering, hkept⟩
  · exact ⟨rfl, rfl, rfl, hsame⟩

/-- A step in a scope answers as it would without, and leaves no
assertion behind. -/
theorem inScope_run {step : Run α} (h : Leads (Around L Solver.Grown) step) (space : Workspace) :
    ∃ closed, (inScope step).run space = ((step.run (opened space)).1, closed) ∧
      Around L Solver.Kept space closed ∧
      Around Eq Solver.Unasked (step.run (opened space)).2 closed := by
  obtain ⟨closed, hpop, hkept, hsame⟩ := pop_run (h (opened space))
  refine ⟨closed, ?_, hkept, hsame⟩
  have hrun : (inScope step).run space
      = (tryCatch (step >>= fun result => onSolver Solver.pop >>= fun _ => pure result)
          fun fault => onSolver Solver.pop >>= fun _ => throw fault).run (opened space) := rfl
  rw [hrun, run_tryCatch, run_bind]
  rcases hr : step.run (opened space) with ⟨fault | a, reached⟩
  · rw [hr] at hpop
    show ((onSolver Solver.pop >>= fun _ => throw fault) : Run α).run reached = _
    rw [run_bind, hpop]
    rfl
  · rw [hr] at hpop
    dsimp only
    rw [run_bind, hpop]
    rfl

/-- Whatever is asserted inside a scope, and however it ends, the assertions
outside are kept. -/
theorem inScope_leads {step : Run α} (h : Leads (Around L Solver.Grown) step) :
    Leads (Around L Solver.Kept) (inScope step) := by
  intro space
  obtain ⟨closed, hrun, hkept, -⟩ := inScope_run h space
  rw [hrun]
  exact hkept

/-- A step that fails without a question asked leaves the solver as it
was. -/
theorem inScope_refuses {step : Run α} (h : Leads (Around L Solver.Grown) step)
    (quiet : Refuses (Around L Solver.Unasked) step) : Refuses (Around L Eq) (inScope step) := by
  intro space fault after hr
  obtain ⟨closed, hrun, hkept, hclosed⟩ := inScope_run h space
  rw [hr] at hrun
  injection hrun with hout hafter
  subst hafter
  have hfailed := quiet (opened space) fault _ (Prod.ext hout.symm rfl)
  have same : after.session.solver.tally = space.session.solver.tally :=
    hclosed.solver.trans hfailed.solver
  exact ⟨hkept.heap, hkept.assumeDistinct, hkept.lowering, (hkept.solver.eq_of_tally same).symm⟩

theorem inScope_eq_ok {step : Run α} (h : Leads (Around L Solver.Grown) step)
    {space after : Workspace} {a : α} (hr : (inScope step).run space = (.ok a, after)) :
    ∃ reached, step.run (opened space) = (.ok a, reached) ∧
      Around Eq Solver.Unasked reached after ∧ Around L Solver.Kept space after := by
  obtain ⟨closed, hrun, hkept, hclosed⟩ := inScope_run h space
  rw [hr] at hrun
  injection hrun with hout hafter
  subst hafter
  exact ⟨_, Prod.ext hout.symm rfl, hclosed, hkept⟩

end Workspace

end SymbolicHeap
