/-
The memo of known contents is not to be seen.

Whatever memo a lowering uses, it runs as the plan of the expression
(`lower_runsAs`): a memo changes how far down a chain of writes is walked,
but neither what is answered nor what is interned.  The steps of a
lowering run as those of its plan, so all that there is to show is that
looking contents up is as good as working them out (`known_runsAs`).

# The invariant

A memo is faithful (`Faithful`) if all that it may yet find is what the
plan of the contents comes to, on a table that has granted every request
of that plan before.  So a hit skips only requests that would be granted
without a change.  The invariant is kept from one step to the next because
granted requests stay granted, also by the steps of calls that fail
later.
-/
import SymbolicHeap.Proofs.Lowering.Plan

namespace SymbolicHeap.Lowering

variable {μ : Type} [Memo μ] {α β : Type}

-- ======================================================== the invariant

/-- Contents that the plan for a state comes to, without asking the table
for anything new. -/
def SymbolTable.Settles (table : SymbolTable) (state : Expr) (field : Field)
    (found : Term) : Prop :=
  ∃ identity,
    (Plan.contents state field).outcome = .ok (found, identity) ∧
    ∀ request ∈ (Plan.contents state field).requests, table.Has request

/-- All entries are canonical, and the memo finds only settled contents. -/
structure Faithful (lowering : With μ) : Prop where
  symbols : lowering.symbols.Canonical
  chains : ∀ key found, Memo.Offers lowering.chains key found →
    lowering.symbols.Settles key.state key.field found

theorem Faithful.fresh : Faithful ({} : With μ) where
  symbols := .empty
  chains key found offered := absurd offered (Memo.not_offers_empty key found)

theorem SymbolTable.Settles.mono {table after : SymbolTable} (h : table.Grows after)
    {state : Expr} {field : Field} {found : Term} (settles : table.Settles state field found) :
    after.Settles state field found := by
  obtain ⟨identity, hout, hhas⟩ := settles
  exact ⟨identity, hout, fun request hr => (hhas request hr).mono h⟩

-- ====================================================== running as a plan

/-- A computation does on a state what a plan does on its symbols, and
keeps the state faithful. -/
structure RunsAt (lowering : With μ) (x : RunWith μ α) (plan : Plan α) : Prop where
  outcome : (x.run lowering).1 = (plan.run lowering.symbols).1
  symbols : (x.run lowering).2.symbols = (plan.run lowering.symbols).2
  faithful : Faithful (x.run lowering).2

/-- A computation runs as a plan from every faithful state. -/
def RunsAs (x : RunWith μ α) (plan : Plan α) : Prop :=
  ∀ lowering, Faithful lowering → RunsAt lowering x plan

/-- A success is that of the plan, with all of its requests granted. -/
theorem RunsAs.eq_ok {x : RunWith μ α} {plan : Plan α} {lowering after : With μ} {a : α}
    (h : RunsAs x plan) (faithful : Faithful lowering) (hr : x.run lowering = (.ok a, after)) :
    plan.outcome = .ok a ∧
      lowering.symbols.grantAll plan.requests = (.ok (), after.symbols) ∧ Faithful after := by
  obtain ⟨hout, hsym, hkept⟩ := h lowering faithful
  rw [hr] at hout hsym hkept
  obtain ⟨houtcome, hgranted⟩ := Plan.run_eq_ok.1 (Prod.ext hout.symm hsym.symm)
  exact ⟨houtcome, hgranted, hkept⟩

/-- Only what the plan does on the symbols at hand matters. -/
theorem RunsAt.congr {lowering : With μ} {x : RunWith μ α} {plan other : Plan α}
    (h : RunsAt lowering x plan)
    (same : plan.run lowering.symbols = other.run lowering.symbols) :
    RunsAt lowering x other :=
  ⟨by rw [h.outcome, same], by rw [h.symbols, same], h.faithful⟩

theorem RunsAs.pure (a : α) : RunsAs (pure a : RunWith μ α) (pure a) :=
  fun _ faithful => ⟨rfl, rfl, faithful⟩

theorem RunsAs.throw (fault : Fault) :
    RunsAs (throw fault : RunWith μ α) (Plan.ofExcept (.error fault)) :=
  fun _ faithful => ⟨rfl, rfl, faithful⟩

/-- Steps that run as plans run as the sequence of these. -/
theorem RunsAs.bind {x : RunWith μ α} {plan : Plan α} {f : α → RunWith μ β}
    {next : α → Plan β} (hx : RunsAs x plan) (hf : ∀ a, RunsAs (f a) (next a)) :
    RunsAs (x >>= f) (plan >>= next) := by
  intro lowering faithful
  obtain ⟨hout, hsym, hfaith⟩ := hx lowering faithful
  suffices h : ∀ r p, x.run lowering = r → plan.run lowering.symbols = p →
      RunsAt lowering (x >>= f) (plan >>= next) from h _ _ rfl rfl
  rintro ⟨outcome, middle⟩ ⟨planned, table⟩ hrun hplan
  rw [hrun] at hout hsym hfaith
  rw [hplan] at hout hsym
  subst hout hsym
  cases outcome with
  | error fault =>
      refine ⟨?_, ?_, ?_⟩
      · rw [run_bind, Plan.run_bind, hrun, hplan]
      · rw [run_bind, Plan.run_bind, hrun, hplan]
      · rw [run_bind, hrun]
        exact hfaith
  | ok a =>
      obtain ⟨hout', hsym', hfaith'⟩ := hf a middle hfaith
      refine ⟨?_, ?_, ?_⟩
      · rw [run_bind, Plan.run_bind, hrun, hplan]
        exact hout'
      · rw [run_bind, Plan.run_bind, hrun, hplan]
        exact hsym'
      · rw [run_bind, hrun]
        exact hfaith'

/-- An interning step runs as the plan of its one request; the memo is not
concerned. -/
theorem RunsAs.intern {step : SymbolTable → Except Fault α × SymbolTable} {request : Request}
    {outcome : Except Fault α}
    (hgrant : ∀ table, table.grant request = (step table).map (·.map fun _ => ()) id)
    (hout : ∀ table a after, table.Canonical → step table = (.ok a, after) → outcome = .ok a) :
    RunsAs (intern step : RunWith μ α) ⟨[request], outcome⟩ := by
  intro lowering faithful
  have hplan : (⟨[request], outcome⟩ : Plan α).run lowering.symbols = step lowering.symbols := by
    have hg := hgrant lowering.symbols
    unfold Plan.run
    rcases hs : step lowering.symbols with ⟨fault | a, after⟩ <;> rw [hs] at hg
    · rw [SymbolTable.grantAll_cons_of_error hg]
      rfl
    · rw [SymbolTable.grantAll_cons_of_ok hg, hout _ _ _ faithful.symbols hs]
      rfl
  obtain ⟨hgrow, hcan⟩ := SymbolTable.grantAll_grows faithful.symbols [request]
  rw [← Plan.run_symbols ⟨[request], outcome⟩, hplan] at hgrow hcan
  exact ⟨by rw [hplan]; rfl, by rw [hplan]; rfl, hcan,
    fun key found offered => (faithful.chains key found offered).mono hgrow⟩

theorem internVar_runsAs (name : String) (ty : Ty) :
    RunsAs (internVar name ty : RunWith μ Term) (Plan.constant (.var name ty)) :=
  .intern (fun _ => rfl) fun _ _ _ canonical h =>
    SymbolTable.internVariable_eq_ok canonical h

theorem internFun_runsAs (signature : Signature) :
    RunsAs (internFun signature : RunWith μ Symbol) (Plan.symbol (.function signature)) :=
  .intern (fun _ => rfl) fun _ _ _ canonical h =>
    SymbolTable.internFunction_eq_ok canonical h

theorem initialContents_runsAs (field : Field) :
    RunsAs (initialContents field : RunWith μ Term) (Plan.constant (.array field)) :=
  .intern (fun _ => rfl) fun _ _ _ canonical h =>
    SymbolTable.internField_eq_ok canonical h

-- ============================================================== the memo

/-- Settled contents may be kept. -/
theorem Faithful.remember {lowering : With μ} (faithful : Faithful lowering) {state : Expr}
    {field : Field} {contents : Term} (node : Memo.Node μ)
    (settles : lowering.symbols.Settles state field contents) :
    Faithful ((remember node (.of field state) contents).run lowering).2 where
  symbols := faithful.symbols
  chains other found offered := by
    rcases Memo.offers_of_offers_keep offered with ⟨rfl, rfl⟩ | offered
    · exact settles
    · exact faithful.chains other found offered

/-- A plan that went through leaves its contents settled. -/
theorem settles_of_run {table after : SymbolTable} (canonical : table.Canonical)
    {state : Expr} {field : Field} {contents identity : Term}
    (h : (Plan.contents state field).run table = (.ok (contents, identity), after)) :
    after.Settles state field contents := by
  obtain ⟨hout, hgrant⟩ := Plan.run_eq_ok.1 h
  exact ⟨identity, hout, SymbolTable.has_of_grantAll canonical hgrant⟩

/-- Where contents are settled, finding the identity is all that is left
of their plan. -/
theorem run_contents_of_settles {table : SymbolTable} {state : Expr} {field : Field}
    {contents : Term} (settles : table.Settles state field contents) :
    (Plan.identity state >>= fun identity => pure (contents, identity)).run table
      = (Plan.contents state field).run table := by
  obtain ⟨identity, hout, hhas⟩ := settles
  obtain ⟨hid, hsub⟩ := Plan.identity_of_contents hout
  rw [Plan.run_bind, Plan.run_of_has hhas, hout,
    Plan.run_of_has fun request hr => hhas request (hsub hr), hid]
  rfl

section

variable {field : Field} {state : Expr} {lowering : With μ} {node : Memo.Node μ}

/-- Contents that are found are not worked out. -/
theorem known_run_of_found {contents : Term}
    (found : (Memo.find (.of field state) lowering.chains).1 = (node, some contents))
    (identity : RunWith μ Term) (work : Memo.Node μ → RunWith μ (Term × Term)) :
    (Builder.known field state identity work).run lowering
      = (identity >>= fun identity => pure (contents, identity)).run
          ((lookUp (.of field state)).run lowering).2 := by
  unfold Builder.known
  rw [run_bind]
  simp only [Builder.lookUp, lookUp, ExceptT.run, found]

/-- Contents that are not found are worked out and kept. -/
theorem known_run_of_not_found
    (missing : (Memo.find (.of field state) lowering.chains).1 = (node, none))
    (identity : RunWith μ Term) (work : Memo.Node μ → RunWith μ (Term × Term)) :
    (Builder.known field state identity work).run lowering
      = (work node >>= fun found => do
          remember node (.of field state) found.1
          return found).run ((lookUp (.of field state)).run lowering).2 := by
  unfold Builder.known
  rw [run_bind]
  simp only [Builder.lookUp, lookUp, ExceptT.run, missing]
  rfl

end

/-- Looking contents up before they are worked out is as good as working
them out. -/
theorem known_runsAs {state : Expr} {field : Field} {identity : RunWith μ Term}
    {work : Memo.Node μ → RunWith μ (Term × Term)}
    (hidentity : RunsAs identity (Plan.identity state))
    (hwork : ∀ node, RunsAs (work node) (Plan.contents state field)) :
    RunsAs (Builder.known field state identity work) (Plan.contents state field) := by
  intro lowering faithful
  have hfaith : Faithful ((lookUp (.of field state)).run lowering).2 :=
    ⟨faithful.symbols, fun other found offered =>
      faithful.chains other found (Memo.offers_of_offers_find offered)⟩
  rcases hfind : (Memo.find (.of field state) lowering.chains).1 with ⟨node, _ | contents⟩
  case some =>
      have hrun := known_run_of_found hfind identity work
      have hsettled := faithful.chains _ _ (Memo.offers_of_find (congrArg Prod.snd hfind))
      obtain ⟨hout, hsym, hkept⟩ := (hidentity.bind fun identity => .pure (contents, identity))
        _ hfaith
      rw [← hrun] at hout hsym hkept
      exact RunsAt.congr ⟨hout, hsym, hkept⟩ (run_contents_of_settles hsettled)
  case none =>
      obtain ⟨hout, hsym, hkept⟩ := hwork node _ hfaith
      have hrun := known_run_of_not_found hfind identity work
      rw [run_bind] at hrun
      rcases hw : (work node).run ((lookUp (.of field state)).run lowering).2
        with ⟨outcome, worked⟩
      rw [hw] at hrun hout hsym hkept
      cases outcome with
      | error fault =>
          exact ⟨by rw [hrun]; exact hout, by rw [hrun]; exact hsym, by rw [hrun]; exact hkept⟩
      | ok found =>
          -- what is kept has just been worked out, so it is settled
          have hplan : (Plan.contents state field).run lowering.symbols
              = (.ok (found.1, found.2), worked.symbols) := Prod.ext hout.symm hsym.symm
          have hsettled := settles_of_run faithful.symbols hplan
          refine ⟨by rw [hrun]; exact hout, by rw [hrun]; exact hsym, ?_⟩
          rw [hrun]
          exact hkept.remember node hsettled

-- =========================================================== all lowerings

theorem written_runsAs {field : Field} {writes : Bool} {held : Ty}
    {before : RunWith μ (Term × Term)} {beforePlan : Plan (Term × Term)}
    {value : RunWith μ Term} {valuePlan : Plan Term} (hbefore : RunsAs before beforePlan)
    (hvalue : RunsAs value valuePlan) :
    RunsAs (Builder.written field writes held before value)
      (Builder.written field writes held beforePlan valuePlan) := by
  refine hbefore.bind fun found => ?_
  cases writes with
  | false => exact .pure found
  | true =>
      by_cases fits : held = field.ty
      · simp only [fits, if_true]
        exact hvalue.bind fun stored => .pure _
      · simp only [fits, if_true, if_false]
        exact .throw _

theorem contents_assign_runsAs {base value : Expr} {index : Nat} {tag : String} (field : Field)
    (hidentity : RunsAs (Builder.identity base : RunWith μ Term) (Plan.identity base))
    (hcontents : RunsAs (Builder.contents base field : RunWith μ (Term × Term)) (Plan.contents base field))
    (hvalue : RunsAs (Builder.lower value : RunWith μ Term) (Plan.lower value)) :
    RunsAs (Builder.contents (.assign base index value tag) field : RunWith μ (Term × Term))
      (Plan.contents (.assign base index value tag) field) := by
  rw [Builder.contents_assign]
  refine known_runsAs hidentity fun node => ?_
  rw [Plan.contents_assign]
  exact written_runsAs hcontents hvalue

/-- Each step runs as that of a plan. -/
theorem relates_runsAs :
    Builder.Relates fun _ {α} (x : RunWith μ α) (plan : Plan α) => RunsAs x plan where
  mono _ := id
  pure := .pure
  bind := .bind
  fault := .throw
  var := internVar_runsAs
  function := internFun_runsAs
  initial := initialContents_runsAs
  build := .pure
  bare symbol := .pure (Term.call symbol [])
  align h := by
    show RunsAs (aligned _ >>= _) _
    rw [aligned_eq_pure, pure_bind]
    exact h
  assign field hbase hvalue :=
    contents_assign_runsAs field hbase.identity (hbase.contents field) hvalue.lower

/-- An expression, the identity of a state, and the contents that a state
sees are lowered as planned, whatever the memo. -/
theorem lower_runsAs (expr : Expr) :
    RunsAs (lower expr : RunWith μ Term) (Plan.lower expr) ∧
      RunsAs (Builder.identity expr : RunWith μ Term) (Plan.identity expr) ∧
      ∀ field, RunsAs (Builder.contents expr field : RunWith μ (Term × Term))
        (Plan.contents expr field) :=
  have related := relates_runsAs.relatedAt expr
  ⟨related.lower, related.identity, related.contents⟩

theorem lowerAll_runsAs (exprs : List Expr) :
    RunsAs (Builder.lowerAll exprs : RunWith μ (List Term)) (Plan.lowerAll exprs) :=
  relates_runsAs.lowerAll 0 fun e _ => (lower_runsAs e).1

end SymbolicHeap.Lowering
