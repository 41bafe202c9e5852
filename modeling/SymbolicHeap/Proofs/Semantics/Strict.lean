/-
Lowering builds well-sorted terms only.

A solver refuses to build a term from operands of the wrong sorts.  The
terms of the lowering are plain trees that are built from anything, so
here the lowering runs with a solver that looks (`Strict.lowered`): each
term is checked when it is built, in the order in which a solver would see
them, and a function without its arguments is no term at all.

On expressions that their constructors accept, no check ever fails: the
strict lowering does what the lowering does, whatever has been lowered
before (`lowered_agrees`), also where that gets stuck.  The sorts of the
operands are those of the finished parts, which are known from the
meaning of these (`plan_sound`).

With the ways to get stuck this makes up what is to be said of every call
of a lowering (`lowered_well_sorted`).  One of them is in no documentation:
that a name cannot be encoded (`surrogate_variable_refused`).
-/
import SymbolicHeap.Proofs.Lowering.Stuck
import SymbolicHeap.Proofs.Semantics.Lowering

namespace SymbolicHeap

/-- What an expression lowers to is of the sort of its type: a function
that stands by itself gives a declaration with the sorts of its signature,
an object or a choice of objects an integer, and the state after a write
the array that was written to. -/
inductive Lowered.HasSortOf : Expr → Lowered → Prop
  | declaration {signature : Signature} {symbol : Symbol} :
      signature.args.mapM Ty.sort = .ok symbol.args →
      signature.result.sort = .ok symbol.result →
      HasSortOf (.function signature) (.declaration symbol)
  | value {e : Expr} {t : Term} {s : Srt} : e.typeOf.sort = .ok s → t.sort? = some s →
      HasSortOf e (.term t)
  | root {name : String} {t : Term} : t.sort? = some .int →
      HasSortOf (.var name .object) (.term t)
  | choice {condition thenBranch elseBranch : Expr} {t : Term} :
      thenBranch.typeOf = .object → t.sort? = some .int →
      HasSortOf (.ite condition thenBranch elseBranch) (.term t)
  | state {base value : Expr} {index : Nat} {tag : String} {t : Term} {s : Srt} :
      value.typeOf.sort = .ok s → t.sort? = some (.array s) →
      HasSortOf (.assign base index value tag) (.term t)

namespace Lowering

variable {μ : Type} [Memo μ] {α β : Type}

-- ================================================== the strict lowering

/-- Why a strict lowering stops. -/
inductive Stop
  | fault (cause : Fault)
  /-- A term was to be built from operands of the wrong sorts. -/
  | illSorted (t : Term)

/-- A lowering with a solver that checks sorts. -/
abbrev StrictRun (μ : Type) [Memo μ] := ExceptT Stop (StateM (With μ))

namespace Strict

/-- A step of the lowering that builds no term from others. -/
def plain (step : RunWith μ α) : StrictRun μ α := fun lowering =>
  let (outcome, after) := step.run lowering
  (outcome.mapError .fault, after)

/-- Builds a term if its operands are of the sorts that its head takes. -/
def build (t : Term) : StrictRun μ Term :=
  if t.sort?.isSome then return t else throw (.illSorted t)

end Strict

/-- A builder that works on the state of a lowering, and builds no term from
operands of the wrong sorts. -/
instance : Builder (StrictRun μ) where
  Node := Memo.Node μ
  fault cause := throw (.fault cause)
  var name ty := Strict.plain (internVar name ty)
  function signature := Strict.plain (internFun signature)
  initial field := Strict.plain (initialContents field)
  build := Strict.build
  bare symbol := throw (.illSorted (Term.call symbol []))
  lookUp key := Strict.plain (lookUp key)
  remember node key contents := Strict.plain (remember node key contents)
  storing _ _ value := value
  align e := Strict.plain (aligned e)

/-- What a strict lowering does to lower an expression. -/
def Strict.lowered (e : Expr) : StrictRun μ Lowered := Builder.lowered e

-- ============================================================= agreement

/-- From every faithful state, the one does what the other does. -/
def Agrees (strict : StrictRun μ α) (step : RunWith μ α) : Prop :=
  ∀ lowering, Faithful lowering → strict.run lowering = (Strict.plain step).run lowering

theorem Strict.plain_run (step : RunWith μ α) (lowering : With μ) :
    (Strict.plain step).run lowering
      = ((step.run lowering).1.mapError .fault, (step.run lowering).2) := rfl

namespace Agrees

theorem plain (step : RunWith μ α) : Agrees (Strict.plain step) step := fun _ _ => rfl

theorem pure (a : α) : Agrees (pure a : StrictRun μ α) (pure a) := fun _ _ => rfl

theorem throw (fault : Fault) :
    Agrees (throw (.fault fault) : StrictRun μ α) (throw fault) := fun _ _ => rfl

/-- A term with a sort is built. -/
theorem build {t : Term} {s : Srt} (h : t.sort? = some s) :
    Agrees (Strict.build t : StrictRun μ Term) (Pure.pure t) := by
  unfold Strict.build
  rw [h]
  exact .pure t

/-- A term with a sort does not keep what comes next from happening. -/
theorem built {t : Term} {s : Srt} (h : t.sort? = some s) {f : Term → StrictRun μ α}
    {step : RunWith μ α} (hf : Agrees (f t) step) : Agrees (Strict.build t >>= f) step := by
  unfold Strict.build
  rw [h]
  exact hf

/-- What comes next may rely on what the first step came to. -/
theorem bind {x : StrictRun μ α} {y : RunWith μ α} {plan : Plan α} {f : α → StrictRun μ β}
    {g : α → RunWith μ β} (hx : Agrees x y) (runs : RunsAs y plan)
    (hf : ∀ a, plan.outcome = .ok a → Agrees (f a) (g a)) : Agrees (x >>= f) (y >>= g) := by
  intro lowering faithful
  rw [Strict.plain_run, run_bind, run_bind, hx lowering faithful, Strict.plain_run]
  rcases hr : y.run lowering with ⟨fault | a, middle⟩
  · rfl
  · obtain ⟨hout, -, kept⟩ := runs.eq_ok faithful hr
    exact hf a hout middle kept

/-- A term that is built last. -/
theorem bind_build {x : StrictRun μ α} {y : RunWith μ α} {plan : Plan α} {f : α → Term}
    (hx : Agrees x y) (runs : RunsAs y plan)
    (sorted : ∀ a, plan.outcome = .ok a → ∃ s, (f a).sort? = some s) :
    Agrees (x >>= fun a => Strict.build (f a)) (y >>= fun a => Pure.pure (f a)) :=
  hx.bind runs fun a ha => (sorted a ha).elim fun _ hs => .build hs

end Agrees

-- -------------------------------------------------------------- the steps

/-- Operands that are truth values can be joined. -/
theorem connect_agrees {op : Connective} {terms : List Term}
    (sorted : ∀ t ∈ terms, t.sort? = some .bool) :
    Agrees (Builder.ofExcept (connect op terms) >>= Strict.build : StrictRun μ Term)
      (Builder.ofExcept (connect op terms) >>= Pure.pure) := by
  cases h : connect op terms with
  | error fault => exact .throw (μ := μ) fault
  | ok t => exact .build (connect_means sorted h).sort

/-- Nothing is built to look contents up. -/
theorem known_agrees {field : Field} {state : Expr} {strictIdentity : StrictRun μ Term}
    {identity : RunWith μ Term} {strictWork : Memo.Node μ → StrictRun μ (Term × Term)}
    {work : Memo.Node μ → RunWith μ (Term × Term)} (hidentity : Agrees strictIdentity identity)
    (identityRuns : RunsAs identity (Plan.identity state))
    (hwork : ∀ node, Agrees (strictWork node) (work node))
    (workRuns : ∀ node, RunsAs (work node) (Plan.contents state field)) :
    Agrees (Builder.known field state strictIdentity strictWork)
      (Builder.known field state identity work) := by
  intro lowering faithful
  -- to look a state up may stir the memo, but gives it nothing new to offer
  have faithful' : Faithful ((lookUp (.of field state)).run lowering).2 :=
    ⟨faithful.symbols, fun other found offered =>
      faithful.chains other found (Memo.offers_of_offers_find offered)⟩
  have asked : (Builder.lookUp (.of field state) : StrictRun μ _).run lowering
      = (.ok (Memo.find (.of field state) lowering.chains).1,
        ((lookUp (.of field state)).run lowering).2) := rfl
  rw [Strict.plain_run]
  rcases hfind : (Memo.find (.of field state) lowering.chains).1 with ⟨node, _ | contents⟩
  case some =>
      have agrees := hidentity.bind identityRuns fun identity _ => .pure (contents, identity)
      have hrun := agrees _ faithful'
      rw [Strict.plain_run] at hrun
      rw [known_run_of_found hfind, ← hrun]
      unfold Builder.known
      rw [run_bind, asked, hfind]
  case none =>
      have agrees := (hwork node).bind (workRuns node) fun found _ => Agrees.plain do
        remember node (.of field state) found.1
        return found
      have hrun := agrees _ faithful'
      rw [Strict.plain_run] at hrun
      rw [known_run_of_not_found hfind, ← hrun]
      unfold Builder.known
      rw [run_bind, asked, hfind]
      rfl

/-- What a write to the field stores is built on top of the contents. -/
theorem written_agrees {field : Field} {writes : Bool} {held : Ty}
    {strictBefore : StrictRun μ (Term × Term)} {before : RunWith μ (Term × Term)}
    {beforePlan : Plan (Term × Term)} {strictValue : StrictRun μ Term} {value : RunWith μ Term}
    {valuePlan : Plan Term} (hbefore : Agrees strictBefore before)
    (beforeRuns : RunsAs before beforePlan) (hvalue : Agrees strictValue value)
    (valueRuns : RunsAs value valuePlan)
    (sorted : ∀ found, (Builder.written field writes held beforePlan valuePlan).outcome = .ok found →
      ∃ s, found.1.sort? = some s) :
    Agrees (Builder.written field writes held strictBefore strictValue)
      (Builder.written field writes held before value) := by
  refine hbefore.bind beforeRuns fun found hfound => ?_
  cases writes with
  | false => exact .pure found
  | true =>
      by_cases fits : held = field.ty
      · simp only [fits, if_true]
        refine hvalue.bind valueRuns fun stored hstored => ?_
        have hwritten : (Builder.written field true held beforePlan valuePlan).outcome
            = .ok (Term.store found.1 found.2 stored, found.2) := by
          refine Plan.outcome_bind_eq_ok.2 ⟨found, hfound, ?_⟩
          simp only [fits, if_true]
          exact Plan.outcome_bind_eq_ok.2 ⟨stored, hstored, rfl⟩
        obtain ⟨s, hs⟩ := sorted _ hwritten
        exact .built hs (.pure (Term.store found.1 found.2 stored, found.2))
      · simp only [fits, if_true, if_false]
        exact .throw (μ := μ) _

theorem lowerAll_agrees {exprs : List Expr}
    (h : ∀ e ∈ exprs, Agrees (Builder.lower e : StrictRun μ Term) (Builder.lower e)) :
    Agrees (Builder.lowerAll exprs : StrictRun μ (List Term)) (Builder.lowerAll exprs) := by
  induction exprs with
  | nil => exact .pure []
  | cons first rest ih =>
      rw [List.forall_mem_cons] at h
      unfold Builder.lowerAll
      exact h.1.bind (lower_runsAs first).1 fun term _ =>
        (ih h.2).bind (lowerAll_runsAs rest) fun terms _ => .pure (term :: terms)

/-- A choice is built from its finished parts. -/
theorem ite_agrees {strictCondition strictThen strictElse : StrictRun μ Term}
    {condition thenBranch elseBranch : RunWith μ Term} {conditionPlan thenPlan elsePlan : Plan Term}
    (hc : Agrees strictCondition condition) (conditionRuns : RunsAs condition conditionPlan)
    (ht : Agrees strictThen thenBranch) (thenRuns : RunsAs thenBranch thenPlan)
    (he : Agrees strictElse elseBranch) (elseRuns : RunsAs elseBranch elsePlan)
    (sorted : ∀ t, (do
        let condition ← conditionPlan
        let thenBranch ← thenPlan
        let elseBranch ← elsePlan
        return Term.ite condition thenBranch elseBranch : Plan Term).outcome = .ok t →
      ∃ s, t.sort? = some s) :
    Agrees (do
        let condition ← strictCondition
        let thenBranch ← strictThen
        let elseBranch ← strictElse
        Strict.build (Term.ite condition thenBranch elseBranch))
      (do
        let condition ← condition
        let thenBranch ← thenBranch
        let elseBranch ← elseBranch
        return Term.ite condition thenBranch elseBranch) := by
  refine hc.bind conditionRuns fun c hc => ht.bind thenRuns fun a ha => ?_
  refine he.bind_build elseRuns fun b hb => sorted (Term.ite c a b) ?_
  exact Plan.outcome_bind_eq_ok.2 ⟨c, hc, Plan.outcome_bind_eq_ok.2 ⟨a, ha,
    Plan.outcome_bind_eq_ok.2 ⟨b, hb, rfl⟩⟩⟩

-- ============================================================ expressions

/-- The strict lowerings of an expression do what the lowerings do, but for
a function that stands by itself. -/
structure Passes (μ : Type) [Memo μ] (e : Expr) : Prop where
  lower : (∀ signature, e ≠ .function signature) →
    Agrees (Builder.lower e : StrictRun μ Term) (Builder.lower e)
  identity : Agrees (Builder.identity e : StrictRun μ Term) (Builder.identity e)
  contents : ∀ field, Agrees (Builder.contents e field : StrictRun μ (Term × Term))
    (Builder.contents e field)

/-- What is no state of an object has neither identity nor contents. -/
theorem Passes.stateless {e : Expr}
    (lower : (∀ signature, e ≠ .function signature) →
      Agrees (Builder.lower e : StrictRun μ Term) (Builder.lower e))
    (stateless : Builder.mayBeState e = false) : Passes μ e where
  lower := lower
  identity := by
    rw [Builder.identity_of_stateless stateless, Builder.identity_of_stateless stateless]
    exact .throw _
  contents field := by
    rw [Builder.contents_of_stateless stateless, Builder.contents_of_stateless stateless]
    exact (Agrees.plain _).bind (initialContents_runsAs field) fun _ _ => .throw (μ := μ) _

/-- A function has the type of a function. -/
theorem bare_of_kind {e : Expr} (h : e.typeOf.kind ≠ .function) (signature : Signature) :
    e ≠ .function signature := by
  rintro rfl
  exact h rfl

theorem bare_of_hasSort {e : Expr} (h : e.typeOf.hasSort = true) (signature : Signature) :
    e ≠ .function signature := by
  rintro rfl
  cases h

theorem bare_of_bool {e : Expr} (h : e.typeOf = .bool) (signature : Signature) :
    e ≠ .function signature :=
  bare_of_hasSort (by rw [h]; rfl) signature

/-- Functions are no operands. -/
theorem bare_operands {op : BinaryOp} {left right e : Expr}
    (made : Build.binary op left right = .ok e) :
    left.typeOf.kind ≠ .function ∧ right.typeOf.kind ≠ .function := by
  cases op
  case add | sub | mul | div | mod =>
    obtain ⟨hl, hr⟩ := Build.integer_operands (.inl rfl) made
    rw [hl, hr]
    exact ⟨Ty.Kind.noConfusion, Ty.Kind.noConfusion⟩
  case lt | le | gt | ge =>
    obtain ⟨hl, hr⟩ := Build.integer_operands (.inr rfl) made
    rw [hl, hr]
    exact ⟨Ty.Kind.noConfusion, Ty.Kind.noConfusion⟩
  case select =>
    obtain ⟨element, hl, hr⟩ := Build.select_operands made
    rw [hl, hr]
    exact ⟨Ty.Kind.noConfusion, Ty.Kind.noConfusion⟩
  case eq | ne =>
    obtain ⟨same, function, -⟩ := Build.equality_operands rfl made
    rw [← same]
    exact ⟨function, function⟩

/-- The finished term of a part is well sorted. -/
theorem sort_of_outcome {e : Expr} (sound : Sound e) (plain : e.isPlain = true) (t : Term)
    (h : (Plan.lower e).outcome = .ok t) : ∃ s, t.sort? = some s := by
  obtain ⟨s, -, hmeans⟩ := sound.lower h plain
  exact ⟨s, hmeans.sort⟩

theorem binary_passes {op : BinaryOp} {left right : Expr} (made : (Expr.binary op left right).Made)
    (hl : Passes μ left) (hr : Passes μ right) : Passes μ (.binary op left right) := by
  refine .stateless (fun _ => ?_) rfl
  have whole := sort_of_outcome (plan_sound made) rfl
  cases made with
  | binary _ _ hmade =>
      obtain ⟨leftKind, rightKind⟩ := bare_operands hmade
      obtain ⟨rule, hrule⟩ := exists_binaryRule hmade
      have leftRuns := lower_runsAs (μ := μ) left
      have rightRuns := lower_runsAs (μ := μ) right
      unfold Builder.lower
      rw [Plan.lower_binary] at whole
      rw [hrule] at whole ⊢
      by_cases object : left.typeOf = .object
      · simp only [object, if_true] at whole ⊢
        refine hl.identity.bind leftRuns.2.1 fun a ha => ?_
        refine hr.identity.bind_build rightRuns.2.1 fun b hb => whole _ ?_
        exact Plan.outcome_bind_eq_ok.2 ⟨a, ha, Plan.outcome_bind_eq_ok.2 ⟨b, hb, rfl⟩⟩
      · simp only [object, if_false] at whole ⊢
        refine (hl.lower (bare_of_kind leftKind)).bind leftRuns.1 fun a ha => ?_
        refine (hr.lower (bare_of_kind rightKind)).bind_build rightRuns.1 fun b hb => whole _ ?_
        exact Plan.outcome_bind_eq_ok.2 ⟨a, ha, Plan.outcome_bind_eq_ok.2 ⟨b, hb, rfl⟩⟩

theorem logical_passes {op : Connective} {operands : List Expr}
    (made : (Expr.logical op operands).Made) (h : ∀ e ∈ operands, Passes μ e) :
    Passes μ (.logical op operands) := by
  refine .stateless (fun _ => ?_) rfl
  cases made with
  | logical hops hmade =>
      have bools := Build.bool_operands hmade
      have parts : ∀ e ∈ operands, Agrees (Builder.lower e : StrictRun μ Term) (Builder.lower e) :=
        fun e he => (h e he).lower (bare_of_bool (bools e he))
      unfold Builder.lower
      refine (lowerAll_agrees parts).bind
        (lowerAll_runsAs _) fun terms hterms => ?_
      obtain ⟨sorted, -⟩ := lowerAll_bools (fun e he => plan_sound (hops e he)) bools hterms
      exact connect_agrees sorted

theorem ite_passes {condition thenBranch elseBranch : Expr}
    (made : (Expr.ite condition thenBranch elseBranch).Made) (hc : Passes μ condition)
    (ht : Passes μ thenBranch) (he : Passes μ elseBranch) :
    Passes μ (.ite condition thenBranch elseBranch) := by
  have sound := plan_sound made
  have whole := sort_of_outcome sound rfl
  have wholeIdentity : ∀ t, (Plan.identity (.ite condition thenBranch elseBranch)).outcome = .ok t →
      ∃ s, t.sort? = some s := fun t h => ⟨.int, (sound.identity h).sort⟩
  rw [Plan.identity_ite] at wholeIdentity
  cases made with
  | ite madeCondition madeThen madeElse hmade =>
      obtain ⟨bool, same⟩ := Build.ite_parts hmade
      have hcl := hc.lower (bare_of_bool bool)
      obtain ⟨conditionRuns, -⟩ := lower_runsAs (μ := μ) condition
      obtain ⟨thenRuns, thenIdentityRuns, thenContentsRun⟩ := lower_runsAs (μ := μ) thenBranch
      obtain ⟨elseRuns, elseIdentityRuns, elseContentsRun⟩ := lower_runsAs (μ := μ) elseBranch
      have identities := ite_agrees hcl conditionRuns ht.identity thenIdentityRuns he.identity
        elseIdentityRuns wholeIdentity
      refine ⟨fun _ => ?_, ?_, fun field => ?_⟩
      · unfold Builder.lower
        rw [Plan.lower_ite] at whole
        by_cases object : thenBranch.typeOf = .object
        · simp only [object, if_true]
          exact identities
        · by_cases sorted : thenBranch.typeOf.hasSort = true
          · simp only [object, sorted, if_true, if_false] at whole ⊢
            exact ite_agrees hcl conditionRuns (ht.lower (bare_of_hasSort sorted)) thenRuns
              (he.lower (bare_of_hasSort (same ▸ sorted))) elseRuns whole
          · simp only [object, sorted, if_false]
            exact .throw (μ := μ) _
      · unfold Builder.identity
        exact identities
      · -- contents are built before the identity, so from the sorts of the branches
        unfold Builder.contents
        refine hcl.bind conditionRuns fun c hc' => ?_
        refine (ht.contents field).bind (thenContentsRun field) fun a ha => ?_
        refine (he.contents field).bind (elseContentsRun field) fun b hb => ?_
        obtain ⟨s, hs, hthen⟩ := (plan_sound madeThen).contents ha
        obtain ⟨s', hs', helse⟩ := (plan_sound madeElse).contents hb
        rw [hs] at hs'
        injection hs' with hs'
        subst hs'
        have hchoice := (plan_sound madeCondition).lower_of_sort (by rw [bool]; rfl) hc'
        refine .built (Term.sort?_ite hchoice.sort hthen.sort helse.sort) ?_
        refine hcl.bind conditionRuns fun c' hc' => ?_
        refine ht.identity.bind thenIdentityRuns fun i hi => ?_
        refine he.identity.bind elseIdentityRuns fun j hj => ?_
        obtain ⟨s', hs'⟩ := wholeIdentity (Term.ite c' i j) (Plan.outcome_bind_eq_ok.2
          ⟨c', hc', Plan.outcome_bind_eq_ok.2 ⟨i, hi, Plan.outcome_bind_eq_ok.2 ⟨j, hj, rfl⟩⟩⟩)
        exact .built hs' (.pure (Term.ite c a.1 b.1, Term.ite c' i j))

theorem call_passes {callee : Signature} {args : List Expr} (made : (Expr.call callee args).Made)
    (h : ∀ e ∈ args, Passes μ e) : Passes μ (.call callee args) := by
  refine .stateless (fun _ => ?_) rfl
  have whole := sort_of_outcome (plan_sound made) rfl
  rw [Plan.lower_call] at whole
  cases made with
  | call hsignature _ hmade =>
      obtain ⟨sorted, -⟩ := Build.sorted_signature hsignature
      rw [← Build.call_args hmade, List.forall_mem_map] at sorted
      have parts : ∀ e ∈ args, Agrees (Builder.lower e : StrictRun μ Term) (Builder.lower e) :=
        fun e he => (h e he).lower (bare_of_hasSort (sorted e he))
      unfold Builder.lower
      refine (Agrees.plain _).bind (internFun_runsAs callee) fun symbol hsymbol => ?_
      refine (lowerAll_agrees parts).bind_build
        (lowerAll_runsAs _) fun terms hterms => whole _ ?_
      exact Plan.outcome_bind_eq_ok.2 ⟨symbol, hsymbol,
        Plan.outcome_bind_eq_ok.2 ⟨terms, hterms, rfl⟩⟩

/-- The contents that a state sees after a write. -/
theorem contents_assign_agrees {base value : Expr} {index : Nat} {tag : String}
    (made : (Expr.assign base index value tag).Made) (hb : Passes μ base) (hv : Passes μ value)
    (field : Field) :
    Agrees (Builder.contents (.assign base index value tag) field : StrictRun μ (Term × Term))
      (Builder.contents (.assign base index value tag) field) := by
  have whole : ∀ found, (Plan.contents (.assign base index value tag) field).outcome = .ok found →
      ∃ s, found.1.sort? = some s := fun found h => by
    obtain ⟨s, -, hmeans⟩ := (plan_sound made).contents h
    exact ⟨.array s, hmeans.sort⟩
  have runs := lower_runsAs (μ := μ) base
  have valueRuns := (lower_runsAs (μ := μ) value).1
  rw [Plan.contents_assign] at whole
  cases made with
  | assign _ _ hmade =>
      obtain ⟨-, sorted, -⟩ := Build.assign_eq_ok.1 hmade
      have hwritten := written_agrees (hb.contents field) (runs.2.2 field)
        (hv.lower (bare_of_hasSort sorted)) valueRuns whole
      rw [Builder.contents_assign, Builder.contents_assign]
      refine known_agrees hb.identity runs.2.1 (fun _ => hwritten) fun _ => ?_
      rw [Plan.contents_assign]
      exact written_runsAs (runs.2.2 field) valueRuns

theorem assign_passes {base value : Expr} {index : Nat} {tag : String}
    (made : (Expr.assign base index value tag).Made) (hb : Passes μ base) (hv : Passes μ value) :
    Passes μ (.assign base index value tag) where
  lower _ := by
    rw [Builder.lower_assign, Builder.lower_assign]
    exact (contents_assign_agrees made hb hv _).bind
      ((lower_runsAs (.assign base index value tag)).2.2 _) fun found _ => .pure found.1
  identity := by
    unfold Builder.identity
    exact hb.identity
  contents field := contents_assign_agrees made hb hv field

theorem access_passes {base : Expr} {prior : Option Expr} {field : Field}
    (made : (Expr.access base prior field).Made) (hb : Passes μ base) :
    Passes μ (.access base prior field) := by
  refine .stateless (fun _ => ?_) rfl
  have whole := sort_of_outcome (plan_sound made) rfl
  rw [Plan.lower_access] at whole
  obtain ⟨-, identityRuns, contentsRun⟩ := lower_runsAs (μ := μ) base
  unfold Builder.lower
  by_cases matching : priorOf field.tag field.index base = prior
  · rw [if_neg (not_not_intro matching)] at whole ⊢
    rw [if_neg (not_not_intro matching)]
    refine (hb.contents field).bind (contentsRun field) fun found hfound => ?_
    refine hb.identity.bind_build identityRuns fun identity hidentity => whole _ ?_
    exact Plan.outcome_bind_eq_ok.2 ⟨found, hfound,
      Plan.outcome_bind_eq_ok.2 ⟨identity, hidentity, rfl⟩⟩
  · rw [if_pos matching, if_pos matching]
    refine (Agrees.throw (μ := μ) _).bind (.throw _) fun found hfound => ?_
    cases hfound

theorem var_passes (name : String) (ty : Ty) : Passes μ (.var name ty) := by
  cases ty with
  | object =>
      refine ⟨fun _ => .plain (internVar name .object), .plain (internVar name .object),
        fun field => ?_⟩
      exact (Agrees.plain _).bind (initialContents_runsAs field) fun initial _ =>
        (Agrees.plain _).bind (internVar_runsAs name .object) fun identity _ =>
          .pure (initial, identity)
  | _ => exact .stateless (fun _ => .plain (internVar name _)) rfl

theorem unary_passes {op : UnaryOp} {operand : Expr} (made : (Expr.unary op operand).Made)
    (h : Passes μ operand) : Passes μ (.unary op operand) := by
  refine .stateless (fun _ => ?_) rfl
  have whole := sort_of_outcome (plan_sound made) rfl
  rw [Plan.lower_unary] at whole
  cases made with
  | unary _ hmade =>
      have hkind : operand.typeOf.kind ≠ .function := by
        rw [Build.unary_operand hmade]
        cases op with
        | neg | not => exact Ty.Kind.noConfusion
      unfold Builder.lower
      refine (h.lower (bare_of_kind hkind)).bind_build (lower_runsAs operand).1
        fun a ha => whole _ ?_
      exact Plan.outcome_bind_eq_ok.2 ⟨a, ha, rfl⟩

/-- No check of a sort fails on a made expression. -/
theorem passes {e : Expr} (made : e.Made) : Passes μ e := by
  have here := made
  induction made with
  | var => exact var_passes _ _
  | int => exact .stateless (fun _ => .build (Term.sort?_numeral _)) rfl
  | bool => exact .stateless (fun _ => .build (Term.sort?_truth _)) rfl
  | binary hl hr _ ihLeft ihRight => exact binary_passes here (ihLeft hl) (ihRight hr)
  | logical hops _ ih => exact logical_passes here fun e he => ih e he (hops e he)
  | unary hoperand _ ih => exact unary_passes here (ih hoperand)
  | ite hc ht he _ ihCondition ihThen ihElse =>
      exact ite_passes here (ihCondition hc) (ihThen ht) (ihElse he)
  | function => exact .stateless (fun bare => absurd rfl (bare _)) rfl
  | call _ hargs _ ih => exact call_passes here fun e he => ih e he (hargs e he)
  | assign hb hv _ ihBase ihValue => exact assign_passes here (ihBase hb) (ihValue hv)
  | access hb _ _ ih _ => exact access_passes here (ih hb)

/-- A made expression that stands by itself. -/
theorem lowered_agrees {e : Expr} (made : e.Made) :
    Agrees (Strict.lowered e : StrictRun μ Lowered) (lowered e) := by
  have bare := (passes (μ := μ) made).lower
  have aligns : RunsAs (aligned e : RunWith μ Expr) (pure e) := .pure e
  refine (Agrees.plain (aligned e)).bind aligns fun e' same => ?_
  injection same with same
  subst same
  cases e with
  | function signature =>
      exact (Agrees.plain _).bind (internFun_runsAs signature) fun symbol _ => .pure _
  | _ => exact (bare nofun).bind (lower_runsAs _).1 fun t _ => .pure _

-- ================================================================ sorts

/-- Where an object has a term, it is a root or a choice of objects: what
is read, called or selected is never an object then. -/
theorem object_of_outcome {e : Expr} (made : e.Made) (plain : e.isPlain = true)
    (object : e.typeOf = .object) {t : Term} (h : (Plan.lower e).outcome = .ok t)
    (sorted : t.sort? = some .int) : Lowered.HasSortOf e (.term t) := by
  cases made with
  | @var name ty =>
      obtain rfl : ty = .object := object
      exact .root sorted
  | ite => exact .choice object sorted
  | function | assign => cases plain
  | int | bool | logical => cases object
  | @binary op left right hl hr hmade =>
      cases op
      case select =>
        obtain ⟨element, hleft, -⟩ := Build.select_operands hmade
        obtain ⟨_, a, _, -, -, hparts⟩ := outcome_binary h
        have hobject : left.typeOf ≠ .object := by
          rw [hleft]
          exact Ty.noConfusion
        rw [if_neg hobject] at hparts
        have hkind := (bare_operands hmade).1
        obtain ⟨s, hs, -⟩ := (plan_sound hl).lower hparts.1
          (Expr.isPlain_of_typeOf hobject hkind)
        -- an array of objects has no sort, so it has no term to select from
        rw [Expr.typeOf, hleft] at object
        replace object : element = .object := object
        rw [hleft, object] at hs
        cases hs
      all_goals cases object
  | @unary op operand _ hmade =>
      rw [Expr.typeOf, Build.unary_operand hmade] at object
      cases op with
      | neg | not => cases object
  | call hsignature _ _ =>
      have sorted := (Build.sorted_signature hsignature).2
      rw [Expr.typeOf] at object
      rw [object] at sorted
      cases sorted
  | access _ _ hmade =>
      obtain ⟨-, -, sorted, -⟩ := Build.access_eq_ok.1 hmade
      rw [Expr.typeOf] at object
      rw [object] at sorted
      cases sorted

/-- What a made expression lowers to is of the sort of its type. -/
theorem hasSortOf_of_outcome {e : Expr} (made : e.Made) {found : Lowered}
    (h : (Plan.lowered e).outcome = .ok found) : found.HasSortOf e := by
  have sound := plan_sound made
  have term {t : Term} (plain : e.isPlain = true) (ht : (Plan.lower e).outcome = .ok t) :
      Lowered.HasSortOf e (.term t) := by
    obtain ⟨s, hs, hmeans⟩ := sound.lower ht plain
    by_cases object : e.typeOf = .object
    · rw [object] at hs
      injection hs with hs
      subst hs
      exact object_of_outcome made plain object ht hmeans.sort
    · exact .value (Ty.sort_of_valueSort object hs) hmeans.sort
  cases e with
  | function signature =>
      rw [Plan.lowered_function] at h
      obtain ⟨symbol, hsymbol, h⟩ := Plan.outcome_bind_eq_ok.1 h
      injection h with h
      subst h
      obtain ⟨hargs, hresult, -⟩ := symbol_function hsymbol
      exact .declaration hargs hresult
  | assign base index value tag =>
      rw [Plan.lowered_term fun _ => Expr.noConfusion] at h
      obtain ⟨t, ht, h⟩ := Plan.outcome_bind_eq_ok.1 h
      injection h with h
      subst h
      obtain ⟨identity, hcontents⟩ := outcome_assign ht
      obtain ⟨s, hs, hmeans⟩ := sound.contents hcontents
      exact .state hs hmeans.sort
  | _ =>
      rw [Plan.lowered_term fun _ => Expr.noConfusion] at h
      obtain ⟨t, ht, h⟩ := Plan.outcome_bind_eq_ok.1 h
      injection h with h
      subst h
      exact term rfl ht

-- =========================================================== all lowerings

/-- Whatever a lowering has been used for, lowering a made expression
builds each term from operands of the right sorts, gets stuck in the
documented ways or at a name that cannot be encoded only, and answers
something of the sort of its type. -/
theorem lowered_well_sorted (calls : List Call) {e : Expr} (made : e.Made) :
    let lowering := afterAll ({} : With μ) calls
    (Strict.lowered e).run lowering = (Strict.plain (lowered e)).run lowering ∧
    ∀ outcome after, (lowered e).run lowering = (outcome, after) →
      (∀ fault, outcome = .error fault → e.Stuck fault) ∧
      ∀ found, outcome = .ok found → found.HasSortOf e := by
  intro lowering
  have faithful : Faithful lowering := faithful_afterAll calls
  refine ⟨lowered_agrees made lowering faithful, fun outcome after h => ⟨?_, ?_⟩⟩
  · rintro fault rfl
    obtain ⟨hout, hsymbols, -⟩ := lowered_runsAs e lowering faithful
    rw [h] at hout hsymbols
    exact (lowered_accounted made).of_run (Prod.ext hout.symm hsymbols.symm)
  · rintro found rfl
    obtain ⟨hplan, -, -⟩ := (lowered_runsAs e).eq_ok faithful h
    exact hasSortOf_of_outcome made hplan

/-- A truth value written to a field of an object. -/
def truthWritten : Expr := .assign (.var "o" .object) 0 (.var "x" .bool) "T"

/-- The same field read as an integer. -/
def truthRead : Expr := .access truthWritten (some (.var "o" .object)) ⟨"T", 0, .int⟩

theorem truthRead_run :
    ((lowered truthRead).run
      (afterAll ({} : Lowering) [.lower (.var "o" .object)])).1.isOk = false := by
  decide +kernel

/-- The write is lowered, the read gets stuck. -/
theorem lowered_well_sorted_truth :
    (∃ found after, (lowered truthWritten).run
        (afterAll ({} : Lowering) [.lower (.var "o" .object)]) = (.ok found, after) ∧
      found.HasSortOf truthWritten) ∧
    ∃ fault after, (lowered truthRead).run
        (afterAll ({} : Lowering) [.lower (.var "o" .object)]) = (.error fault, after) ∧
      truthRead.Stuck fault := by
  have root : (Expr.var "o" .object).Made := .var rfl
  have write : truthWritten.Made := .assign root (.var rfl) rfl
  have read : truthRead.Made :=
    .access write (fun prior h => by injection h with h; subst h; exact root) rfl
  obtain ⟨-, onWrite⟩ := lowered_well_sorted (μ := Chains) [.lower (.var "o" .object)] write
  obtain ⟨-, onRead⟩ := lowered_well_sorted (μ := Chains) [.lower (.var "o" .object)] read
  obtain ⟨fault, after, fails⟩ := eq_error_of_isOk truthRead_run
  exact ⟨⟨_, _, rfl, (onWrite _ _ rfl).2 _ rfl⟩, fault, after, fails,
    (onRead _ _ fails).1 fault rfl⟩

/-- A variable is made under any name, also one that is a surrogate.  Its
lowering then gets stuck in the way that is not documented. -/
theorem surrogate_variable_refused :
    let name := Text.ofPoints [0xd800]
    let fault := Fault.unencodable name
    (Expr.var name .int).Made ∧ ((lowered (.var name .int)).run ({} : Lowering)).1 = .error fault ∧
      fault.message
        = "'utf-8' codec can't encode character '\\ud800' in position 0: surrogates not allowed" :=
  ⟨.var rfl, by rfl, by decide +kernel⟩

end Lowering

end SymbolicHeap
