/-
Where a lowering gets stuck.

A lowering may fail, but only in the ways that are documented and in one
more (`Expr.Stuck`), with a part of the expression that is to blame:
a variable at two types, a type without values, a name that belongs to
someone else, a choice that has no values, something that is no state of
an object, a field at two types, a read that does not match its state; or,
undocumented, a name that cannot be encoded.
What the checks of the constructors exclude does not come up: there is a
rule for every operator on operands that passed them, and no field and no
function has a type without values.

A plan fails of itself or at a symbol that it asks for, and both are
followed through the clauses at once by the rules of `Plan.FailsAs`.  The
whole expression stands still meanwhile: a part may show a field that only
what is around it reads (`Accounted`).
-/
import SymbolicHeap.Proofs.Lowering.Owner
import SymbolicHeap.Proofs.Semantics.Expr

namespace SymbolicHeap

open Lowering (binaryRule connect priorOf)

-- ================================================================= parts

/-- An expression itself, and all that its value is made from. -/
inductive Expr.IsPart (part : Expr) : Expr → Prop
  | self : IsPart part part
  | child {e child : Expr} : child ∈ e.children → IsPart part child → IsPart part e

/-- What a part is made from is part of the whole. -/
theorem Expr.IsPart.inner {part child e : Expr} (h : part.IsPart e)
    (member : child ∈ part.children) : child.IsPart e := by
  induction h with
  | self => exact .child member .self
  | child inner _ ih => exact .child inner ih

/-- The symbols that an expression needs: those of its variables and its
functions, and the arrays of the fields that it reads or shows. -/
inductive Expr.Needs (e : Expr) : Lowering.Request → Prop
  | var {name : String} {ty : Ty} : (Expr.var name ty).IsPart e → Needs e (.var name ty)
  | function {signature : Signature} : (Expr.function signature).IsPart e →
      Needs e (.function signature)
  | call {callee : Signature} {args : List Expr} : (Expr.call callee args).IsPart e →
      Needs e (.function callee)
  | read {base : Expr} {prior : Option Expr} {field : Field} :
      (Expr.access base prior field).IsPart e → Needs e (.array field)
  | state {base value : Expr} {index : Nat} {tag : String} :
      (Expr.assign base index value tag).IsPart e → Needs e (.array ⟨tag, index, value.typeOf⟩)

/-- The ways in which the lowering of an expression gets stuck.  The first
three are errors of type, the next three cases that have no lowering, then
comes a type that has no solver values.  These are documented.  The last is
a name that the solver does not take. -/
inductive Expr.Stuck (e : Expr) : Lowering.Fault → Prop
  | redeclared {name : String} {known wanted : Ty} : (Expr.var name wanted).IsPart e →
      known ≠ wanted → Stuck e (.redeclared name known wanted)
  | stateless {state : Expr} : state.IsPart e → ¬ state.IsState →
      Stuck e (.malformed (.noObjectState state))
  | fieldHolds {base value : Expr} {field : Field} :
      (Expr.assign base field.index value field.tag).IsPart e → value.typeOf ≠ field.ty →
      Stuck e (.fieldHolds field value.typeOf)
  | symbolTaken {request : Lowering.Request} {label : Lowering.Label} {known : Owner} :
      e.Needs request → request.label = .ok label → known ≠ request.owner →
      Stuck e (.symbolTaken label.name known request.owner)
  | noBranchRule {condition thenBranch elseBranch : Expr} :
      (Expr.ite condition thenBranch elseBranch).IsPart e → thenBranch.typeOf ≠ .object →
      thenBranch.typeOf.hasSort = false → Stuck e (.noBranchRule thenBranch.typeOf)
  | priorMismatch {base : Expr} {prior : Option Expr} {field : Field} :
      (Expr.access base prior field).IsPart e → priorOf field.tag field.index base ≠ prior →
      Stuck e (.priorMismatch base prior field)
  | unsorted {name : String} {held ty : Ty} : (Expr.var name held).IsPart e → held ≠ .object →
      held.sort = .error ty → Stuck e (.unsorted ty)
  | unencodable {request : Lowering.Request} {label : Lowering.Label} :
      e.Needs request → request.label = .ok label → Text.encodes label.name = false →
      Stuck e (.unencodable label.name)

-- ================================================================= rules

/-- There is a rule for operands that fit the operator. -/
theorem exists_binaryRule {op : BinaryOp} {left right e : Expr}
    (made : Build.binary op left right = .ok e) :
    ∃ rule, binaryRule op left.typeOf.kind = some rule := by
  cases op
  case add | sub | mul | div | mod =>
    obtain ⟨hl, -⟩ := Build.integer_operands (.inl rfl) made
    rw [hl]
    exact ⟨_, rfl⟩
  case lt | le | gt | ge =>
    obtain ⟨hl, -⟩ := Build.integer_operands (.inr rfl) made
    rw [hl]
    exact ⟨_, rfl⟩
  case select =>
    obtain ⟨element, hl, -⟩ := Build.select_operands made
    rw [hl]
    exact ⟨_, rfl⟩
  case eq | ne =>
    obtain ⟨-, function, ref⟩ := Build.equality_operands rfl made
    revert function ref
    cases left.typeOf.kind with
    | function => exact fun function => absurd rfl function
    | ref => exact fun _ ref => absurd rfl ref
    | _ => exact fun _ _ => ⟨_, rfl⟩

/-- There is a rule for as many operands as the connective takes. -/
theorem exists_connect {op : Connective} {operands : List Expr} {e : Expr} {terms : List Term}
    (made : Build.logical op operands = .ok e) (count : terms.length = operands.length) :
    ∃ t, connect op terms = .ok t := by
  have taken := Build.operand_count made
  cases op with
  | and | or =>
      cases terms with
      | nil => exact absurd (List.length_eq_zero_iff.1 count.symm) taken
      | cons first rest => exact ⟨_, rfl⟩
  | not =>
      match terms, count.trans taken with
      | [operand], _ => exact ⟨_, rfl⟩
  | implies =>
      match terms, count.trans taken with
      | [premise, conclusion], _ => exact ⟨_, rfl⟩

namespace Lowering

-- ============================================================== refusals

/-- The type of a variable is all that may keep a label from it. -/
theorem Request.label_var_eq_error {name : String} {held : Ty} {fault : Fault}
    (h : (Request.var name held).label = .error fault) :
    held ≠ .object ∧ ∃ ty, held.sort = .error ty ∧ fault = .unsorted ty := by
  cases held with
  | object => cases h
  | _ =>
      refine ⟨Ty.noConfusion, ?_⟩
      rcases bind_eq_error.1 h with h | ⟨_, -, h⟩
      · obtain ⟨ty, hsort, rfl⟩ := mapError_eq_error.1 h
        exact ⟨ty, hsort, rfl⟩
      · cases h

theorem mapM_sortOf_ok {types : List Ty} (sorted : ∀ ty ∈ types, ty.hasSort = true) :
    ∃ sorts, types.mapM sortOf = .ok sorts := by
  induction types with
  | nil => exact ⟨[], rfl⟩
  | cons ty rest ih =>
      rw [List.forall_mem_cons] at sorted
      obtain ⟨s, hs⟩ := (Ty.hasSort_iff_sort ty).1 sorted.1
      obtain ⟨sorts, hsorts⟩ := ih sorted.2
      rw [List.mapM_cons, show sortOf ty = .ok s from mapError_eq_ok.2 hs, hsorts]
      exact ⟨s :: sorts, rfl⟩

/-- A signature that was made has a label. -/
theorem Request.label_function_ok {signature : Signature}
    (sorted : (∀ ty ∈ signature.args, ty.hasSort = true) ∧ signature.result.hasSort = true) :
    ∃ label, (Request.function signature).label = .ok label := by
  obtain ⟨sorts, hargs⟩ := mapM_sortOf_ok sorted.1
  obtain ⟨s, hs⟩ := (Ty.hasSort_iff_sort _).1 sorted.2
  exact ⟨_, bind_eq_ok.2 ⟨sorts, hargs, bind_eq_ok.2 ⟨s, mapError_eq_ok.2 hs, rfl⟩⟩⟩

/-- Of several requests the first that is refused decides. -/
theorem SymbolTable.grantAll_eq_error {table after : SymbolTable} {requests : List Request}
    {fault : Fault} (h : table.grantAll requests = (.error fault, after)) :
    ∃ request ∈ requests, ∃ middle left : SymbolTable,
      middle.grant request = (.error fault, left) := by
  induction requests generalizing table with
  | nil => cases h
  | cons request rest ih =>
      rcases hg : table.grant request with ⟨cause | ⟨⟩, granted⟩
      · rw [grantAll_cons_of_error hg] at h
        cases h
        exact ⟨request, List.mem_cons_self, _, _, hg⟩
      · rw [grantAll_cons_of_ok hg] at h
        obtain ⟨other, member, refused⟩ := ih h
        exact ⟨other, List.mem_cons_of_mem _ member, refused⟩

-- ================================================================= rules

/-- All that a plan may fail with, of itself or at a symbol that it asks
for, is of one kind. -/
structure Plan.FailsAs {α : Type} (P : Fault → Prop) (plan : Plan α) : Prop where
  requests : ∀ request ∈ plan.requests, ∀ (table after : SymbolTable) fault,
    table.grant request = (.error fault, after) → P fault
  outcome : ∀ fault, plan.outcome = .error fault → P fault

namespace Plan.FailsAs

variable {α β : Type} {P : Fault → Prop} {plan : Plan α}

theorem pure (a : α) : (pure a : Plan α).FailsAs P := ⟨nofun, nofun⟩

theorem ofExcept {outcome : Except Fault α} (h : ∀ fault, outcome = .error fault → P fault) :
    (Plan.ofExcept outcome).FailsAs P := ⟨nofun, h⟩

theorem fault {cause : Fault} (h : P cause) :
    (Plan.ofExcept (.error cause) : Plan α).FailsAs P :=
  .ofExcept fun _ same => by
    cases same
    exact h

/-- What comes next may rely on what the first step came to. -/
theorem bind {next : α → Plan β} (hx : plan.FailsAs P)
    (hf : ∀ a, plan.outcome = .ok a → (next a).FailsAs P) : (plan >>= next).FailsAs P := by
  cases hout : plan.outcome with
  | error cause =>
      rw [bind_of_error hout]
      refine ⟨hx.requests, fun fault same => ?_⟩
      cases same
      exact hx.outcome cause hout
  | ok a =>
      refine ⟨?_, fun fault hfault => ?_⟩
      · rw [requests_bind hout]
        exact List.forall_mem_append.2 ⟨hx.requests, (hf a hout).requests⟩
      · rw [outcome_bind hout] at hfault
        exact (hf a hout).outcome fault hfault

/-- A plan that fails on some table. -/
theorem of_run (h : plan.FailsAs P) {table after : SymbolTable} {fault : Fault}
    (hr : plan.run table = (.error fault, after)) : P fault := by
  unfold run at hr
  split at hr
  next granted hg =>
    injection hr with hout
    exact h.outcome fault hout
  next cause granted hg =>
    injection hr with hout
    cases hout
    obtain ⟨request, member, middle, left, refused⟩ := SymbolTable.grantAll_eq_error hg
    exact h.requests request member middle left fault refused

end Plan.FailsAs

-- ============================================================== symbols

section

variable {whole e : Expr} {request : Request}

/-- What keeps a label from a request is all that matters, beside its name. -/
theorem stuck_of_symbol (needed : whole.Needs request)
    (hlabel : ∀ fault, request.label = .error fault → whole.Stuck fault) {fault : Fault}
    (h : request.symbol = .error fault) : whole.Stuck fault := by
  rcases Request.symbol_eq_error h with h | ⟨label, labelled, surrogate, rfl⟩
  · exact hlabel fault h
  · exact .unencodable needed labelled surrogate

/-- A request for something that an expression needs. -/
theorem stuck_of_grant (needed : whole.Needs request)
    (hlabel : ∀ fault, request.label = .error fault → whole.Stuck fault)
    (table after : SymbolTable) (fault : Fault)
    (h : table.grant request = (.error fault, after)) : whole.Stuck fault := by
  rcases SymbolTable.symbol_or_clash h with h | clash
  · exact stuck_of_symbol needed hlabel h
  · cases fault with
    | redeclared name known wanted =>
        obtain ⟨rfl, differ⟩ := clash
        cases needed with
        | var part => exact .redeclared part differ
    | symbolTaken name known wanted =>
        obtain ⟨rfl, differ, label, labelled, rfl⟩ := clash
        exact .symbolTaken needed labelled differ
    | _ => exact clash.elim

/-- A plan of one symbol. -/
theorem symbol_fails (needed : whole.Needs request)
    (hlabel : ∀ fault, request.label = .error fault → whole.Stuck fault) :
    (Plan.symbol request).FailsAs whole.Stuck :=
  ⟨List.forall_mem_singleton.2 (stuck_of_grant needed hlabel),
    fun _ => stuck_of_symbol needed hlabel⟩

/-- A plan of one constant. -/
theorem constant_fails (needed : whole.Needs request)
    (hlabel : ∀ fault, request.label = .error fault → whole.Stuck fault) :
    (Plan.constant request).FailsAs whole.Stuck :=
  ⟨(symbol_fails needed hlabel).requests,
    fun _ h => stuck_of_symbol needed hlabel (map_eq_error.1 h)⟩

/-- A variable may have a type without values, and any name. -/
theorem constant_var_fails {name : String} {ty : Ty} (part : (Expr.var name ty).IsPart whole) :
    (Plan.constant (.var name ty)).FailsAs whole.Stuck := by
  refine constant_fails (.var part) fun fault h => ?_
  obtain ⟨object, held, hsort, rfl⟩ := Request.label_var_eq_error h
  exact .unsorted part object hsort

/-- A field that a constructor took has a type with values, so only its name
may stop it. -/
theorem constant_array_fails {field : Field} (needed : whole.Needs (.array field))
    (sorted : field.ty.hasSort = true) :
    (Plan.constant (.array field)).FailsAs whole.Stuck := by
  obtain ⟨label, hlabel⟩ := Request.label_array_ok sorted
  refine constant_fails needed fun fault h => ?_
  rw [hlabel] at h
  cases h

theorem symbol_function_fails {signature : Signature} (needed : whole.Needs (.function signature))
    (sorted : (∀ ty ∈ signature.args, ty.hasSort = true) ∧ signature.result.hasSort = true) :
    (Plan.symbol (.function signature)).FailsAs whole.Stuck := by
  obtain ⟨label, hlabel⟩ := Request.label_function_ok sorted
  refine symbol_fails needed fun fault h => ?_
  rw [hlabel] at h
  cases h

-- ============================================================ the clauses

theorem lowerAll_fails {P : Fault → Prop} {exprs : List Expr}
    (h : ∀ e ∈ exprs, (Plan.lower e).FailsAs P) : (Plan.lowerAll exprs).FailsAs P := by
  induction exprs with
  | nil => exact .pure []
  | cons first rest ih =>
      rw [List.forall_mem_cons] at h
      rw [Plan.lowerAll_cons]
      exact h.1.bind fun _ _ => (ih h.2).bind fun _ _ => .pure _

/-- There are as many terms as operands. -/
theorem lowerAll_length {exprs : List Expr} {terms : List Term}
    (h : (Plan.lowerAll exprs).outcome = .ok terms) : terms.length = exprs.length := by
  induction exprs generalizing terms with
  | nil =>
      injection h with h
      rw [← h]
      rfl
  | cons first rest ih =>
      rw [Plan.lowerAll_cons] at h
      obtain ⟨t, -, h⟩ := Plan.outcome_bind_eq_ok.1 h
      obtain ⟨ts, hrest, h⟩ := Plan.outcome_bind_eq_ok.1 h
      injection h with h
      rw [← h, List.length_cons, List.length_cons, ih hrest]

/-- The three parts of a choice, one after the other. -/
theorem ite_fails {P : Fault → Prop} {condition thenPlan elsePlan : Plan Term}
    (hc : condition.FailsAs P) (ht : thenPlan.FailsAs P) (he : elsePlan.FailsAs P) :
    (do
      let condition ← condition
      let thenBranch ← thenPlan
      let elseBranch ← elsePlan
      return Term.ite condition thenBranch elseBranch : Plan Term).FailsAs P :=
  hc.bind fun _ _ => ht.bind fun _ _ => he.bind fun _ _ => .pure _

/-- A write to the field at another type is the one fault of its own that
a chain may have. -/
theorem written_fails {P : Fault → Prop} {field : Field} {writes : Bool} {held : Ty}
    {before : Plan (Term × Term)} {value : Plan Term} (hbefore : before.FailsAs P)
    (hvalue : value.FailsAs P)
    (misfit : writes = true → held ≠ field.ty → P (.fieldHolds field held)) :
    (Builder.written field writes held before value).FailsAs P := by
  refine hbefore.bind fun found _ => ?_
  cases writes with
  | false => exact .pure found
  | true =>
      by_cases fits : held = field.ty
      · simp only [fits, if_true]
        exact hvalue.bind fun _ _ => .pure _
      · simp only [fits, if_true, if_false]
        exact .fault (misfit rfl fits)

-- ============================================================ expressions

/-- All that the plans of a part fail with is accounted for in the whole. -/
structure Accounted (whole e : Expr) : Prop where
  lower : (Plan.lower e).FailsAs whole.Stuck
  identity : (Plan.identity e).FailsAs whole.Stuck
  contents : ∀ field : Field, field.ty.hasSort = true → whole.Needs (.array field) →
    (Plan.contents e field).FailsAs whole.Stuck

/-- What is no state of an object has neither identity nor contents. -/
theorem Accounted.stateless (here : e.IsPart whole) (hlower : (Plan.lower e).FailsAs whole.Stuck)
    (none : ¬ e.IsState) (stateless : Builder.mayBeState e = false) : Accounted whole e where
  lower := hlower
  identity := by
    rw [Plan.identity_of_stateless stateless]
    exact .fault (.stateless here none)
  contents field sorted needed := by
    rw [Plan.contents_of_stateless stateless]
    exact (constant_array_fails needed sorted).bind fun _ _ => .fault (.stateless here none)

end

section

variable {whole : Expr}

theorem ite_accounted {condition thenBranch elseBranch : Expr}
    (here : (Expr.ite condition thenBranch elseBranch).IsPart whole)
    (hc : Accounted whole condition) (ht : Accounted whole thenBranch)
    (he : Accounted whole elseBranch) :
    Accounted whole (.ite condition thenBranch elseBranch) := by
  refine ⟨?_, ?_, fun field sorted needed => ?_⟩
  · rw [Plan.lower_ite]
    by_cases object : thenBranch.typeOf = .object
    · simp only [object, if_true]
      exact ite_fails hc.lower ht.identity he.identity
    · by_cases sorted : thenBranch.typeOf.hasSort = true
      · simp only [object, sorted, if_true, if_false]
        exact ite_fails hc.lower ht.lower he.lower
      · simp only [object, sorted, if_false]
        exact .fault (.noBranchRule here object (Bool.eq_false_iff.2 sorted))
  · rw [Plan.identity_ite]
    exact ite_fails hc.lower ht.identity he.identity
  · rw [Plan.contents_ite]
    exact hc.lower.bind fun _ _ => (ht.contents field sorted needed).bind fun _ _ =>
      (he.contents field sorted needed).bind fun _ _ => hc.lower.bind fun _ _ =>
        ht.identity.bind fun _ _ => he.identity.bind fun _ _ => .pure _

/-- What is written at the place of the field must have its type. -/
theorem contents_assign_fails {base value : Expr} {index : Nat} {tag : String} {field : Field}
    (here : (Expr.assign base index value tag).IsPart whole) (sorted : field.ty.hasSort = true)
    (needed : whole.Needs (.array field)) (hb : Accounted whole base)
    (hv : Accounted whole value) :
    (Plan.contents (.assign base index value tag) field).FailsAs whole.Stuck := by
  rw [Plan.contents_assign]
  refine written_fails (hb.contents field sorted needed) hv.lower fun writes differ => ?_
  have same : index = field.index ∧ tag = field.tag := by simpa [Field.isAt] using writes
  obtain ⟨rfl, rfl⟩ := same
  exact .fieldHolds here differ

theorem assign_accounted {base value : Expr} {index : Nat} {tag : String}
    (here : (Expr.assign base index value tag).IsPart whole)
    (made : Build.assign base (.int index) value tag = .ok (.assign base index value tag))
    (hb : Accounted whole base) (hv : Accounted whole value) :
    Accounted whole (.assign base index value tag) where
  lower := by
    -- by itself a state shows the field written last, at the type written
    obtain ⟨-, sorted, -⟩ := Build.assign_eq_ok.1 made
    rw [Plan.lower_assign]
    exact (contents_assign_fails here sorted (.state here) hb hv).bind fun _ _ => .pure _
  identity := by
    rw [Plan.identity_assign]
    exact hb.identity
  contents _ sorted needed := contents_assign_fails here sorted needed hb hv

/-- Only a variable of object type is a state, that of an object never
written. -/
theorem var_accounted {name : String} {ty : Ty} (here : (Expr.var name ty).IsPart whole) :
    Accounted whole (.var name ty) := by
  have lower : (Plan.lower (.var name ty)).FailsAs whole.Stuck := by
    rw [Plan.lower_var]
    exact constant_var_fails here
  cases ty with
  | object =>
      refine ⟨lower, lower, fun field sorted needed => ?_⟩
      rw [Plan.contents_root]
      exact (constant_array_fails needed sorted).bind fun _ _ =>
        (constant_var_fails here).bind fun _ _ => .pure _
  | _ => exact .stateless here lower (fun state => by cases state) rfl

theorem binary_accounted {op : BinaryOp} {left right : Expr}
    (here : (Expr.binary op left right).IsPart whole)
    (made : Build.binary op left right = .ok (.binary op left right))
    (hl : Accounted whole left) (hr : Accounted whole right) :
    Accounted whole (.binary op left right) := by
  refine .stateless here ?_ (fun state => by cases state) rfl
  obtain ⟨rule, hrule⟩ := exists_binaryRule made
  rw [Plan.lower_binary, hrule]
  by_cases object : left.typeOf = .object
  · simp only [object, if_true]
    exact hl.identity.bind fun _ _ => hr.identity.bind fun _ _ => .pure _
  · simp only [object, if_false]
    exact hl.lower.bind fun _ _ => hr.lower.bind fun _ _ => .pure _

/-- That a connective gets as many operands as it takes is known from its
constructor. -/
theorem logical_accounted {op : Connective} {operands : List Expr}
    (here : (Expr.logical op operands).IsPart whole)
    (made : Build.logical op operands = .ok (.logical op operands))
    (h : ∀ e ∈ operands, Accounted whole e) : Accounted whole (.logical op operands) := by
  refine .stateless here ?_ (fun state => by cases state) rfl
  rw [Plan.lower_logical]
  refine (lowerAll_fails fun e he => (h e he).lower).bind fun terms hterms =>
    .ofExcept fun fault h => ?_
  obtain ⟨t, ht⟩ := exists_connect made (lowerAll_length hterms)
  rw [ht] at h
  cases h

theorem unary_accounted {op : UnaryOp} {operand : Expr}
    (here : (Expr.unary op operand).IsPart whole) (h : Accounted whole operand) :
    Accounted whole (.unary op operand) := by
  refine .stateless here ?_ (fun state => by cases state) rfl
  rw [Plan.lower_unary]
  exact h.lower.bind fun _ _ => .pure _

theorem function_accounted {signature : Signature}
    (here : (Expr.function signature).IsPart whole)
    (sorted : (∀ ty ∈ signature.args, ty.hasSort = true) ∧ signature.result.hasSort = true) :
    Accounted whole (.function signature) := by
  refine .stateless here ?_ (fun state => by cases state) rfl
  rw [Plan.lower_function]
  exact (symbol_function_fails (.function here) sorted).bind fun _ _ => .pure _

theorem call_accounted {callee : Signature} {args : List Expr}
    (here : (Expr.call callee args).IsPart whole)
    (sorted : (∀ ty ∈ callee.args, ty.hasSort = true) ∧ callee.result.hasSort = true)
    (h : ∀ e ∈ args, Accounted whole e) : Accounted whole (.call callee args) := by
  refine .stateless here ?_ (fun state => by cases state) rfl
  rw [Plan.lower_call]
  exact (symbol_function_fails (.call here) sorted).bind fun _ _ =>
    (lowerAll_fails fun e he => (h e he).lower).bind fun _ _ => .pure _

/-- A read refuses a prior state that is not in the chain, and then fails
with what is below it only. -/
theorem access_accounted {base : Expr} {prior : Option Expr} {field : Field}
    (here : (Expr.access base prior field).IsPart whole) (sorted : field.ty.hasSort = true)
    (h : Accounted whole base) : Accounted whole (.access base prior field) := by
  refine .stateless here ?_ (fun state => by cases state) rfl
  have hread : (Plan.contents base field).FailsAs whole.Stuck :=
    h.contents field sorted (.read here)
  rw [Plan.lower_access]
  by_cases matching : priorOf field.tag field.index base = prior
  · rw [if_neg (not_not_intro matching)]
    exact hread.bind fun _ _ => h.identity.bind fun _ _ => .pure _
  · rw [if_pos matching]
    have fails : (Plan.ofExcept (.error (.priorMismatch base prior field)) :
        Plan PUnit).FailsAs whole.Stuck :=
      .fault (.priorMismatch here matching)
    exact fails.bind fun _ _ => hread.bind fun _ _ => h.identity.bind fun _ _ => .pure _

/-- Every part of a made expression is accounted for. -/
theorem accounted {e : Expr} (made : e.Made) (here : e.IsPart whole) : Accounted whole e := by
  induction made with
  | var => exact var_accounted here
  | int => exact .stateless here (.pure _) (fun state => by cases state) rfl
  | bool => exact .stateless here (.pure _) (fun state => by cases state) rfl
  | binary _ _ made ihLeft ihRight =>
      have left := ihLeft (here.inner (by simp [Expr.children]))
      have right := ihRight (here.inner (by simp [Expr.children]))
      exact binary_accounted here made left right
  | logical _ made ih =>
      exact logical_accounted here made fun operand among => ih operand among (here.inner among)
  | unary _ _ ih => exact unary_accounted here (ih (here.inner List.mem_cons_self))
  | ite _ _ _ _ ihCondition ihThen ihElse =>
      have condition := ihCondition (here.inner (by simp [Expr.children]))
      have thenBranch := ihThen (here.inner (by simp [Expr.children]))
      have elseBranch := ihElse (here.inner (by simp [Expr.children]))
      exact ite_accounted here condition thenBranch elseBranch
  | function made => exact function_accounted here (Build.sorted_signature made)
  | call made _ _ ih =>
      exact call_accounted here (Build.sorted_signature made) fun operand among =>
        ih operand among (here.inner among)
  | assign _ _ made ihBase ihValue =>
      have base := ihBase (here.inner (by simp [Expr.children]))
      have value := ihValue (here.inner (by simp [Expr.children]))
      exact assign_accounted here made base value
  | access _ _ made ih _ =>
      obtain ⟨-, -, sorted, -⟩ := Build.access_eq_ok.1 made
      exact access_accounted here sorted (ih (here.inner List.mem_cons_self))

/-- What an expression lowers to by itself. -/
theorem lowered_accounted {e : Expr} (made : e.Made) : (Plan.lowered e).FailsAs e.Stuck := by
  have hlower := (accounted made .self).lower
  cases e with
  | function signature =>
      cases made with
      | function hsignature =>
          have sorted := Build.sorted_signature hsignature
          exact (symbol_function_fails (.function .self) sorted).bind fun _ _ => .pure _
  | _ => exact hlower.bind fun _ _ => .pure _

end

end Lowering

end SymbolicHeap
