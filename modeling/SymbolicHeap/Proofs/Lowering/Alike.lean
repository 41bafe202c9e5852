/-
Expressions that a lowering does not tell apart.

Two writes to different fields of an object give two states, depending on
which was made first.  They are different trees, and so is all that is
built on them.  But a lowering looks at a chain of writes one field at a
time, and passes over the writes to other fields: what it asks for, and
what it makes of the answers, is the same (`Alike.swap`).

Alike are expressions of one type whose plans agree (`Expr.Alike`).  A
state of an object counts by its identity and by the contents of each
field, not by the field that happened to be written last.  Whatever is
built from alike parts is alike, and is built in both cases or in neither.
-/
import Mathlib.Data.List.Forall2
import SymbolicHeap.Proofs.Lowering.Transcript

namespace SymbolicHeap

namespace Lowering

-- ======================================================= plans that agree

/-- Two plans ask for the same symbols and come to the same, but perhaps
for the text of a failure. -/
structure Plan.Agrees {α : Type} (plan other : Plan α) : Prop where
  requests : plan.requests = other.requests
  outcome : plan.outcome.toOption = other.outcome.toOption

namespace Plan.Agrees

variable {α β : Type}

@[refl]
theorem refl (plan : Plan α) : plan.Agrees plan := ⟨rfl, rfl⟩

theorem symm {plan other : Plan α} (h : plan.Agrees other) : other.Agrees plan :=
  ⟨h.requests.symm, h.outcome.symm⟩

theorem error (fault fault' : Fault) :
    (Plan.ofExcept (.error fault) : Plan α).Agrees (Plan.ofExcept (.error fault')) :=
  ⟨rfl, rfl⟩

theorem bind {plan other : Plan α} {next next' : α → Plan β} (h : plan.Agrees other)
    (hnext : ∀ a, (next a).Agrees (next' a)) : (plan >>= next).Agrees (other >>= next') := by
  obtain ⟨requests, outcome⟩ := h
  cases ho : plan.outcome with
  | error fault =>
      cases ho' : other.outcome with
      | error fault' =>
          rw [bind_of_error ho, bind_of_error ho', requests]
          exact ⟨rfl, rfl⟩
      | ok a =>
          rw [ho, ho'] at outcome
          cases outcome
  | ok a =>
      cases ho' : other.outcome with
      | error fault =>
          rw [ho, ho'] at outcome
          cases outcome
      | ok a' =>
          rw [ho, ho'] at outcome
          cases outcome
          refine ⟨?_, ?_⟩
          · rw [requests_bind ho, requests_bind ho', requests, (hnext a).requests]
          · rw [outcome_bind ho, outcome_bind ho']
            exact (hnext a).outcome

/-- Run on one table, plans that agree come to the same. -/
theorem run {plan other : Plan α} (h : plan.Agrees other) (table : SymbolTable) :
    (plan.run table).1.toOption = (other.run table).1.toOption := by
  unfold Plan.run
  rw [h.requests]
  rcases table.grantAll other.requests with ⟨_ | _, after⟩
  · rfl
  · exact h.outcome

theorem written {field : Field} (writes : Bool) (held : Ty) {before before' : Plan (Term × Term)}
    {value value' : Plan Term} (hbefore : before.Agrees before')
    (hvalue : value.Agrees value') :
    (Builder.written field writes held before value).Agrees
      (Builder.written field writes held before' value') := by
  refine hbefore.bind fun found => ?_
  cases writes with
  | false => exact refl _
  | true =>
      by_cases fits : held = field.ty
      · simp only [fits, if_true]
        exact hvalue.bind fun stored => refl _
      · simp only [fits, if_true, if_false]
        exact refl _

end Plan.Agrees

/-- A write to another field is passed over. -/
theorem Plan.written_false (field : Field) (held : Ty) (before : Plan (Term × Term))
    (value : Plan Term) : Builder.written field false held before value = before :=
  bind_pure before

-- ================================================= expressions that agree

end Lowering

open Lowering

/-- No lowering tells the expressions apart. -/
structure Expr.Alike (e e' : Expr) : Prop where
  typeOf : e.typeOf = e'.typeOf
  value : e.typeOf ≠ .object → (Plan.lower e).Agrees (Plan.lower e')
  lowered : e.typeOf ≠ .object → (Plan.lowered e).Agrees (Plan.lowered e')
  identity : (Plan.identity e).Agrees (Plan.identity e')
  contents : ∀ field, (Plan.contents e field).Agrees (Plan.contents e' field)

namespace Expr.Alike

variable {e e' base base' left left' right right' : Expr}

@[refl]
theorem refl (e : Expr) : e.Alike e :=
  ⟨rfl, fun _ => .refl _, fun _ => .refl _, .refl _, fun _ => .refl _⟩

theorem symm (h : e.Alike e') : e'.Alike e where
  typeOf := h.typeOf.symm
  value plain := (h.value (h.typeOf ▸ plain)).symm
  lowered plain := (h.lowered (h.typeOf ▸ plain)).symm
  identity := h.identity.symm
  contents field := (h.contents field).symm

/-- What is no state of an object is alike if its plans agree. -/
theorem of_stateless (typeOf : e.typeOf = e'.typeOf)
    (value : (Plan.lower e).Agrees (Plan.lower e'))
    (lowered : Plan.lowered e = Plan.lower e >>= fun t => pure (.term t))
    (lowered' : Plan.lowered e' = Plan.lower e' >>= fun t => pure (.term t))
    (stateless : ∀ s, s = e ∨ s = e' →
      Plan.identity s = Plan.ofExcept (.error (.malformed (.noObjectState s))) ∧
      ∀ field, Plan.contents s field = Plan.constant (.array field) >>= fun _ =>
        Plan.ofExcept (.error (.malformed (.noObjectState s)))) : e.Alike e' := by
  obtain ⟨identity, contents⟩ := stateless e (.inl rfl)
  obtain ⟨identity', contents'⟩ := stateless e' (.inr rfl)
  refine ⟨typeOf, fun _ => value, fun _ => ?_, ?_, fun field => ?_⟩
  · rw [lowered, lowered']
    exact value.bind fun _ => .refl _
  · rw [identity, identity']
    exact .error _ _
  · rw [contents, contents']
    exact (Plan.Agrees.refl _).bind fun _ => .error _ _

-- ---------------------------------------------------------------- states

theorem assign (hbase : base.Alike base') {value value' : Expr} (hvalue : value.Alike value')
    (sorted : value.typeOf.hasSort = true) (index : Nat) (tag : String) :
    (Expr.assign base index value tag).Alike (.assign base' index value' tag) where
  typeOf := rfl
  value object := absurd rfl object
  lowered object := absurd rfl object
  identity := by
    rw [Plan.identity_assign, Plan.identity_assign]
    exact hbase.identity
  contents field := by
    have plain : value.typeOf ≠ .object := by
      intro object
      rw [object] at sorted
      cases sorted
    rw [Plan.contents_assign, Plan.contents_assign, ← hvalue.typeOf]
    exact .written _ _ (hbase.contents field) (hvalue.value plain)

/-- Writes to different fields may be swapped. -/
theorem swap (base : Expr) {i j : Nat} (apart : i ≠ j) (v w : Expr) (tag : String) :
    (Expr.assign (.assign base i v tag) j w tag).Alike (.assign (.assign base j w tag) i v tag) where
  typeOf := rfl
  value object := absurd rfl object
  lowered object := absurd rfl object
  identity := by
    simp only [Plan.identity_assign]
    rfl
  contents field := by
    simp only [Plan.contents_assign]
    -- a field is at one of the indices at most
    cases first : field.isAt i tag with
    | false => rw [Plan.written_false, Plan.written_false]
    | true =>
        have other : field.isAt j tag = false := by
          have here : i = field.index ∧ tag = field.tag := by simpa [Field.isAt] using first
          have there : j ≠ field.index := fun same => apart (here.1.trans same.symm)
          simp [Field.isAt, there]
        rw [other, Plan.written_false, Plan.written_false]

/-- A read is alike if the states it is made on are, and both have the
prior state that a lowering looks for. -/
theorem access (hbase : base.Alike base') {prior prior' : Option Expr} {field : Field}
    (matching : priorOf field.tag field.index base = prior)
    (matching' : priorOf field.tag field.index base' = prior') :
    (Expr.access base prior field).Alike (.access base' prior' field) := by
  refine .of_stateless rfl ?_ rfl rfl fun s hs => ?_
  · rw [Plan.lower_access, Plan.lower_access, if_neg (not_not_intro matching),
      if_neg (not_not_intro matching')]
    exact (hbase.contents field).bind fun found => hbase.identity.bind fun _ => .refl _
  · rcases hs with rfl | rfl
    · exact ⟨rfl, fun _ => rfl⟩
    · exact ⟨rfl, fun _ => rfl⟩

end Expr.Alike

-- ========================================================== what is lowered

/-- Lowerings make the same of the expressions, whatever they were used for
before, or fail on both; of a state of an object, that is the contents of
each field, with the identity of the object. -/
structure Expr.LowersAs (μ : Type) [Memo μ] (e e' : Expr) : Prop where
  typeOf : e.typeOf = e'.typeOf
  lowered : e.typeOf ≠ .object → ∀ calls,
    ((Lowering.lowered e).run (afterAll ({} : With μ) calls)).1.toOption
      = ((Lowering.lowered e').run (afterAll ({} : With μ) calls)).1.toOption
  contents : ∀ calls field,
    ((Lowering.contents e field).run (afterAll ({} : With μ) calls)).1.toOption
      = ((Lowering.contents e' field).run (afterAll ({} : With μ) calls)).1.toOption

/-- Where the plans agree, so does what is done. -/
theorem Lowering.RunsAs.toOption_eq {μ : Type} [Memo μ] {α : Type} {x y : RunWith μ α}
    {plan other : Plan α} (hx : RunsAs x plan) (hy : RunsAs y other) (agrees : plan.Agrees other)
    (calls : List Call) :
    (x.run (afterAll ({} : With μ) calls)).1.toOption
      = (y.run (afterAll ({} : With μ) calls)).1.toOption := by
  have faithful : Faithful (afterAll ({} : With μ) calls) := faithful_afterAll calls
  rw [(hx _ faithful).outcome, (hy _ faithful).outcome]
  exact agrees.run _

theorem Expr.Alike.lowersAs {μ : Type} [Memo μ] {e e' : Expr} (h : e.Alike e') :
    e.LowersAs μ e' where
  typeOf := h.typeOf
  lowered plain := (lowered_runsAs e).toOption_eq (lowered_runsAs e') (h.lowered plain)
  contents calls field :=
    ((lower_runsAs e).2.2 field).toOption_eq ((lower_runsAs e').2.2 field) (h.contents field) calls

-- ============================================================ what is built

namespace Build

variable {e base base' condition condition' left left' right right' value value' : Expr}
  {operands operands' : List Expr}

/-- An operator takes an object on both sides or on none. -/
theorem binary_object {op : BinaryOp} (h : binary op left right = .ok e) :
    left.typeOf = .object ↔ right.typeOf = .object := by
  by_cases equality : op.isEquality = true
  · rw [(equality_operands equality h).1]
  · have other : op = .select ∨ op.isArithmetic = true ∨ op.isOrdering = true := by
      cases op <;> simp_all [BinaryOp.isEquality, BinaryOp.isArithmetic, BinaryOp.isOrdering]
    rcases other with rfl | scalar
    · obtain ⟨element, hl, hr⟩ := select_operands h
      simp [hl, hr]
    · obtain ⟨hl, hr⟩ := integer_operands scalar h
      simp [hl, hr]

theorem binary_alike {op : BinaryOp} (hl : left.Alike left') (hr : right.Alike right')
    (h : binary op left right = .ok e) :
    ∃ e', binary op left' right' = .ok e' ∧ e.Alike e' := by
  have objects := binary_object h
  have same : ∀ {l r : Expr}, binary op l r = .ok e → e = .binary op l r := by
    intro l r h
    unfold binary at h
    split at h
    next => exact (Except.ok.inj h).symm
    next => cases h
  obtain rfl := same h
  refine ⟨.binary op left' right', ?_, .of_stateless ?_ ?_ rfl rfl ?_⟩
  · unfold binary at h ⊢
    rw [← hl.typeOf, ← hr.typeOf]
    split at h
    next => rfl
    next => cases h
  · simp only [Expr.typeOf, hl.typeOf]
  · rw [Plan.lower_binary, Plan.lower_binary, ← hl.typeOf]
    cases binaryRule op left.typeOf.kind with
    | none => exact .error _ _
    | some rule =>
        by_cases object : left.typeOf = .object
        · simp only [object, if_true]
          exact hl.identity.bind fun _ => hr.identity.bind fun _ => .refl _
        · simp only [object, if_false]
          have plain : right.typeOf ≠ .object := fun h => object (objects.2 h)
          exact (hl.value object).bind fun _ => (hr.value plain).bind fun _ => .refl _
  · rintro s (rfl | rfl)
    · exact ⟨rfl, fun _ => rfl⟩
    · exact ⟨rfl, fun _ => rfl⟩

theorem unary_alike {op : UnaryOp} {operand operand' : Expr} (halike : operand.Alike operand')
    (h : unary op operand = .ok e) : ∃ e', unary op operand' = .ok e' ∧ e.Alike e' := by
  have hty := unary_operand h
  unfold unary at h
  rw [if_pos hty] at h
  cases h
  refine ⟨.unary op operand', ?_, .of_stateless halike.typeOf ?_ rfl rfl ?_⟩
  · unfold unary
    rw [if_pos (halike.typeOf ▸ hty)]
  · have plain : operand.typeOf ≠ .object := by
      rw [hty]
      cases op <;> exact Ty.noConfusion
    rw [Plan.lower_unary, Plan.lower_unary]
    exact (halike.value plain).bind fun _ => .refl _
  · rintro s (rfl | rfl)
    · exact ⟨rfl, fun _ => rfl⟩
    · exact ⟨rfl, fun _ => rfl⟩

/-- Operands that are alike one by one have the same types. -/
theorem typeOf_of_alike (h : List.Forall₂ Expr.Alike operands operands') :
    operands.map Expr.typeOf = operands'.map Expr.typeOf := by
  induction h with
  | nil => rfl
  | cons first _ ih => rw [List.map_cons, List.map_cons, first.typeOf, ih]

theorem lowerAll_agrees (h : List.Forall₂ Expr.Alike operands operands')
    (plain : ∀ e ∈ operands, e.typeOf ≠ .object) :
    (Plan.lowerAll operands).Agrees (Plan.lowerAll operands') := by
  induction h with
  | nil => exact .refl _
  | cons first _ ih =>
      obtain ⟨hfirst, hrest⟩ := List.forall_mem_cons.1 plain
      rw [Plan.lowerAll_cons, Plan.lowerAll_cons]
      exact (first.value hfirst).bind fun _ => (ih hrest).bind fun _ => .refl _

theorem logical_alike {op : Connective} (halike : List.Forall₂ Expr.Alike operands operands')
    (h : logical op operands = .ok e) :
    ∃ e', logical op operands' = .ok e' ∧ e.Alike e' := by
  have bools := bool_operands h
  have count := operand_count h
  obtain rfl : .logical op operands = e := by
    rw [logical_of_operands count bools] at h
    exact Except.ok.inj h
  have types := typeOf_of_alike halike
  have bools' : ∀ e ∈ operands', e.typeOf = .bool := by
    rw [← List.forall_mem_map (P := (· = Ty.bool)), ← types, List.forall_mem_map]
    exact bools
  refine ⟨_, logical_of_operands ?_ bools', .of_stateless rfl ?_ rfl rfl ?_⟩
  · have same := halike.length_eq
    cases op with
    | and | or =>
        intro none
        rw [none] at same
        exact count (List.eq_nil_of_length_eq_zero same)
    | not | implies => exact same.symm.trans count
  · rw [Plan.lower_logical, Plan.lower_logical]
    refine (lowerAll_agrees halike fun e he => ?_).bind fun _ => .refl _
    rw [bools e he]
    exact Ty.noConfusion
  · rintro s (rfl | rfl)
    · exact ⟨rfl, fun _ => rfl⟩
    · exact ⟨rfl, fun _ => rfl⟩

theorem call_alike {name : String} {args : List Ty} {result : Ty} {callee : Signature}
    (hcallee : signature name args result = .ok callee)
    (halike : List.Forall₂ Expr.Alike operands operands') (h : call callee operands = .ok e) :
    ∃ e', call callee operands' = .ok e' ∧ e.Alike e' := by
  have types := call_args h
  obtain rfl : .call callee operands = e := by
    rw [call_of_args types] at h
    exact Except.ok.inj h
  have types' : operands'.map Expr.typeOf = callee.args := (typeOf_of_alike halike) ▸ types
  have sorted : ∀ ty ∈ callee.args, ty.hasSort = true := by
    obtain ⟨_, -, hcallee⟩ := bind_eq_ok.1 hcallee
    obtain ⟨_, hargs, hcallee⟩ := bind_eq_ok.1 hcallee
    obtain ⟨_, -, hcallee⟩ := bind_eq_ok.1 hcallee
    cases hcallee
    exact requireSortedArgs_eq_ok hargs
  refine ⟨_, call_of_args types', .of_stateless rfl ?_ rfl rfl ?_⟩
  · rw [Plan.lower_call, Plan.lower_call]
    refine (Plan.Agrees.refl _).bind fun symbol => ?_
    refine (lowerAll_agrees halike fun e he object => ?_).bind fun _ => .refl _
    have known := sorted e.typeOf (types ▸ List.mem_map_of_mem he)
    rw [object] at known
    cases known
  · rintro s (rfl | rfl)
    · exact ⟨rfl, fun _ => rfl⟩
    · exact ⟨rfl, fun _ => rfl⟩

theorem ite_alike (hc : condition.Alike condition') (hl : left.Alike left')
    (hr : right.Alike right') (h : ite condition left right = .ok e) :
    ∃ e', ite condition' left' right' = .ok e' ∧ e.Alike e' := by
  obtain ⟨bool, branches⟩ := ite_parts h
  obtain rfl : .ite condition left right = e := by
    rw [ite_of_parts bool branches] at h
    exact Except.ok.inj h
  have choice : (Plan.lower condition).Agrees (Plan.lower condition') :=
    hc.value (by rw [bool]; exact Ty.noConfusion)
  have value : (Plan.lower (.ite condition left right)).Agrees
      (Plan.lower (.ite condition' left' right')) := by
    rw [Plan.lower_ite, Plan.lower_ite, ← hl.typeOf]
    by_cases object : left.typeOf = .object
    · simp only [object, if_true]
      exact choice.bind fun _ => hl.identity.bind fun _ => hr.identity.bind fun _ => .refl _
    · by_cases sorted : left.typeOf.hasSort = true
      · simp only [object, sorted, if_true, if_false]
        exact choice.bind fun _ => (hl.value object).bind fun _ =>
          (hr.value (branches ▸ object)).bind fun _ => .refl _
      · simp only [object, sorted, if_false]
        exact .refl _
  refine ⟨.ite condition' left' right', ite_of_parts (hc.typeOf ▸ bool)
    (hl.typeOf ▸ hr.typeOf ▸ branches), ⟨hl.typeOf, fun _ => value, fun _ => ?_, ?_, ?_⟩⟩
  · exact value.bind fun _ => .refl _
  · rw [Plan.identity_ite, Plan.identity_ite]
    exact choice.bind fun _ => hl.identity.bind fun _ => hr.identity.bind fun _ => .refl _
  · intro field
    rw [Plan.contents_ite, Plan.contents_ite]
    exact choice.bind fun _ => (hl.contents field).bind fun _ => (hr.contents field).bind fun _ =>
      choice.bind fun _ => hl.identity.bind fun _ => hr.identity.bind fun _ => .refl _

theorem assign_alike {index : Datum} {tag : String} (hbase : base.Alike base')
    (hvalue : value.Alike value') (h : assign base index value tag = .ok e) :
    ∃ e', assign base' index value' tag = .ok e' ∧ e.Alike e' := by
  obtain ⟨object, sorted, i, rfl, short, rfl⟩ := assign_eq_ok.1 h
  refine ⟨_, assign_eq_ok.2 ⟨?_, ?_, i, rfl, short, rfl⟩, hbase.assign hvalue sorted i tag⟩
  · rw [← hbase.typeOf]
    exact object
  · rw [← hvalue.typeOf]
    exact sorted

end Build

end SymbolicHeap
