/-
Lowering alike on two builders.

A lowering leaves open what it runs on, so whatever holds of each thing
that it may run holds of the whole.  `Relates` is this for a relation of
computations on two builders: the steps are related, and so is a sequence
whose steps are; only of the contents after a write is it left to the
relation what a look-up does.  All that is lowered is related then
(`Relates.lower` and what follows it), by the one induction over
expressions that there is here.  A property of computations on one builder
is a relation of it with itself.

# The bound

What is looked up to lower an expression are the expression and parts of
it.  So the relation may hang on a number, which bounds the size of what
is looked up; relations that have no use for it leave it out.
-/
import SymbolicHeap.Lowering.Call

namespace SymbolicHeap

/-- Parts are smaller. -/
theorem Expr.sizeOf_lt_of_mem_children {part e : Expr} (h : part ∈ e.children) :
    sizeOf part < sizeOf e := by
  cases e with
  | var | int | bool | function => cases h
  | logical op operands =>
      have smaller : sizeOf part < sizeOf operands := List.sizeOf_lt_of_mem h
      rw [Expr.logical.sizeOf_spec]
      omega
  | call callee args =>
      have smaller : sizeOf part < sizeOf args := List.sizeOf_lt_of_mem h
      rw [Expr.call.sizeOf_spec]
      omega
  | binary op left right =>
      rw [Expr.binary.sizeOf_spec]
      simp only [Expr.children, List.mem_cons, List.not_mem_nil, or_false] at h
      rcases h with rfl | rfl <;> omega
  | unary op operand =>
      rw [Expr.unary.sizeOf_spec, List.mem_singleton.1 h]
      omega
  | ite condition thenBranch elseBranch =>
      rw [Expr.ite.sizeOf_spec]
      simp only [Expr.children, List.mem_cons, List.not_mem_nil, or_false] at h
      rcases h with rfl | rfl | rfl <;> omega
  | assign base index value tag =>
      rw [Expr.assign.sizeOf_spec]
      simp only [Expr.children, List.mem_cons, List.not_mem_nil, or_false] at h
      rcases h with rfl | rfl <;> omega
  | access base prior field =>
      rw [Expr.access.sizeOf_spec, List.mem_singleton.1 h]
      omega

namespace Lowering.Builder

-- ================================================================ states

section

variable {m : Type → Type} [Monad m] [Builder m]

/-- Whether an expression may be the state of an object, going by its
head. -/
def mayBeState : Expr → Bool
  | .assign .. | .ite .. | .var _ .object => true
  | _ => false

/-- What is no state of an object has no identity. -/
theorem identity_of_stateless {e : Expr} (stateless : mayBeState e = false) :
    (identity e : m Term) = fault (.malformed (.noObjectState e)) := by
  cases e with
  | assign | ite => cases stateless
  | var name ty =>
      cases ty with
      | object => cases stateless
      | _ => rfl
  | _ => rfl

/-- What is no state has no contents, but the array that it would start with
is asked for first. -/
theorem contents_of_stateless {e : Expr} (stateless : mayBeState e = false) (field : Field) :
    (contents e field : m (Term × Term))
      = initial field >>= fun _ => fault (.malformed (.noObjectState e)) := by
  cases e with
  | assign | ite => cases stateless
  | var name ty =>
      cases ty with
      | object => cases stateless
      | _ => rfl
  | _ => rfl

/-- The contents after a write, looked up or made from those before it. -/
theorem contents_assign (base : Expr) (index : Nat) (value : Expr) (tag : String)
    (field : Field) :
    (contents (.assign base index value tag) field : m (Term × Term)) =
      known field (.assign base index value tag) (identity base) fun node =>
        written field (field.isAt index tag) value.typeOf (contents base field)
          (storing node (.assign base index value tag) (lower value)) := by
  rw [contents]

/-- A state that stands by itself shows the field written last. -/
theorem lower_assign (base : Expr) (index : Nat) (value : Expr) (tag : String) :
    (lower (.assign base index value tag) : m Term) = (do
      let (contents, _) ← contents (.assign base index value tag) ⟨tag, index, value.typeOf⟩
      return contents) := by
  have here : Field.isAt ⟨tag, index, value.typeOf⟩ index tag = true := by simp [Field.isAt]
  rw [contents_assign, here, lower]

end

-- =========================================================== related steps

variable {m n : Type → Type} [Monad m] [Builder m] [Monad n] [Builder n]
  {R : Nat → ∀ {α : Type}, m α → n α → Prop} {bound : Nat}

/-- All lowerings of an expression are related. -/
structure RelatedAt (R : Nat → ∀ {α : Type}, m α → n α → Prop) (bound : Nat) (e : Expr) :
    Prop where
  lower : R bound (lower e) (lower e)
  identity : R bound (identity e) (identity e)
  contents : ∀ field, R bound (contents e field) (contents e field)

/-- A relation that all steps of a lowering keep. -/
structure Relates (R : Nat → ∀ {α : Type}, m α → n α → Prop) : Prop where
  mono : ∀ {bound larger : Nat} {α : Type} {x : m α} {y : n α}, bound ≤ larger →
    R bound x y → R larger x y
  pure : ∀ {bound : Nat} {α : Type} (a : α), R bound (pure a) (pure a)
  bind : ∀ {bound : Nat} {α β : Type} {x : m α} {y : n α} {f : α → m β} {g : α → n β},
    R bound x y → (∀ a, R bound (f a) (g a)) → R bound (x >>= f) (y >>= g)
  fault : ∀ {bound : Nat} {α : Type} (cause : Fault),
    R bound (fault cause : m α) (fault cause)
  var : ∀ {bound : Nat} (name : String) (ty : Ty),
    R bound (var name ty) (var name ty)
  function : ∀ {bound : Nat} (signature : Signature),
    R bound (function signature) (function signature)
  initial : ∀ {bound : Nat} (field : Field),
    R bound (initial field) (initial field)
  build : ∀ {bound : Nat} (t : Term), R bound (build t) (build t)
  bare : ∀ {bound : Nat} (symbol : Symbol), R bound (bare symbol) (bare symbol)
  /-- What comes next starts from an equal expression. -/
  align : ∀ {bound : Nat} {α : Type} {e : Expr} {f : Expr → m α} {g : Expr → n α},
    R bound (f e) (g e) → R bound (align e >>= f) (align e >>= g)
  /-- The one state that is looked up here is the one in question. -/
  assign : ∀ {base : Expr} {index : Nat} {value : Expr} {tag : String} (field : Field),
    RelatedAt R (sizeOf (Expr.assign base index value tag)) base →
    RelatedAt R (sizeOf (Expr.assign base index value tag)) value →
    R (sizeOf (Expr.assign base index value tag) + 1)
      (contents (.assign base index value tag) field)
      (contents (.assign base index value tag) field)

namespace RelatedAt

/-- What holds of look-ups up to some size holds with a larger bound. -/
theorem mono {larger : Nat} {e : Expr} (related : RelatedAt R bound e) (relates : Relates R)
    (le : bound ≤ larger) : RelatedAt R larger e where
  lower := relates.mono le related.lower
  identity := relates.mono le related.identity
  contents field := relates.mono le (related.contents field)

end RelatedAt

namespace Relates

-- ========================================================= one constructor

section

variable (relates : Relates R)

include relates

/-- What was computed beforehand is the same on both builders. -/
theorem ofExcept {α : Type} (outcome : Except Fault α) :
    R bound (ofExcept outcome : m α) (ofExcept outcome) := by
  cases outcome with
  | ok a => exact relates.pure a
  | error cause => exact relates.fault cause

/-- What is no state of an object only has to be lowered. -/
theorem stateless {e : Expr} (lower : R bound (lower e) (lower e))
    (stateless : mayBeState e = false) : RelatedAt R bound e where
  lower := lower
  identity := by
    rw [identity_of_stateless stateless, identity_of_stateless stateless]
    exact relates.fault _
  contents field := by
    rw [contents_of_stateless stateless, contents_of_stateless stateless]
    exact (relates.bind (relates.initial field)) fun _ => relates.fault _

/-- Operands are lowered one after the other. -/
theorem lowerAll (bound : Nat) {exprs : List Expr} (h : ∀ e ∈ exprs, R bound (lower e) (lower e)) :
    R bound (lowerAll exprs) (lowerAll exprs) := by
  induction exprs with
  | nil => exact relates.pure []
  | cons first rest ih =>
      unfold Builder.lowerAll
      refine relates.bind (h first List.mem_cons_self) fun term => ?_
      refine relates.bind (ih fun e among => h e (List.mem_cons_of_mem _ among)) fun terms => ?_
      exact relates.pure _

theorem relatedAt_var (name : String) (ty : Ty) : RelatedAt R bound (.var name ty) := by
  have lower : R bound (Builder.lower (.var name ty)) (Builder.lower (.var name ty)) := by
    unfold Builder.lower
    exact relates.var name ty
  cases ty with
  | object =>
      refine ⟨lower, ?_, fun field => ?_⟩
      · unfold Builder.identity
        exact relates.var name .object
      · unfold Builder.contents
        refine relates.bind (relates.initial field) fun initial => ?_
        exact relates.bind (relates.var name .object) fun identity => relates.pure _
  | _ => exact relates.stateless lower rfl

/-- Operands that are objects are taken by their identities. -/
theorem relatedAt_binary {op : BinaryOp} {left right : Expr} (hleft : RelatedAt R bound left)
    (hright : RelatedAt R bound right) : RelatedAt R bound (.binary op left right) := by
  refine relates.stateless ?_ rfl
  unfold Builder.lower
  cases binaryRule op left.typeOf.kind with
  | none => exact relates.fault _
  | some rule =>
      by_cases object : left.typeOf = .object
      · simp only [object, if_true]
        refine relates.bind hleft.identity fun _ => ?_
        exact relates.bind hright.identity fun _ => relates.build _
      · simp only [object, if_false]
        refine relates.bind hleft.lower fun _ => ?_
        exact relates.bind hright.lower fun _ => relates.build _

theorem relatedAt_logical {op : Connective} {operands : List Expr}
    (h : ∀ e ∈ operands, RelatedAt R bound e) : RelatedAt R bound (.logical op operands) := by
  refine relates.stateless ?_ rfl
  unfold Builder.lower
  refine relates.bind (relates.lowerAll _ fun e among => (h e among).lower) fun terms => ?_
  exact relates.bind (relates.ofExcept _) fun _ => relates.build _

theorem relatedAt_unary {op : UnaryOp} {operand : Expr} (h : RelatedAt R bound operand) :
    RelatedAt R bound (.unary op operand) := by
  refine relates.stateless ?_ rfl
  unfold Builder.lower
  exact relates.bind h.lower fun _ => relates.build _

/-- A choice between two lowerings. -/
theorem ite {condition thenBranch elseBranch : m Term}
    {condition' thenBranch' elseBranch' : n Term} (hcondition : R bound condition condition')
    (hthen : R bound thenBranch thenBranch') (helse : R bound elseBranch elseBranch') :
    R bound
      (do
        let condition ← condition
        let thenBranch ← thenBranch
        let elseBranch ← elseBranch
        Builder.build (Term.ite condition thenBranch elseBranch))
      (do
        let condition ← condition'
        let thenBranch ← thenBranch'
        let elseBranch ← elseBranch'
        Builder.build (Term.ite condition thenBranch elseBranch)) := by
  refine relates.bind hcondition fun _ => relates.bind hthen fun _ => ?_
  exact relates.bind helse fun _ => relates.build _

/-- Each of the three lowerings of a choice lowers the condition again. -/
theorem relatedAt_ite {condition thenBranch elseBranch : Expr}
    (hcondition : RelatedAt R bound condition) (hthen : RelatedAt R bound thenBranch)
    (helse : RelatedAt R bound elseBranch) :
    RelatedAt R bound (.ite condition thenBranch elseBranch) where
  lower := by
    unfold Builder.lower
    by_cases object : thenBranch.typeOf = .object
    · simp only [object, if_true]
      exact relates.ite hcondition.lower hthen.identity helse.identity
    · by_cases sorted : thenBranch.typeOf.hasSort = true
      · simp only [object, sorted, if_true, if_false]
        exact relates.ite hcondition.lower hthen.lower helse.lower
      · simp only [object, sorted, if_false]
        exact relates.fault _
  identity := by
    unfold Builder.identity
    exact relates.ite hcondition.lower hthen.identity helse.identity
  contents field := by
    unfold Builder.contents
    refine relates.bind hcondition.lower fun _ => relates.bind (hthen.contents field) fun _ => ?_
    refine relates.bind (helse.contents field) fun _ => relates.bind (relates.build _) fun _ => ?_
    refine relates.bind hcondition.lower fun _ => relates.bind hthen.identity fun _ => ?_
    refine relates.bind helse.identity fun _ => relates.bind (relates.build _) fun _ => ?_
    exact relates.pure _

theorem relatedAt_function (signature : Signature) : RelatedAt R bound (.function signature) := by
  refine relates.stateless ?_ rfl
  unfold Builder.lower
  exact relates.bind (relates.function signature) fun _ => relates.bare _

theorem relatedAt_call {callee : Signature} {args : List Expr}
    (h : ∀ e ∈ args, RelatedAt R bound e) : RelatedAt R bound (.call callee args) := by
  refine relates.stateless ?_ rfl
  unfold Builder.lower
  refine relates.bind (relates.function callee) fun symbol => ?_
  refine relates.bind (relates.lowerAll _ fun e among => (h e among).lower) fun terms => ?_
  exact relates.build _

/-- The one expression that is looked up, and so the one that the bound has
to reach. -/
theorem relatedAt_assign {base value : Expr} {index : Nat} {tag : String}
    (hbase : RelatedAt R (sizeOf (Expr.assign base index value tag)) base)
    (hvalue : RelatedAt R (sizeOf (Expr.assign base index value tag)) value) :
    RelatedAt R (sizeOf (Expr.assign base index value tag) + 1)
      (.assign base index value tag) where
  lower := by
    rw [lower_assign, lower_assign]
    exact relates.bind (relates.assign _ hbase hvalue) fun found => relates.pure _
  identity := by
    unfold Builder.identity
    exact relates.mono (Nat.le_succ _) hbase.identity
  contents field := relates.assign field hbase hvalue

/-- A read checks its prior state, then takes contents and identity from the
state. -/
theorem relatedAt_access {base : Expr} {prior : Option Expr} {field : Field}
    (h : RelatedAt R bound base) : RelatedAt R bound (.access base prior field) := by
  refine relates.stateless ?_ rfl
  unfold Builder.lower
  have read := relates.bind (h.contents field) fun found =>
    relates.bind h.identity fun identity => relates.build (Term.select found.1 identity)
  by_cases matching : priorOf field.tag field.index base = prior
  · rw [if_neg (not_not_intro matching), if_neg (not_not_intro matching)]
    exact read
  · rw [if_pos matching, if_pos matching]
    exact relates.bind (relates.fault _) fun _ => read

-- ========================================================= all expressions

/-- An expression with related parts. -/
theorem relatedAt_of_children {e : Expr}
    (parts : ∀ part ∈ e.children, RelatedAt R (sizeOf e) part) :
    RelatedAt R (sizeOf e + 1) e := by
  have children : ∀ part ∈ e.children, RelatedAt R (sizeOf e + 1) part :=
    fun part among => (parts part among).mono relates (Nat.le_succ _)
  cases e with
  | var name ty => exact relates.relatedAt_var name ty
  | int value => exact relates.stateless (relates.build _) rfl
  | bool value => exact relates.stateless (relates.build _) rfl
  | binary op left right =>
      exact relates.relatedAt_binary (children left (by simp [Expr.children]))
        (children right (by simp [Expr.children]))
  | logical op operands => exact relates.relatedAt_logical children
  | unary op operand => exact relates.relatedAt_unary (children operand (by simp [Expr.children]))
  | ite condition thenBranch elseBranch =>
      exact relates.relatedAt_ite (children condition (by simp [Expr.children]))
        (children thenBranch (by simp [Expr.children]))
        (children elseBranch (by simp [Expr.children]))
  | function signature => exact relates.relatedAt_function signature
  | call callee args => exact relates.relatedAt_call children
  | assign base index value tag =>
      exact relates.relatedAt_assign (parts base (by simp [Expr.children]))
        (parts value (by simp [Expr.children]))
  | access base prior field =>
      exact relates.relatedAt_access (children base (by simp [Expr.children]))

end

theorem relatedAt (relates : Relates R) (e : Expr) : RelatedAt R (sizeOf e + 1) e :=
  relates.relatedAt_of_children fun part among =>
    (relates.relatedAt part).mono relates (Expr.sizeOf_lt_of_mem_children among)
termination_by sizeOf e
decreasing_by exact Expr.sizeOf_lt_of_mem_children among

-- =========================================================== whole answers

section

variable (relates : Relates R)

include relates

theorem lowered {e : Expr} (small : sizeOf e < bound) : R bound (lowered e) (lowered e) := by
  have term : R bound (Builder.lower e >>= fun t => Pure.pure (Lowered.term t))
      (Builder.lower e >>= fun t => Pure.pure (Lowered.term t)) :=
    relates.bind (relates.mono small (relates.relatedAt e).lower) fun _ => relates.pure _
  refine relates.align ?_
  cases e with
  | function signature => exact relates.bind (relates.function signature) fun _ => relates.pure _
  | _ => exact term

theorem loweredAll {exprs : List Expr} (small : ∀ e ∈ exprs, sizeOf e < bound) :
    R bound (loweredAll exprs) (loweredAll exprs) := by
  induction exprs with
  | nil => exact relates.pure []
  | cons first rest ih =>
      unfold Builder.loweredAll
      refine relates.bind (relates.lowered (small first List.mem_cons_self)) fun _ => ?_
      refine relates.bind (ih fun e among => small e (List.mem_cons_of_mem _ among)) fun _ => ?_
      exact relates.pure _

/-- Roots by name, each lowered once. -/
theorem rootTerms (bound : Nat) (roots : List Expr) (terms : Table String Term) :
    R bound (rootTerms roots terms) (rootTerms roots terms) := by
  induction roots generalizing terms with
  | nil => exact relates.pure terms
  | cons root rest ih =>
      unfold Builder.rootTerms
      cases rootName? root with
      | none => exact relates.fault _
      | some named => exact relates.bind (relates.var named.1 named.2) fun _ => ih _

theorem distinctRoots (bound : Nat) (roots : List Expr) :
    R bound (distinctRoots roots) (distinctRoots roots) := by
  unfold Builder.distinctRoots
  exact relates.bind (relates.rootTerms bound roots {}) fun _ => relates.ofExcept _

end

end Relates

-- ================================================================= calls

section

variable {m n : Type → Type} [Monad m] [LawfulMonad m] [Translator m] [Monad n] [LawfulMonad n]
  [Translator n] {R : Nat → ∀ {α : Type}, m α → n α → Prop}

theorem Relates.map (relates : Relates R) {bound : Nat} {α β : Type} {x : m α} {y : n α}
    (h : R bound x y) (f : α → β) : R bound (f <$> x) (f <$> y) := by
  rw [map_eq_pure_bind, map_eq_pure_bind]
  exact relates.bind h fun a => relates.pure (f a)

/-- A call other than a reset is related, for some bound. -/
theorem Relates.perform (relates : Relates R)
    (seen : R 0 (Translator.seen : m (List Term)) (Translator.seen : n (List Term)))
    {call : Call} (keeps : call ≠ .reset) : ∃ bound, R bound (perform call) (perform call) := by
  cases call with
  | lower e => exact ⟨_, relates.map (relates.lowered (Nat.lt_succ_self (sizeOf e))) _⟩
  | lowerAll exprs =>
      exact ⟨sizeOf exprs,
        relates.map (relates.loweredAll fun e among => List.sizeOf_lt_of_mem among) _⟩
  | distinct roots =>
      cases roots with
      | some roots => exact ⟨0, relates.map (relates.distinctRoots 0 roots) _⟩
      | none => exact ⟨0, relates.map (relates.bind seen fun _ => relates.ofExcept _) _⟩
  | reset => exact absurd rfl keeps

end

end Lowering.Builder

end SymbolicHeap
