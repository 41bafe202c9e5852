/-
Runs whose values are made on the way.

In a run of a heap the values are given with the actions.  A program makes
them as it goes: what it stores may be a read it was answered, the newest
state of an object, or a node built from such.  Here is a run with steps of
that kind (`Progress`): a step names its values by where they come from, so
that the same steps make sense on another heap, where the answers are other
trees.

On heaps that are alike, such runs stay alike, step by step, and so do the
answers and all that was built (`Alike.afterAll`).
-/
import SymbolicHeap.Proofs.Heap.Alike

namespace SymbolicHeap

open Lowering

namespace Heap

-- ================================================================ the steps

/-- Where an expression for a later step comes from. -/
inductive Part
  /-- One that was there before. -/
  | known (expr : Expr)
  /-- What the step of a number answered or built. -/
  | made (number : Nat)
  /-- The newest state behind a handle. -/
  | current (ref : Ref)

/-- What may be done later: an action on the heap, or the construction of
one node other than a read, from parts that may be answers themselves. -/
inductive Step
  | act (action : Action)
  | writeSlot (ref : Ref) (value : Part)
  | writeField (ref : Ref) (index : Datum) (value : Part)
  | writeElement (ref : Ref) (index : Datum) (value : Part)
  | binary (op : BinaryOp) (left right : Part)
  | logical (op : Connective) (operands : List Part)
  | unary (op : UnaryOp) (operand : Part)
  | ite (condition thenBranch elseBranch : Part)
  | call (name : String) (args : List Ty) (result : Ty) (operands : List Part)
  | assign (base : Part) (index : Datum) (value : Part) (tag : String)

/-- A heap with what has been answered and built on the way; a step that
is refused leaves nothing. -/
structure Progress where
  heap : Heap
  made : List (Option Answer) := []

namespace Progress

/-- The expression that a part stands for by now. -/
def value? (progress : Progress) : Part → Option Expr
  | .known expr => some expr
  | .made number =>
      match progress.made[number]? with
      | some (some (.expr expr)) => some expr
      | _ => none
  | .current ref => (progress.heap.current ref).toOption

def perform (progress : Progress) (action : Action) : Progress where
  heap := Heap.after progress.heap action
  made := progress.made ++ [((Heap.perform action).run progress.heap).1.toOption]

/-- Performs an action on a value, if there is one. -/
def performOn (progress : Progress) (value : Option Expr) (action : Expr → Action) : Progress :=
  match value with
  | some value => progress.perform (action value)
  | none => { progress with made := progress.made ++ [none] }

/-- Keeps an expression, if it could be built. -/
def keep (progress : Progress) (built : Option Expr) : Progress :=
  { progress with made := progress.made ++ [built.map .expr] }

/-- One step, refused or not. -/
def after (progress : Progress) : Step → Progress
  | .act action => progress.perform action
  | .writeSlot ref value => progress.performOn (progress.value? value) (.writeSlot ref)
  | .writeField ref index value =>
      progress.performOn (progress.value? value) (.writeField ref index)
  | .writeElement ref index value =>
      progress.performOn (progress.value? value) (.writeElement ref index)
  | .binary op left right => progress.keep do
      (Build.binary op (← progress.value? left) (← progress.value? right)).toOption
  | .logical op operands => progress.keep do
      (Build.logical op (← operands.mapM progress.value?)).toOption
  | .unary op operand => progress.keep do
      (Build.unary op (← progress.value? operand)).toOption
  | .ite condition thenBranch elseBranch => progress.keep do
      (Build.ite (← progress.value? condition) (← progress.value? thenBranch)
        (← progress.value? elseBranch)).toOption
  | .call name args result operands => progress.keep do
      let callee ← (Build.signature name args result).toOption
      (Build.call callee (← operands.mapM progress.value?)).toOption
  | .assign base index value tag => progress.keep do
      (Build.assign (← progress.value? base) index (← progress.value? value) tag).toOption

def afterAll (progress : Progress) (steps : List Step) : Progress :=
  steps.foldl after progress

end Progress

-- ====================================================== runs side by side

/-- What is built from alike parts is alike on both sides, or refused on
both. -/
theorem Rel.built {left right : Except Expr.Misfit Expr}
    (there : ∀ e, left = .ok e → ∃ e', right = .ok e' ∧ e.Alike e')
    (back : ∀ e, right = .ok e → ∃ e', left = .ok e' ∧ e.Alike e') :
    Option.Rel Expr.Alike left.toOption right.toOption := by
  cases left with
  | ok e =>
      obtain ⟨e', rfl, alike⟩ := there e rfl
      exact .some alike
  | error misfit =>
      cases right with
      | ok e =>
          obtain ⟨_, h, -⟩ := back e rfl
          cases h
      | error misfit' => exact .none

namespace Progress

/-- Two runs that have come to the same, as far as a lowering can tell. -/
structure Alike (left right : Progress) : Prop where
  heaps : left.heap.Alike right.heap
  reached : left.heap.Reached
  reached' : right.heap.Reached
  made : List.Forall₂ (Option.Rel (Answer.Rel Expr.Alike)) left.made right.made

namespace Alike

variable {left right : Progress}

/-- A part stands for the same on both sides, or for nothing. -/
theorem value? (alike : left.Alike right) (part : Part) :
    Option.Rel Expr.Alike (left.value? part) (right.value? part) := by
  cases part with
  | known expr => exact .some (.refl expr)
  | current ref => exact alike.heaps.current ref
  | made number =>
      have answers : Option.Rel (Option.Rel (Answer.Rel Expr.Alike)) left.made[number]?
          right.made[number]? := by
        obtain ⟨-, -, -, made⟩ := alike
        generalize left.made = made₁ at made
        generalize right.made = made₂ at made
        induction made generalizing number with
        | nil => exact .none
        | cons first _ ih =>
            cases number with
            | zero => exact .some first
            | succ number => exact ih number
      simp only [Progress.value?]
      generalize left.made[number]? = answer at answers
      generalize right.made[number]? = answer' at answers
      cases answers with
      | none => exact .none
      | some same =>
          cases same with
          | none => exact .none
          | some same =>
              cases same with
              | expr h => exact .some h
              | _ => exact .none

theorem values? (alike : left.Alike right) (parts : List Part) :
    Option.Rel (List.Forall₂ Expr.Alike) (parts.mapM left.value?) (parts.mapM right.value?) := by
  induction parts with
  | nil => exact .some .nil
  | cons part rest ih =>
      rw [List.mapM_cons, List.mapM_cons]
      refine Rel.bind (alike.value? part) fun e e' first => Rel.bind ih fun es es' others => ?_
      exact .some (.cons first others)

/-- One action, on values that are alike. -/
theorem perform (alike : left.Alike right) {action action' : Action}
    (same : action.Alike action') : (left.perform action).Alike (right.perform action') := by
  obtain ⟨answers, heaps⟩ := alike.heaps.after_alike alike.reached alike.reached' same
  exact ⟨heaps, alike.reached.after_action action, alike.reached'.after_action action',
    List.rel_append alike.made (.cons answers .nil)⟩

theorem performOn (alike : left.Alike right) {value value' : Option Expr}
    (hvalue : Option.Rel Expr.Alike value value') {action : Expr → Action}
    (same : ∀ e e', e.Alike e' → (action e).Alike (action e')) :
    (left.performOn value action).Alike (right.performOn value' action) := by
  cases hvalue with
  | none => exact { alike with made := List.rel_append alike.made (.cons .none .nil) }
  | some h => exact alike.perform (same _ _ h)

theorem keep (alike : left.Alike right) {built built' : Option Expr}
    (hbuilt : Option.Rel Expr.Alike built built') : (left.keep built).Alike (right.keep built') := by
  refine { alike with made := List.rel_append alike.made (.cons ?_ .nil) }
  cases hbuilt with
  | none => exact .none
  | some h => exact .some (.expr h)

theorem operands_symm {es es' : List Expr} (h : List.Forall₂ Expr.Alike es es') :
    List.Forall₂ Expr.Alike es' es :=
  (h.imp fun _ _ => Expr.Alike.symm).flip

/-- One step, refused or not. -/
theorem after (alike : left.Alike right) (step : Step) :
    (left.after step).Alike (right.after step) := by
  cases step with
  | act action => exact alike.perform (.refl action)
  | writeSlot ref value =>
      exact alike.performOn (alike.value? value) fun _ _ => .writeSlot ref
  | writeField ref index value =>
      exact alike.performOn (alike.value? value) fun _ _ => .writeField ref index
  | writeElement ref index value =>
      exact alike.performOn (alike.value? value) fun _ _ => .writeElement ref index
  | binary op l r =>
      refine alike.keep (Rel.bind (alike.value? l) fun _ _ hl => ?_)
      refine Rel.bind (alike.value? r) fun _ _ hr => ?_
      exact Rel.built (fun _ => Build.binary_alike hl hr)
        fun _ => Build.binary_alike hl.symm hr.symm
  | logical op operands =>
      refine alike.keep (Rel.bind (alike.values? operands) fun _ _ h => ?_)
      exact Rel.built (fun _ => Build.logical_alike h)
        fun _ => Build.logical_alike (operands_symm h)
  | unary op operand =>
      refine alike.keep (Rel.bind (alike.value? operand) fun _ _ h => ?_)
      exact Rel.built (fun _ => Build.unary_alike h) fun _ => Build.unary_alike h.symm
  | ite condition thenBranch elseBranch =>
      refine alike.keep (Rel.bind (alike.value? condition) fun _ _ hc => ?_)
      refine Rel.bind (alike.value? thenBranch) fun _ _ hl => ?_
      refine Rel.bind (alike.value? elseBranch) fun _ _ hr => ?_
      exact Rel.built (fun _ => Build.ite_alike hc hl hr)
        fun _ => Build.ite_alike hc.symm hl.symm hr.symm
  | call name args result operands =>
      refine alike.keep ?_
      cases hcallee : Build.signature name args result with
      | error misfit => exact .none
      | ok callee =>
          show Option.Rel _ (operands.mapM left.value? >>= fun es => (Build.call callee es).toOption)
            (operands.mapM right.value? >>= fun es => (Build.call callee es).toOption)
          refine Rel.bind (alike.values? operands) fun _ _ h => ?_
          exact Rel.built (fun _ => Build.call_alike hcallee h)
            fun _ => Build.call_alike hcallee (operands_symm h)
  | assign base index value tag =>
      refine alike.keep (Rel.bind (alike.value? base) fun _ _ hbase => ?_)
      refine Rel.bind (alike.value? value) fun _ _ hvalue => ?_
      exact Rel.built (fun _ => Build.assign_alike hbase hvalue)
        fun _ => Build.assign_alike hbase.symm hvalue.symm

/-- Any number of steps. -/
theorem afterAll (alike : left.Alike right) (steps : List Step) :
    (left.afterAll steps).Alike (right.afterAll steps) := by
  induction steps generalizing left right with
  | nil => exact alike
  | cons step rest ih => exact ih (alike.after step)

end Alike

end Progress

end Heap

end SymbolicHeap
