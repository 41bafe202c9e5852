/-
The value of a term.

The value of a term under an interpretation is put together from those of
its arguments (`Interp.eval`).  Below are the values of the terms that are
built; nothing after this file looks at their heads again.
-/
import SymbolicHeap.Proofs.Semantics.Value

namespace SymbolicHeap

-- ============================================================ induction

/-- Induction over terms, with the hypothesis for every argument. -/
@[induction_eliminator]
theorem Term.induction {motive : Term → Prop}
    (app : ∀ head args, (∀ t ∈ args, motive t) → motive (.app head args)) :
    ∀ t, motive t := by
  refine fun t => Term.rec (motive_1 := motive) (motive_2 := fun ts => ∀ t ∈ ts, motive t)
    app ?_ ?_ t
  · intro t ht
    cases ht
  · intro first rest hfirst hrest t ht
    rcases List.mem_cons.1 ht with rfl | ht
    · exact hfirst
    · exact hrest t ht

-- ============================================================ evaluation

namespace Interp

/-- What a head makes of values. -/
noncomputable def apply (I : Interp) : Head → List Value → Value
  | .numeral value, _ => .int value
  | .truth value, _ => .bool value
  | .symbol symbol, args => I.symbol symbol args
  | .op op, args => I.operation op args

mutual

/-- The value of a term. -/
noncomputable def eval (I : Interp) : Term → Value
  | .app head args => I.apply head (I.evalAll args)

/-- The values of several terms. -/
noncomputable def evalAll (I : Interp) : List Term → List Value
  | [] => []
  | term :: rest => I.eval term :: I.evalAll rest

end

variable (I : Interp)

/-- The arguments are evaluated one by one. -/
theorem evalAll_eq_map (terms : List Term) : I.evalAll terms = terms.map I.eval := by
  induction terms with
  | nil => rw [evalAll, List.map_nil]
  | cons term rest ih => rw [evalAll, ih, List.map_cons]

/-- The value of a term by its head and the values of its arguments; from
here on the recursion is not opened again. -/
theorem eval_app (head : Head) (args : List Term) :
    I.eval (.app head args) = I.apply head (args.map I.eval) := by
  rw [eval, evalAll_eq_map]

@[simp]
theorem eval_numeral (value : Int) : I.eval (.numeral value) = .int value := by
  rw [Term.numeral, eval_app, apply]

@[simp]
theorem eval_truth (value : Bool) : I.eval (.truth value) = .bool value := by
  rw [Term.truth, eval_app, apply]

/-- A symbol is applied to the values, whatever sorts these have. -/
@[simp]
theorem eval_call (symbol : Symbol) (args : List Term) :
    I.eval (.call symbol args) = I.symbol symbol (args.map I.eval) := by
  rw [Term.call, eval_app, apply]

@[simp]
theorem eval_neg (a : Term) : I.eval (.neg a) = .int (-(I.eval a).toInt) := by
  rw [Term.neg, eval_app, apply]
  rfl

@[simp]
theorem eval_binary (op : Op) (a b : Term) :
    I.eval (.binary op a b) = I.operation op [I.eval a, I.eval b] := by
  rw [Term.binary, eval_app, apply]
  rfl

@[simp]
theorem eval_not (a : Term) : I.eval (.not a) = .bool !(I.eval a).truth := by
  rw [Term.not, eval_app, apply]
  rfl

/-- Of the two branches only the chosen one decides. -/
@[simp]
theorem eval_ite (condition a b : Term) :
    I.eval (.ite condition a b)
      = if (I.eval condition).truth then I.eval a else I.eval b := by
  rw [Term.ite, eval_app, apply]
  rfl

/-- An array is read at an index. -/
@[simp]
theorem eval_select (array index : Term) :
    I.eval (.select array index) = (I.eval array).element (I.eval index) := by
  rw [Term.select, eval_binary]
  rfl

/-- An array is changed at an index. -/
@[simp]
theorem eval_store (array index value : Term) :
    I.eval (.store array index value)
      = (I.eval array).update (I.eval index) (I.eval value) := by
  rw [Term.store, eval_app, apply]
  rfl

/-- No two of the values are the same. -/
@[simp]
theorem eval_distinct (terms : List Term) :
    I.eval (.distinct terms) = .bool (Value.allDiffer (terms.map I.eval)) := by
  rw [Term.distinct, eval_app, apply]
  rfl

/-- Which way around a comparison is built does not matter. -/
theorem eval_compare {op : Op}
    (h : op = .eq ∨ op = .distinct ∨ op = .lt ∨ op = .le ∨ op = .gt ∨ op = .ge)
    (a b : Term) : I.eval (.compare op a b) = I.operation op [I.eval a, I.eval b] := by
  unfold Term.compare
  split
  next turned => rw [eval_binary, operation_turned I h]
  next straight => rw [eval_binary]

end Interp

end SymbolicHeap
