/-
What expressions mean.

The meaning of an expression is given by recursion on the expression
alone; no term, no field array and no memo takes part.  A state of an
object means the identity of the object: that of its root, or, for a
choice between objects, that of the one chosen.  Reading a field of a
state gives the value written last, and below the last write what the
array of the field starts with, at the identity of the root
(`Interp.read`).

The whole array of a field, as a state sees it, is given beside it
(`Interp.contents`); where it is looked up at the identity of the state,
it holds what is read (`element_contents`).
-/
import SymbolicHeap.Expr.Basic
import SymbolicHeap.Proofs.Expr.Made
import SymbolicHeap.Proofs.Semantics.Value

namespace SymbolicHeap

variable {σ : Type} [Named σ]

namespace Interp

-- ================================================================== names

/-- The value of a variable; of an object it is the identity. -/
def var (I : Interp σ) (name : String) : Ty → Value
  | .object => I.constant (name ++ "!id") .int
  | ty =>
      match ty.sort with
      | .ok s => I.constant name s
      | .error _ => .int 0

/-- What the array of a field starts with, for all objects of the tag. -/
def initial (I : Interp σ) (field : Field) : Value :=
  match field.ty.sort with
  | .ok s => I.constant (field.tag ++ "." ++ toString field.index) (.array s)
  | .error _ => .int 0

/-- An uninterpreted function of values. -/
def function (I : Interp σ) (signature : Signature) (args : List Value) : Value :=
  match signature.args.mapM Ty.sort, signature.result.sort with
  | .ok sorts, .ok s => I.symbol (Named.ofName signature.name sorts s) args
  | _, _ => .int 0

variable {I : Interp σ}

theorem var_of_sort {name : String} {ty : Ty} {s : Srt} (h : ty.sort = .ok s) :
    I.var name ty = I.constant name s := by
  cases ty with
  | object => cases h
  | _ => simp only [var, h]

theorem initial_of_sort {field : Field} {s : Srt} (h : field.ty.sort = .ok s) :
    I.initial field
      = I.constant (field.tag ++ "." ++ toString field.index) (.array s) := by
  rw [initial, h]

theorem function_of_sorts {signature : Signature} {sorts : List Srt} {s : Srt}
    (hargs : signature.args.mapM Ty.sort = .ok sorts) (hs : signature.result.sort = .ok s)
    (args : List Value) :
    I.function signature args = I.symbol (Named.ofName signature.name sorts s) args := by
  rw [function, hargs, hs]

-- ============================================================== operators

/-- What the binary operators make of values. -/
noncomputable def binary (I : Interp σ) : BinaryOp → Value → Value → Value
  | .add, a, b => .int (a.toInt + b.toInt)
  | .sub, a, b => .int (a.toInt - b.toInt)
  | .mul, a, b => .int (a.toInt * b.toInt)
  | .div, a, b => .int (I.quotient a.toInt b.toInt)
  | .mod, a, b => .int (I.remainder a.toInt b.toInt)
  | .eq, a, b => .bool (a.same b)
  | .ne, a, b => .bool !(a.same b)
  | .lt, a, b => .bool (a.toInt < b.toInt)
  | .le, a, b => .bool (a.toInt ≤ b.toInt)
  | .gt, a, b => .bool (a.toInt > b.toInt)
  | .ge, a, b => .bool (a.toInt ≥ b.toInt)
  | .select, array, index => array.element index

end Interp

/-- Whether a connective holds of truth values. -/
def Connective.holds : Connective → List Bool → Bool
  | .and, values => values.all id
  | .or, values => values.any id
  | .not, values => !values.headD false
  | .implies, values => !values.headD false || values.getD 1 false

def UnaryOp.apply : UnaryOp → Value → Value
  | .neg, a => .int (-a.toInt)
  | .not, a => .bool !a.truth

-- ============================================================ expressions

namespace Interp

mutual

/-- The value of an expression; a state of an object means the object. -/
noncomputable def value (I : Interp σ) : Expr → Value
  | .var name ty => I.var name ty
  | .int value => .int value
  | .bool value => .bool value
  | .binary op left right => I.binary op (I.value left) (I.value right)
  | .logical op operands => .bool (op.holds ((I.values operands).map Value.truth))
  | .unary op operand => op.apply (I.value operand)
  | .ite condition thenBranch elseBranch =>
      if (I.value condition).truth then I.value thenBranch else I.value elseBranch
  -- a function has no value of its own
  | .function _ => .int 0
  | .call callee args => I.function callee (I.values args)
  | .assign base _ _ _ => I.value base
  | .access base _ field => I.read base field

/-- The values of several expressions. -/
noncomputable def values (I : Interp σ) : List Expr → List Value
  | [] => []
  | expr :: rest => I.value expr :: I.values rest

/-- The value of a field in a state of an object. -/
noncomputable def read (I : Interp σ) : Expr → Field → Value
  | .var name ty, field => (I.initial field).element (I.var name ty)
  | .assign base index value tag, field =>
      if field.isAt index tag then I.value value else I.read base field
  | .ite condition thenBranch elseBranch, field =>
      if (I.value condition).truth then I.read thenBranch field else I.read elseBranch field
  -- nothing else is a state of an object
  | _, _ => .int 0

end

variable (I : Interp σ)

/-- The array of a field as a state of an object sees it. -/
noncomputable def contents : Expr → Field → Value
  | .assign base index value tag, field =>
      if field.isAt index tag then
        (contents base field).update (I.value base) (I.value value)
      else contents base field
  | .ite condition thenBranch elseBranch, field =>
      if (I.value condition).truth then contents thenBranch field else contents elseBranch field
  | _, field => I.initial field

end Interp

-- ================================================================= states

/-- The expressions that are states of objects: roots, what writes leave
behind, and choices between states. -/
inductive Expr.IsState : Expr → Prop
  | var (name : String) : IsState (.var name .object)
  | assign {base : Expr} (index : Nat) (value : Expr) (tag : String) :
      IsState base → IsState (.assign base index value tag)
  | ite (condition : Expr) {thenBranch elseBranch : Expr} :
      IsState thenBranch → IsState elseBranch → IsState (.ite condition thenBranch elseBranch)

/-- What a state reads is what the array holds at its identity. -/
theorem Interp.element_contents (I : Interp σ) {state : Expr} (h : state.IsState)
    (field : Field) : (I.contents state field).element (I.value state) = I.read state field := by
  induction h with
  | var name => simp only [contents, value, read]
  | assign index written tag _ ih =>
      rw [contents, value, read]
      split
      next => exact Value.element_update _ _ _
      next => exact ih
  | ite condition _ _ ihThen ihElse =>
      rw [contents, value, read]
      split
      next => exact ihThen
      next => exact ihElse

end SymbolicHeap
