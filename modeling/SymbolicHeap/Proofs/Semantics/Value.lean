/-
Values, and what is left open of them.

A value is an unbounded integer, a truth value, or an array: a total
function from the integers.  An interpretation (`Interp`) fixes all that
the operations leave open: the names, as functions on values, and the
results of division by zero, which may hang on the dividend.

Names are interpreted in one of two ways (`Named`).  Expressions are
written with whole names at some sorts (`Label`); terms are built from the
symbols that a solver makes of these (`Symbol`).  An interpretation is
over symbols unless something else is said.

Operations on values are total.  On values of the wrong sorts their
results mean nothing; these are the `0`, `false` and constant array below,
and no statement about well-sorted terms comes near them.
-/
import SymbolicHeap.Lowering.Symbols

namespace SymbolicHeap

open Lowering

inductive Value
  | int (value : Int)
  | bool (value : Bool)
  | array (elements : Int → Value)

namespace Value

-- ============================================================== reading

def toInt : Value → Int
  | int value => value
  | _ => 0

def truth : Value → Bool
  | bool value => value
  | _ => false

def elements : Value → Int → Value
  | array elements => elements
  | _ => fun _ => int 0

/-- The element of an array at an index. -/
def element (array index : Value) : Value := array.elements index.toInt

/-- An array with another value at an index. -/
def update (array index value : Value) : Value :=
  .array fun i => if i = index.toInt then value else array.elements i

/-- Whether two values are the same; arrays are if they agree at every
index, so this cannot be computed. -/
noncomputable def same (a b : Value) : Bool :=
  @decide (a = b) (Classical.propDecidable _)

@[simp]
theorem same_eq_true {a b : Value} : a.same b = true ↔ a = b :=
  @decide_eq_true_iff _ (Classical.propDecidable _)

/-- Whether no two of several values are the same. -/
noncomputable def allDiffer (values : List Value) : Bool :=
  @decide values.Nodup (Classical.propDecidable _)

@[simp]
theorem allDiffer_eq_true {values : List Value} :
    allDiffer values = true ↔ values.Nodup :=
  @decide_eq_true_iff _ (Classical.propDecidable _)

theorem same_comm (a b : Value) : a.same b = b.same a := by
  rw [Bool.eq_iff_iff, same_eq_true, same_eq_true]
  exact eq_comm

/-- Two values differ if they are not the same. -/
theorem allDiffer_two (a b : Value) : allDiffer [a, b] = !a.same b := by
  rw [Bool.eq_iff_iff, allDiffer_eq_true, Bool.not_eq_true', ← Bool.not_eq_true, same_eq_true]
  simp

/-- What was written is read. -/
@[simp]
theorem element_update (array index value : Value) :
    (array.update index value).element index = value := by
  simp [element, update, elements]

-- ================================================================ sorts

/-- The values of a sort. -/
def HasSort : Value → Srt → Prop
  | int _, .int => True
  | bool _, .bool => True
  | array elements, .array element => ∀ index, (elements index).HasSort element
  | _, _ => False

@[simp]
theorem hasSort_int (value : Int) : (int value).HasSort .int := trivial

@[simp]
theorem hasSort_bool (value : Bool) : (bool value).HasSort .bool := trivial

/-- A value of the sort of truth values is one. -/
theorem eq_bool_of_hasSort {value : Value} (h : value.HasSort .bool) :
    value = .bool value.truth := by
  cases value with
  | bool b => rfl
  | int n => exact h.elim
  | array elements => exact h.elim

theorem HasSort.element {array : Value} {s : Srt} (h : array.HasSort (.array s))
    (index : Value) : (array.element index).HasSort s := by
  cases array with
  | array elements => exact h _
  | int n => exact h.elim
  | bool b => exact h.elim

theorem HasSort.update {array value : Value} {s : Srt} (h : array.HasSort (.array s))
    (hv : value.HasSort s) (index : Value) : (array.update index value).HasSort (.array s) := by
  intro i
  show (if i = index.toInt then value else array.elements i).HasSort s
  split
  next here => exact hv
  next there => exact h.element (.int i)

/-- A value of a sort, where it does not matter which one. -/
def zero : Srt → Value
  | .int => int 0
  | .bool => bool false
  | .array element => array fun _ => zero element

theorem hasSort_zero (s : Srt) : (zero s).HasSort s := by
  induction s with
  | int => trivial
  | bool => trivial
  | array element ih => exact fun _ => ih

end Value

-- ======================================================= interpretations

/-- What a name at some sorts may be taken for. -/
class Named (σ : Type) where
  ofName (name : String) (args : List Srt) (result : Srt) : σ
  result : σ → Srt

/-- A solver takes a name for the symbol that it reads. -/
instance : Named Symbol := ⟨Symbol.ofName, Symbol.result⟩

/-- A name taken for itself. -/
instance : Named Label := ⟨Label.mk, Label.result⟩

/-- An interpretation of all symbols, or of whole names.  What a symbol
makes of arguments of the wrong sorts does not matter, so it is of the
right sort too. -/
structure Interp (σ : Type := Symbol) [Named σ] where
  symbol : σ → List Value → Value
  quotientByZero : Int → Int
  remainderByZero : Int → Int
  sorted : ∀ s args, (symbol s args).HasSort (Named.result s)

variable {σ : Type} [Named σ]

instance : Inhabited (Interp σ) :=
  ⟨{ symbol := fun s _ => .zero (Named.result s)
     quotientByZero := fun _ => 0
     remainderByZero := fun _ => 0
     sorted := fun s _ => Value.hasSort_zero (Named.result s) }⟩

namespace Interp

/-- Division leaves a remainder between zero and the size of the divisor. -/
def quotient (I : Interp σ) (a b : Int) : Int := if b = 0 then I.quotientByZero a else a / b

def remainder (I : Interp σ) (a b : Int) : Int := if b = 0 then I.remainderByZero a else a % b

/-- The constant of a name. -/
def constant (I : Interp σ) (name : String) (sort : Srt) : Value :=
  I.symbol (Named.ofName name [] sort) []

/-- What the built-in operations make of values. -/
noncomputable def operation (I : Interp) : Op → List Value → Value
  | .neg, [a] => .int (-a.toInt)
  | .add, [a, b] => .int (a.toInt + b.toInt)
  | .sub, [a, b] => .int (a.toInt - b.toInt)
  | .mul, [a, b] => .int (a.toInt * b.toInt)
  | .div, [a, b] => .int (I.quotient a.toInt b.toInt)
  | .mod, [a, b] => .int (I.remainder a.toInt b.toInt)
  | .eq, [a, b] => .bool (a.same b)
  | .distinct, args => .bool (Value.allDiffer args)
  | .lt, [a, b] => .bool (a.toInt < b.toInt)
  | .le, [a, b] => .bool (a.toInt ≤ b.toInt)
  | .gt, [a, b] => .bool (b.toInt < a.toInt)
  | .ge, [a, b] => .bool (b.toInt ≤ a.toInt)
  | .and, [a, b] => .bool (a.truth && b.truth)
  | .or, [a, b] => .bool (a.truth || b.truth)
  | .not, [a] => .bool !a.truth
  | .implies, [a, b] => .bool (!a.truth || b.truth)
  | .ite, [condition, a, b] => if condition.truth then a else b
  | .select, [array, index] => array.element index
  | .store, [array, index, value] => array.update index value
  | _, _ => .int 0

/-- Turning a comparison around with its operands changes nothing. -/
theorem operation_turned (I : Interp) {op : Op}
    (h : op = .eq ∨ op = .distinct ∨ op = .lt ∨ op = .le ∨ op = .gt ∨ op = .ge)
    (a b : Value) : I.operation op.turned [b, a] = I.operation op [a, b] := by
  rcases h with rfl | rfl | rfl | rfl | rfl | rfl
  · simp only [Op.turned, operation, Value.same_comm]
  · have swap : Value.allDiffer [b, a] = Value.allDiffer [a, b] := by
      rw [Value.allDiffer_two, Value.allDiffer_two, Value.same_comm]
    simp only [Op.turned, operation, swap]
  · rfl
  · rfl
  · rfl
  · rfl

end Interp

end SymbolicHeap
