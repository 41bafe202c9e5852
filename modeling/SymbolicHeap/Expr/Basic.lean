/-
Symbolic expressions.

An expression is a tree over variables, literals, operators, calls of
uninterpreted functions, and the two heap nodes: `assign` is the state of
an object after one field write, `access` is the value of a field in a
state.  The states of one object form a chain of `assign` nodes down to
its root, a variable of object type.

Trees share their parts freely: a chain of reads and writes that is
linear in memory may be exponential as a tree.  Equality looks at a
shared part once, since it answers at once for two shares of one node.
-/
import SymbolicHeap.Expr.Operator
import SymbolicHeap.Ty

namespace SymbolicHeap

/-- The name and the type of an uninterpreted function. -/
structure Signature where
  name : String
  args : List Ty
  result : Ty
deriving DecidableEq, Repr

def Signature.ty (signature : Signature) : Ty :=
  .function signature.args signature.result

/-- A field of every object of one tag, read or written at one type. -/
structure Field where
  tag : String
  index : Nat
  ty : Ty
deriving DecidableEq, Repr

/-- Whether a place, whatever is held there, is that of the field. -/
def Field.isAt (field : Field) (index : Nat) (tag : String) : Bool :=
  index = field.index ∧ tag = field.tag

inductive Expr
  | var (name : String) (ty : Ty)
  | int (value : Int)
  | bool (value : Bool)
  | binary (op : BinaryOp) (left right : Expr)
  | logical (op : Connective) (operands : List Expr)
  | unary (op : UnaryOp) (operand : Expr)
  | ite (condition thenBranch elseBranch : Expr)
  /-- An uninterpreted function itself. -/
  | function (signature : Signature)
  | call (callee : Signature) (args : List Expr)
  /-- The object state `base` after a write of `value` to one field. -/
  | assign (base : Expr) (index : Nat) (value : Expr) (tag : String)
  /-- The value of a field in the object state `base`; `prior` is the
  state just before the newest write to that field, if there was one. -/
  | access (base : Expr) (prior : Option Expr) (field : Field)
deriving Inhabited

namespace Expr

-- ============================================================= equality

mutual

/-- Decides whether two expressions are the same tree. -/
def decEq (a b : Expr) : Decidable (a = b) :=
  withPtrEqDecEq a b fun _ =>
    if same : a.ctorIdx = b.ctorIdx then
      match a, b, same with
      | .var m s, .var n t, _ => decidable_of_iff (m = n ∧ s = t) (by simp)
      | .int m, .int n, _ => decidable_of_iff (m = n) (by simp)
      | .bool m, .bool n, _ => decidable_of_iff (m = n) (by simp)
      | .binary o l r, .binary p l' r', _ =>
          decideIff
            (decideBoth (decEqOf o p) fun _ => decideBoth (decEq l l') fun _ => decEq r r')
            (by simp)
      | .logical o es, .logical p es', _ =>
          decideIff (decideBoth (decEqOf o p) fun _ => decEqs es es') (by simp)
      | .unary o e, .unary p e', _ =>
          decideIff (decideBoth (decEqOf o p) fun _ => decEq e e') (by simp)
      | .ite c t e, .ite c' t' e', _ =>
          decideIff
            (decideBoth (decEq c c') fun _ => decideBoth (decEq t t') fun _ => decEq e e')
            (by simp)
      | .function s, .function t, _ => decidable_of_iff (s = t) (by simp)
      | .call s es, .call t es', _ =>
          decideIff (decideBoth (decEqOf s t) fun _ => decEqs es es') (by simp)
      | .assign b i v t, .assign b' i' v' t', _ =>
          decideIff
            (decideBoth (decEqOf (i, t) (i', t')) fun _ =>
              decideBoth (decEq v v') fun _ => decEq b b')
            (by simp; grind)
      | .access b p f, .access b' p' f', _ =>
          decideIff
            (decideBoth (decEqOf f f') fun _ =>
              decideBoth (decEq b b') fun _ => decEqOption p p')
            (by simp; grind)
    else isFalse fun h => same (h ▸ rfl)

/-- Decides whether two lists of expressions are the same. -/
def decEqs : (as bs : List Expr) → Decidable (as = bs)
  | [], [] => isTrue rfl
  | [], _ :: _ => isFalse nofun
  | _ :: _, [] => isFalse nofun
  | a :: as, b :: bs => decideIff (decideBoth (decEq a b) fun _ => decEqs as bs) (by simp)

/-- Decides whether two optional expressions are the same. -/
def decEqOption : (a b : Option Expr) → Decidable (a = b)
  | none, none => isTrue rfl
  | none, some _ => isFalse nofun
  | some _, none => isFalse nofun
  | some a, some b => decideIff (decEq a b) (by simp)

end

instance : DecidableEq Expr := decEq

-- =============================================================== typing

/-- The type of an expression.  It is what the checks at construction
found; where they would have failed it is arbitrary. -/
def typeOf : Expr → Ty
  | var _ ty => ty
  | int _ => .int
  | bool _ => .bool
  | binary op left _ =>
      match op with
      | .select => ((typeOf left).element?).getD .int
      | .add | .sub | .mul | .div | .mod => .int
      | .eq | .ne | .lt | .le | .gt | .ge => .bool
  | logical _ _ => .bool
  | unary _ operand => typeOf operand
  | ite _ thenBranch _ => typeOf thenBranch
  | function signature => signature.ty
  | call callee _ => callee.result
  | assign _ _ _ _ => .object
  | access _ _ field => field.ty

-- =========================================================== components

/-- The parts that an expression is evaluated from, in order.  The prior
state of a read and the signature of a call are no such parts. -/
def children : Expr → List Expr
  | var _ _ | int _ | bool _ | function _ => []
  | binary _ left right => [left, right]
  | logical _ operands => operands
  | unary _ operand => [operand]
  | ite condition thenBranch elseBranch => [condition, thenBranch, elseBranch]
  | call _ args => args
  | assign base _ value _ => [base, value]
  | access base _ _ => [base]

/-- What the writes of an object state were made on. -/
def bottom : Expr → Expr
  | assign base _ _ _ => bottom base
  | state => state

/-- How many writes an object state stands on. -/
def writes : Expr → Nat
  | assign base _ _ _ => writes base + 1
  | _ => 0

/-- The name of the object whose state an expression is. -/
def root? (state : Expr) : Option String :=
  match state.bottom with
  | var name .object => some name
  | _ => none

end Expr

end SymbolicHeap
