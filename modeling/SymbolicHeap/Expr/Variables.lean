/-
The variables of expressions, in the order of their first occurrence.

The roots of objects that are read or written are among them.  A name
keeps the type of its first occurrence.
-/
import SymbolicHeap.Expr.Basic
import SymbolicHeap.Table

namespace SymbolicHeap.Expr

mutual

/-- Adds the variables of an expression to those met so far. -/
def collectVariables : Expr → Table String Ty → Table String Ty
  | var name ty, met => met.add name ty
  | int _, met | bool _, met | function _, met => met
  | binary _ left right, met => collectVariables right (collectVariables left met)
  | logical _ operands, met => collectAll operands met
  | unary _ operand, met => collectVariables operand met
  | ite condition thenBranch elseBranch, met =>
      collectVariables elseBranch (collectVariables thenBranch (collectVariables condition met))
  | call _ args, met => collectAll args met
  | assign base _ value _, met => collectVariables value (collectVariables base met)
  | access base _ _, met => collectVariables base met

/-- Adds the variables of several expressions, one after the other. -/
def collectAll : List Expr → Table String Ty → Table String Ty
  | [], met => met
  | expr :: rest, met => collectAll rest (collectVariables expr met)

end

/-- The variables of several expressions with their types. -/
def freeVariables (exprs : List Expr) : Table String Ty :=
  collectAll exprs {}

end SymbolicHeap.Expr
