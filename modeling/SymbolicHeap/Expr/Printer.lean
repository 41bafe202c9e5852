/-
The text of an expression.

Operators stand between their operands in parentheses, `not` in front
without any; a field write is `state{index := value}`, a field read
`state.index`, an array read `array[index]`.
-/
import SymbolicHeap.Expr.Basic

namespace SymbolicHeap

namespace Signature

/-- A function with its type, in parentheses. -/
def render (signature : Signature) : String :=
  s!"({signature.name}: {signature.ty})"

end Signature

namespace Expr

mutual

/-- The text of an expression. -/
def render : Expr → String
  | var name _ => name
  | int value => toString value
  | bool value => if value then "true" else "false"
  | binary .select left right => left.render ++ "[" ++ right.render ++ "]"
  | binary op left right => "(" ++ left.render ++ " " ++ op.symbol ++ " " ++ right.render ++ ")"
  | logical .not operands => "!" ++ (renderAll operands).headD ""
  | logical op operands =>
      "(" ++ (" " ++ op.symbol ++ " ").intercalate (renderAll operands) ++ ")"
  | unary op operand => "(" ++ op.symbol ++ operand.render ++ ")"
  | ite condition thenBranch elseBranch =>
      "(if " ++ condition.render ++ " then " ++ thenBranch.render
        ++ " else " ++ elseBranch.render ++ ")"
  | function signature => signature.render
  | call callee args => callee.name ++ "(" ++ ", ".intercalate (renderAll args) ++ ")"
  | assign base index value _ =>
      base.render ++ "\x7b" ++ toString index ++ " := " ++ value.render ++ "\x7d"
  | access base _ field => base.render ++ "." ++ toString field.index

/-- The texts of a list of expressions. -/
def renderAll : List Expr → List String
  | [] => []
  | expr :: rest => expr.render :: renderAll rest

end

instance : ToString Expr := ⟨render⟩

/-- The name of an expression's outermost node in messages. -/
def nodeName : Expr → String
  | var _ _ => "Variable"
  | int _ => "IntConstant"
  | bool _ => "BoolConstant"
  | binary _ _ _ => "BinaryOp"
  | logical _ _ => "LogicalOp"
  | unary _ _ => "UnaryOp"
  | ite _ _ _ => "TernaryOp"
  | function _ => "FunctionDecl"
  | call _ _ => "FunctionCall"
  | assign _ _ _ _ => "FieldAssign"
  | access _ _ _ => "FieldAccess"

end Expr

end SymbolicHeap
