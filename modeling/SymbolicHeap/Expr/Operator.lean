/-
The operators of expressions: their names, symbols and families.
-/
namespace SymbolicHeap

/-- Operators on two operands; `select` reads an array at an index. -/
inductive BinaryOp
  | add
  | sub
  | mul
  | div
  | mod
  | eq
  | ne
  | lt
  | le
  | gt
  | ge
  | select
deriving DecidableEq, Repr

/-- Logical connectives: `and` and `or` take one operand or more, `not`
takes one and `implies` two. -/
inductive Connective
  | and
  | or
  | not
  | implies
deriving DecidableEq, Repr

/-- Operators on one operand. -/
inductive UnaryOp
  | neg
  | not
deriving DecidableEq, Repr

namespace BinaryOp

def all : List BinaryOp :=
  [add, sub, mul, div, mod, eq, ne, lt, le, gt, ge, select]

def name : BinaryOp → String
  | add => "ADD"
  | sub => "SUB"
  | mul => "MUL"
  | div => "DIV"
  | mod => "MOD"
  | eq => "EQ"
  | ne => "NE"
  | lt => "LT"
  | le => "LE"
  | gt => "GT"
  | ge => "GE"
  | select => "SELECT"

/-- The symbol between the operands. -/
def symbol : BinaryOp → String
  | add => "+"
  | sub => "-"
  | mul => "*"
  | div => "/"
  | mod => "%"
  | eq => "=="
  | ne => "!="
  | lt => "<"
  | le => "<="
  | gt => ">"
  | ge => ">="
  | select => "@"

def ofName? (name : String) : Option BinaryOp :=
  all.find? (·.name = name)

/-- Integers in, integer out. -/
def isArithmetic : BinaryOp → Bool
  | add | sub | mul | div | mod => true
  | _ => false

/-- Two values of one type in, truth out. -/
def isEquality : BinaryOp → Bool
  | eq | ne => true
  | _ => false

/-- Integers in, truth out. -/
def isOrdering : BinaryOp → Bool
  | lt | le | gt | ge => true
  | _ => false

end BinaryOp

namespace Connective

def all : List Connective := [and, or, not, implies]

def name : Connective → String
  | and => "AND"
  | or => "OR"
  | not => "NOT"
  | implies => "IMPLIES"

def symbol : Connective → String
  | and => "&&"
  | or => "||"
  | not => "!"
  | implies => "=>"

def ofName? (name : String) : Option Connective :=
  all.find? (·.name = name)

/-- How many operands the connective takes, where the number is fixed. -/
def arity? : Connective → Option Nat
  | and | or => none
  | not => some 1
  | implies => some 2

end Connective

namespace UnaryOp

def all : List UnaryOp := [neg, not]

def name : UnaryOp → String
  | neg => "NEG"
  | not => "NOT"

def symbol : UnaryOp → String
  | neg => "-"
  | not => "!"

def ofName? (name : String) : Option UnaryOp :=
  all.find? (·.name = name)

end UnaryOp

end SymbolicHeap
