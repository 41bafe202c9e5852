/-
Checked construction of expressions.

Each function here makes one node from parts that are already made, or
says why the parts do not fit (`Expr.Misfit`).  The checks of a node come
in a fixed order and the first one that fails is the answer, so a misfit
is a statement about all the checks before it too.

Some checks put together what they would say before they look.  A number
with too many digits cannot be written, and such a check fails over that,
whether the number fits or not.
-/
import SymbolicHeap.Datum
import SymbolicHeap.Expr.Printer

namespace SymbolicHeap

namespace Expr

-- ============================================================== misfits

/-- The heap nodes, as named in misfits. -/
inductive HeapNode
  | assign
  | access
deriving DecidableEq, Repr

def HeapNode.name : HeapNode → String
  | .assign => "FieldAssign"
  | .access => "FieldAccess"

/-- What stands in a place that only a type with solver values may have. -/
inductive SortedPlace
  | argument (position : Nat)
  | result
  | value
  | field
deriving DecidableEq, Repr

def SortedPlace.text : SortedPlace → String
  | argument position => s!"argument {position}"
  | result => "return value"
  | value => "value"
  | field => "field"

def SortedPlace.node : SortedPlace → String
  | argument _ | result => "FunctionDecl"
  | value => HeapNode.assign.name
  | field => HeapNode.access.name

/-- Why the operands of a binary operator do not fit it. -/
inductive BinaryMisfit
  | notIndexable (left : Ty)
  | notAnIndex (right : Ty)
  | boolInArithmetic (left right : Ty)
  | arrayInArithmetic (left right : Ty)
  | notArithmetic (left right : Ty)
  | typesDiffer (left right : Ty)
  | incomparable (left : Ty)
  | arrayInComparison (left right : Ty)
  | notOrdered (left right : Ty)
deriving DecidableEq, Repr

def BinaryMisfit.detail : BinaryMisfit → String
  | notIndexable left => s!"cannot index into {left}"
  | notAnIndex right => s!"array index must be int, got {right}"
  | boolInArithmetic _ _ => "bool operand in arithmetic"
  | arrayInArithmetic _ _ => "array operand in arithmetic"
  | notArithmetic left right => s!"cannot apply to {left}, {right}"
  | typesDiffer left right => s!"operand types differ: {left} vs {right}"
  | incomparable left => s!"{left} values cannot be compared"
  | arrayInComparison _ _ => "array operand in comparison"
  | notOrdered left right => s!"cannot compare {left}, {right}"

def BinaryMisfit.operands : BinaryMisfit → List Ty
  | notIndexable ty | notAnIndex ty | incomparable ty => [ty]
  | boolInArithmetic left right | arrayInArithmetic left right | notArithmetic left right
  | typesDiffer left right | arrayInComparison left right | notOrdered left right =>
      [left, right]

/-- Why parts do not make an expression. -/
inductive Misfit
  | variableUnnamed
  | notAnInteger (literal : Datum)
  | integerTooWide (value : Int)
  | notATruth (literal : Datum)
  | unknownBinary (operator : Datum)
  | binary (op : BinaryOp) (cause : BinaryMisfit)
  | unknownConnective (operator : Datum)
  | operandCount (op : Connective) (expected given : Nat)
  | noOperands (op : Connective)
  | arrayOperand (op : Connective) (operand : Expr)
  | operandNotBool (op : Connective) (operand : Expr)
  | unknownUnary (operator : Datum)
  | unaryNeeds (op : UnaryOp) (given : Ty)
  | conditionNotBool (given : Ty)
  | branchesDiffer (thenBranch elseBranch : Ty)
  | functionUnnamed
  /-- A type without solver values in a place that needs one. -/
  | unsorted (place : SortedPlace) (ty : Ty)
  | argumentCount (callee : String) (expected given : Nat)
  | argumentType (callee : String) (position : Nat) (expected : Ty) (arg : Expr)
  | baseNotObject (node : HeapNode) (given : Ty)
  | priorNotObject (given : Ty)
  | badIndex (node : HeapNode) (index : Datum)
  /-- An expression that is not a state of one object. -/
  | noObjectState (state : Expr)
  /-- A part of a node that cannot even be written. -/
  | unwritable (name : String) (part : Datum)

namespace Misfit

/-- The node that was not made. -/
def node : Misfit → String
  | variableUnnamed => "Variable"
  | notAnInteger _ | integerTooWide _ => "IntConstant"
  | notATruth _ => "BoolConstant"
  | unknownBinary _ => "BinaryOp"
  | binary op _ => s!"BinaryOp({op.name})"
  | unknownConnective _ => "LogicalOp"
  | operandCount op _ _ | noOperands op | arrayOperand op _ | operandNotBool op _ =>
      s!"LogicalOp({op.name})"
  | unknownUnary _ => "UnaryOp"
  | unaryNeeds op _ => s!"UnaryOp({op.name})"
  | conditionNotBool _ | branchesDiffer _ _ => "TernaryOp"
  | functionUnnamed => "FunctionDecl"
  | unsorted place _ => place.node
  | argumentCount callee _ _ | argumentType callee _ _ _ => s!"FunctionCall({callee})"
  | baseNotObject node _ | badIndex node _ => node.name
  | priorNotObject _ => HeapNode.access.name
  | noObjectState _ => "object_root"
  | unwritable name _ => name

/-- What is wrong, without the node. -/
def detail : Misfit → String
  | variableUnnamed => "variable name must not be empty"
  | notAnInteger literal => s!"expected an int, got {literal.typeName}"
  | integerTooWide value => s!"{value} does not fit in 64 bits"
  | notATruth literal => s!"expected a bool, got {literal.typeName}"
  | unknownBinary operator => s!"unknown binary operator {operator.literal}"
  | binary _ cause => cause.detail
  | unknownConnective operator => s!"unknown logical operator {operator.literal}"
  | operandCount _ expected given => s!"expects {expected} operand(s), got {given}"
  | noOperands _ => "expects at least one operand"
  | arrayOperand _ _ => "array operand in logical expression"
  | operandNotBool _ operand => s!"operand {operand} is not bool"
  | unknownUnary operator => s!"unknown unary operator {operator.literal}"
  | unaryNeeds .not given => s!"needs bool, got {given}"
  | unaryNeeds .neg given => s!"needs int, got {given}"
  | conditionNotBool given => s!"condition must be bool, got {given}"
  | branchesDiffer thenBranch elseBranch => s!"branch types differ: {thenBranch} vs {elseBranch}"
  | functionUnnamed => "function name must not be empty"
  | unsorted place ty => s!"{place.text} of type {ty} has no solver value"
  | argumentCount _ expected given => s!"expects {expected} argument(s), got {given}"
  | argumentType _ position expected arg =>
      s!"argument {position} has type {arg.typeOf}, expected {expected}"
  | baseNotObject _ given => s!"base must be an object, got {given}"
  | priorNotObject given => s!"prior state must be an object, got {given}"
  | badIndex _ index => s!"field index must be a non-negative int, got {index.literal}"
  | noObjectState state => s!"{state} is not an object state"
  | unwritable _ _ => s!"Exceeds the limit ({Text.maxDigits} digits) for integer string conversion"

/-- The texts of the offending parts. -/
def operands : Misfit → List String
  | notAnInteger literal | notATruth literal => [literal.literal]
  | integerTooWide value => [toString value]
  | binary _ cause => cause.operands.map Ty.render
  | arrayOperand _ operand | operandNotBool _ operand => [operand.render]
  | unsorted _ ty => [ty.render]
  | argumentType _ _ _ arg => [arg.render]
  | badIndex _ index => [index.literal]
  | variableUnnamed | unknownBinary _ | unknownConnective _ | operandCount _ _ _ | noOperands _
  | unknownUnary _ | unaryNeeds _ _ | conditionNotBool _ | branchesDiffer _ _ | functionUnnamed
  | argumentCount _ _ _ | baseNotObject _ _ | priorNotObject _ | noObjectState _
  | unwritable _ _ => []

/-- The node, then what is wrong with it. -/
def message (misfit : Misfit) : String :=
  misfit.node ++ ": " ++ misfit.detail

end Misfit

/-- The type of a binary operator on operands of two types. -/
def binaryType (op : BinaryOp) (left right : Ty) : Except BinaryMisfit Ty :=
  match op with
  | .select =>
      match left with
      | .array element => if right = .int then .ok element else .error (.notAnIndex right)
      | _ => .error (.notIndexable left)
  | .add | .sub | .mul | .div | .mod =>
      if left.kind = .bool ∨ right.kind = .bool then .error (.boolInArithmetic left right)
      else if left.kind = .array ∨ right.kind = .array then
        .error (.arrayInArithmetic left right)
      else if left = .int ∧ right = .int then .ok .int
      else .error (.notArithmetic left right)
  | .eq | .ne =>
      if left ≠ right then .error (.typesDiffer left right)
      else if left.kind = .function ∨ left.kind = .ref then .error (.incomparable left)
      else .ok .bool
  | .lt | .le | .gt | .ge =>
      if left.kind = .array ∨ right.kind = .array then .error (.arrayInComparison left right)
      else if left = .int ∧ right = .int then .ok .bool
      else .error (.notOrdered left right)

/-- The root of an object state, or why the expression is none. -/
def rootOf (state : Expr) : Except Misfit String :=
  match state.root? with
  | some name => .ok name
  | none => .error (.noObjectState state.bottom)

end Expr

namespace Build

open SymbolicHeap.Expr (Misfit HeapNode SortedPlace)

/-- Goes on only if a check holds. -/
def require (holds : Bool) (misfit : Misfit) : Except Misfit Unit :=
  if holds then .ok () else .error misfit

/-- What is said of a part, if it can be written. -/
def saying (part : Datum) (misfit : Misfit) : Misfit :=
  if part.isWritable then misfit else .unwritable misfit.node part

/-- Goes on only with a type that has solver values. -/
def requireSorted (place : SortedPlace) (ty : Ty) : Except Misfit Unit :=
  require ty.hasSort (.unsorted place ty)

-- ================================================================ leaves

def var (name : String) (ty : Ty) : Except Misfit Expr :=
  if name = "" then .error .variableUnnamed else .ok (.var name ty)

/-- Whether an integer has a two's complement of 64 bits. -/
def fitsWord (value : Int) : Bool :=
  -0x8000000000000000 ≤ value ∧ value ≤ 0x7fffffffffffffff

def int : Datum → Except Misfit Expr
  | .int value =>
      if fitsWord value then .ok (.int value)
      else .error (saying (.int value) (.integerTooWide value))
  | literal => .error (.notAnInteger literal)

def bool : Datum → Except Misfit Expr
  | .bool value => .ok (.bool value)
  | literal => .error (.notATruth literal)

/-- The literal for a datum: an integer unless it is a truth value. -/
def constant : Datum → Except Misfit Expr
  | .bool value => .ok (.bool value)
  | literal => int literal

/-- Checks the argument types of a signature from a position on. -/
def requireSortedArgs (position : Nat) : List Ty → Except Misfit Unit
  | [] => .ok ()
  | ty :: rest => do
      requireSorted (.argument position) ty
      requireSortedArgs (position + 1) rest

def signature (name : String) (args : List Ty) (result : Ty) : Except Misfit Signature := do
  require (name ≠ "") .functionUnnamed
  requireSortedArgs 0 args
  requireSorted .result result
  return ⟨name, args, result⟩

-- ============================================================= operators

/-- The binary operator of a name. -/
def binaryOp (name : Datum) : Except Misfit BinaryOp :=
  match name with
  | .text text => ((BinaryOp.ofName? text).map .ok).getD (.error (.unknownBinary name))
  | _ => .error (saying name (.unknownBinary name))

def binary (op : BinaryOp) (left right : Expr) : Except Misfit Expr :=
  match Expr.binaryType op left.typeOf right.typeOf with
  | .ok _ => .ok (.binary op left right)
  | .error cause => .error (.binary op cause)

/-- The connective of a name. -/
def connective (name : Datum) : Except Misfit Connective :=
  match name with
  | .text text => ((Connective.ofName? text).map .ok).getD (.error (.unknownConnective name))
  | _ => .error (saying name (.unknownConnective name))

/-- Checks that the operands of a connective are truth values. -/
def requireBools (op : Connective) : List Expr → Except Misfit Unit
  | [] => .ok ()
  | operand :: rest => do
      require (operand.typeOf.kind ≠ .array) (.arrayOperand op operand)
      require (operand.typeOf = .bool) (.operandNotBool op operand)
      requireBools op rest

def logical (op : Connective) (operands : List Expr) : Except Misfit Expr := do
  match op.arity? with
  | some expected =>
      require (operands.length = expected) (.operandCount op expected operands.length)
  | none => require (!operands.isEmpty) (.noOperands op)
  requireBools op operands
  return .logical op operands

/-- The unary operator of a name. -/
def unaryOp (name : Datum) : Except Misfit UnaryOp :=
  match name with
  | .text text => ((UnaryOp.ofName? text).map .ok).getD (.error (.unknownUnary name))
  | _ => .error (saying name (.unknownUnary name))

/-- The type of the operand of a unary operator. -/
def operandTy : UnaryOp → Ty
  | .neg => .int
  | .not => .bool

def unary (op : UnaryOp) (operand : Expr) : Except Misfit Expr :=
  if operand.typeOf = operandTy op then .ok (.unary op operand)
  else .error (.unaryNeeds op operand.typeOf)

def ite (condition thenBranch elseBranch : Expr) : Except Misfit Expr := do
  require (condition.typeOf = .bool) (.conditionNotBool condition.typeOf)
  require (thenBranch.typeOf = elseBranch.typeOf)
    (.branchesDiffer thenBranch.typeOf elseBranch.typeOf)
  return .ite condition thenBranch elseBranch

/-- Checks the arguments of a call against the callee's types, from a
position on. -/
def requireArgs (callee : String) (position : Nat) : List Ty → List Expr → Except Misfit Unit
  | expected :: types, arg :: args => do
      require (arg.typeOf = expected) (.argumentType callee position expected arg)
      requireArgs callee (position + 1) types args
  | _, _ => .ok ()

def call (callee : Signature) (args : List Expr) : Except Misfit Expr := do
  require (args.length = callee.args.length)
    (.argumentCount callee.name callee.args.length args.length)
  requireArgs callee.name 0 callee.args args
  return .call callee args

-- ============================================================ heap nodes

/-- Field indices are the integers from zero on that can be written. -/
def fieldIndex (node : HeapNode) (index : Datum) : Except Misfit Nat := do
  require index.isWritable (.unwritable node.name index)
  match index with
  | .int (.ofNat n) => .ok n
  | _ => .error (.badIndex node index)

def assign (base : Expr) (index : Datum) (value : Expr) (tag : String) :
    Except Misfit Expr := do
  require (base.typeOf = .object) (.baseNotObject .assign base.typeOf)
  let index ← fieldIndex .assign index
  requireSorted .value value.typeOf
  return .assign base index value tag

/-- Checks that a prior state, if there is one, is a state. -/
def requirePrior : Option Expr → Except Misfit Unit
  | some prior => require (prior.typeOf = .object) (.priorNotObject prior.typeOf)
  | none => .ok ()

def access (base : Expr) (index : Datum) (prior : Option Expr) (tag : String) (ty : Ty) :
    Except Misfit Expr := do
  require (base.typeOf = .object) (.baseNotObject .access base.typeOf)
  requirePrior prior
  let index ← fieldIndex .access index
  requireSorted .field ty
  return .access base prior ⟨tag, index, ty⟩

end Build

end SymbolicHeap
