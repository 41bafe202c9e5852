/-
The symbols that a lowering has handed out.

Variables, object identities, field arrays and functions share one space
of solver symbols, and a solver takes two symbols of equal name and sorts
for the same one.  So each label, a name at some sorts, belongs to the
first owner that asks for it (`owners`), and whoever else wants it is
refused.  A variable keeps the type of its first use; labels are never
taken back.

A label has the whole name, but a solver reads a name only up to its first
null character: in this one way, owners of different labels may still come
to share a symbol.  And it takes no name that cannot be encoded: the label
of such a name is given away, and there is no symbol for it.

An object variable `x` stands for an integer, its identity `x!id`.  Field
`i` of the objects of tag `t`, read at type `T`, is the array `t.i` from
identities to values of `T`.
-/
import SymbolicHeap.Expr.Build
import SymbolicHeap.Smt.Term
import SymbolicHeap.Table

namespace SymbolicHeap

/-- Who a solver symbol stands for. -/
inductive Owner
  | var (name : String)
  | field (tag : String) (index : Nat)
  | function (name : String)
deriving DecidableEq, Repr

/-- The text of an owner in messages. -/
def Owner.render : Owner → String
  | .var name => s!"('variable', {Text.quoted name})"
  | .field tag index => s!"('field', {Text.quoted tag}, {index})"
  | .function name => s!"('function', {Text.quoted name})"

namespace Lowering

-- =============================================================== faults

/-- Why an expression has no solver term. -/
inductive Fault
  /-- A variable comes up at another type than before. -/
  | redeclared (name : String) (known wanted : Ty)
  /-- A variable is of a type without solver values. -/
  | unsorted (ty : Ty)
  /-- A name at some sorts belongs to another owner. -/
  | symbolTaken (name : String) (known wanted : Owner)
  /-- A solver takes no name that cannot be encoded. -/
  | unencodable (name : String)
  | noBinaryRule (op : BinaryOp) (operandTy : Ty)
  | noConnectiveRule (op : Connective)
  /-- An `if` between values that are neither objects nor solver values. -/
  | noBranchRule (ty : Ty)
  | malformed (cause : Expr.Misfit)
  /-- A field was written at another type than it is read at. -/
  | fieldHolds (field : Field) (held : Ty)
  /-- A read whose prior state is not the one before the newest write. -/
  | priorMismatch (base : Expr) (prior : Option Expr) (field : Field)
  /-- Something without a name was given as the root of an object. -/
  | rootUnnamed
  /-- Roots of sorts that have no values in common. -/
  | sortsDiffer

namespace Fault

/-- The read that does not match its state. -/
def misread (base : Expr) (prior : Option Expr) (field : Field) : Expr :=
  .access base prior field

def message : Fault → String
  | redeclared name known wanted =>
      s!"Variable: variable {Text.quoted name} was declared as {known}, not {wanted}"
  | unsorted ty => s!"type {ty} has no solver sort"
  | symbolTaken name known wanted =>
      s!"Z3 symbol {Text.quoted name} is wanted by both {known.render} and {wanted.render}"
  | unencodable name => Text.complaint name
  | noBinaryRule op operandTy => s!"no lowering for {op.name} on {operandTy}"
  | noConnectiveRule op => s!"no lowering for {op.name}"
  | noBranchRule ty => s!"no lowering for a ternary over {ty}"
  | malformed cause => cause.message
  | fieldHolds field held =>
      s!"FieldAccess: field {field.tag}.{field.index} holds {held}, not {field.ty}"
  | priorMismatch _ _ field =>
      s!"pre-write state of {field.tag}.{field.index} does not match the object's store chain"
  | rootUnnamed => "an object root must have a name"
  | sortsDiffer => "sort mismatch"

end Fault

-- ====================================================== the symbol table

/-- A name at some sorts, as an owner asks for it. -/
structure Label where
  name : String
  args : List Srt
  result : Srt
deriving DecidableEq, Repr

namespace Label

/-- The symbol that a solver makes of a label. -/
def symbol (label : Label) : Symbol :=
  .ofName label.name label.args label.result

/-- The symbol, if there is one. -/
def symbol? (label : Label) : Except Fault Symbol :=
  if Text.encodes label.name then .ok label.symbol else .error (.unencodable label.name)

end Label

/-- The sort of a type. -/
def sortOf (ty : Ty) : Except Fault Srt :=
  ty.sort.mapError .unsorted

/-- A symbol that a lowering asks for. -/
inductive Request
  | var (name : String) (ty : Ty)
  | function (signature : Signature)
  /-- The contents that the array of a field starts with. -/
  | array (field : Field)

namespace Request

/-- The label that a request is for; a variable of object type asks for
its identity. -/
def label : Request → Except Fault Label
  | .var name .object => .ok ⟨name ++ "!id", [], .int⟩
  | .var name ty => do return ⟨name, [], ← sortOf ty⟩
  | .function signature => do
      return ⟨signature.name, ← signature.args.mapM sortOf, ← sortOf signature.result⟩
  | .array field => do
      return ⟨field.tag ++ "." ++ toString field.index, [], .array (← sortOf field.ty)⟩

/-- Whom the label is for. -/
def owner : Request → Owner
  | .var name _ => .var name
  | .function signature => .function signature.name
  | .array field => .field field.tag field.index

end Request

/-- What has been interned so far, each table in the order of interning. -/
structure SymbolTable where
  /-- Every variable with its type and its term; for an object this is
  its identity. -/
  vars : Table String (Ty × Term) := {}
  functions : Table Signature Symbol := {}
  /-- The contents that each field array starts with. -/
  fields : Table Field Term := {}
  owners : Table Label Owner := {}

namespace SymbolTable

/-- Gives a label to an owner, unless another one has it. -/
def give (table : SymbolTable) (label : Label) (owner : Owner) : Except Fault SymbolTable :=
  match table.owners.find? label with
  | none => .ok { table with owners := table.owners.set label owner }
  | some known =>
      if known = owner then .ok table else .error (.symbolTaken label.name known owner)

/-- The symbol that is asked for, once its label has been given away.  The
label stays given also where there is no symbol. -/
def claim (table : SymbolTable) (request : Request) : Except Fault Symbol × SymbolTable :=
  match request.label with
  | .error fault => (.error fault, table)
  | .ok label =>
      match table.give label request.owner with
      | .error fault => (.error fault, table)
      | .ok given => (label.symbol?, given)

/-- The term of a variable. -/
def internVariable (table : SymbolTable) (name : String) (ty : Ty) :
    Except Fault Term × SymbolTable :=
  match table.vars.find? name with
  | some (known, term) =>
      if known = ty then (.ok term, table) else (.error (.redeclared name known ty), table)
  | none =>
      match table.claim (.var name ty) with
      | (.error fault, table) => (.error fault, table)
      | (.ok symbol, table) =>
          let term := Term.call symbol []
          (.ok term, { table with vars := table.vars.set name (ty, term) })

/-- The symbol of a function. -/
def internFunction (table : SymbolTable) (signature : Signature) :
    Except Fault Symbol × SymbolTable :=
  match table.functions.find? signature with
  | some symbol => (.ok symbol, table)
  | none =>
      match table.claim (.function signature) with
      | (.error fault, table) => (.error fault, table)
      | (.ok symbol, table) =>
          (.ok symbol, { table with functions := table.functions.set signature symbol })

/-- The contents that a field array starts with. -/
def internField (table : SymbolTable) (field : Field) : Except Fault Term × SymbolTable :=
  match table.fields.find? field with
  | some term => (.ok term, table)
  | none =>
      match table.claim (.array field) with
      | (.error fault, table) => (.error fault, table)
      | (.ok symbol, table) =>
          let term := Term.call symbol []
          (.ok term, { table with fields := table.fields.set field term })

/-- The identities of the objects seen so far, by name. -/
def identities (table : SymbolTable) : List (String × Term) :=
  table.vars.entries.filterMap fun (name, ty, term) =>
    if ty = .object then some (name, term) else none

/-- How many symbols of each kind there are, in words. -/
def summary (table : SymbolTable) : String :=
  s!"Z3Translator({table.vars.size} variables, {table.functions.size} functions, "
    ++ s!"{table.fields.size} field arrays)"

end SymbolTable

end Lowering

end SymbolicHeap
