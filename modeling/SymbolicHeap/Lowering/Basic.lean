/-
Lowering of expressions to solver terms.

Scalars lower operator by operator.  An object lowers to its identity.
The heap lowers field by field: the contents of a field array, as a state
sees it, are the array's initial contents under one `store` per write to
that field, each at the identity of the object written; a read selects
from the contents that its state sees, at the identity of the object
read.  Where a chain of writes stands on an `if` between objects, both
the contents and the identity become an `if`.

The contents that a write leaves behind are remembered (`chains`), so a
write is lowered once however many reads and later writes stand on it.

What a lowering runs on is left open (`Builder`): whom it asks for
symbols, where it keeps what it knows, and who builds its terms.  As the
program runs it (`RunWith`), it reads and extends a state and may fail
part-way; what was interned before the failure stays.
-/
import SymbolicHeap.Lowering.Memo

namespace SymbolicHeap

/-- The state of a lowering: the interned symbols, and a memo of the
contents known for states of objects. -/
structure Lowering.With (μ : Type) [Memo μ] where
  symbols : Lowering.SymbolTable := {}
  chains : μ := Memo.empty

/-- The state of a lowering that remembers all contents. -/
abbrev Lowering := Lowering.With Chains

instance {μ : Type} [Memo μ] : Inhabited (Lowering.With μ) := ⟨{}⟩

/-- What an expression lowers to: a function that stands by itself has a
declaration, everything else a term. -/
inductive Lowered
  | term (term : Term)
  | declaration (symbol : Symbol)
deriving DecidableEq

namespace Lowering

variable {μ : Type} [Memo μ]

-- ============================================================== builders

/-- What a lowering runs on. -/
class Builder (m : Type → Type) [Monad m] where
  /-- What is known of a state whose contents are not, for these to be
  kept. -/
  Node : Type
  fault {α : Type} : Fault → m α
  var : String → Ty → m Term
  function : Signature → m Symbol
  /-- The contents that the array of a field starts with. -/
  initial : Field → m Term
  /-- Builds a term, the parts of which have been built. -/
  build : Term → m Term
  /-- What a function without its arguments is where a term is wanted. -/
  bare : Symbol → m Term
  /-- The contents that are known for a state. -/
  lookUp : ChainKey → m (Node × Option Term)
  /-- Keeps the contents of a state. -/
  remember : Node → ChainKey → Term → m Unit
  /-- Lowers the value that the write at a node stores. -/
  storing : Node → Expr → m Term → m Term
  /-- An expression that shares its parts with the states whose contents
  are known, so that looking these up is quick. -/
  align : Expr → m Expr

/-- What a sequence of lowerings runs on. -/
class Translator (m : Type → Type) [Monad m] extends Builder m where
  /-- The identities of the objects seen so far. -/
  seen : m (List Term)
  /-- Forgets everything. -/
  reset : m Unit

-- ============================================================ operators

/-- How a binary operator is built on operands of a kind, if it is. -/
def binaryRule (op : BinaryOp) (kind : Ty.Kind) : Option (Term → Term → Term) :=
  match op, kind with
  | .add, .int => some (Term.binary .add)
  | .sub, .int => some (Term.binary .sub)
  | .mul, .int => some (Term.binary .mul)
  | .div, .int => some (Term.binary .div)
  | .mod, .int => some (Term.binary .mod)
  | .eq, .int | .eq, .bool | .eq, .array | .eq, .object => some (Term.compare .eq)
  | .ne, .int | .ne, .bool | .ne, .array | .ne, .object => some (Term.compare .distinct)
  | .lt, .int => some (Term.compare .lt)
  | .le, .int => some (Term.compare .le)
  | .gt, .int => some (Term.compare .gt)
  | .ge, .int => some (Term.compare .ge)
  | .select, .array => some Term.select
  | _, _ => none

/-- A connective on operands; more than two are joined from the left. -/
def connect (op : Connective) (operands : List Term) : Except Fault Term :=
  match op, operands with
  | .and, first :: rest => .ok (rest.foldl Term.and first)
  | .or, first :: rest => .ok (rest.foldl Term.or first)
  | .not, [operand] => .ok (Term.not operand)
  | .implies, [premise, conclusion] => .ok (Term.implies premise conclusion)
  | _, _ => .error (.noConnectiveRule op)

def unaryTerm : UnaryOp → Term → Term
  | .neg => Term.neg
  | .not => Term.not

-- ================================================================ heaps

/-- The state that the newest write to a field was made on. -/
def priorOf (tag : String) (index : Nat) : Expr → Option Expr
  | .assign base i _ t => if i = index ∧ t = tag then some base else priorOf tag index base
  | _ => none

-- =================================================== distinct identities

/-- The name and type under which an expression may stand as a root. -/
def rootName? : Expr → Option (String × Ty)
  | .var name ty => some (name, ty)
  | .function signature => some (signature.name, signature.ty)
  | _ => none

/-- Terms of one sort as they are; where truth values and integers meet,
a truth value counts as one or zero. -/
def commonSort (terms : List Term) : Except Fault (List Term) :=
  let sorts := terms.map Term.srt
  if ∀ s ∈ sorts, s = sorts.headD .int then .ok terms
  else if ∀ s ∈ sorts, s = .int ∨ s = .bool then
    .ok (terms.map fun term =>
      if term.srt = .bool then Term.ite term (Term.numeral 1) (Term.numeral 0) else term)
  else .error .sortsDiffer

/-- The term that says that the given terms differ from each other; fewer
than two do so anyway. -/
def allDistinct (terms : List Term) : Except Fault Term :=
  if terms.length < 2 then .ok (Term.truth true) else (commonSort terms).map Term.distinct

-- ======================================================== known contents

namespace Builder

variable {m : Type → Type} [Monad m] [Builder m]

def ofExcept {α : Type} : Except Fault α → m α
  | .ok a => pure a
  | .error cause => fault cause

/-- The contents of a field array as a state sees them, with the identity
of the object at the bottom of the state.  The contents are worked out
only if they are not known. -/
def known (field : Field) (state : Expr) (identity : m Term)
    (work : Node m → m (Term × Term)) : m (Term × Term) := do
  let key := ChainKey.of field state
  match ← lookUp key with
  | (_, some contents) => return (contents, ← identity)
  | (node, none) =>
      let (contents, identity) ← work node
      remember node key contents
      return (contents, identity)

/-- The contents of a field array after a write, on top of those before
it; only a write to this very field adds to them. -/
def written (field : Field) (writes : Bool) (held : Ty) (before : m (Term × Term))
    (value : m Term) : m (Term × Term) := do
  let (contents, identity) ← before
  if writes then
    if held = field.ty then
      return (← build (Term.store contents identity (← value)), identity)
    else fault (.fieldHolds field held)
  else return (contents, identity)

-- ============================================================= lowering

mutual

/-- The term of an expression.  A function that stands by itself gives
its bare symbol, a state of an object the contents of the field written
last. -/
def lower : Expr → m Term
  | .var name ty => var name ty
  | .int value => build (Term.numeral value)
  | .bool value => build (Term.truth value)
  | .binary op left right =>
      match binaryRule op left.typeOf.kind with
      | none => fault (.noBinaryRule op left.typeOf)
      | some rule =>
          if left.typeOf = .object then do
            let left ← identity left
            let right ← identity right
            build (rule left right)
          else do
            let left ← lower left
            let right ← lower right
            build (rule left right)
  | .logical op operands => do build (← ofExcept (connect op (← lowerAll operands)))
  | .unary op operand => do build (unaryTerm op (← lower operand))
  | .ite condition thenBranch elseBranch =>
      if thenBranch.typeOf = .object then do
        let condition ← lower condition
        let thenBranch ← identity thenBranch
        let elseBranch ← identity elseBranch
        build (Term.ite condition thenBranch elseBranch)
      else if thenBranch.typeOf.hasSort then do
        let condition ← lower condition
        let thenBranch ← lower thenBranch
        let elseBranch ← lower elseBranch
        build (Term.ite condition thenBranch elseBranch)
      else fault (.noBranchRule thenBranch.typeOf)
  | .function signature => do bare (← function signature)
  | .call callee args => do
      let symbol ← function callee
      build (Term.call symbol (← lowerAll args))
  | state@(.assign base index value tag) => do
      let field : Field := ⟨tag, index, value.typeOf⟩
      let (contents, _) ← known field state (identity base) fun node =>
        written field true value.typeOf (contents base field)
          (storing node state (lower value))
      return contents
  | .access base prior field => do
      if priorOf field.tag field.index base ≠ prior then
        fault (.priorMismatch base prior field)
      let (contents, _) ← contents base field
      build (Term.select contents (← identity base))

/-- The terms of several expressions, from left to right. -/
def lowerAll : List Expr → m (List Term)
  | [] => return []
  | expr :: rest => do
      let term ← lower expr
      return term :: (← lowerAll rest)

/-- The identity of the object whose state an expression is. -/
def identity : Expr → m Term
  | .assign base _ _ _ => identity base
  | .ite condition thenBranch elseBranch => do
      let condition ← lower condition
      let thenBranch ← identity thenBranch
      let elseBranch ← identity elseBranch
      build (Term.ite condition thenBranch elseBranch)
  | .var name .object => var name .object
  | state => fault (.malformed (.noObjectState state))

/-- The contents of a field array as a state sees them, with the identity
of the object at the bottom of the state.  The contents of a choice are
built before its identity. -/
def contents : Expr → Field → m (Term × Term)
  | state@(.assign base index value tag), field =>
      known field state (identity base) fun node =>
        written field (field.isAt index tag) value.typeOf (contents base field)
          (storing node state (lower value))
  | .ite condition thenBranch elseBranch, field => do
      let choice ← lower condition
      let (thenContents, _) ← contents thenBranch field
      let (elseContents, _) ← contents elseBranch field
      let joined ← build (Term.ite choice thenContents elseContents)
      let choice ← lower condition
      let thenIdentity ← identity thenBranch
      let elseIdentity ← identity elseBranch
      return (joined, ← build (Term.ite choice thenIdentity elseIdentity))
  | .var name .object, field => do
      let initial ← initial field
      return (initial, ← var name .object)
  | state, field => do
      let _ ← initial field
      fault (.malformed (.noObjectState state))

end

/-- What an expression lowers to. -/
def lowered (expr : Expr) : m Lowered := do
  match ← align expr with
  | .function signature => return .declaration (← function signature)
  | expr => return .term (← lower expr)

/-- What several expressions lower to, from left to right. -/
def loweredAll : List Expr → m (List Lowered)
  | [] => return []
  | expr :: rest => do
      let lowered ← lowered expr
      return lowered :: (← loweredAll rest)

/-- The terms of roots, where roots of one name count once. -/
def rootTerms : List Expr → Table String Term → m (Table String Term)
  | [], terms => return terms
  | root :: rest, terms =>
      match rootName? root with
      | none => fault .rootUnnamed
      | some (name, ty) => do
          let term ← var name ty
          rootTerms rest (terms.set name term)

/-- The axiom that the given roots are different objects. -/
def distinctRoots (roots : List Expr) : m Term := do
  let terms ← rootTerms roots {}
  ofExcept (allDistinct terms.values)

/-- The axiom that all objects seen so far are different. -/
def distinctSeen {m : Type → Type} [Monad m] [Translator m] : m Term := do
  ofExcept (allDistinct (← Translator.seen))

end Builder

-- ======================================================= lowering as run

/-- A computation that may intern symbols and may fail; the state
survives a failure. -/
abbrev RunWith (μ : Type) [Memo μ] := ExceptT Fault (StateM (With μ))

abbrev Run := RunWith Chains

/-- Runs an interning step on the symbol table. -/
def intern {α : Type} (step : SymbolTable → Except Fault α × SymbolTable) : RunWith μ α :=
  fun state =>
    let (outcome, symbols) := step state.symbols
    (outcome, { state with symbols })

def internVar (name : String) (ty : Ty) : RunWith μ Term :=
  intern (·.internVariable name ty)

def internFun (signature : Signature) : RunWith μ Symbol :=
  intern (·.internFunction signature)

def initialContents (field : Field) : RunWith μ Term :=
  intern (·.internField field)

/-- The contents that the memo finds for a state. -/
def lookUp (key : ChainKey) : RunWith μ (Memo.Node μ × Option Term) := fun lowering =>
  let (found, chains) := Memo.find key lowering.chains
  (.ok found, { lowering with chains })

/-- Keeps the contents of a state in the memo. -/
def remember (node : Memo.Node μ) (key : ChainKey) (contents : Term) : RunWith μ Unit :=
  modify fun lowering =>
    { lowering with chains := Memo.keep node key contents lowering.chains }

def aligned (expr : Expr) : RunWith μ Expr := fun lowering =>
  let (expr, chains) := shared (expr, lowering.chains)
  (.ok expr, { lowering with chains })

/-- Aligning is a matter of cost alone. -/
@[simp]
theorem aligned_eq_pure (expr : Expr) : (aligned expr : RunWith μ Expr) = pure expr := rfl

def identitiesSeen : RunWith μ (List Term) := do
  return (← get).symbols.identities.map (·.2)

instance : Translator (RunWith μ) where
  Node := Memo.Node μ
  fault cause := throw cause
  var := internVar
  function := internFun
  initial := initialContents
  build t := return t
  bare symbol := return Term.call symbol []
  lookUp := lookUp
  remember := remember
  storing _ _ value := value
  align := aligned
  seen := identitiesSeen
  reset := set ({} : With μ)

/-- What the program does on its own state to lower an expression. -/
def lower (e : Expr) : RunWith μ Term := Builder.lower e

def contents (state : Expr) (field : Field) : RunWith μ (Term × Term) :=
  Builder.contents state field

def lowered (e : Expr) : RunWith μ Lowered := Builder.lowered e

def loweredAll (exprs : List Expr) : RunWith μ (List Lowered) := Builder.loweredAll exprs

def distinctRoots (roots : List Expr) : RunWith μ Term := Builder.distinctRoots roots

def distinctSeen : RunWith μ Term := Builder.distinctSeen

end Lowering

end SymbolicHeap
