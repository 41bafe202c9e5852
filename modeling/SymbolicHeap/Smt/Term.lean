/-
Solver terms.

A term is a head with arguments: a literal, a symbol or a built-in
operation.  A constant is a symbol without arguments, so that a function
of no arguments and a constant of the same name and sort are one term, as
they are to a solver.  Nothing is simplified when a term is built; only a
comparison with a numeral on its right is turned around.
-/
import SymbolicHeap.Smt.Srt

namespace SymbolicHeap

/-- An uninterpreted constant or function: two symbols are the same when
name and sorts agree. -/
structure Symbol where
  name : String
  args : List Srt
  result : Srt
deriving DecidableEq, Repr

namespace Symbol

/-- A solver reads a name up to its first null character, so that names
that differ only behind it are one symbol. -/
def ofName (name : String) (args : List Srt) (result : Srt) : Symbol :=
  ⟨String.ofList (name.toList.takeWhile (· ≠ '\x00')), args, result⟩

/-- The name of a symbol in written terms; there is one symbol of each
sort that has none. -/
def written (symbol : Symbol) : String :=
  if symbol.name = "" then "<null>" else symbol.name

end Symbol

/-- The built-in operations. -/
inductive Op
  | neg
  | add
  | sub
  | mul
  | div
  | mod
  | eq
  | distinct
  | lt
  | le
  | gt
  | ge
  | and
  | or
  | not
  | implies
  | ite
  | select
  | store
deriving DecidableEq, Repr

/-- The name of an operation in written terms. -/
def Op.name : Op → String
  | neg => "-"
  | add => "+"
  | sub => "-"
  | mul => "*"
  | div => "div"
  | mod => "mod"
  | eq => "="
  | distinct => "distinct"
  | lt => "<"
  | le => "<="
  | gt => ">"
  | ge => ">="
  | and => "and"
  | or => "or"
  | not => "not"
  | implies => "=>"
  | ite => "if"
  | select => "select"
  | store => "store"

/-- The comparison that holds when the operands change places. -/
def Op.turned : Op → Op
  | .lt => .gt
  | .le => .ge
  | .gt => .lt
  | .ge => .le
  | op => op

/-- What stands at the top of a term. -/
inductive Head
  | numeral (value : Int)
  | truth (value : Bool)
  | symbol (symbol : Symbol)
  | op (op : Op)
deriving DecidableEq, Repr

inductive Term
  | app (head : Head) (args : List Term)

instance : Inhabited Term := ⟨.app (.truth true) []⟩

namespace Term

-- ============================================================= equality

mutual

/-- Decides whether two terms are the same tree. -/
def decEq (a b : Term) : Decidable (a = b) :=
  withPtrEqDecEq a b fun _ =>
    match a, b with
    | .app h ts, .app k us =>
        decideIff (decideBoth (decEqOf h k) fun _ => decEqs ts us) (by simp)

/-- Decides whether two lists of terms are the same. -/
def decEqs : (as bs : List Term) → Decidable (as = bs)
  | [], [] => isTrue rfl
  | [], _ :: _ => isFalse nofun
  | _ :: _, [] => isFalse nofun
  | a :: as, b :: bs => decideIff (decideBoth (decEq a b) fun _ => decEqs as bs) (by simp)

end

instance : DecidableEq Term := decEq

-- =========================================================== components

def head : Term → Head
  | app head _ => head

def args : Term → List Term
  | app _ args => args

/-- The sort of a term that is well sorted; its other arguments do not
matter. -/
def srt : Term → Srt
  | app (.numeral _) _ => .int
  | app (.truth _) _ => .bool
  | app (.symbol symbol) _ => symbol.result
  | app (.op .ite) (_ :: thenTerm :: _) => srt thenTerm
  | app (.op .store) (array :: _) => srt array
  | app (.op .select) (array :: _) =>
      match srt array with
      | .array element => element
      | other => other
  | app (.op op) _ =>
      match op with
      | .neg | .add | .sub | .mul | .div | .mod => .int
      | _ => .bool

def isNumeral : Term → Bool
  | app (.numeral _) _ => true
  | _ => false

-- ========================================================= construction

def numeral (value : Int) : Term := .app (.numeral value) []

def truth (value : Bool) : Term := .app (.truth value) []

/-- A symbol without arguments. -/
def const (name : String) (sort : Srt) : Term := .app (.symbol ⟨name, [], sort⟩) []

/-- A symbol applied to arguments. -/
def call (symbol : Symbol) (args : List Term) : Term := .app (.symbol symbol) args

def neg (a : Term) : Term := .app (.op .neg) [a]

/-- An operation on two operands. -/
def binary (op : Op) (a b : Term) : Term := .app (.op op) [a, b]

def and (a b : Term) : Term := binary .and a b

def or (a b : Term) : Term := binary .or a b

def not (a : Term) : Term := .app (.op .not) [a]

def implies (a b : Term) : Term := binary .implies a b

def ite (condition thenTerm elseTerm : Term) : Term :=
  .app (.op .ite) [condition, thenTerm, elseTerm]

def select (array index : Term) : Term := binary .select array index

def store (array index value : Term) : Term := .app (.op .store) [array, index, value]

/-- A comparison.  A numeral on the right goes to the left, unless both
operands are numerals. -/
def compare (op : Op) (a b : Term) : Term :=
  if b.isNumeral ∧ ¬ a.isNumeral then binary op.turned b a else binary op a b

/-- The term that says that all arguments differ. -/
def distinct (terms : List Term) : Term := .app (.op .distinct) terms

end Term

end SymbolicHeap
