/-
Types of symbolic values.

Integers, booleans and arrays of such have values that a solver can
represent; functions, objects and references exist among expressions
only.  A type given by its parts is checked first (`ofParts`): an element
type belongs to arrays alone, a signature to functions alone.
-/
import SymbolicHeap.Decide

namespace SymbolicHeap

/-- The type of a symbolic value. -/
inductive Ty
  | int
  | bool
  | array (element : Ty)
  | function (args : List Ty) (result : Ty)
  | object
  | ref
deriving Inhabited, Repr

namespace Ty

-- ============================================================= equality

mutual

/-- Decides whether two types are the same. -/
def decEq (a b : Ty) : Decidable (a = b) :=
  if same : a.ctorIdx = b.ctorIdx then
    match a, b, same with
    | .int, .int, _ | .bool, .bool, _ | .object, .object, _ | .ref, .ref, _ => isTrue rfl
    | .array s, .array t, _ => decideIff (decEq s t) (by simp)
    | .function ss s, .function ts t, _ =>
        decideIff (decideBoth (decEqs ss ts) fun _ => decEq s t) (by simp)
  else isFalse fun h => same (h ▸ rfl)

/-- Decides whether two lists of types are the same. -/
def decEqs : (as bs : List Ty) → Decidable (as = bs)
  | [], [] => isTrue rfl
  | [], _ :: _ => isFalse nofun
  | _ :: _, [] => isFalse nofun
  | a :: as, b :: bs => decideIff (decideBoth (decEq a b) fun _ => decEqs as bs) (by simp)

end

instance : DecidableEq Ty := decEq

-- ================================================================ kinds

/-- The outermost shape of a type. -/
inductive Kind
  | int
  | bool
  | array
  | function
  | object
  | ref
deriving DecidableEq, Repr

/-- The name of a kind in messages. -/
def Kind.name : Kind → String
  | .int => "INT"
  | .bool => "BOOL"
  | .array => "ARRAY"
  | .function => "FUNCTION"
  | .object => "OBJECT"
  | .ref => "REF"

def kind : Ty → Kind
  | int => .int
  | bool => .bool
  | array _ => .array
  | function _ _ => .function
  | object => .object
  | ref => .ref

/-- The element type of an array. -/
def element? : Ty → Option Ty
  | array element => some element
  | _ => none

/-- Whether a solver has values of the type. -/
def hasSort : Ty → Bool
  | int | bool => true
  | array element => element.hasSort
  | function _ _ | object | ref => false

-- ============================================================ rendering

mutual

/-- The text of a type: `[]T` for arrays, `func(S, …) T` for functions. -/
def render : Ty → String
  | int => "int"
  | bool => "bool"
  | array element => "[]" ++ element.render
  | function args result => "func(" ++ ", ".intercalate (renderAll args) ++ ") " ++ result.render
  | object => "object"
  | ref => "reference"

/-- The texts of a list of types. -/
def renderAll : List Ty → List String
  | [] => []
  | ty :: rest => ty.render :: renderAll rest

end

instance : ToString Ty := ⟨render⟩

-- ========================================================= construction

/-- Why parts do not make a type. -/
inductive Misfit
  /-- An array lacks its element type. -/
  | elementMissing
  /-- An element type is given for something else than an array. -/
  | elementStray (kind : Kind)
  /-- A function lacks its result type. -/
  | resultMissing
  /-- A signature is given for something else than a function. -/
  | signatureStray (kind : Kind)
deriving DecidableEq, Repr

def Misfit.message : Misfit → String
  | elementMissing => "array type needs an element type"
  | elementStray kind => s!"{kind.name} type has no element type"
  | resultMissing => "function type needs a return type"
  | signatureStray kind => s!"{kind.name} type has no signature"

/-- The type with the given parts; the element type is looked at before
the signature. -/
def ofParts (kind : Kind) (element : Option Ty) (args : List Ty) (result : Option Ty) :
    Except Misfit Ty :=
  match kind, element, args, result with
  | .array, none, _, _ => .error .elementMissing
  | .array, some t, [], none => .ok (.array t)
  | .array, some _, _, _ => .error (.signatureStray .array)
  | kind, some _, _, _ => .error (.elementStray kind)
  | .function, none, _, none => .error .resultMissing
  | .function, none, args, some r => .ok (.function args r)
  | .int, none, [], none => .ok .int
  | .bool, none, [], none => .ok .bool
  | .object, none, [], none => .ok .object
  | .ref, none, [], none => .ok .ref
  | kind, none, _, _ => .error (.signatureStray kind)

end Ty

end SymbolicHeap
