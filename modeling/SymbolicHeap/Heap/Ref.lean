/-
Handles on a heap.

A handle is issued by one heap and is of use there only: it carries the
number of its heap and its place in the order of issue, which together
make it different from every other handle.  What it points at is either a
slot for a primitive value or an address; several handles may share one
address.
-/
import SymbolicHeap.Ty

namespace SymbolicHeap

/-- What a handle points at. -/
inductive Place
  /-- A slot for one integer or truth value. -/
  | slot (ty : Ty) (tag : Option String)
  /-- An object of the struct named by the tag. -/
  | object (address : Nat) (tag : String)
  /-- An array; the tag stands for all arrays that share field arrays. -/
  | array (address : Nat) (tag : String) (element : Ty)
deriving DecidableEq, Repr

/-- The three kinds of handles. -/
inductive RefKind
  | primitive
  | object
  | array
deriving DecidableEq, Repr

/-- The name of a kind in messages. -/
def RefKind.word : RefKind → String
  | primitive => "primitive"
  | object => "object"
  | array => "array"

structure Ref where
  heap : Nat
  serial : Nat
  place : Place
deriving DecidableEq, Repr

namespace Ref

def kind (ref : Ref) : RefKind :=
  match ref.place with
  | .slot _ _ => .primitive
  | .object _ _ => .object
  | .array _ _ _ => .array

def address? (ref : Ref) : Option Nat :=
  match ref.place with
  | .slot _ _ => none
  | .object address _ | .array address _ _ => some address

def tag? (ref : Ref) : Option String :=
  match ref.place with
  | .slot _ tag => tag
  | .object _ tag | .array _ tag _ => some tag

/-- The type of the values behind a handle: of the slot, or of the array's
elements. -/
def valueTy? (ref : Ref) : Option Ty :=
  match ref.place with
  | .slot ty _ => some ty
  | .object _ _ => none
  | .array _ _ element => some element

end Ref

end SymbolicHeap
