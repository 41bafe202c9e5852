/-
The operations on a heap as data.

A run of a heap is a list of actions; an action that is refused leaves
the run going.
-/
import SymbolicHeap.Heap.Basic

namespace SymbolicHeap.Heap

/-- One operation on a heap. -/
inductive Action
  | allocate (ty : Ty) (tag name : Option String)
  | share (ref : Ref)
  | writeSlot (ref : Ref) (value : Expr)
  | readSlot (ref : Ref)
  | writeField (ref : Ref) (index : Datum) (value : Expr)
  | readField (ref : Ref) (index : Datum) (ty : Ty)
  | writeElement (ref : Ref) (index : Datum) (value : Expr)
  | readElement (ref : Ref) (index : Datum) (ty : Option Ty)
  | priorState (ref : Ref) (index : Datum)
  | history (ref : Ref)

/-- What an operation answers. -/
inductive Answer
  | done
  | handle (ref : Ref)
  /-- The value read, or the state after a write. -/
  | expr (expr : Expr)
  | prior (state : Option Expr)
  | states (states : List Expr)

def perform : Action → Run Answer
  | .allocate ty tag name => .handle <$> allocate ty tag name
  | .share ref => .handle <$> share ref
  | .writeSlot ref value => (fun _ => .done) <$> writeSlot ref value
  | .readSlot ref => .expr <$> readSlot ref
  | .writeField ref index value => .expr <$> writeField ref index value
  | .readField ref index ty => .expr <$> readField ref index ty
  | .writeElement ref index value => .expr <$> writeElement ref index value
  | .readElement ref index ty => .expr <$> readElement ref index ty
  | .priorState ref index => .prior <$> priorState ref index
  | .history ref => .states <$> history ref

/-- The heap after one action, refused or not. -/
def after (heap : Heap) (action : Action) : Heap :=
  ((perform action).run heap).2

/-- What a heap traces of an action that succeeded: allocations of
addresses, and writes. -/
structure Trace where
  message : String
  context : List (String × Datum)

/-- The trace of an action and its answer, in the heap after it. -/
def trace? (heap : Heap) (action : Action) (answer : Answer) : Option Trace :=
  match action, answer with
  | .allocate _ _ _, .handle ref =>
      match ref.address?, ref.tag?, heap.historyOf? ref with
      | some address, some tag, some history =>
          some ⟨s!"allocate {tag} at {address}", [("root", .text history.root)]⟩
      | _, _, _ => none
  | .writeField ref _ _, .expr (.assign _ index value tag)
  | .writeElement ref _ _, .expr (.assign _ index value tag) =>
      match ref.address? with
      | some address =>
          some ⟨s!"write {tag}#{address}.{index} := {value}",
            [("version", .int (heap.version ref))]⟩
      | none => none
  | _, _ => none

end SymbolicHeap.Heap
