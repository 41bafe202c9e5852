/-
The symbolic heap.

Nothing on the heap is changed in place.  Each address has a history of
states: its root, a variable, and after that one `assign` node per write,
each standing on the state before it.  A read is built against the newest
state, together with the state just before the newest write to its field
(`priors`), which is what the lowering of reads checks.

A field of a tag holds values of one type, fixed by whoever writes or
reads it first (`layouts`).  Every operation either fails and leaves the
heap as it was, or succeeds; only a refused allocation may use up an
address.
-/
import SymbolicHeap.Expr.Build
import SymbolicHeap.Heap.Ref
import SymbolicHeap.Table

namespace SymbolicHeap

/-- The states of one address: the name of its root, and the states after
each write, newest first. -/
structure History where
  root : String
  later : List Expr := []

namespace History

def rootState (history : History) : Expr := .var history.root .object

/-- The newest state. -/
def current (history : History) : Expr := history.later.headD history.rootState

/-- The number of writes. -/
def version (history : History) : Nat := history.later.length

/-- All states, oldest first. -/
def states (history : History) : List Expr := history.rootState :: history.later.reverse

def write (history : History) (state : Expr) : History :=
  { history with later := state :: history.later }

end History

structure Heap where
  /-- The number of the heap; no two heaps in use share one. -/
  id : Nat
  nextAddress : Nat := 1
  /-- The handles issued so far, newest first. -/
  refs : List Ref := []
  histories : Table Nat History := {}
  /-- The state before the newest write, by address and field index. -/
  priors : Table (Nat × Nat) Expr := {}
  /-- The type held by each field, by tag and index. -/
  layouts : Table (String × Nat) Ty := {}
  /-- The values of primitive slots. -/
  slots : Table Ref Expr := {}

namespace Heap

-- =============================================================== faults

/-- The operations that put values of one type where another is held. -/
inductive Slot
  | primitive (held : Ty)
  | element (tag : String)

/-- The two ways to come upon the layout of a field. -/
inductive FieldUse
  | write
  | read
deriving DecidableEq, Repr

/-- Why an operation on the heap was refused. -/
inductive Fault
  | unallocatable (ty : Ty)
  | rootTaken (name : String)
  | foreign (ref : Ref)
  | wrongKind (expected : List RefKind) (ref : Ref)
  | unassigned (ref : Ref)
  | noStates (ref : Ref)
  /-- A value does not fit the slot or the array it is put into. -/
  | valueMisfit (slot : Slot) (value : Expr)
  /-- An array is read at another type than its elements have. -/
  | noElements (tag : String) (ty : Ty)
  /-- A field is used at another type than its layout says. -/
  | layoutMisfit (use : FieldUse) (tag : String) (index : Nat) (known wanted : Ty)
  | malformed (cause : Expr.Misfit)
  /-- A field index with parts of its own. -/
  | compoundIndex

namespace Fault

/-- The operation that was refused, where messages name one. -/
def node : Fault → String
  | valueMisfit (.primitive _) _ => "assign_primitive"
  | valueMisfit (.element _) _ => "assign_to_array"
  | noElements _ _ => "get_from_array"
  | layoutMisfit .write _ _ _ _ => "assign_field"
  | layoutMisfit .read _ _ _ _ => "get_field"
  | malformed cause => cause.node
  | _ => ""

def detail : Fault → String
  | unallocatable ty => s!"cannot allocate a value of type {ty}"
  | rootTaken name => s!"root name {Text.quoted name} is already in use"
  | foreign _ => "ref was not allocated by this memory"
  | wrongKind expected ref =>
      let wanted := " or ".intercalate (expected.map RefKind.word)
      s!"expected a {wanted} ref, got {ref.kind.word}"
  | unassigned _ => "primitive read before assignment"
  | noStates _ => "primitive refs have no object state"
  | valueMisfit (.primitive held) value => s!"cannot store {value.typeOf} in a {held} slot"
  | valueMisfit (.element tag) value => s!"cannot store {value.typeOf} in {tag}"
  | noElements tag ty => s!"{tag} has no {ty} elements"
  | layoutMisfit _ tag index known wanted => s!"field {tag}.{index} holds {known}, not {wanted}"
  | malformed cause => cause.detail
  | compoundIndex => "a field index has no parts"

def operands : Fault → List String
  | valueMisfit _ value => [value.render]
  | layoutMisfit _ _ _ known wanted => [known.render, wanted.render]
  | malformed cause => cause.operands
  | _ => []

def message (fault : Fault) : String :=
  if fault.node = "" then fault.detail else fault.node ++ ": " ++ fault.detail

/-- The handle that a fault is about. -/
def ref? : Fault → Option Ref
  | foreign ref | wrongKind _ ref | unassigned ref | noStates ref => some ref
  | _ => none

/-- Whether the heap leaves a note of a fault.  Parts that make no
expression are refused before the heap comes to a decision of its own. -/
def isNoted : Fault → Bool
  | malformed _ | noStates _ | compoundIndex => false
  | _ => true

end Fault

/-- An operation on a heap; the heap survives a refusal. -/
abbrev Run := ExceptT Fault (StateM Heap)

-- ============================================================== looking

/-- The number of addresses handed out. -/
def objectCount (heap : Heap) : Nat := heap.nextAddress - 1

/-- How much a heap holds, in words. -/
def summary (heap : Heap) : String :=
  s!"Memory({heap.objectCount} addresses, {heap.slots.size} primitives)"

/-- The roots of all addresses, in the order of allocation. -/
def roots (heap : Heap) : List Expr := heap.histories.values.map History.rootState

def isAllocated (heap : Heap) (ref : Ref) : Bool := ref ∈ heap.refs

/-- The history behind a handle of this heap. -/
def historyOf? (heap : Heap) (ref : Ref) : Option History :=
  match ref.address? with
  | some address => if ref.heap = heap.id then heap.histories.find? address else none
  | none => none

/-- The newest state behind a handle. -/
def current (heap : Heap) (ref : Ref) : Except Fault Expr :=
  match heap.historyOf? ref with
  | some history => .ok history.current
  | none => .error (.noStates ref)

/-- The number of writes made to what is behind a handle. -/
def version (heap : Heap) (ref : Ref) : Nat :=
  ((heap.historyOf? ref).map History.version).getD 0

-- =============================================================== checks

/-- Lets a handle pass that this heap issued. -/
def checkIssued (ref : Ref) : Run Unit := do
  if ¬ (← get).isAllocated ref then throw (.foreign ref)

/-- The address and the tag behind a handle on an object or an array. -/
def checkTarget (ref : Ref) : Run (Nat × String) := do
  checkIssued ref
  match ref.place with
  | .object address tag | .array address tag _ => return (address, tag)
  | .slot _ _ => throw (.wrongKind [.object, .array] ref)

/-- The tag and the element type behind a handle on an array. -/
def checkArray (ref : Ref) : Run (String × Ty) := do
  checkIssued ref
  match ref.place with
  | .array _ tag element => return (tag, element)
  | _ => throw (.wrongKind [.array] ref)

/-- The type behind a handle on a primitive slot. -/
def checkSlot (ref : Ref) : Run Ty := do
  checkIssued ref
  match ref.place with
  | .slot held _ => return held
  | _ => throw (.wrongKind [.primitive] ref)

/-- What a construction makes, or its misfit. -/
def made {α : Type} (result : Except Expr.Misfit α) : Run α :=
  liftM (result.mapError Fault.malformed)

/-- Fixes the type of a field, or checks it against the type fixed
before. -/
def checkLayout (use : FieldUse) (tag : String) (index : Nat) (ty : Ty) : Run Unit := do
  match (← get).layouts.find? (tag, index) with
  | none => modify fun heap => { heap with layouts := heap.layouts.set (tag, index) ty }
  | some known => if known ≠ ty then throw (.layoutMisfit use tag index known ty)

-- =========================================================== allocation

/-- Issues a handle on a place. -/
def issue (place : Place) : Run Ref := do
  let heap ← get
  let ref : Ref := ⟨heap.id, heap.refs.length, place⟩
  set { heap with refs := ref :: heap.refs }
  return ref

/-- A text that is given and not empty. -/
def given? (text : Option String) : Option String :=
  match text with
  | some "" | none => none
  | some text => some text

/-- Takes the next address for a state whose root has the given name, or
else one made of tag and address.  The address is used up even if the
name is not free. -/
def takeAddress (tag : String) (name : Option String) : Run Nat := do
  let heap ← get
  let address := heap.nextAddress
  set { heap with nextAddress := address + 1 }
  let root := (given? name).getD (tag ++ "#" ++ toString address)
  if root ∈ heap.histories.values.map History.root then throw (.rootTaken root)
  modify fun heap => { heap with histories := heap.histories.set address { root } }
  return address

/-- A handle on a new value: a slot for integers and truth values, an
address for objects and arrays. -/
def allocate (ty : Ty) (tag name : Option String) : Run Ref :=
  match ty with
  | .int | .bool => issue (.slot ty tag)
  | .object => do
      let tag := (given? tag).getD "object"
      issue (.object (← takeAddress tag name) tag)
  | .array element => do
      let tag := (given? tag).getD ty.render
      issue (.array (← takeAddress tag name) tag element)
  | .function _ _ | .ref => throw (.unallocatable ty)

/-- A second handle on the same object or array. -/
def share (ref : Ref) : Run Ref := do
  let _ ← checkTarget ref
  issue ref.place

-- ================================================================ slots

/-- Puts a value into a primitive slot. -/
def writeSlot (ref : Ref) (value : Expr) : Run Unit := do
  let held ← checkSlot ref
  if value.typeOf ≠ held then throw (.valueMisfit (.primitive held) value)
  modify fun heap => { heap with slots := heap.slots.set ref value }

/-- The value of a primitive slot. -/
def readSlot (ref : Ref) : Run Expr := do
  let _ ← checkSlot ref
  match (← get).slots.find? ref with
  | some value => return value
  | none => throw (.unassigned ref)

-- =============================================================== fields

/-- Adds the state after a write to the history of an address. -/
def record (address index : Nat) (prior state : Expr) (heap : Heap) : Heap :=
  { heap with
    priors := heap.priors.set (address, index) prior
    histories :=
      match heap.histories.find? address with
      | some history => heap.histories.set address (history.write state)
      | none => heap.histories }

/-- Writes a field; the new state of the object. -/
def writeField (ref : Ref) (index : Datum) (value : Expr) : Run Expr := do
  let (address, tag) ← checkTarget ref
  let prior ← liftM ((← get).current ref)
  let state ← made (Build.assign prior index value tag)
  let index ← made (Build.fieldIndex .assign index)
  checkLayout .write tag index value.typeOf
  modify (record address index prior state)
  return state

/-- The state before the newest write to a field.  An index is looked up
by the number it is equal to. -/
def lookUpPrior (address : Nat) (index : Datum) : Run (Option Expr) := do
  if index.isCompound then throw .compoundIndex
  let heap ← get
  return index.natural?.bind fun index => heap.priors.find? (address, index)

/-- Reads a field against the newest state of the object. -/
def readField (ref : Ref) (index : Datum) (ty : Ty) : Run Expr := do
  let (address, tag) ← checkTarget ref
  let prior ← lookUpPrior address index
  let base ← liftM ((← get).current ref)
  let read ← made (Build.access base index prior tag ty)
  let index ← made (Build.fieldIndex .access index)
  checkLayout .read tag index ty
  return read

/-- Stores a value at an index of an array. -/
def writeElement (ref : Ref) (index : Datum) (value : Expr) : Run Expr := do
  let (tag, element) ← checkArray ref
  if value.typeOf ≠ element then throw (.valueMisfit (.element tag) value)
  writeField ref index value

/-- Reads the element at an index of an array. -/
def readElement (ref : Ref) (index : Datum) (ty : Option Ty) : Run Expr := do
  let (tag, element) ← checkArray ref
  match ty with
  | some ty => if ty ≠ element then throw (.noElements tag ty)
  | none => pure ()
  readField ref index element

/-- The state before the newest write to a field, if there was one. -/
def priorState (ref : Ref) (index : Datum) : Run (Option Expr) := do
  let (address, _) ← checkTarget ref
  lookUpPrior address index

/-- All states of an object or an array, oldest first. -/
def history (ref : Ref) : Run (List Expr) := do
  let _ ← checkTarget ref
  match (← get).historyOf? ref with
  | some history => return history.states
  | none => throw (.noStates ref)

end Heap

end SymbolicHeap
