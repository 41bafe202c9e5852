/-
The numbers of heaps are only names.

A handle carries the number of the heap that issued it, so that no other
heap takes it for its own.  Beyond that the number says nothing: a heap
under another number does the same with the handles of that number, as
long as no foreign handle comes to have the number too
(`perform_renumber`).

A numbering need not keep all numbers apart.  It is enough that those from
some number on, which are the ones given to heaps later, follow each other
and are given to no one else (`Numbering`).
-/
import SymbolicHeap.Proofs.Heap.Step
import SymbolicHeap.Proofs.Lockstep

namespace SymbolicHeap

-- ============================================================= numberings

/-- New numbers for heaps: from `start` on they follow each other as the
old ones do, and none of these is given twice. -/
structure Numbering where
  number : Nat → Nat
  start : Nat
  next : ∀ n, start ≤ n → number (n + 1) = number n + 1
  apart : ∀ m n, start ≤ n → number m = number n → m = n

/-- All heaps keep their numbers. -/
def Numbering.same : Numbering where
  number := id
  start := 0
  next _ _ := rfl
  apart _ _ _ h := h

/-- Counts heaps from a number on as the first and those after it; all
that came before are numbered zero. -/
def Numbering.countingFrom (first : Nat) : Numbering where
  number n := n + 1 - first
  start := first
  next n h := by omega
  apart m n h same := by omega

-- =============================================================== renaming

/-- The table under other keys. -/
def Table.mapKeys {κ κ' υ : Type} (f : κ → κ') (table : Table κ υ) : Table κ' υ :=
  ⟨table.entries.map fun (key, value) => (f key, value)⟩

section

variable {κ κ' υ : Type} [DecidableEq κ] [DecidableEq κ'] {f : κ → κ'} {table : Table κ υ}
  {key : κ}

/-- A key is found if no other key has its new name. -/
theorem Table.find?_mapKeys (apart : ∀ other ∈ table.keys, f other = f key → other = key) :
    (table.mapKeys f).find? (f key) = table.find? key := by
  obtain ⟨entries⟩ := table
  simp only [find?, mapKeys, keys] at apart ⊢
  induction entries with
  | nil => rfl
  | cons entry rest ih =>
      rw [List.map_cons, List.forall_mem_cons] at apart
      have hsame : f entry.1 = f key ↔ entry.1 = key := ⟨apart.1, congrArg f⟩
      simp only [List.map_cons, lookup, hsame, ih apart.2]

/-- A key after setting one is that one or an old one. -/
theorem Table.mem_keys_set {other : κ} {value : υ} (h : other ∈ (table.set key value).keys) :
    other = key ∨ other ∈ table.keys := by
  obtain ⟨entry, held, rfl⟩ := List.mem_map.1 h
  rcases mem_entries_set held with rfl | old
  · exact .inl rfl
  · exact .inr (List.mem_map_of_mem old)

/-- An entry is set under its new key, if no other key comes to be the same.
-/
theorem Table.mapKeys_set (apart : ∀ other ∈ table.keys, f other = f key → other = key)
    (value : υ) : (table.set key value).mapKeys f = (table.mapKeys f).set (f key) value := by
  obtain ⟨entries⟩ := table
  simp only [mapKeys, keys, set, Table.mk.injEq] at apart ⊢
  induction entries with
  | nil => rfl
  | cons entry rest ih =>
      rw [List.map_cons, List.forall_mem_cons] at apart
      have hsame : f entry.1 = f key ↔ entry.1 = key := ⟨apart.1, congrArg f⟩
      by_cases here : entry.1 = key
      · simp only [put, List.map_cons, here, if_true]
      · simp only [put, List.map_cons, hsame, here, if_false, ih apart.2]

end

/-- The handle of the heap under its new number. -/
def Ref.renumber (f : Nat → Nat) (ref : Ref) : Ref :=
  { ref with heap := f ref.heap }

namespace Heap

/-- A heap with new numbers: its own, and that of every handle in it. What
is kept by address stays as it is. -/
def renumber (f : Nat → Nat) (heap : Heap) : Heap :=
  { heap with
    id := f heap.id
    refs := heap.refs.map (Ref.renumber f)
    slots := heap.slots.mapKeys (Ref.renumber f) }

section

variable (f : Nat → Nat) (heap : Heap)

@[simp] theorem renumber_id : (heap.renumber f).id = f heap.id := rfl
@[simp] theorem renumber_nextAddress : (heap.renumber f).nextAddress = heap.nextAddress := rfl
@[simp] theorem renumber_refs : (heap.renumber f).refs = heap.refs.map (Ref.renumber f) := rfl
@[simp] theorem renumber_histories : (heap.renumber f).histories = heap.histories := rfl
@[simp] theorem renumber_priors : (heap.renumber f).priors = heap.priors := rfl
@[simp] theorem renumber_layouts : (heap.renumber f).layouts = heap.layouts := rfl
@[simp] theorem renumber_slots :
    (heap.renumber f).slots = heap.slots.mapKeys (Ref.renumber f) := rfl

end

/-- A fault with the handles in it under new numbers. -/
def Fault.renumber (f : Nat → Nat) : Fault → Fault
  | .foreign ref => .foreign (ref.renumber f)
  | .wrongKind expected ref => .wrongKind expected (ref.renumber f)
  | .unassigned ref => .unassigned (ref.renumber f)
  | .noStates ref => .noStates (ref.renumber f)
  | fault => fault

/-- An action on the handles under their new numbers. -/
def Action.renumber (f : Nat → Nat) : Action → Action
  | .allocate ty tag name => .allocate ty tag name
  | .share ref => .share (ref.renumber f)
  | .writeSlot ref value => .writeSlot (ref.renumber f) value
  | .readSlot ref => .readSlot (ref.renumber f)
  | .writeField ref index value => .writeField (ref.renumber f) index value
  | .readField ref index ty => .readField (ref.renumber f) index ty
  | .writeElement ref index value => .writeElement (ref.renumber f) index value
  | .readElement ref index ty => .readElement (ref.renumber f) index ty
  | .priorState ref index => .priorState (ref.renumber f) index
  | .history ref => .history (ref.renumber f)

/-- An answer with the handle in it, if it is one, under its new number. -/
def Answer.renumber (f : Nat → Nat) : Answer → Answer
  | .handle ref => .handle (ref.renumber f)
  | answer => answer

-- ----------------------------------------------------------- equal numbers

/-- Nothing is changed by the numbering that keeps all numbers. -/
theorem renumber_same (heap : Heap) : heap.renumber Numbering.same.number = heap := by
  have refs : heap.refs.map (Ref.renumber Numbering.same.number) = heap.refs := List.map_id' _
  have slots : heap.slots.mapKeys (Ref.renumber Numbering.same.number) = heap.slots :=
    congrArg Table.mk (List.map_id' _)
  unfold renumber
  rw [refs, slots]
  rfl

theorem Fault.renumber_same (fault : Fault) :
    fault.renumber Numbering.same.number = fault := by
  cases fault <;> rfl

theorem Action.renumber_same (action : Action) :
    action.renumber Numbering.same.number = action := by
  cases action <;> rfl

theorem Answer.renumber_same (answer : Answer) :
    answer.renumber Numbering.same.number = answer := by
  cases answer <;> rfl

-- ============================================================== lockstep

/-- A heap whose handles are all its own stands beside the same heap under
its new number. -/
structure Renumbered (numbering : Numbering) (heap other : Heap) : Prop where
  eq : other = heap.renumber numbering.number
  counted : numbering.start ≤ heap.id
  refs : ∀ ref ∈ heap.refs, ref.heap = heap.id
  slots : ∀ ref ∈ heap.slots.keys, ref.heap = heap.id

variable {numbering : Numbering} {heap other : Heap} {ref : Ref} {α β : Type}

/-- Two operations that do the same but for the number of the heap. -/
abbrev InStep (numbering : Numbering) (x y : Run α) : Prop :=
  Lockstep (Renumbered numbering) (Fault.renumber numbering.number) (fun a => a) x y

/-- Two heaps that start under numbers of the numbering. -/
theorem Renumbered.start (counted : numbering.start ≤ n) :
    Renumbered numbering { id := n } { id := numbering.number n } :=
  ⟨rfl, counted, nofun, nofun⟩

namespace Renumbered

/-- A handle is the heap's own under the new numbers as under the old. -/
theorem heap_eq_iff (h : Renumbered numbering heap other) (ref : Ref) :
    (ref.renumber numbering.number).heap = other.id ↔ ref.heap = heap.id := by
  rw [h.eq]
  exact ⟨numbering.apart _ _ h.counted, congrArg numbering.number⟩

/-- No handle but one of the heap's own comes to have the new name of
such a one. -/
theorem ref_eq (h : Renumbered numbering heap other) {own : Ref} (issued : own.heap = heap.id)
    (same : own.renumber numbering.number = ref.renumber numbering.number) : own = ref := by
  obtain ⟨number, serial, place⟩ := ref
  injection same with hheap hserial hplace
  rw [issued] at hheap
  have := numbering.apart _ _ h.counted hheap.symm
  obtain ⟨ownNumber, ownSerial, ownPlace⟩ := own
  simp_all

/-- A handle is known to the one heap as its namesake is to the other. -/
theorem isAllocated (h : Renumbered numbering heap other) (ref : Ref) :
    other.isAllocated (ref.renumber numbering.number) = heap.isAllocated ref := by
  unfold Heap.isAllocated
  rw [h.eq, decide_eq_decide]
  show ref.renumber numbering.number ∈ heap.refs.map _ ↔ _
  rw [List.mem_map]
  constructor
  · rintro ⟨own, issued, same⟩
    rw [← h.ref_eq (h.refs own issued) same]
    exact issued
  · exact fun issued => ⟨ref, issued, rfl⟩

/-- Histories are kept by address, so the namesake of a handle finds the
same one. -/
theorem historyOf? (h : Renumbered numbering heap other) (ref : Ref) :
    other.historyOf? (ref.renumber numbering.number) = heap.historyOf? ref := by
  unfold Heap.historyOf?
  simp only [h.heap_eq_iff]
  rw [h.eq]
  rfl

/-- The current state is the same; a refusal is about the namesake. -/
theorem current (h : Renumbered numbering heap other) (ref : Ref) :
    other.current (ref.renumber numbering.number)
      = renamed (Fault.renumber numbering.number) (fun a => a) (heap.current ref) := by
  unfold Heap.current
  rw [h.historyOf? ref]
  cases heap.historyOf? ref with
  | none => rfl
  | some history => rfl

theorem version (h : Renumbered numbering heap other) (ref : Ref) :
    other.version (ref.renumber numbering.number) = heap.version ref := by
  unfold Heap.version
  rw [h.historyOf? ref]

/-- Changes that touch neither the number nor the handles are the same on
both sides. -/
theorem update (h : Renumbered numbering heap other) (change : Heap → Heap)
    (id : (change heap).id = heap.id) (refs : (change heap).refs = heap.refs)
    (slots : (change heap).slots = heap.slots)
    (same : change (heap.renumber numbering.number) = (change heap).renumber numbering.number) :
    Renumbered numbering (change heap) (change other) where
  eq := by rw [h.eq, same]
  counted := by rw [id]; exact h.counted
  refs := by rw [id, refs]; exact h.refs
  slots := by rw [id, slots]; exact h.slots

/-- The value of a slot is kept under its handle, which is found under
the new name if it is under the old. -/
theorem slot_apart (h : Renumbered numbering heap other) (ref : Ref) :
    ∀ key ∈ heap.slots.keys,
      key.renumber numbering.number = ref.renumber numbering.number → key = ref :=
  fun key held same => h.ref_eq (h.slots key held) same

/-- A slot that was issued is the only one with its new name. -/
theorem store (h : Renumbered numbering heap other) (issued : ref ∈ heap.refs) (value : Expr) :
    Renumbered numbering { heap with slots := heap.slots.set ref value }
      { other with slots := other.slots.set (ref.renumber numbering.number) value } where
  eq := by
    rw [h.eq, renumber_slots, ← Table.mapKeys_set (h.slot_apart ref)]
    rfl
  counted := h.counted
  refs := h.refs
  slots := by
    intro key held
    rcases Table.mem_keys_set held with rfl | old
    · exact h.refs key issued
    · exact h.slots key old

end Renumbered

-- ================================================================ checks

/-- Each check passes on both sides or fails on both, with the handle in the
fault renamed. -/
theorem checkIssued_inStep (ref : Ref) :
    InStep numbering (checkIssued ref) (checkIssued (ref.renumber numbering.number)) := by
  refine .get_bind fun heap other h => ?_
  rw [h.isAllocated ref]
  split
  next => exact .throw rfl
  next => exact .pure rfl

theorem checkTarget_inStep (ref : Ref) :
    InStep numbering (checkTarget ref) (checkTarget (ref.renumber numbering.number)) := by
  refine (checkIssued_inStep ref).bind fun _ => ?_
  obtain ⟨number, serial, place⟩ := ref
  cases place with
  | slot => exact .throw rfl
  | object | array => exact .pure rfl

theorem checkArray_inStep (ref : Ref) :
    InStep numbering (checkArray ref) (checkArray (ref.renumber numbering.number)) := by
  refine (checkIssued_inStep ref).bind fun _ => ?_
  obtain ⟨number, serial, place⟩ := ref
  cases place with
  | slot | object => exact .throw rfl
  | array => exact .pure rfl

theorem checkSlot_inStep (ref : Ref) :
    InStep numbering (checkSlot ref) (checkSlot (ref.renumber numbering.number)) := by
  refine (checkIssued_inStep ref).bind fun _ => ?_
  obtain ⟨number, serial, place⟩ := ref
  cases place with
  | slot => exact .pure rfl
  | object | array => exact .throw rfl

/-- The faults of a construction name no handle. -/
theorem made_inStep (result : Except Expr.Misfit α) :
    InStep numbering (made result) (made result) := by
  refine .liftM ?_
  cases result with
  | error misfit => rfl
  | ok a => rfl

/-- Layouts are kept by tag and index, where no handle comes in. -/
theorem checkLayout_inStep (use : FieldUse) (tag : String) (index : Nat) (ty : Ty) :
    InStep numbering (checkLayout use tag index ty) (checkLayout use tag index ty) := by
  refine .get_bind fun heap other h => ?_
  rw [h.eq, renumber_layouts]
  split
  next =>
    refine .modify fun heap other h => ?_
    exact h.update (fun heap => { heap with layouts := heap.layouts.set (tag, index) ty }) rfl rfl
      rfl rfl
  next known =>
    split
    next => exact .throw rfl
    next => exact .pure rfl

theorem lookUpPrior_inStep (address : Nat) (index : Datum) :
    InStep numbering (lookUpPrior address index) (lookUpPrior address index) := by
  unfold lookUpPrior
  split
  next => exact .throw_bind rfl
  next => exact .get_bind fun heap other h => .pure (by rw [h.eq]; rfl)

-- ============================================================ operations

/-- The new handles of the two sides are namesakes. -/
theorem issue_inStep (place : Place) :
    Lockstep (Renumbered numbering) (Fault.renumber numbering.number)
      (Ref.renumber numbering.number) (issue place) (issue place) := by
  intro heap other h
  rw [issue_run, issue_run, h.eq, renumber_refs, List.length_map]
  exact ⟨rfl, rfl, h.counted, List.forall_mem_cons.2 ⟨rfl, h.refs⟩, h.slots⟩

/-- Both sides count the same addresses and know the same names of roots. -/
theorem takeAddress_inStep (tag : String) (name : Option String) :
    InStep numbering (takeAddress tag name) (takeAddress tag name) := by
  refine .get_bind fun heap other h => ?_
  have used := h.update (fun heap => { heap with nextAddress := heap.nextAddress + 1 }) rfl rfl
    rfl rfl
  rw [h.eq] at used ⊢
  refine .bind (.set used) fun _ => ?_
  refine .ite Iff.rfl (fun _ => .throw_bind rfl) fun _ => ?_
  refine .bind (.modify fun heap other h => ?_) fun _ => .pure rfl
  exact h.update (fun after => { after with histories := after.histories.set _ _ }) rfl rfl rfl rfl

/-- An address is taken, then a handle issued. -/
theorem allocate_inStep (ty : Ty) (tag name : Option String) :
    Lockstep (Renumbered numbering) (Fault.renumber numbering.number)
      (Ref.renumber numbering.number) (allocate ty tag name) (allocate ty tag name) := by
  cases ty with
  | int | bool => exact issue_inStep _
  | object | array => exact (takeAddress_inStep _ name).bind fun address => issue_inStep _
  | function | ref => exact .throw rfl

theorem share_inStep (ref : Ref) :
    Lockstep (Renumbered numbering) (Fault.renumber numbering.number)
      (Ref.renumber numbering.number) (share ref) (share (ref.renumber numbering.number)) :=
  (checkTarget_inStep ref).bind fun _ => issue_inStep ref.place

/-- A write changes the history at an address and what it was before. -/
theorem record_inStep (address index : Nat) (prior state : Expr) :
    InStep numbering (modify (record address index prior state))
      (modify (record address index prior state)) :=
  .modify fun _ _ h => h.update (record address index prior state) rfl rfl rfl rfl

/-- The checks, then the record; the new state is made of the old one on
both sides. -/
theorem writeField_inStep (ref : Ref) (index : Datum) (value : Expr) :
    InStep numbering (writeField ref index value)
      (writeField (ref.renumber numbering.number) index value) := by
  refine (checkTarget_inStep ref).bind fun (address, tag) => ?_
  refine .get_bind fun heap other h => ?_
  refine .bind (.liftM (h.current ref)) fun prior => ?_
  refine (made_inStep _).bind fun state => (made_inStep _).bind fun index => ?_
  exact (checkLayout_inStep _ _ _ _).bind fun _ => (record_inStep _ _ _ _).bind fun _ => .pure rfl

theorem readField_inStep (ref : Ref) (index : Datum) (ty : Ty) :
    InStep numbering (readField ref index ty)
      (readField (ref.renumber numbering.number) index ty) := by
  refine (checkTarget_inStep ref).bind fun (address, tag) => ?_
  refine (lookUpPrior_inStep address index).bind fun prior => ?_
  refine .get_bind fun heap other h => ?_
  refine .bind (.liftM (h.current ref)) fun base => ?_
  refine (made_inStep _).bind fun read => (made_inStep _).bind fun index => ?_
  exact (checkLayout_inStep _ _ _ _).bind fun _ => .pure rfl

theorem writeElement_inStep (ref : Ref) (index : Datum) (value : Expr) :
    InStep numbering (writeElement ref index value)
      (writeElement (ref.renumber numbering.number) index value) := by
  refine (checkArray_inStep ref).bind fun (tag, element) => ?_
  dsimp only
  split
  next => exact .throw_bind rfl
  next => exact writeField_inStep ref index value

theorem readElement_inStep (ref : Ref) (index : Datum) (ty : Option Ty) :
    InStep numbering (readElement ref index ty)
      (readElement (ref.renumber numbering.number) index ty) := by
  refine (checkArray_inStep ref).bind fun (tag, element) => ?_
  dsimp only
  split
  next =>
    split
    next => exact .throw_bind rfl
    next => exact readField_inStep ref index element
  next => exact readField_inStep ref index element

/-- What a field was before a write is kept by address. -/
theorem priorState_inStep (ref : Ref) (index : Datum) :
    InStep numbering (priorState ref index)
      (priorState (ref.renumber numbering.number) index) :=
  (checkTarget_inStep ref).bind fun (address, _) => lookUpPrior_inStep address index

theorem history_inStep (ref : Ref) :
    InStep numbering (history ref) (history (ref.renumber numbering.number)) := by
  refine (checkTarget_inStep ref).bind fun _ => .get_bind fun heap other h => ?_
  rw [h.historyOf? ref]
  cases heap.historyOf? ref with
  | none => exact .throw rfl
  | some history => exact .pure rfl

theorem readSlot_inStep (ref : Ref) :
    InStep numbering (readSlot ref) (readSlot (ref.renumber numbering.number)) := by
  refine (checkSlot_inStep ref).bind fun _ => .get_bind fun heap other h => ?_
  rw [h.eq, renumber_slots, Table.find?_mapKeys (h.slot_apart ref)]
  cases heap.slots.find? ref with
  | none => exact .throw rfl
  | some value => exact .pure rfl

/-- The one operation that keeps something by handle. -/
theorem writeSlot_inStep (ref : Ref) (value : Expr) :
    InStep numbering (writeSlot ref value)
      (writeSlot (ref.renumber numbering.number) value) := by
  have issued : ∀ {heap held after}, (checkSlot ref).run heap = (.ok held, after) →
      ref ∈ after.refs := by
    intro heap held after h
    obtain ⟨issued, -, rfl⟩ := checkSlot_eq_ok_iff.1 h
    exact issued
  refine (checkSlot_inStep ref).bind_known issued fun held heap other issued h => ?_
  by_cases fits : value.typeOf ≠ held
  · rw [if_pos fits, if_pos fits]
    exact ⟨rfl, h⟩
  · rw [if_neg fits, if_neg fits]
    exact ⟨rfl, h.store issued value⟩

-- ============================================================= one action

/-- Every action does the same under the new numbers: it is refused for
the same reason or answers the same, but for the numbers in handles. -/
theorem perform_renumber (action : Action) :
    Lockstep (Renumbered numbering) (Fault.renumber numbering.number)
      (Answer.renumber numbering.number) (perform action)
      (perform (action.renumber numbering.number)) := by
  cases action with
  | allocate ty tag name => exact (allocate_inStep ty tag name).map fun _ => rfl
  | share ref => exact (share_inStep ref).map fun _ => rfl
  | writeSlot ref value => exact (writeSlot_inStep ref value).map fun _ => rfl
  | readSlot ref => exact (readSlot_inStep ref).map fun _ => rfl
  | writeField ref index value => exact (writeField_inStep ref index value).map fun _ => rfl
  | readField ref index ty => exact (readField_inStep ref index ty).map fun _ => rfl
  | writeElement ref index value => exact (writeElement_inStep ref index value).map fun _ => rfl
  | readElement ref index ty => exact (readElement_inStep ref index ty).map fun _ => rfl
  | priorState ref index => exact (priorState_inStep ref index).map fun _ => rfl
  | history ref => exact (history_inStep ref).map fun _ => rfl

-- ========================================================== what is noted

/-- No message names the number of a heap. -/
theorem Fault.message_renumber (f : Nat → Nat) (fault : Fault) :
    (fault.renumber f).message = fault.message := by
  cases fault with
  | foreign | wrongKind | unassigned | noStates => rfl
  | unallocatable | rootTaken | valueMisfit | noElements | layoutMisfit | malformed
  | compoundIndex => rfl

/-- Which faults are noted does not hang on numbers. -/
theorem Fault.isNoted_renumber (f : Nat → Nat) (fault : Fault) :
    (fault.renumber f).isNoted = fault.isNoted := by
  cases fault with
  | foreign | wrongKind | unassigned | noStates => rfl
  | unallocatable | rootTaken | valueMisfit | noElements | layoutMisfit | malformed
  | compoundIndex => rfl

/-- Nor does what a log says of an action. -/
theorem Renumbered.trace? (h : Renumbered numbering heap other) (action : Action)
    (answer : Answer) :
    other.trace? (action.renumber numbering.number) (answer.renumber numbering.number)
      = heap.trace? action answer := by
  cases action with
  | allocate ty tag name =>
      cases answer with
      | handle ref =>
          simp only [Action.renumber, Answer.renumber, Heap.trace?, h.historyOf?]
          rfl
      | done | expr | prior | states => rfl
  | writeField ref index value | writeElement ref index value =>
      cases answer with
      | expr state =>
          cases state with
          | assign base index value tag =>
              simp only [Action.renumber, Answer.renumber, Heap.trace?, h.version]
              rfl
          | _ => rfl
      | done | handle | prior | states => rfl
  | share | writeSlot | readSlot | readField | readElement | priorState | history => rfl

end Heap

end SymbolicHeap
