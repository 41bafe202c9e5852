/-
What an action does to a heap.

Every action, refused or not, does one of four things (`perform_change`):
it leaves handles and histories alone, it issues a handle on a place that
is known, it starts the history of a new address, or it adds a state to
the history of an address.  Only a write that succeeds does the last: it
adds the value that was given, and keeps the state that was newest before
as the prior state of the field.  The type of a field stays as it was
first fixed (`Change.keepsLayouts`).

Whatever holds of heaps along a run is shown by these four cases, and by
what fields are read and written at (`readField_eq_ok`,
`writeField_eq_ok`).  What the four cases leave open, the counter of
addresses and the slots, is settled at the end (`allocate_slots`,
`access_slots`).
-/
import SymbolicHeap.Proofs.Heap.Success

namespace SymbolicHeap

namespace Heap

-- ============================================================ the changes

/-- The types of fields that are fixed stay as they are. -/
def KeepsLayouts (before after : Heap) : Prop :=
  ∀ place ty, before.layouts.find? place = some ty → after.layouts.find? place = some ty

theorem keepsLayouts_of_eq {before after : Heap} (same : after.layouts = before.layouts) :
    before.KeepsLayouts after := by
  intro place ty known
  rw [same]
  exact known

/-- Handles, histories and prior states are as they were; addresses may
have been used up, and types of fields fixed. -/
structure Untouched (before after : Heap) : Prop where
  id : after.id = before.id
  refs : after.refs = before.refs
  histories : after.histories = before.histories
  nextAddress : before.nextAddress ≤ after.nextAddress
  priors : after.priors = before.priors
  layouts : before.KeepsLayouts after

theorem untouched_steady : Steady Untouched where
  refl _ := ⟨rfl, rfl, rfl, Nat.le_refl _, rfl, keepsLayouts_of_eq rfl⟩
  trans h k :=
    ⟨k.id.trans h.id, k.refs.trans h.refs, k.histories.trans h.histories,
      Nat.le_trans h.nextAddress k.nextAddress, k.priors.trans h.priors,
      fun place ty known => k.layouts place ty (h.layouts place ty known)⟩

/-- The value that an action writes, with its address and field index. -/
structure CellWrite where
  address : Nat
  index : Nat
  value : Expr

/-- What an action may do to a heap, with the cell that it writes. -/
inductive Change (before : Heap) : Option CellWrite → Heap → Prop
  | quiet {after : Heap} : before.Untouched after → Change before none after
  /-- A handle on a slot, or a second one on a place. -/
  | handle {ref : Ref} {after : Heap} : ref.heap = before.id →
      (∀ address, ref.address? = some address →
        ∃ known ∈ before.refs, known.place = ref.place) →
      after.id = before.id → after.refs = ref :: before.refs →
      after.histories = before.histories → before.nextAddress ≤ after.nextAddress →
      after.priors = before.priors → before.KeepsLayouts after → Change before none after
  /-- The first handle on a new address. -/
  | root {ref : Ref} {tag root : String} {after : Heap} : ref.heap = before.id →
      ref.target? = some (before.nextAddress, tag) →
      root ∉ before.histories.values.map History.root →
      after.id = before.id → after.refs = ref :: before.refs →
      after.histories = before.histories.set before.nextAddress { root } →
      before.nextAddress < after.nextAddress → after.priors = before.priors →
      before.KeepsLayouts after → Change before none after
  /-- A state on top of the newest one of an address. -/
  | write {ref : Ref} {address index : Nat} {tag : String} {value : Expr} {history : History}
      {after : Heap} : ref ∈ before.refs → ref.target? = some (address, tag) →
      before.histories.find? address = some history →
      after.id = before.id → after.refs = before.refs →
      after.histories = before.histories.set address
        (history.write (.assign history.current index value tag)) →
      before.nextAddress ≤ after.nextAddress →
      after.priors = before.priors.set (address, index) history.current →
      before.KeepsLayouts after → after.layouts.find? (tag, index) = some value.typeOf →
      Change before (some ⟨address, index, value⟩) after

/-- Whatever a change is, types that are fixed stay so. -/
theorem Change.keepsLayouts {before after : Heap} {cell : Option CellWrite}
    (change : before.Change cell after) : before.KeepsLayouts after := by
  cases change with
  | quiet untouched => exact untouched.layouts
  | handle _ _ _ _ _ _ _ keeps => exact keeps
  | root _ _ _ _ _ _ _ _ keeps => exact keeps
  | write _ _ _ _ _ _ _ _ keeps => exact keeps

-- ============================================================ operations

variable {heap after : Heap} {ref : Ref}

/-- Fixing the type of a field changes no other. -/
theorem untouched_fixing {place : String × Nat} {ty : Ty} :
    heap.Untouched (heap.fixing place ty) := by
  refine ⟨rfl, rfl, rfl, Nat.le_refl _, rfl, fun other known held => ?_⟩
  rw [fixing_layouts]
  by_cases here : other = place
  · rw [here] at held ⊢
    rw [Table.find?_add_self, held]
    rfl
  · rw [Table.find?_add_of_ne _ _ here]
    exact held

theorem writeField_eq_ok {index : Datum} {value state : Expr}
    (h : (writeField ref index value).run heap = (.ok state, after)) :
    ∃ address tag history, ∃ i : Nat, ref ∈ heap.refs ∧ ref.target? = some (address, tag) ∧
      heap.histories.find? address = some history ∧ index = .int i ∧
      Datum.isShort i = true ∧ state = .assign history.current i value tag ∧ after.id = heap.id ∧
      after.refs = heap.refs ∧
      after.histories = heap.histories.set address (history.write state) ∧
      heap.nextAddress ≤ after.nextAddress ∧
      after.priors = heap.priors.set (address, i) history.current ∧
      heap.KeepsLayouts after ∧ after.layouts.find? (tag, i) = some value.typeOf := by
  obtain ⟨address, tag, history, i, sees, rfl, short, -, -, admits, rfl, rfl⟩ :=
    writeField_eq_ok_iff.1 h
  exact ⟨address, tag, history, i, sees.issued, sees.target, sees.found, rfl, short, rfl, rfl, rfl,
    record_histories sees.found, Nat.le_refl _, rfl, untouched_fixing.layouts, admits.found⟩

/-- A read is made against the newest state of an address, with the prior
state that is kept for the field. -/
theorem readField_eq_ok {index : Datum} {ty : Ty} {read : Expr}
    (h : (readField ref index ty).run heap = (.ok read, after)) :
    ∃ address tag history, ∃ i : Nat, ref ∈ heap.refs ∧
      ref.target? = some (address, tag) ∧ heap.histories.find? address = some history ∧
      index = .int i ∧
      read = .access history.current (heap.priors.find? (address, i)) ⟨tag, i, ty⟩ ∧
      ty.hasSort = true ∧ after.layouts.find? (tag, i) = some ty := by
  obtain ⟨address, tag, history, i, sees, rfl, -, -, -, sorted, admits, rfl, rfl⟩ :=
    readField_eq_ok_iff.1 h
  exact ⟨address, tag, history, i, sees.issued, sees.target, sees.found, rfl, rfl, sorted,
    admits.found⟩

theorem readField_untouched {index : Datum} {ty : Ty} {read : Expr}
    (h : (readField ref index ty).run heap = (.ok read, after)) : heap.Untouched after := by
  obtain ⟨_, _, _, _, _, _, _, _, _, _, _, _, rfl⟩ := readField_eq_ok_iff.1 h
  exact untouched_fixing

theorem share_eq_ok {shared : Ref} (h : (share ref).run heap = (.ok shared, after)) :
    heap.Change none after := by
  obtain ⟨issued, -, rfl, rfl⟩ := share_eq_ok_iff.1 h
  refine .handle ?_ ?_ rfl rfl rfl (Nat.le_refl _) rfl (keepsLayouts_of_eq rfl)
  · rfl
  · exact fun _ _ => ⟨ref, issued, rfl⟩

theorem writeSlot_untouched {value : Expr} {u : Unit}
    (h : (writeSlot ref value).run heap = (.ok u, after)) : heap.Untouched after := by
  obtain ⟨-, -, rfl⟩ := writeSlot_eq_ok_iff.1 h
  exact ⟨rfl, rfl, rfl, Nat.le_refl _, rfl, keepsLayouts_of_eq rfl⟩

-- ------------------------------------------------------------- allocation

theorem allocate_eq_ok {ty : Ty} {tag name : Option String} {ref : Ref}
    (h : (allocate ty tag name).run heap = (.ok ref, after)) : heap.Change none after := by
  rw [allocate_run] at h
  split at h
  next t place seated =>
    split at h
    next => cases h
    next free =>
      cases h
      refine .root ?_ (target?_of_seat? seated _ _ _) free rfl rfl rfl (Nat.lt_succ_self _) rfl
        (keepsLayouts_of_eq rfl)
      rfl
  next =>
    split at h
    next =>
      cases h
      refine .handle ?_ ?_ rfl rfl rfl (Nat.le_refl _) rfl (keepsLayouts_of_eq rfl)
      · rfl
      · intro address h
        cases h
    next => cases h

/-- A refused allocation uses up an address at most. -/
theorem allocate_refuses (ty : Ty) (tag name : Option String) :
    Refuses Untouched (allocate ty tag name) := by
  intro heap fault after h
  rw [allocate_run] at h
  split at h
  next =>
    split at h
    next =>
      cases h
      exact ⟨rfl, rfl, rfl, Nat.le_succ _, rfl, keepsLayouts_of_eq rfl⟩
    next => cases h
  next =>
    split at h
    next => cases h
    next =>
      cases h
      exact untouched_steady.refl heap

-- ================================================================ actions

/-- The cell behind a handle that a value is written to. -/
def cellWrite? (ref : Ref) (index : Datum) (value : Expr) : Option CellWrite :=
  match ref.address?, Build.fieldIndex .assign index with
  | some address, .ok i => some ⟨address, i, value⟩
  | _, _ => none

theorem cellWrite?_of_short {address i : Nat} {value : Expr} (target : ref.address? = some address)
    (short : Datum.isShort i = true) :
    cellWrite? ref (.int i) value = some ⟨address, i, value⟩ := by
  unfold cellWrite?
  rw [target, Build.fieldIndex_eq_ok.2 ⟨rfl, short⟩]

/-- The cell that an action writes, if it goes through. -/
def Action.write? : Action → Except Fault Answer → Option CellWrite
  | .writeField ref index value, .ok _ => cellWrite? ref index value
  | .writeElement ref index value, .ok _ => cellWrite? ref index value
  | _, _ => none

theorem writeField_change {index : Datum} {value state : Expr}
    (h : (writeField ref index value).run heap = (.ok state, after)) :
    heap.Change (cellWrite? ref index value) after := by
  obtain ⟨address, tag, history, i, issued, htarget, hfind, rfl, short, rfl, hid, hrefs, hhist,
    hnext, hpriors, hkeeps, hlayout⟩ := writeField_eq_ok h
  rw [cellWrite?_of_short (address?_of_target? htarget) short]
  exact .write issued htarget hfind hid hrefs hhist hnext hpriors hkeeps hlayout

/-- Storing an element is writing a field, if the value fits. -/
theorem writeElement_eq_ok {index : Datum} {value state : Expr}
    (h : (writeElement ref index value).run heap = (.ok state, after)) :
    (writeField ref index value).run heap = (.ok state, after) :=
  (writeElement_eq_ok_iff.1 h).2

/-- Reading an element is reading a field at the type of the elements. -/
theorem readElement_eq_ok {index : Datum} {ty : Option Ty} {read : Expr}
    (h : (readElement ref index ty).run heap = (.ok read, after)) :
    ∃ element, (readField ref index element).run heap = (.ok read, after) := by
  obtain ⟨_, _, element, -, -, hread⟩ := readElement_eq_ok_iff.1 h
  exact ⟨element, hread⟩

/-- An action that is refused leaves handles and histories alone. -/
theorem perform_refuses_untouched (action : Action) : Refuses Untouched (perform action) := by
  cases action with
  | allocate ty tag name => exact (allocate_refuses ty tag name).map _
  | _ =>
      intro heap fault after h
      cases perform_refuses rfl _ _ _ h
      exact untouched_steady.refl heap

/-- What an action does, refused or not. -/
theorem perform_change {action : Action} {answer : Except Fault Answer}
    (h : (perform action).run heap = (answer, after)) :
    heap.Change (action.write? answer) after := by
  cases answer with
  | error fault =>
      have silent : action.write? (.error fault) = none := by cases action <;> rfl
      rw [silent]
      exact .quiet (perform_refuses_untouched action _ _ _ h)
  | ok answer =>
      cases action with
      | allocate ty tag name =>
          obtain ⟨_, hok, -⟩ := run_map_eq_ok.1 h
          exact allocate_eq_ok hok
      | share ref =>
          obtain ⟨_, hok, -⟩ := run_map_eq_ok.1 h
          exact share_eq_ok hok
      | writeSlot ref value =>
          obtain ⟨_, hok, -⟩ := run_map_eq_ok.1 h
          exact .quiet (writeSlot_untouched hok)
      | readSlot ref =>
          obtain ⟨_, hok, -⟩ := run_map_eq_ok.1 h
          obtain ⟨-, -, -, rfl⟩ := readSlot_eq_ok_iff.1 hok
          exact .quiet (untouched_steady.refl heap)
      | writeField ref index value =>
          obtain ⟨_, hok, -⟩ := run_map_eq_ok.1 h
          exact writeField_change hok
      | readField ref index ty =>
          obtain ⟨_, hok, -⟩ := run_map_eq_ok.1 h
          exact .quiet (readField_untouched hok)
      | writeElement ref index value =>
          obtain ⟨_, hok, -⟩ := run_map_eq_ok.1 h
          exact writeField_change (writeElement_eq_ok hok)
      | readElement ref index ty =>
          obtain ⟨_, hok, -⟩ := run_map_eq_ok.1 h
          obtain ⟨_, hread⟩ := readElement_eq_ok hok
          exact .quiet (readField_untouched hread)
      | priorState ref index =>
          obtain ⟨_, hok, -⟩ := run_map_eq_ok.1 h
          obtain ⟨_, _, -, -, -, -, rfl⟩ := priorState_eq_ok_iff.1 hok
          exact .quiet (untouched_steady.refl heap)
      | history ref =>
          obtain ⟨_, hok, -⟩ := run_map_eq_ok.1 h
          obtain ⟨_, _, _, -, -, rfl⟩ := history_eq_ok_iff.1 hok
          exact .quiet (untouched_steady.refl heap)

-- ================================================= addresses and slots

/-- An allocation puts no value anywhere. -/
theorem allocate_slots (ty : Ty) (tag name : Option String) :
    Leads (fun before after => after.slots = before.slots) (allocate ty tag name) := by
  intro heap
  rw [allocate_run]
  split
  next =>
    split
    next => rfl
    next => rfl
  next =>
    split
    next => rfl
    next => rfl

/-- An access uses up no address, and puts a value into the slot that it
writes at most. -/
theorem access_slots {action : Action} {answer : Except Fault Answer}
    (access : action.isAccess = true)
    (h : (perform action).run heap = (answer, after)) :
    after.nextAddress = heap.nextAddress ∧
      (after.slots = heap.slots ∨ ∃ ref value, action = .writeSlot ref value ∧
        answer = .ok .done ∧ after.slots = heap.slots.set ref value) := by
  have written : ∀ {ref index value state},
      (writeField ref index value).run heap = (.ok state, after) →
      after.nextAddress = heap.nextAddress ∧ after.slots = heap.slots := by
    intro ref index value state h
    obtain ⟨_, _, _, _, -, -, -, -, -, -, -, rfl⟩ := writeField_eq_ok_iff.1 h
    exact ⟨rfl, rfl⟩
  have read : ∀ {ref index ty state},
      (readField ref index ty).run heap = (.ok state, after) →
      after.nextAddress = heap.nextAddress ∧ after.slots = heap.slots := by
    intro ref index ty state h
    obtain ⟨_, _, _, _, -, -, -, -, -, -, -, -, rfl⟩ := readField_eq_ok_iff.1 h
    exact ⟨rfl, rfl⟩
  cases answer with
  | error fault =>
      cases perform_refuses access _ _ _ h
      exact ⟨rfl, .inl rfl⟩
  | ok answer =>
      cases action with
      | allocate ty tag name => cases access
      | share ref =>
          obtain ⟨_, hok, -⟩ := run_map_eq_ok.1 h
          obtain ⟨-, -, -, rfl⟩ := share_eq_ok_iff.1 hok
          exact ⟨rfl, .inl rfl⟩
      | writeSlot ref value =>
          obtain ⟨_, hok, rfl⟩ := run_map_eq_ok.1 h
          obtain ⟨-, -, rfl⟩ := writeSlot_eq_ok_iff.1 hok
          exact ⟨rfl, .inr ⟨ref, value, rfl, rfl, rfl⟩⟩
      | readSlot ref =>
          obtain ⟨_, hok, -⟩ := run_map_eq_ok.1 h
          obtain ⟨-, -, -, rfl⟩ := readSlot_eq_ok_iff.1 hok
          exact ⟨rfl, .inl rfl⟩
      | writeField ref index value =>
          obtain ⟨_, hok, -⟩ := run_map_eq_ok.1 h
          exact (written hok).imp_right .inl
      | readField ref index ty =>
          obtain ⟨_, hok, -⟩ := run_map_eq_ok.1 h
          exact (read hok).imp_right .inl
      | writeElement ref index value =>
          obtain ⟨_, hok, -⟩ := run_map_eq_ok.1 h
          exact (written (writeElement_eq_ok hok)).imp_right .inl
      | readElement ref index ty =>
          obtain ⟨_, hok, -⟩ := run_map_eq_ok.1 h
          obtain ⟨_, hread⟩ := readElement_eq_ok hok
          exact (read hread).imp_right .inl
      | priorState ref index =>
          obtain ⟨_, hok, -⟩ := run_map_eq_ok.1 h
          obtain ⟨_, _, -, -, -, -, rfl⟩ := priorState_eq_ok_iff.1 hok
          exact ⟨rfl, .inl rfl⟩
      | history ref =>
          obtain ⟨_, hok, -⟩ := run_map_eq_ok.1 h
          obtain ⟨_, _, _, -, -, rfl⟩ := history_eq_ok_iff.1 hok
          exact ⟨rfl, .inl rfl⟩

end Heap

end SymbolicHeap
