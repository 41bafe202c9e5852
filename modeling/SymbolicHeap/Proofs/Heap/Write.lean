/-
A write that goes through.

A write may be asked for as one of a field or as one of an element, and is
the same in both cases once it has passed the checks: it adds a state to
the history behind the handle, keeps the one before as the prior state of
the field, and fixes the type of the field (`Lands.run`).
-/
import SymbolicHeap.Proofs.Heap.Step

namespace SymbolicHeap

namespace Heap

-- ========================================================== one write

/-- An action writes a value to an index through a handle; the operation
on elements takes no other values than those of the array's type. -/
def Action.Aims (action : Action) (ref : Ref) (index : Nat) (value : Expr) : Prop :=
  action = .writeField ref (.int index) value ∨
    action = .writeElement ref (.int index) value ∧
      ∃ address tag, ref.place = .array address tag value.typeOf

/-- The state after a write on top of a history. -/
def CellWrite.over (cell : CellWrite) (tag : String) (history : History) : Expr :=
  .assign history.current cell.index cell.value tag

/-- The heap after a write on top of a history. -/
def landed (heap : Heap) (cell : CellWrite) (tag : String) (history : History) : Heap :=
  record cell.address cell.index history.current (cell.over tag history)
    (heap.fixing (tag, cell.index) cell.value.typeOf)

/-- All that a write asks of a heap. -/
structure Lands (heap : Heap) (action : Action) (cell : CellWrite) (ref : Ref) (tag : String)
    (history : History) : Prop where
  aims : action.Aims ref cell.index cell.value
  sees : heap.Sees ref cell.address tag history
  short : Datum.isShort cell.index = true
  object : history.current.typeOf = .object
  sorted : cell.value.typeOf.hasSort = true
  admits : heap.Admits (tag, cell.index) cell.value.typeOf

variable {heap : Heap} {action : Action} {cell : CellWrite} {ref : Ref} {tag : String}
  {history : History}

/-- A write that went through is one that landed. -/
theorem exists_lands (h : action.write? ((perform action).run heap).1 = some cell) :
    ∃ ref tag history, heap.Lands action cell ref tag history := by
  have written : ∀ {ref index value state after},
      (writeField ref index value).run heap = (.ok state, after) →
      cellWrite? ref index value = some cell →
      ∃ tag history, index = .int cell.index ∧ value = cell.value ∧
        heap.Sees ref cell.address tag history ∧ Datum.isShort cell.index = true ∧
        history.current.typeOf = .object ∧
        cell.value.typeOf.hasSort = true ∧ heap.Admits (tag, cell.index) cell.value.typeOf := by
    intro ref index value state after h hcell
    obtain ⟨address, tag, history, i, sees, rfl, short, object, sorted, admits, -, -⟩ :=
      writeField_eq_ok_iff.1 h
    rw [cellWrite?_of_short (address?_of_target? sees.target) short] at hcell
    cases hcell
    exact ⟨tag, history, rfl, rfl, sees, short, object, sorted, admits⟩
  rcases hrun : (perform action).run heap with ⟨fault | answer, after⟩
  · rw [hrun] at h
    cases action <;> cases h
  · rw [hrun] at h
    cases action with
    | writeField ref index value =>
        obtain ⟨state, hok, -⟩ := run_map_eq_ok.1 hrun
        obtain ⟨tag, history, rfl, rfl, sees, short, object, sorted, admits⟩ := written hok h
        exact ⟨ref, tag, history, .inl rfl, sees, short, object, sorted, admits⟩
    | writeElement ref index value =>
        obtain ⟨state, hok, -⟩ := run_map_eq_ok.1 hrun
        obtain ⟨hplace, hok⟩ := writeElement_eq_ok_iff.1 hok
        obtain ⟨tag, history, rfl, rfl, sees, short, object, sorted, admits⟩ := written hok h
        exact ⟨ref, tag, history, .inr ⟨rfl, hplace⟩, sees, short, object, sorted, admits⟩
    | _ => cases h

namespace Lands

theorem run (lands : heap.Lands action cell ref tag history) :
    (perform action).run heap
      = (.ok (.expr (cell.over tag history)), heap.landed cell tag history) := by
  have hok : (writeField ref (.int cell.index) cell.value).run heap
      = (.ok (cell.over tag history), heap.landed cell tag history) :=
    writeField_eq_ok_iff.2 ⟨cell.address, tag, history, cell.index, lands.sees, rfl,
      lands.short, lands.object, lands.sorted, lands.admits, rfl, rfl⟩
  rcases lands.aims with rfl | ⟨rfl, hplace⟩
  · exact run_map_eq_ok.2 ⟨_, hok, rfl⟩
  · exact run_map_eq_ok.2 ⟨_, writeElement_eq_ok_iff.2 ⟨hplace, hok⟩, rfl⟩

theorem after (lands : heap.Lands action cell ref tag history) :
    Heap.after heap action = heap.landed cell tag history :=
  congrArg Prod.snd lands.run

theorem write? (lands : heap.Lands action cell ref tag history) :
    action.write? ((perform action).run heap).1 = some cell := by
  have aimed : cellWrite? ref (.int cell.index) cell.value = some cell :=
    cellWrite?_of_short (address?_of_target? lands.sees.target) lands.short
  rw [lands.run]
  rcases lands.aims with rfl | ⟨rfl, -⟩
  · exact aimed
  · exact aimed

theorem histories (lands : heap.Lands action cell ref tag history) :
    (heap.landed cell tag history).histories
      = heap.histories.set cell.address (history.write (cell.over tag history)) := by
  have found : (heap.fixing (tag, cell.index) cell.value.typeOf).histories.find? cell.address
      = some history := lands.sees.found
  exact record_histories found

theorem roots (lands : heap.Lands action cell ref tag history) :
    (heap.landed cell tag history).histories.values.map History.root
      = heap.histories.values.map History.root := by
  have kept : (history.write (cell.over tag history)).root = history.root := rfl
  rw [lands.histories, Table.map_values_set History.root lands.sees.found kept]

end Lands

end Heap

end SymbolicHeap
