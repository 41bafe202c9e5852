/-
When an operation goes through.

Every operation makes all of its checks before it changes anything; the
one check that itself writes, that of the layout, writes only where it
passes.  So each operation is described by what it asks of a heap, its
answer, and the heap after it (`…_eq_ok_iff`), and an access that is
refused leaves the heap exactly as it was (`perform_refuses`).  An
allocation is the exception: it takes its address before it looks at the
name of the root (`takeAddress_run`).

Nothing after this file opens the operations again, except to compare two
runs of the same one.
-/
import SymbolicHeap.Heap.Action
import SymbolicHeap.Proofs.Expr.Made
import SymbolicHeap.Proofs.Outcome

namespace SymbolicHeap

/-- The address and the tag behind a handle on an object or an array. -/
def Ref.target? (ref : Ref) : Option (Nat × String) :=
  match ref.place with
  | .object address tag | .array address tag _ => some (address, tag)
  | .slot _ _ => none

namespace Heap

variable {heap after : Heap} {ref : Ref}

/-- To change nothing is something that steps keep up. -/
theorem eq_steady : Steady (fun before after : Heap => before = after) where
  refl _ := rfl
  trans h k := h.trans k

-- =============================================================== handles

/-- A handle that has an address and a tag has an address. -/
theorem address?_of_target? {target : Nat × String} (h : ref.target? = some target) :
    ref.address? = some target.1 := by
  unfold Ref.target? at h
  unfold Ref.address?
  split at h
  next hplace =>
    injection h with h
    rw [hplace, ← h]
  next hplace =>
    injection h with h
    rw [hplace, ← h]
  next => cases h

/-- And it has a tag. -/
theorem tag?_of_target? {target : Nat × String} (h : ref.target? = some target) :
    ref.tag? = some target.2 := by
  unfold Ref.target? at h
  unfold Ref.tag?
  split at h
  next hplace =>
    injection h with h
    rw [hplace, ← h]
  next hplace =>
    injection h with h
    rw [hplace, ← h]
  next => cases h

theorem target?_of_address? {address : Nat} (h : ref.address? = some address) :
    ∃ tag, ref.target? = some (address, tag) := by
  unfold Ref.address? at h
  unfold Ref.target?
  split at h
  next => cases h
  next hplace =>
    injection h with h
    rw [hplace, ← h]
    exact ⟨_, rfl⟩
  next hplace =>
    injection h with h
    rw [hplace, ← h]
    exact ⟨_, rfl⟩

-- ================================================================ checks

/-- A handle passes if the heap has issued it; the heap is only looked at.
-/
theorem checkIssued_eq_ok {u : Unit} (h : (checkIssued ref).run heap = (.ok u, after)) :
    ref ∈ heap.refs ∧ heap = after := by
  obtain ⟨found, middle, hget, h⟩ := run_bind_eq_ok.1 h
  cases hget
  split at h
  next => cases h
  next issued =>
    cases h
    exact ⟨by simpa [isAllocated] using issued, rfl⟩

theorem checkIssued_run (issued : ref ∈ heap.refs) :
    (checkIssued ref).run heap = (.ok (), heap) := by
  unfold checkIssued
  rw [run_get_bind, isAllocated, decide_eq_true issued]
  rfl

/-- Behind a handle of an object or an array there are an address and a tag.
-/
theorem checkTarget_eq_ok_iff {target : Nat × String} :
    (checkTarget ref).run heap = (.ok target, after) ↔
      ref ∈ heap.refs ∧ ref.target? = some target ∧ heap = after := by
  constructor
  · intro h
    obtain ⟨_, middle, hi, hrest⟩ := run_bind_eq_ok.1 h
    obtain ⟨issued, rfl⟩ := checkIssued_eq_ok hi
    split at hrest
    next hplace =>
      cases hrest
      refine ⟨issued, ?_, rfl⟩
      rw [Ref.target?, hplace]
    next hplace =>
      cases hrest
      refine ⟨issued, ?_, rfl⟩
      rw [Ref.target?, hplace]
    next => cases hrest
  · rintro ⟨issued, htarget, rfl⟩
    refine run_bind_eq_ok.2 ⟨(), heap, checkIssued_run issued, ?_⟩
    unfold Ref.target? at htarget
    cases hplace : ref.place with
    | object address tag | array address tag element =>
        rw [hplace] at htarget
        cases htarget
        rfl
    | slot ty tag =>
        rw [hplace] at htarget
        cases htarget

/-- An array has its element type in its handle. -/
theorem checkArray_eq_ok_iff {tag : String} {element : Ty} :
    (checkArray ref).run heap = (.ok (tag, element), after) ↔
      ref ∈ heap.refs ∧ (∃ address, ref.place = .array address tag element) ∧
        heap = after := by
  constructor
  · intro h
    obtain ⟨_, middle, hi, hrest⟩ := run_bind_eq_ok.1 h
    obtain ⟨issued, rfl⟩ := checkIssued_eq_ok hi
    split at hrest
    next hplace =>
      cases hrest
      exact ⟨issued, ⟨_, hplace⟩, rfl⟩
    next => cases hrest
  · rintro ⟨issued, ⟨address, hplace⟩, rfl⟩
    refine run_bind_eq_ok.2 ⟨(), heap, checkIssued_run issued, ?_⟩
    rw [hplace]
    rfl

/-- A slot has the type that it holds in its handle. -/
theorem checkSlot_eq_ok_iff {held : Ty} :
    (checkSlot ref).run heap = (.ok held, after) ↔
      ref ∈ heap.refs ∧ (∃ tag, ref.place = .slot held tag) ∧ heap = after := by
  constructor
  · intro h
    obtain ⟨_, middle, hi, hrest⟩ := run_bind_eq_ok.1 h
    obtain ⟨issued, rfl⟩ := checkIssued_eq_ok hi
    split at hrest
    next hplace =>
      cases hrest
      exact ⟨issued, ⟨_, hplace⟩, rfl⟩
    next => cases hrest
  · rintro ⟨issued, ⟨tag, hplace⟩, rfl⟩
    refine run_bind_eq_ok.2 ⟨(), heap, checkIssued_run issued, ?_⟩
    rw [hplace]
    rfl

/-- A field may be used at a type if no other one is fixed for it. -/
def Admits (heap : Heap) (place : String × Nat) (ty : Ty) : Prop :=
  ∀ known, heap.layouts.find? place = some known → known = ty

/-- Fixes the type of a field, unless it was fixed before. -/
def fixing (heap : Heap) (place : String × Nat) (ty : Ty) : Heap :=
  { heap with layouts := heap.layouts.add place ty }

section

variable (heap) (place : String × Nat) (ty : Ty)

@[simp] theorem fixing_id : (heap.fixing place ty).id = heap.id := rfl
@[simp] theorem fixing_nextAddress : (heap.fixing place ty).nextAddress = heap.nextAddress := rfl
@[simp] theorem fixing_refs : (heap.fixing place ty).refs = heap.refs := rfl
@[simp] theorem fixing_histories : (heap.fixing place ty).histories = heap.histories := rfl
@[simp] theorem fixing_priors : (heap.fixing place ty).priors = heap.priors := rfl
@[simp] theorem fixing_layouts :
    (heap.fixing place ty).layouts = heap.layouts.add place ty := rfl
@[simp] theorem fixing_slots : (heap.fixing place ty).slots = heap.slots := rfl

end

/-- A layout that is checked is fixed, or nothing happens. -/
theorem checkLayout_run (use : FieldUse) (tag : String) (index : Nat) (ty : Ty) :
    (heap.Admits (tag, index) ty ∧
        (checkLayout use tag index ty).run heap = (.ok (), heap.fixing (tag, index) ty)) ∨
      (¬ heap.Admits (tag, index) ty ∧
        ∃ fault, (checkLayout use tag index ty).run heap = (.error fault, heap)) := by
  unfold checkLayout Admits fixing Table.add Table.contains
  rw [run_get_bind]
  cases held : heap.layouts.find? (tag, index) with
  | none => exact .inl ⟨nofun, rfl⟩
  | some known =>
      by_cases same : known = ty
      · refine .inl ⟨?_, ?_⟩
        · rintro other ⟨⟩
          exact same
        · dsimp only
          rw [if_neg (not_not_intro same)]
          rfl
      · refine .inr ⟨fun admits => same (admits known rfl), .layoutMisfit use tag index known ty, ?_⟩
        dsimp only
        rw [if_pos same]
        rfl

/-- A field gets its layout at its first use, and any later use has to fit
it. -/
theorem checkLayout_eq_ok_iff {use : FieldUse} {tag : String} {index : Nat} {ty : Ty} {u : Unit} :
    (checkLayout use tag index ty).run heap = (.ok u, after) ↔
      heap.Admits (tag, index) ty ∧ after = heap.fixing (tag, index) ty := by
  rcases checkLayout_run use tag index ty with ⟨admits, hrun⟩ | ⟨refused, fault, hrun⟩
  · rw [hrun]
    constructor
    · intro h
      cases h
      exact ⟨admits, rfl⟩
    · rintro ⟨-, rfl⟩
      rfl
  · rw [hrun]
    constructor
    · intro h
      cases h
    · rintro ⟨admits, -⟩
      exact absurd admits refused

/-- A type that is admitted is that of the field from then on. -/
theorem Admits.found {place : String × Nat} {ty : Ty} (admits : heap.Admits place ty) :
    (heap.fixing place ty).layouts.find? place = some ty := by
  rw [fixing_layouts, Table.find?_add_self]
  cases held : heap.layouts.find? place with
  | none => rfl
  | some known => exact congrArg some (admits known held)

/-- What is found at the index of a field is the state kept for it. -/
theorem lookUpPrior_eq_ok_iff {address : Nat} {index : Datum} {prior : Option Expr} :
    (lookUpPrior address index).run heap = (.ok prior, after) ↔
      index.isCompound = false ∧
        prior = index.natural?.bind (fun i => heap.priors.find? (address, i)) ∧ heap = after := by
  unfold lookUpPrior
  by_cases compound : index.isCompound = true
  · rw [if_pos compound]
    constructor
    · intro h
      cases h
    · rintro ⟨simple, -⟩
      rw [compound] at simple
      cases simple
  · rw [if_neg compound]
    constructor
    · intro h
      cases h
      exact ⟨by simpa using compound, rfl, rfl⟩
    · rintro ⟨-, rfl, rfl⟩
      rfl

-- =============================================================== fields

/-- A handle of the heap, with the address, the tag and the history that
it leads to. -/
structure Sees (heap : Heap) (ref : Ref) (address : Nat) (tag : String) (history : History) :
    Prop where
  issued : ref ∈ heap.refs
  own : ref.heap = heap.id
  target : ref.target? = some (address, tag)
  found : heap.histories.find? address = some history

/-- A history is found by the number of the heap and the address; whether
the handle was issued is not looked at. -/
theorem historyOf?_eq_some_iff {history : History} :
    heap.historyOf? ref = some history ↔
      ∃ address, ref.address? = some address ∧ ref.heap = heap.id ∧
        heap.histories.find? address = some history := by
  unfold historyOf?
  cases ref.address? with
  | none => simp
  | some address => simp

/-- The current state is the newest of the history. -/
theorem current_eq_ok_iff {state : Expr} :
    heap.current ref = .ok state ↔
      ∃ history, heap.historyOf? ref = some history ∧ state = history.current := by
  unfold current
  cases heap.historyOf? ref with
  | none => simp
  | some history => simp [eq_comm]

/-- What an operation sees behind a handle is what the handle finds. -/
theorem Sees.historyOf? {address : Nat} {tag : String} {history : History}
    (sees : heap.Sees ref address tag history) : heap.historyOf? ref = some history :=
  historyOf?_eq_some_iff.2 ⟨address, address?_of_target? sees.target, sees.own, sees.found⟩

/-- A handle that passes the check and has a state leads to a history. -/
theorem sees_of_current {address : Nat} {tag : String} {state : Expr} (issued : ref ∈ heap.refs)
    (htarget : ref.target? = some (address, tag)) (h : heap.current ref = .ok state) :
    ∃ history, heap.Sees ref address tag history ∧ state = history.current := by
  obtain ⟨history, hhistory, rfl⟩ := current_eq_ok_iff.1 h
  obtain ⟨other, hother, own, found⟩ := historyOf?_eq_some_iff.1 hhistory
  rw [address?_of_target? htarget] at hother
  cases hother
  exact ⟨history, ⟨issued, own, htarget, found⟩, rfl⟩

/-- To make an expression leaves the heap alone. -/
theorem made_eq_ok {α : Type} {result : Except Expr.Misfit α} {a : α}
    (h : (made result).run heap = (.ok a, after)) : result = .ok a ∧ heap = after := by
  obtain ⟨hok, rfl⟩ := run_liftM_eq_ok.1 h
  exact ⟨mapError_eq_ok.1 hok, rfl⟩

theorem made_of_ok {α : Type} {result : Except Expr.Misfit α} {a : α} (h : result = .ok a) :
    (made result).run heap = (.ok a, heap) :=
  run_liftM_eq_ok.2 ⟨mapError_eq_ok.2 h, rfl⟩

/-- A write that goes through adds the new state on top of the newest. -/
theorem record_histories {address index : Nat} {prior state : Expr} {history : History}
    (h : heap.histories.find? address = some history) :
    (record address index prior state heap).histories
      = heap.histories.set address (history.write state) := by
  simp only [record, h]

/-- A write: the handle is good, the index is a natural number, the
constructor takes the value and the layout admits its type. The new state is
recorded with what the field was before. -/
theorem writeField_eq_ok_iff {index : Datum} {value state : Expr} :
    (writeField ref index value).run heap = (.ok state, after) ↔
      ∃ address tag history, ∃ i : Nat, heap.Sees ref address tag history ∧ index = .int i ∧
        Datum.isShort i = true ∧ history.current.typeOf = .object ∧ value.typeOf.hasSort = true ∧
        heap.Admits (tag, i) value.typeOf ∧ state = .assign history.current i value tag ∧
        after = record address i history.current state (heap.fixing (tag, i) value.typeOf) := by
  constructor
  · intro h
    obtain ⟨⟨address, tag⟩, _, ht, h⟩ := run_bind_eq_ok.1 h
    obtain ⟨issued, htarget, rfl⟩ := checkTarget_eq_ok_iff.1 ht
    obtain ⟨_, _, hget, h⟩ := run_bind_eq_ok.1 h
    cases hget
    obtain ⟨prior, _, hc, h⟩ := run_bind_eq_ok.1 h
    obtain ⟨hcurrent, rfl⟩ := run_liftM_eq_ok.1 hc
    obtain ⟨history, sees, rfl⟩ := sees_of_current issued htarget hcurrent
    obtain ⟨built, _, hb, h⟩ := run_bind_eq_ok.1 h
    obtain ⟨hbuilt, rfl⟩ := made_eq_ok hb
    obtain ⟨object, sorted, i, rfl, short, rfl⟩ := Build.assign_eq_ok.1 hbuilt
    obtain ⟨j, _, hj, h⟩ := run_bind_eq_ok.1 h
    obtain ⟨hindex, rfl⟩ := made_eq_ok hj
    obtain ⟨same, -⟩ := Build.fieldIndex_eq_ok.1 hindex
    cases same
    obtain ⟨_, checked, hl, h⟩ := run_bind_eq_ok.1 h
    obtain ⟨admits, rfl⟩ := checkLayout_eq_ok_iff.1 hl
    obtain ⟨_, _, hm, h⟩ := run_bind_eq_ok.1 h
    cases hm
    cases h
    exact ⟨address, tag, history, i, sees, rfl, short, object, sorted, admits, rfl, rfl⟩
  · rintro ⟨address, tag, history, i, sees, rfl, short, object, sorted, admits, rfl, rfl⟩
    have hcurrent := current_eq_ok_iff.2 ⟨history, sees.historyOf?, rfl⟩
    refine run_bind_eq_ok.2 ⟨(address, tag), heap,
      checkTarget_eq_ok_iff.2 ⟨sees.issued, sees.target, rfl⟩, ?_⟩
    refine run_bind_eq_ok.2 ⟨heap, heap, rfl, ?_⟩
    refine run_bind_eq_ok.2 ⟨_, heap, run_liftM_eq_ok.2 ⟨hcurrent, rfl⟩, ?_⟩
    refine run_bind_eq_ok.2 ⟨_, heap, made_of_ok (Build.assign_eq_ok.2 ⟨object, sorted, i, rfl, short, rfl⟩), ?_⟩
    refine run_bind_eq_ok.2 ⟨i, heap, made_of_ok (Build.fieldIndex_eq_ok.2 ⟨rfl, short⟩), ?_⟩
    exact run_bind_eq_ok.2 ⟨(), _, checkLayout_eq_ok_iff.2 ⟨admits, rfl⟩, rfl⟩

/-- A read: as for a write, and what is read is made on the current state
with what the field was before the newest write to it. -/
theorem readField_eq_ok_iff {index : Datum} {ty : Ty} {read : Expr} :
    (readField ref index ty).run heap = (.ok read, after) ↔
      ∃ address tag history, ∃ i : Nat, heap.Sees ref address tag history ∧ index = .int i ∧
        Datum.isShort i = true ∧ history.current.typeOf = .object ∧
        (∀ prior ∈ heap.priors.find? (address, i), prior.typeOf = .object) ∧
        ty.hasSort = true ∧ heap.Admits (tag, i) ty ∧
        read = .access history.current (heap.priors.find? (address, i)) ⟨tag, i, ty⟩ ∧
        after = heap.fixing (tag, i) ty := by
  constructor
  · intro h
    obtain ⟨⟨address, tag⟩, _, ht, h⟩ := run_bind_eq_ok.1 h
    obtain ⟨issued, htarget, rfl⟩ := checkTarget_eq_ok_iff.1 ht
    obtain ⟨prior, _, hp, h⟩ := run_bind_eq_ok.1 h
    obtain ⟨-, rfl, rfl⟩ := lookUpPrior_eq_ok_iff.1 hp
    obtain ⟨_, _, hget, h⟩ := run_bind_eq_ok.1 h
    cases hget
    obtain ⟨base, _, hc, h⟩ := run_bind_eq_ok.1 h
    obtain ⟨hcurrent, rfl⟩ := run_liftM_eq_ok.1 hc
    obtain ⟨history, sees, rfl⟩ := sees_of_current issued htarget hcurrent
    obtain ⟨built, _, hb, h⟩ := run_bind_eq_ok.1 h
    obtain ⟨hbuilt, rfl⟩ := made_eq_ok hb
    obtain ⟨object, priors, sorted, i, rfl, short, rfl⟩ := Build.access_eq_ok.1 hbuilt
    obtain ⟨j, _, hj, h⟩ := run_bind_eq_ok.1 h
    obtain ⟨hindex, rfl⟩ := made_eq_ok hj
    obtain ⟨same, -⟩ := Build.fieldIndex_eq_ok.1 hindex
    cases same
    obtain ⟨_, checked, hl, h⟩ := run_bind_eq_ok.1 h
    obtain ⟨admits, rfl⟩ := checkLayout_eq_ok_iff.1 hl
    obtain ⟨rfl, rfl⟩ := run_pure_eq_ok.1 h
    exact ⟨address, tag, history, i, sees, rfl, short, object, priors, sorted, admits, rfl, rfl⟩
  · rintro ⟨address, tag, history, i, sees, rfl, short, object, priors, sorted, admits, rfl, rfl⟩
    have hcurrent := current_eq_ok_iff.2 ⟨history, sees.historyOf?, rfl⟩
    refine run_bind_eq_ok.2 ⟨(address, tag), heap,
      checkTarget_eq_ok_iff.2 ⟨sees.issued, sees.target, rfl⟩, ?_⟩
    refine run_bind_eq_ok.2 ⟨_, heap, lookUpPrior_eq_ok_iff.2 ⟨rfl, rfl, rfl⟩, ?_⟩
    refine run_bind_eq_ok.2 ⟨heap, heap, rfl, ?_⟩
    refine run_bind_eq_ok.2 ⟨_, heap, run_liftM_eq_ok.2 ⟨hcurrent, rfl⟩, ?_⟩
    refine run_bind_eq_ok.2 ⟨_, heap,
      made_of_ok (Build.access_eq_ok.2 ⟨object, priors, sorted, i, rfl, short, rfl⟩), ?_⟩
    refine run_bind_eq_ok.2 ⟨i, heap, made_of_ok (Build.fieldIndex_eq_ok.2 ⟨rfl, short⟩), ?_⟩
    exact run_bind_eq_ok.2 ⟨(), _, checkLayout_eq_ok_iff.2 ⟨admits, rfl⟩, rfl⟩

/-- Storing an element is writing a field of an array with elements of
that type. -/
theorem writeElement_eq_ok_iff {index : Datum} {value state : Expr} :
    (writeElement ref index value).run heap = (.ok state, after) ↔
      (∃ address tag, ref.place = .array address tag value.typeOf) ∧
        (writeField ref index value).run heap = (.ok state, after) := by
  constructor
  · intro h
    obtain ⟨⟨tag, element⟩, _, hc, h⟩ := run_bind_eq_ok.1 h
    obtain ⟨-, ⟨address, hplace⟩, rfl⟩ := checkArray_eq_ok_iff.1 hc
    dsimp only at h
    split at h
    next =>
      obtain ⟨_, _, hthrow, -⟩ := run_bind_eq_ok.1 h
      cases hthrow
    next same =>
      rw [Decidable.not_not.1 same]
      exact ⟨⟨address, tag, hplace⟩, h⟩
  · rintro ⟨⟨address, tag, hplace⟩, h⟩
    obtain ⟨_, _, _, _, sees, -⟩ := writeField_eq_ok_iff.1 h
    refine run_bind_eq_ok.2 ⟨(tag, value.typeOf), heap,
      checkArray_eq_ok_iff.2 ⟨sees.issued, ⟨address, hplace⟩, rfl⟩, ?_⟩
    dsimp only
    rw [if_neg (not_not_intro rfl)]
    exact h

/-- Reading an element is reading a field of an array at the type of its
elements, which is the only one that may be asked for. -/
theorem readElement_eq_ok_iff {index : Datum} {ty : Option Ty} {read : Expr} :
    (readElement ref index ty).run heap = (.ok read, after) ↔
      ∃ address tag element, ref.place = .array address tag element ∧
        (∀ asked ∈ ty, asked = element) ∧
        (readField ref index element).run heap = (.ok read, after) := by
  constructor
  · intro h
    obtain ⟨⟨tag, element⟩, _, hc, h⟩ := run_bind_eq_ok.1 h
    obtain ⟨-, ⟨address, hplace⟩, rfl⟩ := checkArray_eq_ok_iff.1 hc
    refine ⟨address, tag, element, hplace, ?_⟩
    cases ty with
    | none => exact ⟨nofun, h⟩
    | some asked =>
        dsimp only at h
        split at h
        next =>
          obtain ⟨_, _, hthrow, -⟩ := run_bind_eq_ok.1 h
          cases hthrow
        next same =>
          refine ⟨?_, h⟩
          rintro _ ⟨⟩
          exact Decidable.not_not.1 same
  · rintro ⟨address, tag, element, hplace, hasked, h⟩
    obtain ⟨_, _, _, _, sees, -⟩ := readField_eq_ok_iff.1 h
    refine run_bind_eq_ok.2 ⟨(tag, element), heap,
      checkArray_eq_ok_iff.2 ⟨sees.issued, ⟨address, hplace⟩, rfl⟩, ?_⟩
    cases ty with
    | none => exact h
    | some asked =>
        dsimp only
        rw [if_neg (not_not_intro (hasked asked rfl))]
        exact h

-- ==================================================== handles and slots

/-- A handle is issued under the next serial, in every heap. -/
theorem issue_run (place : Place) :
    (issue place).run heap
      = (.ok ⟨heap.id, heap.refs.length, place⟩,
        { heap with refs := ⟨heap.id, heap.refs.length, place⟩ :: heap.refs }) := rfl

/-- A further handle for what a handle stands for. -/
theorem share_eq_ok_iff {shared : Ref} :
    (share ref).run heap = (.ok shared, after) ↔
      ref ∈ heap.refs ∧ (∃ target, ref.target? = some target) ∧
        shared = ⟨heap.id, heap.refs.length, ref.place⟩ ∧
        after = { heap with refs := shared :: heap.refs } := by
  constructor
  · intro h
    obtain ⟨target, _, ht, h⟩ := run_bind_eq_ok.1 h
    obtain ⟨issued, htarget, rfl⟩ := checkTarget_eq_ok_iff.1 ht
    rw [issue_run] at h
    cases h
    exact ⟨issued, ⟨target, htarget⟩, rfl, rfl⟩
  · rintro ⟨issued, ⟨target, htarget⟩, rfl, rfl⟩
    exact run_bind_eq_ok.2 ⟨target, heap, checkTarget_eq_ok_iff.2 ⟨issued, htarget, rfl⟩, rfl⟩

/-- A slot takes values of its type, over whatever it held. -/
theorem writeSlot_eq_ok_iff {value : Expr} {u : Unit} :
    (writeSlot ref value).run heap = (.ok u, after) ↔
      ref ∈ heap.refs ∧ (∃ tag, ref.place = .slot value.typeOf tag) ∧
        after = { heap with slots := heap.slots.set ref value } := by
  constructor
  · intro h
    obtain ⟨held, _, hs, h⟩ := run_bind_eq_ok.1 h
    obtain ⟨issued, hplace, rfl⟩ := checkSlot_eq_ok_iff.1 hs
    split at h
    next =>
      obtain ⟨_, _, hthrow, -⟩ := run_bind_eq_ok.1 h
      cases hthrow
    next same =>
      cases h
      rw [Decidable.not_not.1 same]
      exact ⟨issued, hplace, rfl⟩
  · rintro ⟨issued, hplace, rfl⟩
    refine run_bind_eq_ok.2 ⟨value.typeOf, heap,
      checkSlot_eq_ok_iff.2 ⟨issued, hplace, rfl⟩, ?_⟩
    rw [if_neg (not_not_intro rfl)]
    rfl

/-- A slot is read if something was put into it. -/
theorem readSlot_eq_ok_iff {value : Expr} :
    (readSlot ref).run heap = (.ok value, after) ↔
      ref ∈ heap.refs ∧ (∃ held tag, ref.place = .slot held tag) ∧
        heap.slots.find? ref = some value ∧ heap = after := by
  constructor
  · intro h
    obtain ⟨held, _, hs, h⟩ := run_bind_eq_ok.1 h
    obtain ⟨issued, hplace, rfl⟩ := checkSlot_eq_ok_iff.1 hs
    rw [run_get_bind] at h
    split at h
    next hfind =>
      obtain ⟨rfl, rfl⟩ := run_pure_eq_ok.1 h
      exact ⟨issued, ⟨held, hplace⟩, hfind, rfl⟩
    next => cases h
  · rintro ⟨issued, ⟨held, hplace⟩, hfind, rfl⟩
    refine run_bind_eq_ok.2 ⟨held, heap, checkSlot_eq_ok_iff.2 ⟨issued, hplace, rfl⟩, ?_⟩
    rw [run_get_bind, hfind]
    rfl

/-- What a field was before its newest write; only an index that is a list
or a record is refused. -/
theorem priorState_eq_ok_iff {index : Datum} {prior : Option Expr} :
    (priorState ref index).run heap = (.ok prior, after) ↔
      ∃ address tag, ref ∈ heap.refs ∧ ref.target? = some (address, tag) ∧
        index.isCompound = false ∧
        prior = index.natural?.bind (fun i => heap.priors.find? (address, i)) ∧
        heap = after := by
  constructor
  · intro h
    obtain ⟨⟨address, tag⟩, _, ht, h⟩ := run_bind_eq_ok.1 h
    obtain ⟨issued, htarget, rfl⟩ := checkTarget_eq_ok_iff.1 ht
    exact ⟨address, tag, issued, htarget, lookUpPrior_eq_ok_iff.1 h⟩
  · rintro ⟨address, tag, issued, htarget, h⟩
    exact run_bind_eq_ok.2 ⟨(address, tag), heap,
      checkTarget_eq_ok_iff.2 ⟨issued, htarget, rfl⟩, lookUpPrior_eq_ok_iff.2 h⟩

/-- All states of a history, the oldest first. -/
theorem history_eq_ok_iff {states : List Expr} :
    (history ref).run heap = (.ok states, after) ↔
      ∃ address tag found, heap.Sees ref address tag found ∧ states = found.states ∧
        heap = after := by
  constructor
  · intro h
    obtain ⟨⟨address, tag⟩, _, ht, h⟩ := run_bind_eq_ok.1 h
    obtain ⟨issued, htarget, rfl⟩ := checkTarget_eq_ok_iff.1 ht
    rw [run_get_bind] at h
    split at h
    next found hfound =>
      obtain ⟨rfl, rfl⟩ := run_pure_eq_ok.1 h
      obtain ⟨other, hother, own, hfind⟩ := historyOf?_eq_some_iff.1 hfound
      rw [address?_of_target? htarget] at hother
      cases hother
      exact ⟨address, tag, found, ⟨issued, own, htarget, hfind⟩, rfl, rfl⟩
    next => cases h
  · rintro ⟨address, tag, found, sees, rfl, rfl⟩
    refine run_bind_eq_ok.2 ⟨(address, tag), heap,
      checkTarget_eq_ok_iff.2 ⟨sees.issued, sees.target, rfl⟩, ?_⟩
    rw [run_get_bind, sees.historyOf?]
    rfl

-- ============================================================ allocation

/-- The name that an allocation gives to its root. -/
def rootFor (heap : Heap) (tag : String) (name : Option String) : String :=
  (given? name).getD (tag ++ "#" ++ toString heap.nextAddress)

/-- The heap after the next address has been used up. -/
def skipping (heap : Heap) : Heap := { heap with nextAddress := heap.nextAddress + 1 }

/-- The heap with a root at the next address. -/
def rooting (heap : Heap) (root : String) : Heap :=
  { heap.skipping with histories := heap.histories.set heap.nextAddress { root } }

/-- The heap with one more handle, on a place. -/
def issuing (heap : Heap) (place : Place) : Heap :=
  { heap with refs := ⟨heap.id, heap.refs.length, place⟩ :: heap.refs }

/-- The tag of a value that has an address, and the places for it. -/
def seat? (tag : Option String) : Ty → Option (String × (Nat → Place))
  | .object =>
      let tag := (given? tag).getD "object"
      some (tag, fun address => .object address tag)
  | .array element =>
      let tag := (given? tag).getD (Ty.array element).render
      some (tag, fun address => .array address tag element)
  | _ => none

/-- What is seated at an address with a tag is found under both. -/
theorem target?_of_seat? {tag : Option String} {ty : Ty} {t : String} {place : Nat → Place}
    (h : seat? tag ty = some (t, place)) (number serial address : Nat) :
    (⟨number, serial, place address⟩ : Ref).target? = some (address, t) := by
  cases ty with
  | object | array =>
      cases h
      rfl
  | _ => cases h

/-- A new address starts with its root, if the name is free; the address
is used up in any case. -/
theorem takeAddress_run (tag : String) (name : Option String) :
    (takeAddress tag name).run heap =
      if heap.rootFor tag name ∈ heap.histories.values.map History.root then
        (.error (.rootTaken (heap.rootFor tag name)), heap.skipping)
      else (.ok heap.nextAddress, heap.rooting (heap.rootFor tag name)) := by
  unfold takeAddress
  rw [run_get_bind, run_set_bind]
  unfold rootFor
  dsimp only
  split
  next => rfl
  next => rfl

/-- What becomes of an allocation: a value with an address is refused if
the name of its root is taken, one without gets a slot if it is an integer
or a truth value. -/
theorem allocate_run (ty : Ty) (tag name : Option String) :
    (allocate ty tag name).run heap =
      match seat? tag ty with
      | some (t, place) =>
          if heap.rootFor t name ∈ heap.histories.values.map History.root then
            (.error (.rootTaken (heap.rootFor t name)), heap.skipping)
          else
            (.ok ⟨heap.id, heap.refs.length, place heap.nextAddress⟩,
              (heap.rooting (heap.rootFor t name)).issuing (place heap.nextAddress))
      | none =>
          if ty = .int ∨ ty = .bool then
            (.ok ⟨heap.id, heap.refs.length, .slot ty tag⟩, heap.issuing (.slot ty tag))
          else (.error (.unallocatable ty), heap) := by
  have seated : ∀ t (place : Nat → Place),
      (takeAddress t name >>= fun address => issue (place address)).run heap =
        if heap.rootFor t name ∈ heap.histories.values.map History.root then
          (.error (.rootTaken (heap.rootFor t name)), heap.skipping)
        else
          (.ok ⟨heap.id, heap.refs.length, place heap.nextAddress⟩,
            (heap.rooting (heap.rootFor t name)).issuing (place heap.nextAddress)) := by
    intro t place
    rw [run_bind, takeAddress_run]
    by_cases taken : heap.rootFor t name ∈ heap.histories.values.map History.root
    · rw [if_pos taken, if_pos taken]
    · rw [if_neg taken, if_neg taken]
      rfl
  cases ty with
  | object | array => exact seated _ _
  | int => exact (if_pos (.inl rfl)).symm
  | bool => exact (if_pos (.inr rfl)).symm
  | function | ref => exact (if_neg (by simp)).symm

-- =============================================================== refusals

/-- The operations other than the allocation of something new. -/
def Action.isAccess : Action → Bool
  | .allocate _ _ _ => false
  | _ => true

theorem checkIssued_leads : Leads Eq (checkIssued ref) := by
  refine .bind eq_steady (.get eq_steady) fun found => ?_
  split
  next => exact .throw eq_steady _
  next => exact .pure eq_steady _

/-- A check never changes the heap. -/
theorem checkTarget_leads : Leads Eq (checkTarget ref) := by
  refine .bind eq_steady checkIssued_leads fun _ => ?_
  split
  next => exact .pure eq_steady _
  next => exact .pure eq_steady _
  next => exact .throw eq_steady _

theorem checkArray_leads : Leads Eq (checkArray ref) := by
  refine .bind eq_steady checkIssued_leads fun _ => ?_
  split
  next => exact .pure eq_steady _
  next => exact .throw eq_steady _

theorem checkSlot_leads : Leads Eq (checkSlot ref) := by
  refine .bind eq_steady checkIssued_leads fun _ => ?_
  split
  next => exact .pure eq_steady _
  next => exact .throw eq_steady _

theorem lookUpPrior_leads (address : Nat) (index : Datum) :
    Leads Eq (lookUpPrior address index) := by
  unfold lookUpPrior
  split
  next =>
    exact .bind eq_steady (.throw eq_steady _) fun _ =>
      .bind eq_steady (.get eq_steady) fun _ => .pure eq_steady _
  next => exact .bind eq_steady (.get eq_steady) fun _ => .pure eq_steady _

/-- The one check that writes, but not where it fails. -/
theorem checkLayout_refuses (use : FieldUse) (tag : String) (index : Nat) (ty : Ty) :
    Refuses Eq (checkLayout use tag index ty) := by
  intro heap fault after h
  rcases checkLayout_run use tag index ty with ⟨-, hrun⟩ | ⟨-, other, hrun⟩
  · rw [hrun] at h
    cases h
  · rw [hrun] at h
    cases h
    rfl

/-- The layout is checked before anything is recorded, and nothing fails
after that. -/
theorem writeField_refuses (index : Datum) (value : Expr) :
    Refuses Eq (writeField ref index value) := by
  refine .bind eq_steady checkTarget_leads ?_
  rintro ⟨address, tag⟩
  refine .bind eq_steady (.get eq_steady) fun _ => ?_
  refine .bind eq_steady (.liftM eq_steady _) fun prior => ?_
  refine .bind eq_steady (.liftM eq_steady _) fun state => ?_
  refine .bind eq_steady (.liftM eq_steady _) fun i => ?_
  -- once the layout has passed, nothing is left to fail
  exact (checkLayout_refuses _ _ _ _).bind_of_ok fun _ _ _ _ h => nomatch h

/-- The same of a read, which has nothing to record. -/
theorem readField_refuses (index : Datum) (ty : Ty) : Refuses Eq (readField ref index ty) := by
  refine .bind eq_steady checkTarget_leads ?_
  rintro ⟨address, tag⟩
  refine .bind eq_steady (lookUpPrior_leads _ _) fun prior => ?_
  refine .bind eq_steady (.get eq_steady) fun _ => ?_
  refine .bind eq_steady (.liftM eq_steady _) fun base => ?_
  refine .bind eq_steady (.liftM eq_steady _) fun read => ?_
  refine .bind eq_steady (.liftM eq_steady _) fun i => ?_
  exact (checkLayout_refuses _ _ _ _).bind_of_ok fun _ _ _ _ h => nomatch h

/-- The checks for an array come before those of the field. -/
theorem writeElement_refuses (index : Datum) (value : Expr) :
    Refuses Eq (writeElement ref index value) := by
  refine .bind eq_steady checkArray_leads ?_
  rintro ⟨tag, element⟩
  dsimp only
  split
  next => exact .bind eq_steady (.throw eq_steady _) fun _ => writeField_refuses index value
  next => exact writeField_refuses index value

theorem readElement_refuses (index : Datum) (ty : Option Ty) :
    Refuses Eq (readElement ref index ty) := by
  refine .bind eq_steady checkArray_leads ?_
  rintro ⟨tag, element⟩
  dsimp only
  split
  next =>
    split
    next => exact .bind eq_steady (.throw eq_steady _) fun _ => readField_refuses index element
    next => exact readField_refuses index element
  next => exact readField_refuses index element

theorem share_refuses : Refuses Eq (share ref) := by
  refine .bind eq_steady checkTarget_leads fun _ => ?_
  intro s e s' h
  cases h

/-- A slot is set after its checks. -/
theorem writeSlot_refuses (value : Expr) : Refuses Eq (writeSlot ref value) := by
  refine .bind eq_steady checkSlot_leads fun held => ?_
  have hmodify : ∀ u : Unit, Refuses Eq (do
      modify fun heap => { heap with slots := heap.slots.set ref value } : Run Unit) := by
    intro u s e s' h
    cases h
  split
  next => exact .bind eq_steady (.throw eq_steady _) hmodify
  next => exact hmodify ()

theorem readSlot_leads : Leads Eq (readSlot ref) := by
  refine .bind eq_steady checkSlot_leads fun held => ?_
  refine .bind eq_steady (.get eq_steady) fun found => ?_
  split
  next => exact .pure eq_steady _
  next => exact .throw eq_steady _

theorem priorState_leads (index : Datum) : Leads Eq (priorState ref index) := by
  refine .bind eq_steady checkTarget_leads ?_
  rintro ⟨address, tag⟩
  exact lookUpPrior_leads address index

theorem history_leads : Leads Eq (history ref) := by
  refine .bind eq_steady checkTarget_leads fun target => ?_
  refine .bind eq_steady (.get eq_steady) fun found => ?_
  split
  next => exact .pure eq_steady _
  next => exact .throw eq_steady _

/-- An access that is refused leaves the heap as it was. -/
theorem perform_refuses {action : Action} (access : action.isAccess = true) :
    Refuses Eq (perform action) := by
  cases action with
  | allocate ty tag name => cases access
  | share ref => exact share_refuses.map _
  | writeSlot ref value => exact (writeSlot_refuses value).map _
  | readSlot ref => exact (Refuses.of_leads readSlot_leads).map _
  | writeField ref index value => exact (writeField_refuses index value).map _
  | readField ref index ty => exact (readField_refuses index ty).map _
  | writeElement ref index value => exact (writeElement_refuses index value).map _
  | readElement ref index ty => exact (readElement_refuses index ty).map _
  | priorState ref index => exact (Refuses.of_leads (priorState_leads index)).map _
  | history ref => exact (Refuses.of_leads history_leads).map _

end Heap

end SymbolicHeap
