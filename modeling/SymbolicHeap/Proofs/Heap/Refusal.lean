/-
Refused accesses leave no trace.

Several heaps may be in use at once and be given each other's handles
(`Heaps`).  An access is whatever is done with a handle; one that is
refused, for whatever cause, is not to be seen afterwards: neither in the
heap that was asked, nor in the one that issued the handle, nor in
anything that is answered later.  So all refused accesses may be taken
out of a run (`Heaps.events_without`).

What goes through changes little (`Frame`): a history and a prior state
are changed by a write only, at its own address and field, and the value
of a slot by a write to that very slot.
-/
import Mathlib.Logic.Function.Basic
import SymbolicHeap.Proofs.Heap.History

namespace SymbolicHeap

namespace Heap

-- ================================================================ frames

/-- What an action may change of a heap, given what is answered to it. -/
structure Frame (before : Heap) (action : Action) (answer : Except Fault Answer) (after : Heap) :
    Prop where
  /-- A history is changed by a write to its address. -/
  histories : ∀ address history, before.histories.find? address = some history →
    after.histories.find? address ≠ some history →
    ∃ index value, action.write? answer = some ⟨address, index, value⟩
  /-- A history begins with an allocation. -/
  allocated : ∀ address, before.histories.find? address = none →
    after.histories.find? address ≠ none → action.isAccess = false
  /-- A prior state is changed by a write to its address and field. -/
  priors : ∀ address index,
    after.priors.find? (address, index) ≠ before.priors.find? (address, index) →
    ∃ value, action.write? answer = some ⟨address, index, value⟩
  /-- The value of a slot is changed by a write to the slot. -/
  slots : ∀ ref, after.slots.find? ref ≠ before.slots.find? ref →
    ∃ value, action = .writeSlot ref value ∧ answer = .ok .done
  /-- Addresses are used up by allocations. -/
  nextAddress : action.isAccess = true → after.nextAddress = before.nextAddress

section

variable {heap after : Heap} {action : Action} {answer : Except Fault Answer}

/-- Histories are changed where a change writes, and begin where it takes
an address. -/
theorem Change.histories {cells : Cells} {cell : Option CellWrite} (refines : heap.Refines cells)
    (change : heap.Change cell after) {address : Nat}
    (differs : after.histories.find? address ≠ heap.histories.find? address) :
    (∃ index value, cell = some ⟨address, index, value⟩) ∨
      (heap.histories.find? address = none ∧ after.nextAddress ≠ heap.nextAddress) := by
  cases change with
  | quiet untouched => exact absurd (by rw [untouched.histories]) differs
  | handle _ _ _ _ hhist => exact absurd (by rw [hhist]) differs
  | root _ _ _ _ _ hhist hnext =>
      by_cases here : address = heap.nextAddress
      · refine .inr ⟨?_, Nat.ne_of_gt hnext⟩
        rw [here]
        exact refines.find?_nextAddress
      · rw [hhist, Table.find?_set_of_ne _ _ here] at differs
        exact absurd rfl differs
  | @write _ written index _ value _ _ _ _ _ _ _ hhist =>
      by_cases here : address = written
      · exact .inl ⟨index, value, by rw [here]⟩
      · rw [hhist, Table.find?_set_of_ne _ _ here] at differs
        exact absurd rfl differs

/-- Prior states are changed where a change writes. -/
theorem Change.priors {cell : Option CellWrite} (change : heap.Change cell after)
    {address index : Nat}
    (differs : after.priors.find? (address, index) ≠ heap.priors.find? (address, index)) :
    ∃ value, cell = some ⟨address, index, value⟩ := by
  cases change with
  | quiet untouched => exact absurd (by rw [untouched.priors]) differs
  | handle _ _ _ _ _ _ hpriors => exact absurd (by rw [hpriors]) differs
  | root _ _ _ _ _ _ _ hpriors => exact absurd (by rw [hpriors]) differs
  | @write _ written i _ value _ _ _ _ _ _ _ _ _ hpriors =>
      by_cases here : (address, index) = (written, i)
      · cases here
        exact ⟨value, rfl⟩
      · rw [hpriors, Table.find?_set_of_ne _ _ here] at differs
        exact absurd rfl differs

/-- One action. -/
theorem Refines.frame {cells : Cells} (refines : heap.Refines cells)
    (h : (perform action).run heap = (answer, after)) : heap.Frame action answer after := by
  have change := perform_change h
  refine ⟨?_, ?_, fun address index differs => change.priors differs, ?_, ?_⟩
  · intro address history found differs
    rw [← found] at differs
    rcases change.histories refines differs with written | ⟨absent, -⟩
    · exact written
    · rw [absent] at found
      cases found
  · intro address absent begins
    rw [← absent] at begins
    rcases change.histories refines begins with ⟨index, value, hcell⟩ | ⟨-, taken⟩
    · -- what is written has a history already
      rw [hcell] at change
      cases change with
      | write _ _ found =>
          rw [absent] at found
          cases found
    · by_contra access
      exact taken (access_slots (by simpa using access) h).1
  · intro ref differs
    cases access : action.isAccess with
    | false =>
        cases action with
        | allocate ty tag name =>
            have same := ((allocate_slots ty tag name).map Answer.handle).of_run h
            exact absurd (congrArg (·.find? ref) same) differs
        | _ => cases access
    | true =>
        rcases (access_slots access h).2 with same | ⟨slot, value, rfl, rfl, same⟩
        · exact absurd (congrArg (·.find? ref) same) differs
        · by_cases here : ref = slot
          · exact ⟨value, by rw [here], rfl⟩
          · rw [same, Table.find?_set_of_ne _ _ here] at differs
            exact absurd rfl differs
  · exact fun access => (access_slots access h).1

end

-- ========================================================= several heaps

/-- Heaps in use at once, by their numbers. -/
abbrev Heaps := Nat → Heap

/-- An action, with the number of the heap that is asked for it. -/
abbrev Move := Nat × Action

/-- Whether a move is an access that was refused. -/
def Move.isRefused (move : Move) (answer : Except Fault Answer) : Bool :=
  move.2.isAccess && !answer.isOk

namespace Heaps

/-- The heaps before anything is done. -/
def start : Heaps := fun id => { id }

/-- What the heap that is asked answers. -/
def answer (heaps : Heaps) (move : Move) : Except Fault Answer :=
  ((perform move.2).run (heaps move.1)).1

/-- The heaps after one move, refused or not. -/
def after (heaps : Heaps) (move : Move) : Heaps :=
  Function.update heaps move.1 (Heap.after (heaps move.1) move.2)

def afterAll (heaps : Heaps) (moves : List Move) : Heaps :=
  moves.foldl after heaps

/-- The moves of a run with what is answered to them. -/
def events (heaps : Heaps) : List Move → List (Move × Except Fault Answer)
  | [] => []
  | move :: rest => (move, heaps.answer move) :: events (heaps.after move) rest

/-- The moves of a run that are no refused accesses, with their answers. -/
def heard (heaps : Heaps) (moves : List Move) : List (Move × Except Fault Answer) :=
  (heaps.events moves).filter fun event => !event.1.isRefused event.2

/-- A heap sees the moves that are made on it. -/
theorem afterAll_apply (heaps : Heaps) (moves : List Move) (n : Nat) :
    heaps.afterAll moves n
      = afterActions (heaps n) ((moves.filter fun move => move.1 = n).map Prod.snd) := by
  induction moves generalizing heaps with
  | nil => rfl
  | cons move rest ih =>
      show (heaps.after move).afterAll rest n = _
      rw [ih, after]
      by_cases here : move.1 = n
      · subst here
        rw [Function.update_self, List.filter_cons_of_pos (by simp)]
        rfl
      · rw [Function.update_of_ne (Ne.symm here), List.filter_cons_of_neg (by simpa using here)]

/-- A refused access leaves all heaps as they were. -/
theorem after_refused {heaps : Heaps} {move : Move}
    (refused : move.isRefused (heaps.answer move) = true) : heaps.after move = heaps := by
  obtain ⟨access, failed⟩ := Bool.and_eq_true_iff.1 refused
  have failed : (heaps.answer move).isOk = false := by simpa using failed
  obtain ⟨fault, next, hrun⟩ := eq_error_of_isOk failed
  have same := perform_refuses access _ _ _ hrun
  unfold after Heap.after
  rw [hrun, ← same]
  exact Function.update_eq_self _ _

/-- A run without its refused accesses gets the same answers, and leads to
the same heaps. -/
theorem events_without (heaps : Heaps) (moves : List Move) :
    heaps.events ((heaps.heard moves).map Prod.fst) = heaps.heard moves ∧
      heaps.afterAll ((heaps.heard moves).map Prod.fst) = heaps.afterAll moves := by
  induction moves generalizing heaps with
  | nil => exact ⟨rfl, rfl⟩
  | cons move rest ih =>
      obtain ⟨answers, leads⟩ := ih (heaps.after move)
      cases refused : move.isRefused (heaps.answer move) with
      | true =>
          have same := after_refused refused
          have drop : heaps.heard (move :: rest) = heaps.heard rest := by
            rw [heard, events, List.filter_cons_of_neg (by simp [refused]), same, heard]
          rw [same] at answers leads
          rw [drop]
          refine ⟨answers, leads.trans ?_⟩
          show _ = (heaps.after move).afterAll rest
          rw [same]
      | false =>
          have keep : heaps.heard (move :: rest)
              = (move, heaps.answer move) :: (heaps.after move).heard rest := by
            rw [heard, events, List.filter_cons_of_pos (by simp [refused]), heard]
          rw [keep]
          refine ⟨?_, leads⟩
          show (move, heaps.answer move) :: _ = _
          rw [answers]

end Heaps

-- ============================================================== the result

/-- Whatever was done before: an access that is refused leaves every heap
as it was, and no other heap than the one that is asked is changed by
anything; what goes through changes what it writes and nothing else.  So
a run goes on, in its answers and its heaps, as if the accesses that were
refused had not been made. -/
theorem refused_access_unseen (moves : List Move) :
    let heaps := Heaps.start.afterAll moves
    (∀ n action, action.isAccess = true →
      (heaps.answer (n, action)).isOk = false → heaps.after (n, action) = heaps) ∧
    (∀ n action other, other ≠ n → heaps.after (n, action) other = heaps other) ∧
    (∀ n action,
      (heaps n).Frame action (heaps.answer (n, action)) (heaps.after (n, action) n)) ∧
    Heaps.start.events ((Heaps.start.heard moves).map Prod.fst) = Heaps.start.heard moves ∧
    Heaps.start.afterAll ((Heaps.start.heard moves).map Prod.fst) = heaps := by
  intro heaps
  refine ⟨?_, ?_, ?_, Heaps.events_without Heaps.start moves⟩
  · intro n action access failed
    apply Heaps.after_refused
    rw [Move.isRefused, access, failed]
    rfl
  · intro n action other apart
    exact Function.update_of_ne apart _ _
  · intro n action
    obtain ⟨⟨cells, refines⟩, -⟩ := afterActions_indexed n
      ((moves.filter fun move => move.1 = n).map Prod.snd)
    have reached : (heaps n).Refines cells := by
      rw [show heaps n = _ from Heaps.afterAll_apply Heaps.start moves n]
      exact refines
    rw [Heaps.after, Function.update_self]
    exact reached.frame rfl

/-- A write through a handle of another heap. -/
theorem refused_access_unseen_foreign :
    let heaps := Heaps.start.afterAll [(1, .allocate .object (some "T") (some "o")),
      (2, .allocate .object (some "T") (some "o"))]
    heaps.after (2, .writeField ⟨1, 0, .object 1 "T"⟩ (.int 0) (.int 5)) = heaps :=
  (refused_access_unseen [(1, .allocate .object (some "T") (some "o")),
    (2, .allocate .object (some "T") (some "o"))]).1 2 _ rfl rfl

end Heap

end SymbolicHeap
