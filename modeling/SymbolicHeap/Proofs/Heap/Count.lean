/-
How addresses are counted.

Addresses are handed out by a counter.  An allocation takes its address
before it looks at the name of the root, so one that is refused over a
name has used it up: no address is ever handed out twice, but the counter
runs ahead of the addresses that have a history.

A run tells all that there is to know (`addresses_counted`): each event
that took an address took the next one, and the address has a history if
the allocation went through.
-/
import Mathlib.Data.List.Range
import SymbolicHeap.Proofs.Heap.History

namespace SymbolicHeap

namespace Heap

-- =============================================================== attempts

/-- Whether an event takes an address, and if so whether the address gets
a history. -/
def Event.takes? : Event → Option Bool
  | (.allocate _ _ _, .ok (.handle ref)) => if ref.address?.isSome then some true else none
  | (.allocate _ _ _, .error (.rootTaken _)) => some false
  | _ => none

/-- The attempts to allocate an address, in order: whether they went
through. -/
def attempts (events : List Event) : List Bool :=
  events.filterMap Event.takes?

/-- The addresses that attempts leave with a history: the first one is for
address 1, whether it goes through or not. -/
def seated (attempts : List Bool) : List Nat :=
  (attempts.zipIdx 1).filterMap fun attempt => if attempt.1 then some attempt.2 else none

theorem seated_append (attempts : List Bool) (through : Bool) :
    seated (attempts ++ [through])
      = seated attempts ++ if through then [attempts.length + 1] else [] := by
  unfold seated
  rw [List.zipIdx_append, List.filterMap_append]
  cases through with
  | true => simp [Nat.add_comm]
  | false => simp

/-- There is one address for each attempt that went through. -/
theorem length_seated (attempts : List Bool) : (seated attempts).length = attempts.count true := by
  induction attempts using List.reverseRecOn with
  | nil => rfl
  | append_singleton attempts through ih =>
      rw [seated_append, List.length_append, ih, List.count_append]
      cases through with
      | true => rfl
      | false => rfl

/-- No address comes before one that was taken earlier. -/
theorem seated_sorted (attempts : List Bool) :
    (seated attempts).Pairwise (· < ·) ∧ ∀ address ∈ seated attempts,
      1 ≤ address ∧ address ≤ attempts.length := by
  induction attempts using List.reverseRecOn with
  | nil => exact ⟨.nil, nofun⟩
  | append_singleton attempts through ih =>
      obtain ⟨sorted, bounds⟩ := ih
      rw [seated_append, List.length_append, List.length_singleton]
      cases through with
      | false =>
          simp only [Bool.false_eq_true, if_false, List.append_nil]
          refine ⟨sorted, fun address hmem => ?_⟩
          have := bounds address hmem
          omega
      | true =>
          simp only [if_true]
          refine ⟨List.pairwise_append.2 ⟨sorted, List.pairwise_singleton _ _, ?_⟩, ?_⟩
          · intro address hmem last hlast
            have := bounds address hmem
            rw [List.mem_singleton.1 hlast]
            omega
          · intro address hmem
            rcases List.mem_append.1 hmem with hmem | hmem
            · have := bounds address hmem
              omega
            · rw [List.mem_singleton.1 hmem]
              omega

/-- If all attempts go through, all addresses have a history. -/
theorem seated_of_all {attempts : List Bool} (all : ∀ through ∈ attempts, through = true) :
    seated attempts = List.range' 1 attempts.length := by
  induction attempts using List.reverseRecOn with
  | nil => rfl
  | append_singleton attempts through ih =>
      obtain ⟨before, last⟩ := List.forall_mem_append.1 all
      rw [seated_append, ih before, last through (List.mem_singleton_self _),
        List.length_append, List.length_singleton, List.range'_concat]
      simp [Nat.add_comm]

-- ========================================================== the invariant

/-- The counter and the addresses of a heap are told by its run. -/
structure Counted (heap : Heap) (events : List Event) : Prop where
  nextAddress : heap.nextAddress = (attempts events).length + 1
  addresses : heap.histories.keys = seated (attempts events)

variable {heap after : Heap} {events : List Event} {action : Action}
  {answer : Except Fault Answer}

/-- What an event that takes an address, or takes none, does to a heap. -/
inductive Takes (before : Heap) : Option Bool → Heap → Prop
  | nothing {after : Heap} : after.nextAddress = before.nextAddress →
      after.histories.keys = before.histories.keys → Takes before none after
  | address {through : Bool} {after : Heap} : after.nextAddress = before.nextAddress + 1 →
      after.histories.keys
        = before.histories.keys ++ (if through then [before.nextAddress] else []) →
      Takes before (some through) after

theorem access_takes (access : action.isAccess = true)
    (h : (perform action).run heap = (answer, after)) :
    heap.Takes (Event.takes? (action, answer)) after := by
  have silent : Event.takes? (action, answer) = none := by
    cases action with
    | allocate ty tag name => cases access
    | _ => rfl
  rw [silent]
  have same := (access_slots access h).1
  have change := perform_change h
  generalize action.write? answer = cell at change
  refine .nothing same ?_
  cases change with
  | quiet untouched => rw [untouched.histories]
  | handle _ _ _ _ hhist => rw [hhist]
  | root _ _ _ _ _ _ hnext => exact absurd same (Nat.ne_of_gt hnext)
  | write _ _ found _ _ hhist =>
      rw [hhist, Table.keys_set_of_mem _ (Table.mem_keys_of_find? found)]

theorem allocate_takes {cells : Cells} (refines : heap.Refines cells) {ty : Ty}
    {tag name : Option String}
    (h : (perform (.allocate ty tag name)).run heap = (answer, after)) :
    heap.Takes (Event.takes? (.allocate ty tag name, answer)) after := by
  rw [perform, run_map, allocate_run] at h
  split at h
  next t place seated =>
    split at h
    next =>
      cases h
      exact .address rfl (List.append_nil _).symm
    next =>
      cases h
      have new : heap.nextAddress ∉ heap.histories.keys := by
        intro hmem
        have known := Table.contains_iff_mem_keys.2 hmem
        rw [Table.contains, refines.find?_nextAddress] at known
        cases known
      have through : Event.takes? (.allocate ty tag name, .ok (.handle
          ⟨heap.id, heap.refs.length, place heap.nextAddress⟩)) = some true := by
        rw [Event.takes?, address?_of_target? (target?_of_seat? seated _ _ _)]
        rfl
      refine Eq.mpr (congrArg (heap.Takes · _) through) (.address rfl ?_)
      exact Table.keys_set_of_not_mem _ new
  next =>
    split at h
    next =>
      cases h
      exact .nothing rfl rfl
    next =>
      cases h
      exact .nothing rfl rfl

namespace Counted

theorem start (id : Nat) : Counted { id } [] := ⟨rfl, rfl⟩

/-- One action. -/
theorem after_action {cells : Cells} (counted : heap.Counted events)
    (refines : heap.Refines cells) (h : (perform action).run heap = (answer, after)) :
    after.Counted (events ++ [(action, answer)]) := by
  have takes : heap.Takes (Event.takes? (action, answer)) after := by
    cases action with
    | allocate ty tag name => exact allocate_takes refines h
    | _ => exact access_takes rfl h
  have attempted : attempts (events ++ [(action, answer)])
      = attempts events ++ (Event.takes? (action, answer)).toList := by
    unfold attempts
    rw [List.filterMap_append]
    rfl
  generalize Event.takes? (action, answer) = taken at takes attempted
  cases takes with
  | nothing hnext hkeys =>
      have attempted : attempts (events ++ [(action, answer)]) = attempts events := by
        simpa using attempted
      refine ⟨?_, ?_⟩
      · rw [hnext, attempted, counted.nextAddress]
      · rw [hkeys, attempted, counted.addresses]
  | @address through _ hnext hkeys =>
      have attempted : attempts (events ++ [(action, answer)]) = attempts events ++ [through] :=
        attempted
      refine ⟨?_, ?_⟩
      · rw [hnext, attempted, counted.nextAddress, List.length_append, List.length_singleton]
      · rw [hkeys, attempted, seated_append, counted.addresses, counted.nextAddress]

end Counted

theorem afterActions_counted (id : Nat) (actions : List Action) :
    (afterActions { id } actions).Counted (Heap.events { id } actions) := by
  refine (afterActions_induction
    (motive := fun heap past => (∃ cells, heap.Refines cells) ∧ heap.Counted past) id actions
    ⟨⟨_, Refines.start id⟩, .start id⟩ ?_).2
  rintro heap after past action answer ⟨⟨cells, refines⟩, counted⟩ h
  exact ⟨⟨_, refines.change (perform_change h)⟩, counted.after_action refines h⟩

-- ============================================================== the result

/-- What becomes of a heap that refuses an allocation: nothing, if the
value has no place on it, and an address less, if the name of the root is
taken. -/
theorem allocate_refused {ty : Ty} {tag name : Option String} {fault : Fault}
    (h : (perform (.allocate ty tag name)).run heap = (.error fault, after)) :
    (fault = .unallocatable ty ∧ after = heap) ∨
      ∃ root ∈ heap.histories.values.map History.root,
        fault = .rootTaken root ∧ after = heap.skipping := by
  rw [perform, run_map, allocate_run] at h
  split at h
  next =>
    split at h
    next taken =>
      cases h
      exact .inr ⟨_, taken, rfl, rfl⟩
    next => cases h
  next =>
    split at h
    next => cases h
    next =>
      cases h
      exact .inl ⟨rfl, rfl⟩

/-- After any run, the counter is the number of attempts to allocate an
address, and the addresses are those of the attempts that went through,
in order and each with a root.  They are all addresses up to the counter
exactly if no allocation was refused over the name of its root; one that
is uses up an address, and does nothing else. -/
theorem addresses_counted (id : Nat) (actions : List Action) :
    let heap := afterActions { id } actions
    let tried := attempts (Heap.events { id } actions)
    heap.objectCount = tried.length ∧ heap.histories.keys = seated tried ∧
    heap.roots.length = tried.count true ∧
    (heap.histories.keys.Pairwise (· < ·) ∧
      ∀ address ∈ heap.histories.keys, 1 ≤ address ∧ address ≤ heap.objectCount) ∧
    (heap.roots.length = heap.objectCount ↔ ∀ through ∈ tried, through = true) ∧
    ((∀ through ∈ tried, through = true) →
      heap.histories.keys = List.range' 1 heap.objectCount) ∧
    ∀ ty tag name fault after,
      (perform (.allocate ty tag name)).run heap = (.error fault, after) →
      (fault = .unallocatable ty ∧ after = heap) ∨
        ∃ root ∈ heap.histories.values.map History.root,
          fault = .rootTaken root ∧ after = heap.skipping := by
  intro heap tried
  obtain ⟨hnext, hkeys⟩ := afterActions_counted id actions
  have total : heap.objectCount = tried.length := by
    show heap.nextAddress - 1 = _
    rw [show heap.nextAddress = tried.length + 1 from hnext]
    rfl
  have rooted : heap.roots.length = tried.count true := by
    have sizes : heap.roots.length = heap.histories.keys.length := by
      simp [roots, Table.values, Table.keys]
    rw [sizes, show heap.histories.keys = seated tried from hkeys, length_seated]
  refine ⟨total, hkeys, rooted, ?_, ?_, ?_, fun _ _ _ _ _ h => allocate_refused h⟩
  · rw [total, show heap.histories.keys = seated tried from hkeys]
    exact seated_sorted tried
  · rw [total, rooted, List.count_eq_length]
    exact ⟨fun all through h => (all through h).symm, fun all through h => (all through h).symm⟩
  · intro all
    rw [total, show heap.histories.keys = seated tried from hkeys]
    exact seated_of_all all

/-- Two addresses, and a value in between that has no place on a heap. -/
theorem addresses_counted_unallocatable :
    let heap := afterActions { id := 1 } [.allocate .object (some "T") (some "o"),
      .allocate .ref none none, .allocate (.array .int) none none]
    heap.histories.keys = List.range' 1 heap.objectCount ∧
      ∀ after, (perform (.allocate .ref none none)).run heap
        = (.error (.unallocatable .ref), after) → after = heap := by
  intro heap
  obtain ⟨-, -, -, -, -, consecutive, refused⟩ := addresses_counted 1
    [.allocate .object (some "T") (some "o"), .allocate .ref none none,
      .allocate (.array .int) none none]
  refine ⟨consecutive (by decide +kernel), fun after h => ?_⟩
  rcases refused _ _ _ _ _ h with ⟨-, same⟩ | ⟨_, -, other, -⟩
  · exact same
  · cases other

/-- The counter runs ahead after an allocation whose root has the name of
another. -/
theorem counter_ahead_of_roots :
    let heap := afterActions { id := 1 } [.allocate .object (some "T") (some "o")]
    let after := Heap.after heap (.allocate .object (some "T") (some "o"))
    after.roots = heap.roots ∧ after.roots.length ≠ after.objectCount ∧
      after.histories.keys ≠ List.range' 1 after.objectCount ∧
      after.objectCount ≠ heap.objectCount := by
  decide +kernel

end Heap

end SymbolicHeap
