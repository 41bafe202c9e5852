/-
A session that has been reset is a new one.

Whatever a session has been through, after a reset it goes on as a new
session with the same settings does: the same answers, the same refusals,
the same terms and assertions, whatever expressions it is given, among
them those made before the reset (`reset_as_new`).  Two things are
different.  Its solver goes on counting, and its handles carry the number
of a later heap, which no step looks at.

What handles of before the reset are good for is said as well: every
action on one is refused, as on any handle of another heap, and changes
nothing, then and for ever after.
-/
import SymbolicHeap.Proofs.Session.Beside
import SymbolicHeap.Proofs.Session.Stack

namespace SymbolicHeap

-- ======================================================== foreign handles

namespace Heap

/-- The handle that an action is about. -/
def Action.ref? : Action → Option Ref
  | .allocate _ _ _ => none
  | .share ref | .writeSlot ref _ | .readSlot ref | .writeField ref _ _ | .readField ref _ _
  | .writeElement ref _ _ | .readElement ref _ _ | .priorState ref _ | .history ref => some ref

variable {heap after : Heap} {ref : Ref}

theorem checkIssued_foreign (foreign : heap.isAllocated ref = false) :
    (checkIssued ref).run heap = (.error (.foreign ref), heap) := by
  show (if ¬heap.isAllocated ref then throw (.foreign ref) else pure () : Run Unit).run heap = _
  rw [if_pos (by simp [foreign])]
  rfl

/-- An action on a handle that was not issued here is refused before
anything is done. -/
theorem perform_foreign {action : Action} (about : action.ref? = some ref)
    (foreign : heap.isAllocated ref = false) :
    (perform action).run heap = (.error (.foreign ref), heap) := by
  have issued := checkIssued_foreign foreign
  have target : (checkTarget ref).run heap = _ := run_bind_of_error issued _
  have array : (checkArray ref).run heap = _ := run_bind_of_error issued _
  have slot : (checkSlot ref).run heap = _ := run_bind_of_error issued _
  cases action with
  | allocate => cases about
  | share | writeField | readField | priorState | history =>
      cases about
      simp only [perform, share, writeField, readField, priorState, history, run_map,
        run_bind_of_error target]
      rfl
  | writeSlot | readSlot =>
      cases about
      simp only [perform, writeSlot, readSlot, run_map, run_bind_of_error slot]
      rfl
  | writeElement | readElement =>
      cases about
      simp only [perform, writeElement, readElement, run_map, run_bind_of_error array]
      rfl

/-- A change keeps the number of the heap, which all handles carry. -/
theorem Change.numbered {cell : Option CellWrite} (change : heap.Change cell after) :
    after.id = heap.id ∧
      ((∀ ref ∈ heap.refs, ref.heap = heap.id) → ∀ ref ∈ after.refs, ref.heap = after.id) := by
  cases change with
  | quiet untouched =>
      rw [untouched.id, untouched.refs]
      exact ⟨rfl, fun h => h⟩
  | handle own _ same refs =>
      rw [same, refs]
      exact ⟨rfl, fun h => List.forall_mem_cons.2 ⟨own, h⟩⟩
  | root own _ _ same refs =>
      rw [same, refs]
      exact ⟨rfl, fun h => List.forall_mem_cons.2 ⟨own, h⟩⟩
  | write _ _ _ same refs =>
      rw [same, refs]
      exact ⟨rfl, fun h => h⟩

end Heap

/-- Whether a command is about the heap beside a session. -/
def Command.isOutside : Command → Bool
  | .otherHeap _ => true
  | _ => false

namespace Workspace

variable {engine : Engine}

-- ====================================================== numbers in a run

/-- Handles of the heap carry its number, and those of dropped heaps carry
smaller ones. -/
structure Numbered (space : Workspace) : Prop where
  own : ∀ ref ∈ space.session.heap.refs, ref.heap = space.session.heap.id
  dropped : ∀ heap ∈ space.dropped, ∀ ref ∈ heap.refs, ref.heap < space.session.heap.id

/-- Settings are kept, and numbers do not come back. -/
structure Later (before after : Workspace) : Prop where
  timeout : after.session.timeout = before.session.timeout
  assumeDistinct : after.session.assumeDistinct = before.session.assumeDistinct
  id : before.session.heap.id ≤ after.session.heap.id
  numbered : before.Numbered → after.Numbered

theorem later_steady : Steady Later where
  refl _ := ⟨rfl, rfl, Nat.le_refl _, fun h => h⟩
  trans h k :=
    ⟨k.timeout.trans h.timeout, k.assumeDistinct.trans h.assumeDistinct, Nat.le_trans h.id k.id,
      fun numbered => k.numbered (h.numbered numbered)⟩

/-- Steps that leave the heap of the session alone. -/
theorem Later.of_heap {before after : Workspace}
    (heap : after.session.heap = before.session.heap) (dropped : after.dropped = before.dropped)
    (timeout : after.session.timeout = before.session.timeout)
    (assumeDistinct : after.session.assumeDistinct = before.session.assumeDistinct) :
    Later before after where
  timeout := timeout
  assumeDistinct := assumeDistinct
  id := Nat.le_of_eq (congrArg Heap.id heap.symm)
  numbered h := ⟨by rw [heap]; exact h.own, by rw [heap, dropped]; exact h.dropped⟩

theorem onHeap_later (action : Heap.Action) : Leads Later (onHeap action) := by
  intro space
  obtain ⟨same, own⟩ :=
    (Heap.perform_change (Prod.eta ((Heap.perform action).run space.session.heap)).symm).numbered
  refine ⟨rfl, rfl, Nat.le_of_eq same.symm, fun h => ⟨own h.own, ?_⟩⟩
  show ∀ heap ∈ space.dropped, ∀ ref ∈ heap.refs,
    ref.heap < ((Heap.perform action).run space.session.heap).2.id
  rw [same]
  exact h.dropped

theorem later_framed : Framed Later where
  steady := later_steady
  heap := onHeap_later
  other _ _ := .of_heap rfl rfl rfl rfl
  lowerOne _ _ := .of_heap rfl rfl rfl rfl
  lowerAll _ _ := .of_heap rfl rfl rfl rfl
  distinctRoots _ _ := .of_heap rfl rfl rfl rfl
  distinctSeen _ := .of_heap rfl rfl rfl rfl
  solver _ _ := .of_heap rfl rfl rfl rfl
  log _ _ := .of_heap rfl rfl rfl rfl
  forget _ := .of_heap rfl rfl rfl rfl
  drop space := by
    refine ⟨rfl, rfl, Nat.le_succ _, fun h => ⟨nofun, ?_⟩⟩
    show ∀ heap ∈ space.session.heap :: space.dropped, ∀ ref ∈ heap.refs,
      ref.heap < space.session.heap.id + 1
    rw [List.forall_mem_cons]
    exact ⟨fun ref issued => Nat.lt_succ_of_le (Nat.le_of_eq (h.own ref issued)),
      fun heap old ref issued => Nat.lt_succ_of_lt (h.dropped heap old ref issued)⟩

theorem numbered_fresh (timeout : Int) (assumeDistinct : Bool) (log : Logger) :
    (fresh timeout assumeDistinct log).Numbered :=
  ⟨nofun, nofun⟩

/-- A handle of a dropped heap is of no use any more. -/
theorem Numbered.not_allocated {space : Workspace} (h : space.Numbered) {ref : Ref}
    (old : ref.heap < space.session.heap.id) : space.session.heap.isAllocated ref = false := by
  rw [Heap.isAllocated, decide_eq_false_iff_not]
  intro issued
  rw [h.own ref issued] at old
  exact Nat.lt_irrefl _ old

/-- The session after an action on a foreign handle is as it was before;
the refusal is noted. -/
theorem step_foreign {space : Workspace} {ref : Ref} {action : Heap.Action}
    (about : action.ref? = some ref) (foreign : space.session.heap.isAllocated ref = false) :
    step engine space (.heap action) = (.error (.heap (.foreign ref)),
      { space with log := space.log.note .debug (Heap.Fault.foreign ref).message "memory" }) := by
  have hrun : (onHeap action).run space =
      (((Heap.perform action).run space.session.heap).1.mapError .heap,
        { space with
          session := { space.session with
            heap := ((Heap.perform action).run space.session.heap).2 }
          log := noteAction ((Heap.perform action).run space.session.heap).2 action
            ((Heap.perform action).run space.session.heap).1 space.log }) := rfl
  show (Answer.heap <$> onHeap action).run space = _
  rw [run_map, hrun, Heap.perform_foreign about foreign]
  rfl

-- ============================================================ the resets

/-- What is left of a session after a reset: the number of its heap, and
the count of its questions. -/
def leftBy (before : Workspace) : Bond where
  numbering := .countingFrom (before.session.heap.id + 1)
  earlier := before.session.solver
  outside _ _ _ _ := True
  drop _ _ := trivial
  logs _ _ := True
  note _ _ _ _ _ := trivial
  trace _ _ _ _ := trivial
  count _ _ := trivial
  wait _ := trivial
  stopTimer _ _ _ _ := trivial

theorem outside_of_isOutside {bond : Bond} {command : Command}
    (inside : command.isOutside = false) : Outside bond command := by
  rintro action rfl
  cases inside

/-- What a program comes to that goes on after a reset, beside what it
comes to in a new session where handles have other numbers. -/
structure AsNew (f : Nat → Nat) (earlier : Solver)
    (onward new : List (Except Fault Answer) × Workspace) : Prop where
  answers : new.1 = onward.1.map (renamed (Fault.renumber f) (Answer.renumber f))
  heap : new.2.session.heap = onward.2.session.heap.renumber f
  isAllocated : ∀ ref, new.2.session.heap.isAllocated (ref.renumber f)
    = onward.2.session.heap.isAllocated ref
  lowering : new.2.session.lowering = onward.2.session.lowering
  /-- Assertions, scopes and model are the same; only the counts go on
  from what they were. -/
  solver : onward.2.session.solver = earlier.countedFrom new.2.session.solver
  timeout : new.2.session.timeout = onward.2.session.timeout
  assumeDistinct : new.2.session.assumeDistinct = onward.2.session.assumeDistinct

theorem Beside.asNew {bond : Bond} {onward new : List (Except Fault Answer) × Workspace}
    (answers : new.1 = onward.1.map (renamed (Fault.renumber bond.numbering.number)
      (Answer.renumber bond.numbering.number)))
    (h : Beside bond onward.2 new.2) : AsNew bond.numbering.number bond.earlier onward new where
  answers := answers
  heap := h.heap.eq
  isAllocated := h.heap.isAllocated
  lowering := h.lowering
  solver := h.solver
  timeout := h.timeout
  assumeDistinct := h.assumeDistinct

/-- Whatever has been done to a session, open scopes, assumptions, memo
and model included, a reset succeeds, and from then on every program does
what it does in a new session with the same settings, expressions of old
in it or not: it gives the same answers and refusals, terms among them,
and leaves the same addresses, histories, symbols, assertions and model,
but for the numbers in handles and the count of questions.  Handles issued
before the reset are never allocated again, and what is done with one is
refused and changes nothing but the log. -/
theorem reset_as_new (engine : Engine) (timeout : Int) (assumeDistinct : Bool)
    (log newLog : Logger) (commands later : List Command)
    (inside : ∀ command ∈ later, command.isOutside = false) :
    let before := (run engine (fresh timeout assumeDistinct log) commands).2
    let space := (step engine before .reset).2
    let number := (Numbering.countingFrom space.session.heap.id).number
    let onward := run engine space later
    (step engine before .reset).1 = .ok .done ∧
    AsNew number before.session.solver onward
      (run engine (fresh timeout assumeDistinct newLog) (later.map (Command.renumber number))) ∧
    ∀ heap ∈ before.session.heap :: before.dropped, ∀ ref ∈ heap.refs,
      onward.2.session.heap.isAllocated ref = false ∧
      ∀ action, action.ref? = some ref →
        step engine onward.2 (.heap action) = (.error (.heap (.foreign ref)),
          { onward.2 with
            log := onward.2.log.note .debug (Heap.Fault.foreign ref).message "memory" }) := by
  intro before space number onward
  have lived : Later (fresh timeout assumeDistinct log) before := later_framed.run engine _ _
  have resetting : Later before space := later_framed.perform .reset before
  have going : Later space onward.2 := later_framed.run engine _ _
  have numbered := resetting.numbered (lived.numbered (numbered_fresh timeout assumeDistinct log))
  refine ⟨rfl, ?_, fun heap old ref issued => ?_⟩
  · have start : Beside before.leftBy space (fresh timeout assumeDistinct newLog) := by
      refine ⟨?_, rfl, rfl, lived.timeout.symm, lived.assumeDistinct.symm, trivial, trivial⟩
      have first : Heap.Renumbered before.leftBy.numbering { id := before.session.heap.id + 1 }
        { id := before.leftBy.numbering.number (before.session.heap.id + 1) } :=
        .start (Nat.le_refl _)
      rw [show before.leftBy.numbering.number (before.session.heap.id + 1) = 1 from
        Nat.add_sub_cancel_left _ _] at first
      exact first
    obtain ⟨answers, kept⟩ :=
      run_beside engine start later fun command among => outside_of_isOutside (inside command among)
    exact kept.asNew answers
  · have foreign : onward.2.session.heap.isAllocated ref = false :=
      (going.numbered numbered).not_allocated
        (Nat.lt_of_lt_of_le (numbered.dropped heap old ref issued) going.id)
    exact ⟨foreign, fun action about => step_foreign about foreign⟩

/-- What the session with a taken identity is used for after a reset. -/
def afterTaken : List Command :=
  [.heap (.allocate .object (some "T") (some "o")), .prove (.var "x" .bool)]

theorem reset_as_new_taken :
    let space := (step undecided identityTaken .reset).2
    let number := (Numbering.countingFrom space.session.heap.id).number
    (∀ command ∈ afterTaken, command.isOutside = false) ∧
    AsNew number identityTaken.session.solver (run undecided space afterTaken)
      (run undecided (fresh 0 false {}) (afterTaken.map (Command.renumber number))) := by
  have inside : ∀ command ∈ afterTaken, command.isOutside = false := by
    rw [afterTaken, List.forall_mem_cons, List.forall_mem_singleton]
    exact ⟨rfl, rfl⟩
  exact ⟨inside, (reset_as_new undecided 0 false {} {} _ afterTaken inside).2.1⟩

end Workspace

end SymbolicHeap
