/-
Writes to different cells commute.

Two writes, one right after the other, may be made in either order: if both
go through, so do both when they are swapped (`Lands.before`,
`Lands.still`).  The second one does not hang on the history that the first
has made longer, and a type that the first one fixes for a field the second
had to comply with anyway, so it does not matter which of them fixes it.

The two heaps are not the same.  Writes to two fields of one object end up
in its newest state in different orders, and different states are kept as
prior states.  But the heaps are alike (`Lands.swap`), and so is all that
a run may come to afterwards, as far as a lowering can tell
(`writes_commute`).
-/
import SymbolicHeap.Proofs.Heap.Progress
import SymbolicHeap.Proofs.Heap.Write

namespace SymbolicHeap

open Lowering

namespace Heap

-- ============================================================ the order

variable {heap : Heap} {first second : Action} {one two : CellWrite} {ref ref' : Ref}
  {tag tag' : String} {history history' : History}

namespace Lands

/-- What goes through after a write went through before it as well; the
history is the one that the write made longer, or another one. -/
theorem before (lands : heap.Lands first one ref tag history)
    (later : (heap.landed one tag history).Lands second two ref' tag' history') :
    ∃ original, heap.Lands second two ref' tag' original ∧
      if two.address = one.address then
        original = history ∧ history' = history.write (one.over tag history)
      else history' = original := by
  obtain ⟨aims, sees, short, object, sorted, admits⟩ := later
  have admits' : heap.Admits (tag', two.index) two.value.typeOf := fun known hknown =>
    admits known (untouched_fixing.layouts _ _ hknown)
  have found := sees.found
  rw [lands.histories] at found
  by_cases here : two.address = one.address
  · rw [here, Table.find?_set_self] at found
    cases found
    refine ⟨history, ⟨aims, ⟨sees.issued, sees.own, sees.target, ?_⟩, short, lands.object, sorted,
      admits'⟩, ?_⟩
    · rw [here]
      exact lands.sees.found
    · rw [if_pos here]
      exact ⟨rfl, rfl⟩
  · rw [Table.find?_set_of_ne _ _ here] at found
    refine ⟨history', ⟨aims, ⟨sees.issued, sees.own, sees.target, found⟩, short, object, sorted,
      admits'⟩, ?_⟩
    rw [if_neg here]

/-- A write still goes through after another one, if they agree on the
type of the field where that is the same. -/
theorem still (lands : heap.Lands first one ref tag history)
    (other : heap.Lands second two ref' tag' history')
    (agree : (tag, one.index) = (tag', two.index) → one.value.typeOf = two.value.typeOf) :
    ∃ later, (heap.landed two tag' history').Lands first one ref tag later ∧
      if one.address = two.address then later = history'.write (two.over tag' history')
      else later = history := by
  obtain ⟨aims, sees, short, object, sorted, admits⟩ := lands
  have admits' : (heap.landed two tag' history').Admits (tag, one.index) one.value.typeOf := by
    intro known hknown
    by_cases same : (tag, one.index) = (tag', two.index)
    · rw [agree same] at admits ⊢
      rw [same] at admits hknown
      rw [show (heap.landed two tag' history').layouts.find? (tag', two.index) = _ from
        admits.found] at hknown
      exact (Option.some.inj hknown).symm
    · refine admits known ?_
      rw [← hknown]
      exact (Table.find?_add_of_ne _ _ same).symm
  by_cases here : one.address = two.address
  · refine ⟨history'.write (two.over tag' history'), ⟨aims,
      ⟨sees.issued, sees.own, sees.target, ?_⟩, short, rfl, sorted, admits'⟩, ?_⟩
    · rw [other.histories, here, Table.find?_set_self]
    · rw [if_pos here]
  · refine ⟨history, ⟨aims, ⟨sees.issued, sees.own, sees.target, ?_⟩, short, object, sorted,
      admits'⟩, ?_⟩
    · rw [other.histories, Table.find?_set_of_ne _ _ here]
      exact sees.found
    · rw [if_neg here]

end Lands

-- ============================================================== two writes

/-- Handles on one address have one tag. -/
theorem Reached.tag_eq (reached : heap.Reached) {address : Nat}
    (sees : heap.Sees ref address tag history) (sees' : heap.Sees ref' address tag' history') :
    tag = tag' := by
  obtain ⟨cells, events, refines, -⟩ := reached
  exact refines.tags ref sees.issued ref' sees'.issued address tag tag' sees.target sees'.target

/-- Two writes to different cells may be made in either order, and leave
heaps that are alike. -/
theorem Lands.swap (reached : heap.Reached) (lands : heap.Lands first one ref tag history)
    (lands' : (heap.landed one tag history).Lands second two ref' tag' history')
    (apart : (one.address, one.index) ≠ (two.address, two.index)) :
    ∃ original later, heap.Lands second two ref' tag' original ∧
      (heap.landed two tag' original).Lands first one ref tag later ∧
      ((heap.landed one tag history).landed two tag' history').Alike
        ((heap.landed two tag' original).landed one tag later) := by
  have agree : (tag, one.index) = (tag', two.index) → one.value.typeOf = two.value.typeOf := by
    intro same
    refine lands'.admits _ ?_
    rw [← same]
    exact lands.admits.found
  obtain ⟨original, ahead, hbefore⟩ := lands.before lands'
  obtain ⟨later, behind, hstill⟩ := lands.still ahead agree
  refine ⟨original, later, ahead, behind, rfl, rfl, rfl, ?_, ?_, ?_, ?_, ?_⟩
  · intro address
    rw [lands'.histories, lands.histories, behind.histories, ahead.histories]
    by_cases here : two.address = one.address
    · rw [if_pos here] at hbefore
      rw [if_pos here.symm] at hstill
      obtain ⟨rfl, rfl⟩ := hbefore
      subst hstill
      rw [here]
      by_cases there : address = one.address
      · rw [there, Table.find?_set_self, Table.find?_set_self]
        have htag : tag = tag' := reached.tag_eq lands.sees (here ▸ ahead.sees)
        have indices : one.index ≠ two.index := by
          intro same
          exact apart (by rw [here, same])
        subst htag
        exact .some ⟨rfl, rfl, .swap original.current indices one.value two.value tag⟩
      · rw [Table.find?_set_of_ne _ _ there, Table.find?_set_of_ne _ _ there,
          Table.find?_set_of_ne _ _ there, Table.find?_set_of_ne _ _ there]
        exact Rel.same .refl _
    · rw [if_neg here] at hbefore
      rw [if_neg (Ne.symm here)] at hstill
      subst hbefore hstill
      rw [Table.find?_set_comm heap.histories _ _ (Ne.symm here) address]
      exact Rel.same .refl _
  · rw [lands'.roots, lands.roots, behind.roots, ahead.roots]
  · intro place
    show ((heap.priors.set _ _).set _ _ |>.find? place).isSome
      = ((heap.priors.set _ _).set _ _ |>.find? place).isSome
    simp only [Table.isSome_find?_set]
    exact Bool.or_left_comm _ _ _
  · intro place
    exact Table.find?_add_comm heap.layouts agree place
  · intro slot
    exact Rel.same .refl _

-- ============================================================== the result

/-- Two writes to different cells, made one right after the other, go
through in the other order as well.  Whatever is done later, with values
made of what was answered and of newest states, goes through after both
orders or after none; and what is answered or built then, and all newest
states, are lowered alike. -/
theorem writes_commute {μ : Type} [Memo μ] (id : Nat) (before : List Action)
    (first second : Action) (one two : CellWrite)
    (wrote : first.write? ((perform first).run (afterActions { id } before)).1 = some one)
    (wrote' : second.write? ((perform second).run (afterActions { id } (before ++ [first]))).1
      = some two)
    (apart : (one.address, one.index) ≠ (two.address, two.index)) :
    second.write? ((perform second).run (afterActions { id } before)).1 = some two ∧
    first.write? ((perform first).run (afterActions { id } (before ++ [second]))).1 = some one ∧
    ∀ later : List Step,
      let left := Progress.afterAll ⟨afterActions { id } (before ++ [first, second]), []⟩ later
      let right := Progress.afterAll ⟨afterActions { id } (before ++ [second, first]), []⟩ later
      List.Forall₂ (Option.Rel (Answer.Rel (Expr.LowersAs μ))) left.made right.made ∧
      ∀ ref, Option.Rel (Expr.LowersAs μ) (left.heap.current ref).toOption
        (right.heap.current ref).toOption := by
  have reached := reached_afterActions id before
  have append : ∀ rest, afterActions { id } (before ++ rest)
      = afterActions (afterActions { id } before) rest := fun rest =>
    List.foldl_append
  simp only [append] at wrote' ⊢
  generalize afterActions { id } before = heap at wrote wrote' reached ⊢
  obtain ⟨ref, tag, history, lands⟩ := exists_lands wrote
  rw [show afterActions heap [first] = _ from lands.after] at wrote'
  obtain ⟨ref', tag', history', lands'⟩ := exists_lands wrote'
  obtain ⟨original, last, ahead, behind, heaps⟩ := lands.swap reached lands' apart
  refine ⟨ahead.write?, ?_, fun later => ?_⟩
  · rw [show afterActions heap [second] = _ from ahead.after]
    exact behind.write?
  · have start : Progress.Alike ⟨afterActions heap [first, second], []⟩
        ⟨afterActions heap [second, first], []⟩ := by
      refine ⟨?_, (reached.after_action first).after_action second,
        (reached.after_action second).after_action first, .nil⟩
      show (after (after heap first) second).Alike (after (after heap second) first)
      rw [lands.after, lands'.after, ahead.after, behind.after]
      exact heaps
    obtain ⟨heaps, -, -, made⟩ := start.afterAll later
    refine ⟨made.imp fun _ _ => Rel.mono (Answer.Rel.mono Expr.Alike.lowersAs), fun ref => ?_⟩
    exact Rel.mono Expr.Alike.lowersAs (heaps.current ref)

/-- Writes to two fields of one object, and a third one of what is read
after them: the states are different trees, and are lowered alike. -/
theorem writes_commute_fields :
    let o : Ref := ⟨1, 0, .object 1 "T"⟩
    let first : Action := .writeField o (.int 0) (.int 5)
    let second : Action := .writeField o (.int 1) (.bool true)
    let run (writes : List Action) : Progress :=
      Progress.afterAll
        ⟨afterActions { id := 1 } ([.allocate .object (some "T") (some "o")] ++ writes), []⟩
        [.act (.readField o (.int 0) .int), .binary .add (.made 0) (.known (.int 1)),
          .writeField o (.int 2) (.made 1)]
    ((run [first, second]).heap.current o).toOption
        ≠ ((run [second, first]).heap.current o).toOption ∧
      Option.Rel (Expr.LowersAs Chains) ((run [first, second]).heap.current o).toOption
        ((run [second, first]).heap.current o).toOption := by
  intro o first second run
  obtain ⟨-, -, alike⟩ := writes_commute (μ := Chains) 1
    [.allocate .object (some "T") (some "o")] first second ⟨1, 0, .int 5⟩ ⟨1, 1, .bool true⟩ rfl
    rfl (by decide)
  exact ⟨by decide +kernel, (alike _).2 o⟩

end Heap

end SymbolicHeap
