/-
Heaps that go on alike.

Two heaps may hold different trees and yet be of the same use: their
handles, the names of their roots and the types of their fields are the
same, their histories are of the same lengths, and the newest states, which
are all that is read from and written on, are alike to every lowering
(`Heap.Alike`).

Then whatever is done to one may be done to the other, with values that
are alike, and is refused by both or by neither (`after_alike`).  The
answers are alike again, but for older states: what was kept as a prior
state, or stands further down in a history, may differ.  A read is built
with such a prior state; it is alike nevertheless, because on both sides
the state is the one that a lowering finds in the chain (`Reached.priorOf`).
-/
import SymbolicHeap.Proofs.Heap.Checks
import SymbolicHeap.Proofs.Lowering.Alike

namespace SymbolicHeap

open Lowering

-- ================================================== where a value may lack

theorem Rel.swap {α : Type} {R : α → α → Prop} (turn : ∀ {a b}, R a b → R b a)
    {x y : Option α} (h : Option.Rel R x y) : Option.Rel R y x := by
  cases h with
  | none => exact .none
  | some h => exact .some (turn h)

theorem Rel.same {α : Type} {R : α → α → Prop} (refl : ∀ a, R a a) (x : Option α) :
    Option.Rel R x x := by
  cases x with
  | none => exact .none
  | some a => exact .some (refl a)

theorem Rel.of_some {α : Type} {R : α → α → Prop} {x y : Option α} {a : α}
    (h : Option.Rel R x y) (hx : x = some a) : ∃ b, y = some b ∧ R a b := by
  subst hx
  cases h with
  | some h => exact ⟨_, rfl, h⟩

theorem Rel.bind {α β : Type} {R : α → α → Prop} {S : β → β → Prop} {x y : Option α}
    {f g : α → Option β} (h : Option.Rel R x y) (hfg : ∀ a b, R a b → Option.Rel S (f a) (g b)) :
    Option.Rel S (x >>= f) (y >>= g) := by
  cases h with
  | none => exact .none
  | some h => exact hfg _ _ h

theorem Rel.mono {α : Type} {R S : α → α → Prop} (weaken : ∀ {a b}, R a b → S a b)
    {x y : Option α} (h : Option.Rel R x y) : Option.Rel S x y := by
  cases h with
  | none => exact .none
  | some h => exact .some (weaken h)

-- ================================================================= chains

/-- A chain of writes is the state of an object. -/
theorem Expr.StoreChain.typeOf {root tag : String} {state : Expr}
    (chain : state.StoreChain root tag) : state.typeOf = .object := by
  cases chain with
  | root => rfl
  | write => rfl

/-- What a write was made on is a chain of writes as well. -/
theorem Expr.StoreChain.priorOf {root tag : String} {state prior : Expr}
    (chain : state.StoreChain root tag) {index : Nat}
    (h : Lowering.priorOf tag index state = some prior) : prior.StoreChain root tag := by
  induction chain with
  | root => cases h
  | write i value chain ih =>
      unfold Lowering.priorOf at h
      split at h
      next =>
        cases h
        exact chain
      next => exact ih h

/-- Histories of one root and one length, whose newest states are alike. -/
structure History.Alike (history other : History) : Prop where
  root : history.root = other.root
  version : history.version = other.version
  current : history.current.Alike other.current

theorem History.Alike.refl (history : History) : history.Alike history :=
  ⟨rfl, rfl, .refl _⟩

namespace Heap

variable {heap left right after : Heap} {ref : Ref} {address : Nat} {tag : String}
  {history : History}

-- =========================================================== reached heaps

/-- A heap that some run has come to. -/
def Reached (heap : Heap) : Prop :=
  ∃ cells events, heap.Refines cells ∧ heap.Indexed events

theorem reached_afterActions (id : Nat) (actions : List Action) :
    (afterActions { id } actions).Reached := by
  obtain ⟨⟨cells, refines⟩, indexed⟩ := afterActions_indexed id actions
  exact ⟨cells, _, refines, indexed⟩

namespace Reached

theorem after_action (reached : heap.Reached) (action : Action) :
    (Heap.after heap action).Reached := by
  obtain ⟨cells, events, refines, indexed⟩ := reached
  exact ⟨_, _, refines.change (perform_change rfl), indexed.after_action refines rfl⟩

theorem chain (reached : heap.Reached) (sees : heap.Sees ref address tag history) :
    history.current.StoreChain history.root tag := by
  obtain ⟨cells, events, refines, indexed⟩ := reached
  obtain ⟨found, hfound, chain, -⟩ := refines.chains ref sees.issued address tag sees.target
  rw [sees.found] at hfound
  cases hfound
  exact chain

/-- The prior state that is kept for a field is the one in the chain. -/
theorem priorOf (reached : heap.Reached) (sees : heap.Sees ref address tag history) (index : Nat) :
    Lowering.priorOf tag index history.current = heap.priors.find? (address, index) := by
  obtain ⟨cells, events, refines, indexed⟩ := reached
  rw [indexed.priors, sees.found]
  exact priorOf_current (indexed.chains ref sees.issued address tag history sees.target sees.found)
    index

theorem prior_object (reached : heap.Reached) (sees : heap.Sees ref address tag history)
    (index : Nat) : ∀ prior ∈ heap.priors.find? (address, index), prior.typeOf = .object := by
  intro prior hprior
  rw [← reached.priorOf sees] at hprior
  exact ((reached.chain sees).priorOf hprior).typeOf

theorem find?_nextAddress (reached : heap.Reached) :
    heap.histories.find? heap.nextAddress = none := by
  obtain ⟨cells, events, refines, indexed⟩ := reached
  exact refines.find?_nextAddress

end Reached

-- ========================================================= heaps side by side

/-- Two heaps of the same use. -/
structure Alike (left right : Heap) : Prop where
  id : left.id = right.id
  nextAddress : left.nextAddress = right.nextAddress
  refs : left.refs = right.refs
  histories : ∀ address,
    Option.Rel History.Alike (left.histories.find? address) (right.histories.find? address)
  roots : left.histories.values.map History.root = right.histories.values.map History.root
  priors : ∀ cell, (left.priors.find? cell).isSome = (right.priors.find? cell).isSome
  layouts : ∀ place, left.layouts.find? place = right.layouts.find? place
  slots : ∀ ref, Option.Rel Expr.Alike (left.slots.find? ref) (right.slots.find? ref)

/-- Answers that are the same but for expressions, which are related, and
for older states. -/
inductive Answer.Rel (R : Expr → Expr → Prop) : Answer → Answer → Prop
  | done : Rel R .done .done
  | handle (ref : Ref) : Rel R (.handle ref) (.handle ref)
  | expr {e e' : Expr} : R e e' → Rel R (.expr e) (.expr e')
  | prior {state state' : Option Expr} : state.isSome = state'.isSome →
      Rel R (.prior state) (.prior state')
  | states {states states' : List Expr} : states.length = states'.length →
      Rel R (.states states) (.states states')

theorem Answer.Rel.mono {R S : Expr → Expr → Prop} (weaken : ∀ {e e'}, R e e' → S e e')
    {answer answer' : Answer} (h : answer.Rel R answer') : answer.Rel S answer' := by
  cases h with
  | done => exact .done
  | handle ref => exact .handle ref
  | expr h => exact .expr (weaken h)
  | prior h => exact .prior h
  | states h => exact .states h

/-- Actions that are the same but for values, which are alike. -/
inductive Action.Alike : Action → Action → Prop
  | allocate (ty : Ty) (tag name : Option String) :
      Action.Alike (.allocate ty tag name) (.allocate ty tag name)
  | share (ref : Ref) : Action.Alike (.share ref) (.share ref)
  | writeSlot (ref : Ref) {value value' : Expr} : value.Alike value' →
      Action.Alike (.writeSlot ref value) (.writeSlot ref value')
  | readSlot (ref : Ref) : Action.Alike (.readSlot ref) (.readSlot ref)
  | writeField (ref : Ref) (index : Datum) {value value' : Expr} : value.Alike value' →
      Action.Alike (.writeField ref index value) (.writeField ref index value')
  | readField (ref : Ref) (index : Datum) (ty : Ty) :
      Action.Alike (.readField ref index ty) (.readField ref index ty)
  | writeElement (ref : Ref) (index : Datum) {value value' : Expr} : value.Alike value' →
      Action.Alike (.writeElement ref index value) (.writeElement ref index value')
  | readElement (ref : Ref) (index : Datum) (ty : Option Ty) :
      Action.Alike (.readElement ref index ty) (.readElement ref index ty)
  | priorState (ref : Ref) (index : Datum) :
      Action.Alike (.priorState ref index) (.priorState ref index)
  | history (ref : Ref) : Action.Alike (.history ref) (.history ref)

theorem Action.Alike.refl (action : Action) : action.Alike action := by
  cases action with
  | writeSlot => exact .writeSlot _ (.refl _)
  | writeField => exact .writeField _ _ (.refl _)
  | writeElement => exact .writeElement _ _ (.refl _)
  | _ => constructor

theorem Action.Alike.symm {action action' : Action} (h : action.Alike action') :
    action'.Alike action := by
  cases h with
  | writeSlot _ alike => exact .writeSlot _ alike.symm
  | writeField _ _ alike => exact .writeField _ _ alike.symm
  | writeElement _ _ alike => exact .writeElement _ _ alike.symm
  | _ => constructor

namespace Alike

theorem symm (alike : left.Alike right) : right.Alike left where
  id := alike.id.symm
  nextAddress := alike.nextAddress.symm
  refs := alike.refs.symm
  histories address :=
    Rel.swap (fun h => ⟨h.root.symm, h.version.symm, h.current.symm⟩) (alike.histories address)
  roots := alike.roots.symm
  priors cell := (alike.priors cell).symm
  layouts place := (alike.layouts place).symm
  slots ref := Rel.swap Expr.Alike.symm (alike.slots ref)

/-- A handle leads to a history on both sides. -/
theorem sees (alike : left.Alike right) (h : left.Sees ref address tag history) :
    ∃ other, right.Sees ref address tag other ∧ history.Alike other := by
  obtain ⟨other, hother, same⟩ := Rel.of_some (alike.histories address) h.found
  exact ⟨other, ⟨alike.refs ▸ h.issued, h.own.trans alike.id, h.target, hother⟩, same⟩

/-- The newest states are alike. -/
theorem current (alike : left.Alike right) (ref : Ref) :
    Option.Rel Expr.Alike (left.current ref).toOption (right.current ref).toOption := by
  unfold Heap.current historyOf?
  cases ref.address? with
  | none => exact .none
  | some address =>
      dsimp only
      rw [alike.id]
      by_cases own : ref.heap = right.id
      · rw [if_pos own, if_pos own]
        have found := alike.histories address
        generalize left.histories.find? address = history at found
        generalize right.histories.find? address = other at found
        cases found with
        | none => exact .none
        | some same => exact .some same.current
      · rw [if_neg own, if_neg own]
        exact .none

theorem admits (alike : left.Alike right) {place : String × Nat} {ty : Ty}
    (h : left.Admits place ty) : right.Admits place ty := by
  intro known hknown
  exact h known ((alike.layouts place).trans hknown)

theorem fixing (alike : left.Alike right) (place : String × Nat) (ty : Ty) :
    (left.fixing place ty).Alike (right.fixing place ty) :=
  { alike with
    layouts := by
      intro other
      rw [fixing_layouts, fixing_layouts]
      by_cases here : other = place
      · rw [here, Table.find?_add_self, Table.find?_add_self, alike.layouts]
      · rw [Table.find?_add_of_ne _ _ here, Table.find?_add_of_ne _ _ here, alike.layouts] }

/-- One state more on both sides. -/
theorem record (alike : left.Alike right) {other : History} {state state' : Expr}
    (found : left.histories.find? address = some history)
    (found' : right.histories.find? address = some other) (same : history.Alike other)
    (hstate : state.Alike state') (index : Nat) (prior prior' : Expr) :
    (record address index prior state left).Alike (record address index prior' state' right) where
  id := alike.id
  nextAddress := alike.nextAddress
  refs := alike.refs
  layouts := alike.layouts
  slots := alike.slots
  histories := by
    intro there
    rw [record_histories found, record_histories found']
    by_cases here : there = address
    · rw [here, Table.find?_set_self, Table.find?_set_self]
      exact .some ⟨same.root, congrArg (· + 1) same.version, hstate⟩
    · rw [Table.find?_set_of_ne _ _ here, Table.find?_set_of_ne _ _ here]
      exact alike.histories there
  roots := by
    rw [record_histories found, record_histories found']
    have kept : (history.write state).root = history.root := rfl
    have kept' : (other.write state').root = other.root := rfl
    rw [Table.map_values_set History.root found kept, Table.map_values_set History.root found' kept']
    exact alike.roots
  priors := by
    intro cell
    show ((left.priors.set _ _).find? cell).isSome = ((right.priors.set _ _).find? cell).isSome
    rw [Table.isSome_find?_set, Table.isSome_find?_set, alike.priors]

-- ------------------------------------------------------------ operations

variable {index : Datum}

theorem writeField (alike : left.Alike right) {value value' state : Expr}
    (hvalue : value.Alike value')
    (h : (Heap.writeField ref index value).run left = (.ok state, after)) :
    ∃ state' after', (Heap.writeField ref index value').run right = (.ok state', after') ∧
      state.Alike state' ∧ after.Alike after' := by
  obtain ⟨address, tag, history, i, sees, rfl, short, object, sorted, admits, rfl, rfl⟩ :=
    writeField_eq_ok_iff.1 h
  obtain ⟨other, sees', same⟩ := alike.sees sees
  have hstate := same.current.assign hvalue sorted i tag
  have admits' := alike.admits admits
  rw [hvalue.typeOf] at sorted admits'
  refine ⟨_, _, writeField_eq_ok_iff.2 ⟨address, tag, other, i, sees', rfl, short,
    same.current.typeOf ▸ object, sorted, admits', rfl, rfl⟩, hstate, ?_⟩
  rw [← hvalue.typeOf]
  exact (alike.fixing _ _).record sees.found sees'.found same hstate i _ _

theorem readField (alike : left.Alike right) (reached : left.Reached) (reached' : right.Reached)
    {ty : Ty} {read : Expr} (h : (Heap.readField ref index ty).run left = (.ok read, after)) :
    ∃ read' after', (Heap.readField ref index ty).run right = (.ok read', after') ∧
      read.Alike read' ∧ after.Alike after' := by
  obtain ⟨address, tag, history, i, sees, rfl, short, object, -, sorted, admits, rfl, rfl⟩ :=
    readField_eq_ok_iff.1 h
  obtain ⟨other, sees', same⟩ := alike.sees sees
  exact ⟨_, _, readField_eq_ok_iff.2 ⟨address, tag, other, i, sees', rfl, short,
    same.current.typeOf ▸ object, reached'.prior_object sees' i, sorted, alike.admits admits,
    rfl, rfl⟩, same.current.access (reached.priorOf sees i) (reached'.priorOf sees' i),
    alike.fixing _ _⟩

/-- Alike values are put into one slot of both. -/
theorem storing (alike : left.Alike right) (ref : Ref) {value value' : Expr}
    (hvalue : value.Alike value') :
    Heap.Alike { left with slots := left.slots.set ref value }
      { right with slots := right.slots.set ref value' } :=
  { alike with
    slots := fun other => by
      show Option.Rel _ ((left.slots.set _ _).find? other) ((right.slots.set _ _).find? other)
      by_cases here : other = ref
      · rw [here, Table.find?_set_self, Table.find?_set_self]
        exact .some hvalue
      · rw [Table.find?_set_of_ne _ _ here, Table.find?_set_of_ne _ _ here]
        exact alike.slots other }

theorem issuing (alike : left.Alike right) (place : Place) :
    (left.issuing place).Alike (right.issuing place) :=
  { alike with
    refs := by
      show ⟨left.id, left.refs.length, place⟩ :: left.refs
        = ⟨right.id, right.refs.length, place⟩ :: right.refs
      rw [alike.id, alike.refs] }

theorem skipping (alike : left.Alike right) : left.skipping.Alike right.skipping :=
  { alike with nextAddress := congrArg (· + 1) alike.nextAddress }

theorem rooting (alike : left.Alike right) (reached : left.Reached) (reached' : right.Reached)
    (root : String) : (left.rooting root).Alike (right.rooting root) :=
  { alike.skipping with
    histories := by
      intro address
      show Option.Rel _ ((left.histories.set _ _).find? address)
        ((right.histories.set _ _).find? address)
      rw [alike.nextAddress]
      by_cases here : address = right.nextAddress
      · rw [here, Table.find?_set_self, Table.find?_set_self]
        exact .some (.refl _)
      · rw [Table.find?_set_of_ne _ _ here, Table.find?_set_of_ne _ _ here]
        exact alike.histories address
    roots := by
      show (left.histories.set _ _).values.map _ = (right.histories.set _ _).values.map _
      rw [Table.values_set_of_find?_eq_none _ reached.find?_nextAddress,
        Table.values_set_of_find?_eq_none _ reached'.find?_nextAddress, List.map_append,
        List.map_append, alike.roots] }

/-- An allocation gets the same answer on both sides, a refusal included. -/
theorem allocate (alike : left.Alike right) (reached : left.Reached) (reached' : right.Reached)
    (ty : Ty) (tag name : Option String) :
    ((Heap.allocate ty tag name).run left).1 = ((Heap.allocate ty tag name).run right).1 ∧
      ((Heap.allocate ty tag name).run left).2.Alike
        ((Heap.allocate ty tag name).run right).2 := by
  have named : ∀ t, left.rootFor t name = right.rootFor t name := by
    intro t
    rw [rootFor, rootFor, alike.nextAddress]
  rw [allocate_run, allocate_run]
  split
  next t place _ =>
    rw [named, alike.roots]
    split
    next => exact ⟨rfl, alike.skipping⟩
    next =>
      rw [alike.id, alike.refs, alike.nextAddress]
      exact ⟨rfl, (alike.rooting reached reached' _).issuing _⟩
  next =>
    split
    next =>
      rw [alike.id, alike.refs]
      exact ⟨rfl, alike.issuing _⟩
    next => exact ⟨rfl, alike⟩

/-- What goes through on one side goes through on the other, with an alike
answer. -/
theorem perform (alike : left.Alike right) (reached : left.Reached) (reached' : right.Reached)
    {action action' : Action} (same : action.Alike action') {answer : Answer}
    (h : (Heap.perform action).run left = (.ok answer, after)) :
    ∃ answer' after', (Heap.perform action').run right = (.ok answer', after') ∧
      answer.Rel Expr.Alike answer' ∧ after.Alike after' := by
  cases same with
  | allocate ty tag name =>
      obtain ⟨ref, hok, rfl⟩ := run_map_eq_ok.1 h
      obtain ⟨outcome, heaps⟩ := alike.allocate reached reached' ty tag name
      rw [hok] at outcome heaps
      exact ⟨_, ((Heap.allocate ty tag name).run right).2,
        run_map_eq_ok.2 ⟨ref, Prod.ext outcome.symm rfl, rfl⟩, .handle ref, heaps⟩
  | share ref =>
      obtain ⟨shared, hok, rfl⟩ := run_map_eq_ok.1 h
      obtain ⟨issued, htarget, rfl, rfl⟩ := share_eq_ok_iff.1 hok
      refine ⟨_, _, run_map_eq_ok.2 ⟨_, share_eq_ok_iff.2 ⟨alike.refs ▸ issued, htarget, rfl, rfl⟩,
        rfl⟩, ?_, ?_⟩
      · rw [alike.id, alike.refs]
        exact .handle _
      · exact alike.issuing ref.place
  | @writeSlot ref value value' hvalue =>
      obtain ⟨_, hok, rfl⟩ := run_map_eq_ok.1 h
      obtain ⟨issued, hplace, rfl⟩ := writeSlot_eq_ok_iff.1 hok
      exact ⟨_, _, run_map_eq_ok.2 ⟨(), writeSlot_eq_ok_iff.2 ⟨alike.refs ▸ issued,
        hvalue.typeOf ▸ hplace, rfl⟩, rfl⟩, .done, alike.storing ref hvalue⟩
  | readSlot ref =>
      obtain ⟨value, hok, rfl⟩ := run_map_eq_ok.1 h
      obtain ⟨issued, hplace, hfind, rfl⟩ := readSlot_eq_ok_iff.1 hok
      obtain ⟨value', hfind', hvalue⟩ := Rel.of_some (alike.slots ref) hfind
      exact ⟨_, _, run_map_eq_ok.2 ⟨value', readSlot_eq_ok_iff.2 ⟨alike.refs ▸ issued, hplace,
        hfind', rfl⟩, rfl⟩, .expr hvalue, alike⟩
  | writeField ref index hvalue =>
      obtain ⟨state, hok, rfl⟩ := run_map_eq_ok.1 h
      obtain ⟨state', after', hok', hstate, heaps⟩ := alike.writeField hvalue hok
      exact ⟨_, after', run_map_eq_ok.2 ⟨state', hok', rfl⟩, .expr hstate, heaps⟩
  | readField ref index ty =>
      obtain ⟨read, hok, rfl⟩ := run_map_eq_ok.1 h
      obtain ⟨read', after', hok', hread, heaps⟩ := alike.readField reached reached' hok
      exact ⟨_, after', run_map_eq_ok.2 ⟨read', hok', rfl⟩, .expr hread, heaps⟩
  | writeElement ref index hvalue =>
      obtain ⟨state, hok, rfl⟩ := run_map_eq_ok.1 h
      obtain ⟨hplace, hok⟩ := writeElement_eq_ok_iff.1 hok
      obtain ⟨state', after', hok', hstate, heaps⟩ := alike.writeField hvalue hok
      rw [hvalue.typeOf] at hplace
      exact ⟨_, after', run_map_eq_ok.2 ⟨state', writeElement_eq_ok_iff.2 ⟨hplace, hok'⟩, rfl⟩,
        .expr hstate, heaps⟩
  | readElement ref index ty =>
      obtain ⟨read, hok, rfl⟩ := run_map_eq_ok.1 h
      obtain ⟨address, tag, element, hplace, hasked, hok⟩ := readElement_eq_ok_iff.1 hok
      obtain ⟨read', after', hok', hread, heaps⟩ := alike.readField reached reached' hok
      exact ⟨_, after', run_map_eq_ok.2 ⟨read', readElement_eq_ok_iff.2 ⟨address, tag, element,
        hplace, hasked, hok'⟩, rfl⟩, .expr hread, heaps⟩
  | priorState ref index =>
      obtain ⟨prior, hok, rfl⟩ := run_map_eq_ok.1 h
      obtain ⟨address, tag, issued, htarget, simple, rfl, rfl⟩ := priorState_eq_ok_iff.1 hok
      refine ⟨_, _, run_map_eq_ok.2 ⟨_, priorState_eq_ok_iff.2 ⟨address, tag, alike.refs ▸ issued,
        htarget, simple, rfl, rfl⟩, rfl⟩, .prior ?_, alike⟩
      cases index.natural? with
      | none => rfl
      | some i => exact alike.priors (address, i)
  | history ref =>
      obtain ⟨states, hok, rfl⟩ := run_map_eq_ok.1 h
      obtain ⟨address, tag, found, sees, rfl, rfl⟩ := history_eq_ok_iff.1 hok
      obtain ⟨other, sees', same⟩ := alike.sees sees
      refine ⟨_, _, run_map_eq_ok.2 ⟨_, history_eq_ok_iff.2 ⟨address, tag, other, sees', rfl, rfl⟩,
        rfl⟩, .states ?_, alike⟩
      have lengths : found.later.length = other.later.length := same.version
      simp [History.states, lengths]

/-- One action, refused or not. -/
theorem after_alike (alike : left.Alike right) (reached : left.Reached) (reached' : right.Reached)
    {action action' : Action} (same : action.Alike action') :
    Option.Rel (Answer.Rel Expr.Alike) ((Heap.perform action).run left).1.toOption
        ((Heap.perform action').run right).1.toOption ∧
      (Heap.after left action).Alike (Heap.after right action') := by
  unfold Heap.after
  rcases hl : (Heap.perform action).run left with ⟨fault | answer, next⟩
  · rcases hr : (Heap.perform action').run right with ⟨fault' | answer', next'⟩
    · refine ⟨.none, ?_⟩
      cases access : action.isAccess with
      | true =>
          have access' : action'.isAccess = true := by
            cases same with
            | allocate => cases access
            | _ => rfl
          cases perform_refuses access _ _ _ hl
          cases perform_refuses access' _ _ _ hr
          exact alike
      | false =>
          cases same with
          | allocate ty tag name =>
              obtain ⟨-, heaps⟩ := alike.allocate reached reached' ty tag name
              rw [Heap.perform, run_map] at hl hr
              rw [← congrArg Prod.snd hl, ← congrArg Prod.snd hr]
              exact heaps
          | _ => cases access
    · -- it would have gone through on the other side as well
      obtain ⟨_, _, hok, -⟩ := alike.symm.perform reached' reached same.symm hr
      rw [hl] at hok
      cases hok
  · obtain ⟨answer', next', hok, answers, heaps⟩ := alike.perform reached reached' same hl
    rw [hok]
    exact ⟨.some answers, heaps⟩

end Alike

end Heap

end SymbolicHeap
