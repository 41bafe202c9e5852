/-
Arrays that are given no tag.

Such an array goes by the text of its type, and everything that is kept by
tag is kept by that text: the types of its elements, and the field arrays
that it is lowered to.  A text tells its type (`Ty.render_inj`), so arrays
share these only if their elements are of one type.

Objects and other arrays may well have such a text for a tag, and a field
may be used at any type.  But in a run where no array is given a tag, and
arrays are used by their elements only, the type that is kept at a text is
always that of the elements it tells (`Fitting`), and no access is refused
over it (`untagged_arrays_fit`).
-/
import SymbolicHeap.Proofs.Heap.Elements
import SymbolicHeap.Proofs.Heap.Naming
import SymbolicHeap.Proofs.Ty.Readable

namespace SymbolicHeap

open Lowering

-- ============================================================ field arrays

namespace Lowering

theorem Label.whole_array {field : Field} (whole : '\x00' ∉ field.tag.toList) {s : Srt} :
    Label.Whole ⟨field.tag ++ "." ++ toString field.index, [], s⟩ := by
  have digits := Heap.not_mem_toDigits (c := '\x00') rfl field.index
  simp [Label.Whole, whole, digits]

/-- Fields of different tags, indices or types have arrays of their own, if
no null character stands in the tags. -/
theorem SymbolTable.Owned.field_eq {table : SymbolTable} (owned : table.Owned)
    (canonical : table.Canonical) {field other : Field} {term : Term}
    (found : table.fields.find? field = some term)
    (found' : table.fields.find? other = some term) (whole : '\x00' ∉ field.tag.toList)
    (whole' : '\x00' ∉ other.tag.toList) : field = other := by
  have has : table.Has (.array field) := ⟨term, found⟩
  have has' : table.Has (.array other) := ⟨term, found'⟩
  obtain ⟨label, hlabel, -, hterm⟩ := Request.label_of_constant (canonical.fields _ _ found)
  obtain ⟨label', hlabel', -, hterm'⟩ := Request.label_of_constant (canonical.fields _ _ found')
  have symbols : label.symbol = label'.symbol := by
    have same := hterm.symm.trans hterm'
    injection same with same
    injection same
  obtain ⟨s, -, rfl⟩ := Request.label_array hlabel
  obtain ⟨s', -, rfl⟩ := Request.label_array hlabel'
  have requests := owned.eq_of_whole has has' hlabel hlabel' (Label.whole_array whole)
    (Label.whole_array whole') symbols
  injection requests

end Lowering

theorem Ty.whole_render (ty : Ty) : '\x00' ∉ ty.render.toList := by
  intro null
  have known := ty.render_subset null
  revert known
  decide

namespace Heap

-- ================================================================ handles

/-- A handle that a run has got on an array that it gave no tag: from the
allocation, or as a second one from such a handle. -/
inductive OnUntagged (events : List Event) (element : Ty) : Ref → Prop
  | allocated {ref : Ref} {tag name : Option String} : given? tag = none →
      (.allocate (.array element) tag name, .ok (.handle ref)) ∈ events →
      OnUntagged events element ref
  | shared {ref other : Ref} : OnUntagged events element ref →
      (.share ref, .ok (.handle other)) ∈ events → OnUntagged events element other

variable {heap after : Heap} {action : Action} {ref : Ref}

/-- An array that is given no tag has the text of its type for one. -/
theorem allocate_untagged {element : Ty} {tag name : Option String} (untagged : given? tag = none)
    (h : (allocate (.array element) tag name).run heap = (.ok ref, after)) :
    ref.place = .array heap.nextAddress (Ty.array element).render element := by
  rw [allocate_run] at h
  dsimp only [seat?] at h
  rw [untagged] at h
  split at h
  next => cases h
  next =>
    cases h
    rfl

theorem OnUntagged.place {actions : List Action} {element : Ty}
    (on : OnUntagged (Heap.events heap actions) element ref) :
    ∃ address, ref.place = .array address (Ty.array element).render element := by
  induction on with
  | allocated untagged hmem =>
      obtain ⟨before, _, h⟩ := exists_run_of_mem_events hmem
      obtain ⟨_, hmade, same⟩ := run_map_eq_ok.1 h
      cases same
      exact ⟨before.nextAddress, allocate_untagged untagged hmade⟩
  | shared _ hmem ih =>
      obtain ⟨_, _, h⟩ := exists_run_of_mem_events hmem
      obtain ⟨_, hmade, same⟩ := run_map_eq_ok.1 h
      cases same
      obtain ⟨-, -, rfl, -⟩ := share_eq_ok_iff.1 hmade
      exact ih

theorem OnUntagged.tag? {actions : List Action} {element : Ty}
    (on : OnUntagged (Heap.events heap actions) element ref) :
    ref.tag? = some (Ty.array element).render := by
  obtain ⟨address, hplace⟩ := on.place
  rw [Ref.tag?, hplace]

-- ========================================================== the invariant

/-- Arrays are given no tag, and nothing is used by its fields: only the
elements of arrays are written and read. -/
def Action.isUntagged : Action → Prop
  | .allocate (.array _) tag _ => given? tag = none
  | .writeField _ _ _ | .readField _ _ _ => False
  | _ => True

/-- Arrays have their texts for tags, and at a text the type that it tells
is kept. -/
structure Fitting (heap : Heap) : Prop where
  tags : ∀ ref ∈ heap.refs, ∀ address tag element, ref.place = .array address tag element →
    tag = (Ty.array element).render
  layouts : ∀ tag index ty, heap.layouts.find? (tag, index) = some ty →
    tag = (Ty.array ty).render

namespace Fitting

theorem start (id : Nat) : Fitting { id } where
  tags _ h := by cases h
  layouts _ _ _ h := by cases h

/-- The elements of an array may be used at their type. -/
theorem admits (fitting : heap.Fitting) (issued : ref ∈ heap.refs) {address : Nat} {tag : String}
    {element : Ty} (hplace : ref.place = .array address tag element) (index : Nat) :
    heap.Admits (tag, index) element := by
  intro known held
  have told := fitting.layouts tag index known held
  rw [fitting.tags ref issued address tag element hplace] at told
  exact (Ty.render_array_inj.1 told).symm

/-- A handle more. -/
theorem issuing (fitting : heap.Fitting) (hrefs : after.refs = ref :: heap.refs)
    (hlayouts : after.layouts = heap.layouts)
    (new : ∀ address tag element, ref.place = .array address tag element →
      tag = (Ty.array element).render) : after.Fitting where
  tags := by
    rw [hrefs]
    exact List.forall_mem_cons.2 ⟨new, fitting.tags⟩
  layouts := by
    rw [hlayouts]
    exact fitting.layouts

/-- The type of an element is kept. -/
theorem fixing (fitting : heap.Fitting) (issued : ref ∈ heap.refs) {address : Nat}
    {tag : String} {element : Ty} (hplace : ref.place = .array address tag element)
    (index : Nat) :
    (heap.fixing (tag, index) element).Fitting where
  tags := fitting.tags
  layouts other i ty held := by
    by_cases here : (other, i) = (tag, index)
    · cases here
      rw [(fitting.admits issued hplace index).found] at held
      cases held
      exact fitting.tags ref issued address _ _ hplace
    · rw [fixing_layouts, Table.find?_add_of_ne _ _ here] at held
      exact fitting.layouts other i ty held

theorem allocate (fitting : heap.Fitting) {ty : Ty} {tag name : Option String}
    (untagged : (Action.allocate ty tag name).isUntagged) {answer : Except Fault Ref}
    (h : (Heap.allocate ty tag name).run heap = (answer, after)) : after.Fitting := by
  rw [allocate_run] at h
  split at h
  next t place seated =>
    split at h
    next =>
      cases h
      exact ⟨fitting.tags, fitting.layouts⟩
    next =>
      cases h
      refine fitting.issuing rfl rfl fun address tag element hplace => ?_
      -- the new handle is on an array only if one was asked for, without a tag
      cases ty with
      | array =>
          rw [Action.isUntagged] at untagged
          rw [seat?, untagged] at seated
          cases seated
          cases hplace
          rfl
      | object =>
          cases seated
          cases hplace
      | _ => cases seated
  next =>
    split at h
    next =>
      cases h
      exact fitting.issuing rfl rfl nofun
    next =>
      cases h
      exact fitting

/-- An access that goes through. -/
theorem access (fitting : heap.Fitting) (untagged : action.isUntagged)
    (access : action.isAccess = true) {answer : Answer}
    (h : (perform action).run heap = (.ok answer, after)) : after.Fitting := by
  cases action with
  | allocate => cases access
  | writeField | readField => cases untagged
  | share ref =>
      obtain ⟨_, hok, -⟩ := run_map_eq_ok.1 h
      obtain ⟨issued, -, rfl, rfl⟩ := share_eq_ok_iff.1 hok
      exact fitting.issuing rfl rfl (fitting.tags ref issued)
  | writeSlot ref value =>
      obtain ⟨_, hok, -⟩ := run_map_eq_ok.1 h
      obtain ⟨-, -, rfl⟩ := writeSlot_eq_ok_iff.1 hok
      exact ⟨fitting.tags, fitting.layouts⟩
  | readSlot ref =>
      obtain ⟨_, hok, -⟩ := run_map_eq_ok.1 h
      obtain ⟨-, -, -, rfl⟩ := readSlot_eq_ok_iff.1 hok
      exact fitting
  | writeElement ref index value =>
      obtain ⟨_, hok, -⟩ := run_map_eq_ok.1 h
      obtain ⟨⟨_, _, hplace⟩, hok⟩ := writeElement_eq_ok_iff.1 hok
      obtain ⟨_, _, _, i, sees, -, -, -, -, -, -, rfl⟩ := writeField_eq_ok_iff.1 hok
      have fixed := fitting.fixing sees.issued (array_of_target? hplace sees.target) i
      exact ⟨fixed.tags, fixed.layouts⟩
  | readElement ref index ty =>
      obtain ⟨_, hok, -⟩ := run_map_eq_ok.1 h
      obtain ⟨_, _, _, hplace, -, hok⟩ := readElement_eq_ok_iff.1 hok
      obtain ⟨_, _, _, _, sees, -, -, -, -, -, -, -, rfl⟩ := readField_eq_ok_iff.1 hok
      exact fitting.fixing sees.issued (array_of_target? hplace sees.target) _
  | priorState ref index =>
      obtain ⟨_, hok, -⟩ := run_map_eq_ok.1 h
      obtain ⟨_, _, -, -, -, -, rfl⟩ := priorState_eq_ok_iff.1 hok
      exact fitting
  | history ref =>
      obtain ⟨_, hok, -⟩ := run_map_eq_ok.1 h
      obtain ⟨_, _, _, -, -, rfl⟩ := history_eq_ok_iff.1 hok
      exact fitting

/-- One action. -/
theorem after_action (fitting : heap.Fitting) (untagged : action.isUntagged)
    {answer : Except Fault Answer} (h : (perform action).run heap = (answer, after)) :
    after.Fitting := by
  cases action with
  | allocate ty tag name =>
      rw [perform, run_map] at h
      cases h
      exact fitting.allocate untagged rfl
  | _ =>
      cases answer with
      | error fault =>
          cases perform_refuses rfl _ _ _ h
          exact fitting
      | ok answer => exact fitting.access untagged rfl h

end Fitting

-- =============================================================== refusals

/-- Whether a fault is that a field holds values of another type. -/
def Fault.overLayout : Fault → Bool
  | .layoutMisfit _ _ _ _ _ => true
  | _ => false

/-- From this heap, an operation is not refused over the layout of a
field. -/
abbrev Agrees {α : Type} (heap : Heap) (x : Run α) : Prop :=
  FailsOnly (fun fault : Fault => fault.overLayout = false) heap x

theorem checkIssued_agrees : heap.Agrees (checkIssued ref) := by
  refine .bind .get fun found _ _ => ?_
  split
  next => exact .throw rfl
  next => exact .pure _

theorem checkTarget_agrees : heap.Agrees (checkTarget ref) := by
  refine .bind checkIssued_agrees fun _ _ _ => ?_
  split
  next => exact .pure _
  next => exact .pure _
  next => exact .throw rfl

theorem checkArray_agrees : heap.Agrees (checkArray ref) := by
  refine .bind checkIssued_agrees fun _ _ _ => ?_
  split
  next => exact .pure _
  next => exact .throw rfl

theorem checkSlot_agrees : heap.Agrees (checkSlot ref) := by
  refine .bind checkIssued_agrees fun _ _ _ => ?_
  split
  next => exact .pure _
  next => exact .throw rfl

theorem current_agrees : heap.Agrees (liftM (heap.current ref)) := by
  refine .liftM fun fault h => ?_
  unfold current at h
  split at h
  next => cases h
  next =>
    cases h
    rfl

theorem made_agrees {α : Type} (result : Except Expr.Misfit α) : heap.Agrees (made result) := by
  refine .liftM fun fault h => ?_
  obtain ⟨cause, -, rfl⟩ := mapError_eq_error.1 h
  rfl

theorem lookUpPrior_agrees (address : Nat) (index : Datum) :
    heap.Agrees (lookUpPrior address index) := by
  unfold lookUpPrior
  split
  next => exact .bind (.throw rfl) fun _ _ _ => .bind .get fun _ _ _ => .pure _
  next => exact .bind .get fun _ _ _ => .pure _

theorem checkLayout_agrees {use : FieldUse} {tag : String} {index : Nat} {ty : Ty}
    (admits : heap.Admits (tag, index) ty) : heap.Agrees (checkLayout use tag index ty) := by
  intro fault after h
  rw [checkLayout_eq_ok_iff (u := ()).2 ⟨admits, rfl⟩] at h
  cases h

/-- An allocation has no field to look at. -/
theorem allocate_agrees (ty : Ty) (tag name : Option String) :
    heap.Agrees (allocate ty tag name) := by
  intro fault after h
  rw [allocate_run] at h
  split at h
  next =>
    split at h
    next =>
      cases h
      rfl
    next => cases h
  next =>
    split at h
    next => cases h
    next =>
      cases h
      rfl

/-- A write is refused over the layout only if its field does not admit
the type. -/
theorem writeField_agrees {index : Datum} {value : Expr}
    (admits : ∀ address tag, ref.target? = some (address, tag) →
      ∀ i : Nat, heap.Admits (tag, i) value.typeOf) :
    heap.Agrees (writeField ref index value) := by
  -- all that comes before leaves the heap alone, so the layout is looked up in this one
  refine .bind checkTarget_agrees ?_
  rintro ⟨address, tag⟩ _ ht
  obtain ⟨-, htarget, rfl⟩ := checkTarget_eq_ok_iff.1 ht
  refine .bind .get fun _ _ hget => ?_
  cases hget
  refine .bind current_agrees fun prior _ hcurrent => ?_
  obtain ⟨-, rfl⟩ := run_liftM_eq_ok.1 hcurrent
  refine .bind (made_agrees _) fun state _ hstate => ?_
  obtain ⟨-, rfl⟩ := made_eq_ok hstate
  refine .bind (made_agrees _) fun i _ hindex => ?_
  obtain ⟨-, rfl⟩ := made_eq_ok hindex
  exact .bind (checkLayout_agrees (admits address tag htarget i)) fun _ _ _ =>
    .bind (.modify _) fun _ _ _ => .pure _

theorem readField_agrees {index : Datum} {ty : Ty}
    (admits : ∀ address tag, ref.target? = some (address, tag) →
      ∀ i : Nat, heap.Admits (tag, i) ty) :
    heap.Agrees (readField ref index ty) := by
  refine .bind checkTarget_agrees ?_
  rintro ⟨address, tag⟩ _ ht
  obtain ⟨-, htarget, rfl⟩ := checkTarget_eq_ok_iff.1 ht
  refine .bind (lookUpPrior_agrees _ _) fun prior _ hprior => ?_
  obtain ⟨-, -, rfl⟩ := lookUpPrior_eq_ok_iff.1 hprior
  refine .bind .get fun _ _ hget => ?_
  cases hget
  refine .bind current_agrees fun base _ hcurrent => ?_
  obtain ⟨-, rfl⟩ := run_liftM_eq_ok.1 hcurrent
  refine .bind (made_agrees _) fun read _ hread => ?_
  obtain ⟨-, rfl⟩ := made_eq_ok hread
  refine .bind (made_agrees _) fun i _ hindex => ?_
  obtain ⟨-, rfl⟩ := made_eq_ok hindex
  exact .bind (checkLayout_agrees (admits address tag htarget i)) fun _ _ _ => .pure _

namespace Fitting

/-- Wherever a handle on an array leads, the elements there may be used at
their type. -/
theorem admits_target (fitting : heap.Fitting) (issued : ref ∈ heap.refs) {place : Nat}
    {t : String} {element : Ty} (hplace : ref.place = .array place t element) :
    ∀ address tag, ref.target? = some (address, tag) →
      ∀ i : Nat, heap.Admits (tag, i) element :=
  fun _ _ htarget i => fitting.admits issued (array_of_target? hplace htarget) i

theorem writeElement_agrees (fitting : heap.Fitting) {index : Datum} {value : Expr} :
    heap.Agrees (writeElement ref index value) := by
  refine .bind checkArray_agrees ?_
  rintro ⟨tag, element⟩ _ hc
  obtain ⟨issued, ⟨address, hplace⟩, rfl⟩ := checkArray_eq_ok_iff.1 hc
  dsimp only
  split
  next => exact .bind (.throw rfl) fun _ _ h => nomatch h
  next same =>
    -- a value that came through has the type of the elements
    rw [← Decidable.not_not.1 same] at hplace
    exact writeField_agrees (fitting.admits_target issued hplace)

theorem readElement_agrees (fitting : heap.Fitting) {index : Datum} {ty : Option Ty} :
    heap.Agrees (readElement ref index ty) := by
  refine .bind checkArray_agrees ?_
  rintro ⟨tag, element⟩ _ hc
  obtain ⟨issued, ⟨address, hplace⟩, rfl⟩ := checkArray_eq_ok_iff.1 hc
  have read : heap.Agrees (readField ref index element) :=
    readField_agrees (fitting.admits_target issued hplace)
  dsimp only
  split
  next =>
    split
    next => exact .bind (.throw rfl) fun _ _ h => nomatch h
    next => exact read
  next => exact read

/-- No action is refused over a layout. -/
theorem perform_agrees (fitting : heap.Fitting) (untagged : action.isUntagged) :
    heap.Agrees (perform action) := by
  cases action with
  | writeField | readField => cases untagged
  | allocate ty tag name => exact .map (allocate_agrees ty tag name) _
  | share ref =>
      refine .map (.bind checkTarget_agrees fun _ _ _ => ?_) _
      intro fault after h
      cases h
  | writeSlot ref value =>
      refine .map (.bind checkSlot_agrees fun held _ _ => ?_) _
      split
      next => exact .bind (.throw rfl) fun _ _ h => nomatch h
      next => exact .modify _
  | readSlot ref =>
      refine .map (.bind checkSlot_agrees fun held _ _ => .bind .get fun found _ _ => ?_) _
      split
      next => exact .pure _
      next => exact .throw rfl
  | writeElement ref index value => exact .map fitting.writeElement_agrees _
  | readElement ref index ty => exact .map fitting.readElement_agrees _
  | priorState ref index =>
      refine .map (.bind checkTarget_agrees ?_) _
      rintro ⟨address, tag⟩ _ _
      exact lookUpPrior_agrees address index
  | history ref =>
      refine .map (.bind checkTarget_agrees fun _ _ _ => .bind .get fun found _ _ => ?_) _
      split
      next => exact .pure _
      next => exact .throw rfl

end Fitting

-- ============================================================== the result

/-- What holds along a run that uses arrays without tags by their
elements: tags and kept types fit, and nothing was refused over a layout. -/
theorem afterActions_fitting (id : Nat) (actions : List Action)
    (untagged : ∀ event ∈ Heap.events { id } actions, event.1.isUntagged) :
    (afterActions { id } actions).Fitting ∧
      ∀ event ∈ Heap.events { id } actions, ∀ fault, event.2 = .error fault →
        fault.overLayout = false := by
  refine afterActions_induction
    (motive := fun heap past => (∀ event ∈ past, Action.isUntagged event.1) → heap.Fitting ∧
      ∀ event ∈ past, ∀ fault, event.2 = .error fault → fault.overLayout = false) id actions
    (fun _ => ⟨.start id, List.forall_mem_nil _⟩) ?_ untagged
  intro heap after past action answer before h untagged
  obtain ⟨old, new⟩ := List.forall_mem_append.1 untagged
  obtain ⟨fitting, through⟩ := before old
  have last : action.isUntagged := new _ (List.mem_singleton_self _)
  refine ⟨fitting.after_action last h, List.forall_mem_append.2 ⟨through, ?_⟩⟩
  refine List.forall_mem_singleton.2 fun fault failed => ?_
  cases failed
  exact fitting.perform_agrees last _ _ h

/-- A text tells its type.  So arrays that are given no tag, in whatever
runs, have the same tag, use the same entry of the layouts or come to have
the same field array in a lowering only if their elements are of one type;
and in a run where no array is given a tag and all are used by their
elements, nothing is refused over a layout, and what is kept for the
fields of an array is the type of its elements. -/
theorem untagged_arrays_fit {μ : Type} [Memo μ] (id : Nat) (actions : List Action) :
    let heap := afterActions { id } actions
    let events := Heap.events { id } actions
    (∀ a b : Ty, a.render = b.render → a = b) ∧
    (∀ number others p q s t, OnUntagged events s p →
      OnUntagged (Heap.events { id := number } others) t q →
      ∃ tag tag', p.tag? = some tag ∧ q.tag? = some tag' ∧
        (tag = tag' → s = t) ∧
        (∀ i j : Nat, (tag, i) = (tag', j) → s = t) ∧
        ∀ (calls : List Call) i j u v term,
          (afterAll ({} : With μ) calls).symbols.fields.find? ⟨tag, i, u⟩ = some term →
          (afterAll ({} : With μ) calls).symbols.fields.find? ⟨tag', j, v⟩ = some term →
          s = t ∧ i = j ∧ u = v) ∧
    ((∀ action ∈ actions, action.isUntagged) →
      (∀ event ∈ events, ∀ use tag index known wanted,
        event.2 ≠ .error (.layoutMisfit use tag index known wanted)) ∧
      ∀ p s tag index ty, OnUntagged events s p → p.tag? = some tag →
        heap.layouts.find? (tag, index) = some ty → ty = s) := by
  intro heap events
  refine ⟨fun a b => Ty.render_inj.1, ?_, ?_⟩
  · intro number others p q s t hp hq
    refine ⟨(Ty.array s).render, (Ty.array t).render, hp.tag?, hq.tag?, Ty.render_array_inj.1,
      fun i j same => ?_, ?_⟩
    · injection same with same
      exact Ty.render_array_inj.1 same
    · intro calls i j u v term found found'
      have same := (owned_afterAll calls).field_eq (faithful_afterAll calls).symbols found found'
        (Ty.whole_render _) (Ty.whole_render _)
      injection same with htag hindex hty
      exact ⟨Ty.render_array_inj.1 htag, hindex, hty⟩
  · intro untagged
    obtain ⟨fitting, through⟩ := afterActions_fitting id actions
      fun event hevent => untagged _ (action_mem_of_mem_events hevent)
    refine ⟨?_, ?_⟩
    · intro event hevent use tag index known wanted failed
      cases through event hevent _ failed
    · intro p s tag index ty hp htag held
      rw [hp.tag?] at htag
      cases htag
      exact (Ty.render_array_inj.1 (fitting.layouts _ index ty held)).symm

/-- An array of integers with two handles, and an array of such arrays:
they have different tags and different field arrays, and nothing is refused
over a layout, though a truth value and a wrong type are. -/
theorem untagged_arrays_fit_nested :
    let first : Ref := ⟨1, 0, .array 1 "[]int" .int⟩
    let rows : Ref := ⟨1, 1, .array 2 "[][]int" (.array .int)⟩
    let second : Ref := ⟨1, 2, .array 1 "[]int" .int⟩
    let actions : List Action := [.allocate (.array .int) none none,
      .allocate (.array (.array .int)) (some "") (some "rows"), .share first,
      .writeElement first (.int 0) (.int 5), .writeElement second (.int 0) (.bool true),
      .readElement second (.int 1) none, .readElement rows (.int 0) (some .int),
      .readElement rows (.int 0) none]
    let heap := afterActions { id := 1 } actions
    let events := Heap.events { id := 1 } actions
    let element : Field := ⟨"[]int", 1, .int⟩
    let row : Field := ⟨"[][]int", 0, .array .int⟩
    let calls : List Call := [.lower (.access (.var "o" .object) none element),
      .lower (.access (.var "o" .object) none row)]
    let table := (afterAll ({} : Lowering) calls).symbols
    (Ty.function [.function [.int] .int, .int] .int).render
      ≠ (Ty.function [.function [.int, .int] .int] .int).render ∧
    second.tag? ≠ rows.tag? ∧
    (∃ term term', table.fields.find? element = some term ∧
      table.fields.find? row = some term' ∧ term ≠ term') ∧
    (∀ event ∈ events, ∀ use tag index known wanted,
      event.2 ≠ .error (.layoutMisfit use tag index known wanted)) ∧
    ∃ ty, heap.layouts.find? ("[]int", 1) = some ty ∧ ty = .int := by
  intro first rows second actions heap events element row calls table
  obtain ⟨readable, apart, fits⟩ := untagged_arrays_fit (μ := Chains) 1 actions
  have onFirst : OnUntagged events .int first :=
    .allocated rfl (List.mem_of_getElem? (show events[0]? = _ from rfl))
  have onSecond : OnUntagged events .int second :=
    .shared onFirst (List.mem_of_getElem? (show events[2]? = _ from rfl))
  have onRows : OnUntagged events (.array .int) rows :=
    .allocated rfl (List.mem_of_getElem? (show events[1]? = _ from rfl))
  obtain ⟨tag, tag', htag, htag', tags, -, fields⟩ := apart 1 actions _ _ _ _ onSecond onRows
  obtain ⟨quiet, kept⟩ := fits (by
    simp only [actions, List.forall_mem_cons]
    exact ⟨rfl, rfl, trivial, trivial, trivial, trivial, trivial, trivial, List.forall_mem_nil _⟩)
  have held : heap.layouts.find? ("[]int", 1) = some .int := by decide +kernel
  have found : table.fields.find? element
      = some (.call ⟨"[]int.1", [], .array .int⟩ []) := by decide +kernel
  have found' : table.fields.find? row
      = some (.call ⟨"[][]int.0", [], .array (.array .int)⟩ []) := by decide +kernel
  refine ⟨fun same => ?_, fun same => ?_, ⟨_, _, found, found', fun same => ?_⟩, quiet, _, held,
    kept second .int "[]int" 1 _ onSecond rfl held⟩
  · have functions := readable _ _ same
    simp at functions
  · rw [htag, htag'] at same
    injection same with same
    cases tags same
  · cases htag
    cases htag'
    obtain ⟨elements, -⟩ := fields calls 1 0 .int (.array .int) _ found
      (found'.trans (congrArg some same.symm))
    cases elements

end Heap

end SymbolicHeap
