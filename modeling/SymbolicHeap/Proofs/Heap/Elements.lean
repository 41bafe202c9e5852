/-
What arrays hold.

An array is allocated with a type for its elements.  The operations on
elements check it, but an array may also be written and read like an
object, field by field; these operations check only that a field of a tag
keeps the type of its first use.

So the type of the elements holds where it is asked for
(`elements_typed`): at an index where an operation on elements ever went
through, before or after whatever else, or where all others went through
at that type, everything written and read is of the type.  At an index
that is only ever used as a field, the first use decides
(`field_of_another_type`).
-/
import SymbolicHeap.Proofs.Heap.Checks
import SymbolicHeap.Proofs.Heap.Write

namespace SymbolicHeap

namespace Heap

-- ================================================================== uses

/-- The operations on the elements of arrays. -/
def Action.isElement : Action → Bool
  | .writeElement _ _ _ | .readElement _ _ _ => true
  | _ => false

/-- An event that goes through writes or reads a field of an address. -/
def Event.UsesAt (event : Event) (address : Nat) (field : Field) : Prop :=
  ∃ ref index, event.1.uses? = some (ref, index) ∧ ref.address? = some address ∧
    event.field? = some field

/-- An index of an array that is used as that of an element: by an
operation on elements at least once, or at their type by all others. -/
def UsedAsElement (events : List Event) (address index : Nat) (element : Ty) : Prop :=
  (∃ event ∈ events, ∃ field, event.UsesAt address field ∧ field.index = index ∧
    event.1.isElement = true) ∨
  ∀ event ∈ events, ∀ field, event.UsesAt address field → field.index = index →
    event.1.isElement = false → field.ty = element

variable {heap after : Heap} {events : List Event} {action : Action} {ref : Ref} {index : Datum}

theorem Action.uses?_of_reads? (h : action.reads? = some (ref, index)) :
    action.uses? = some (ref, index) := by
  cases action with
  | readField | readElement => exact h
  | _ => cases h

theorem array_of_target? {address place : Nat} {tag t : String} {element : Ty}
    (hplace : ref.place = .array place t element) (h : ref.target? = some (address, tag)) :
    ref.place = .array address tag element := by
  rw [Ref.target?, hplace] at h
  cases h
  exact hplace

/-- Whatever goes through was asked with a handle of the heap, and what
goes through on elements has their type. -/
theorem perform_used {answer : Answer} (huses : action.uses? = some (ref, index))
    (h : (perform action).run heap = (.ok answer, after)) :
    ∃ address field history, heap.Sees ref address field.tag history ∧
      answer.field? = some field ∧
      (action.isElement = true → ref.place = .array address field.tag field.ty) := by
  have written : ∀ {value state}, (writeField ref index value).run heap = (.ok state, after) →
      ∃ address tag history, ∃ i : Nat, heap.Sees ref address tag history ∧
        (Answer.expr state).field? = some ⟨tag, i, value.typeOf⟩ := by
    intro value state h
    obtain ⟨address, tag, history, i, sees, -, -, -, -, -, rfl, -⟩ := writeField_eq_ok_iff.1 h
    exact ⟨address, tag, history, i, sees, rfl⟩
  have found : ∀ {ty read}, (readField ref index ty).run heap = (.ok read, after) →
      ∃ address tag history, ∃ i : Nat, heap.Sees ref address tag history ∧
        (Answer.expr read).field? = some ⟨tag, i, ty⟩ := by
    intro ty read h
    obtain ⟨address, tag, history, i, sees, -, -, -, -, -, -, rfl, -⟩ := readField_eq_ok_iff.1 h
    exact ⟨address, tag, history, i, sees, rfl⟩
  cases action with
  | writeField =>
      cases huses
      obtain ⟨state, hstate, rfl⟩ := run_map_eq_ok.1 h
      obtain ⟨address, tag, history, i, sees, hfield⟩ := written hstate
      exact ⟨address, _, history, sees, hfield, nofun⟩
  | readField =>
      cases huses
      obtain ⟨read, hread, rfl⟩ := run_map_eq_ok.1 h
      obtain ⟨address, tag, history, i, sees, hfield⟩ := found hread
      exact ⟨address, _, history, sees, hfield, nofun⟩
  | writeElement =>
      cases huses
      obtain ⟨state, hstate, rfl⟩ := run_map_eq_ok.1 h
      obtain ⟨⟨place, t, hplace⟩, hstate⟩ := writeElement_eq_ok_iff.1 hstate
      obtain ⟨address, tag, history, i, sees, hfield⟩ := written hstate
      exact ⟨address, _, history, sees, hfield, fun _ => array_of_target? hplace sees.target⟩
  | readElement =>
      cases huses
      obtain ⟨read, hread, rfl⟩ := run_map_eq_ok.1 h
      obtain ⟨place, t, element, hplace, -, hread⟩ := readElement_eq_ok_iff.1 hread
      obtain ⟨address, tag, history, i, sees, hfield⟩ := found hread
      exact ⟨address, _, history, sees, hfield, fun _ => array_of_target? hplace sees.target⟩
  | _ => cases huses

/-- A write that goes through adds one state, of the field that it uses. -/
theorem perform_written {address i : Nat} {value : Expr} {answer : Except Fault Answer}
    (h : (perform action).run heap = (answer, after))
    (hwrite : action.write? answer = some ⟨address, i, value⟩) :
    ∃ tag history, heap.histories.find? address = some history ∧
      after.histories = heap.histories.set address
        (history.write (.assign history.current i value tag)) ∧
      Event.UsesAt (action, answer) address ⟨tag, i, value.typeOf⟩ := by
  have wrote : action.write? ((perform action).run heap).1 = some ⟨address, i, value⟩ := by
    rw [h]
    exact hwrite
  obtain ⟨ref, tag, history, lands⟩ := exists_lands wrote
  have hrun := lands.run
  rw [h] at hrun
  cases hrun
  have haddress := address?_of_target? lands.sees.target
  refine ⟨tag, history, lands.sees.found, lands.histories, ref, .int i, ?_⟩
  rcases lands.aims with rfl | ⟨rfl, -⟩
  · exact ⟨rfl, haddress, rfl⟩
  · exact ⟨rfl, haddress, rfl⟩

-- ========================================================== the invariant

/-- What was used is told by the run. -/
structure Told (heap : Heap) (events : List Event) : Prop where
  /-- Fields are used through handles of the heap, elements at the type of
  their array. -/
  uses : ∀ event ∈ events, ∀ ref index field, event.1.uses? = some (ref, index) →
    event.field? = some field → ref ∈ heap.refs ∧ ref.tag? = some field.tag ∧
      (event.1.isElement = true → ∃ address, ref.place = .array address field.tag field.ty)
  /-- Every state after the root was written by an event. -/
  states : ∀ address history, heap.histories.find? address = some history →
    ∀ state ∈ history.later, ∃ base i value tag, state = .assign base i value tag ∧
      ∃ event ∈ events, event.UsesAt address ⟨tag, i, value.typeOf⟩

theorem Change.refs_subset {cell : Option CellWrite} (change : heap.Change cell after) :
    heap.refs ⊆ after.refs := by
  cases change with
  | quiet untouched =>
      rw [untouched.refs]
      exact List.Subset.refl _
  | handle _ _ _ hrefs =>
      rw [hrefs]
      exact List.subset_cons_self _ _
  | root _ _ _ _ hrefs =>
      rw [hrefs]
      exact List.subset_cons_self _ _
  | write _ _ _ _ hrefs =>
      rw [hrefs]
      exact List.Subset.refl _

namespace Told

theorem start (id : Nat) : Told { id } [] where
  uses _ h := by cases h
  states _ _ h := by cases h

/-- A state is an old one, or the one that was written just now. -/
theorem states_after (told : heap.Told events) {answer : Except Fault Answer}
    (h : (perform action).run heap = (answer, after)) :
    ∀ address history, after.histories.find? address = some history →
      ∀ state ∈ history.later, ∃ base i value tag, state = .assign base i value tag ∧
        ∃ event ∈ events ++ [(action, answer)], event.UsesAt address ⟨tag, i, value.typeOf⟩ := by
  have old : ∀ address history, heap.histories.find? address = some history →
      ∀ state ∈ history.later, ∃ base i value tag, state = .assign base i value tag ∧
        ∃ event ∈ events ++ [(action, answer)], event.UsesAt address ⟨tag, i, value.typeOf⟩ := by
    intro address history hfind state hstate
    obtain ⟨base, i, value, tag, same, event, hevent, uses⟩ :=
      told.states address history hfind state hstate
    exact ⟨base, i, value, tag, same, event, List.mem_append_left _ hevent, uses⟩
  intro address history hfind
  have change := perform_change h
  cases hcell : action.write? answer with
  | none =>
      rw [hcell] at change
      cases change with
      | quiet untouched =>
          rw [untouched.histories] at hfind
          exact old address history hfind
      | handle _ _ _ _ hhist =>
          rw [hhist] at hfind
          exact old address history hfind
      | root _ _ _ _ _ hhist =>
          rw [hhist] at hfind
          rcases Table.find?_set_eq_some hfind with ⟨-, rfl⟩ | hfind
          · exact fun state hstate => nomatch hstate
          · exact old address history hfind
  | some cell =>
      obtain ⟨tag, written, hwritten, hhist, uses⟩ := perform_written h hcell
      rw [hhist] at hfind
      rcases Table.find?_set_eq_some hfind with ⟨rfl, rfl⟩ | hfind
      · intro state hstate
        rcases List.mem_cons.1 hstate with rfl | hstate
        · exact ⟨_, _, _, tag, rfl, _, List.mem_append_right _ (List.mem_singleton_self _), uses⟩
        · exact old _ written hwritten state hstate
      · exact old address history hfind

/-- One action. -/
theorem after_action (told : heap.Told events) {answer : Except Fault Answer}
    (h : (perform action).run heap = (answer, after)) :
    after.Told (events ++ [(action, answer)]) where
  uses := by
    have grows := (perform_change h).refs_subset
    refine List.forall_mem_append.2 ⟨?_, List.forall_mem_singleton.2 ?_⟩
    · intro event hevent ref index field huses hfield
      obtain ⟨issued, told⟩ := told.uses event hevent ref index field huses hfield
      exact ⟨grows issued, told⟩
    · intro ref index field huses hfield
      cases answer with
      | error fault => cases hfield
      | ok answer =>
          obtain ⟨address, used, history, sees, hused, element⟩ := perform_used huses h
          have hfield : answer.field? = some field := by
            rw [Event.field?, huses] at hfield
            exact hfield
          rw [hused] at hfield
          cases hfield
          exact ⟨grows sees.issued, tag?_of_target? sees.target,
            fun helement => ⟨address, element helement⟩⟩
  states := told.states_after h

end Told

theorem afterActions_told (id : Nat) (actions : List Action) :
    (afterActions { id } actions).Told (Heap.events { id } actions) :=
  afterActions_induction id actions (.start id) fun told h => told.after_action h

-- ================================================================ arrays

/-- All handles on an address are on one array. -/
def Houses (heap : Heap) (address : Nat) (tag : String) (element : Ty) : Prop :=
  ∀ other ∈ heap.refs, other.address? = some address → other.place = .array address tag element

variable {address : Nat} {tag : String} {element : Ty}

/-- What is used of an array has its tag, and what the operations on
elements use has their type. -/
theorem Told.of_array (told : heap.Told events) (houses : heap.Houses address tag element) :
    ∀ event ∈ events, ∀ field, event.UsesAt address field → field.tag = tag ∧
      (event.1.isElement = true → field.ty = element) := by
  rintro event hevent field ⟨other, index, huses, hother, hfield⟩
  obtain ⟨known, htag, htyped⟩ := told.uses event hevent other index field huses hfield
  have same := houses other known hother
  refine ⟨?_, fun helement => ?_⟩
  · rw [Ref.tag?, same] at htag
    cases htag
    rfl
  · obtain ⟨_, htyped⟩ := htyped helement
    rw [same] at htyped
    cases htyped
    rfl

/-- At an index that is used as that of an element, all that is used has
the type of the elements. -/
theorem Told.settled (told : heap.Told events) (checked : heap.Checked events)
    (houses : heap.Houses address tag element) {index : Nat}
    (usedAs : UsedAsElement events address index element) :
    ∀ event ∈ events, ∀ field, event.UsesAt address field → field.index = index →
      field.ty = element := by
  intro event hevent field huses hindex
  obtain ⟨htag, htyped⟩ := told.of_array houses event hevent field huses
  rcases usedAs with ⟨event', hevent', field', huses', rfl, helement⟩ | others
  · -- both uses have the type that is kept for the field
    obtain ⟨htag', htyped'⟩ := told.of_array houses event' hevent' field' huses'
    obtain ⟨_, _, -, -, hfield'⟩ := huses'
    have kept' := (checked.sound event' hevent').typed field' hfield'
    obtain ⟨_, _, -, -, hfield⟩ := huses
    have kept := (checked.sound event hevent).typed field hfield
    rw [htag, hindex, ← htag', kept'] at kept
    injection kept with same
    rw [← same]
    exact htyped' helement
  · cases helement : event.1.isElement with
    | true => exact htyped helement
    | false => exact others event hevent field huses hindex helement

/-- A read uses the field that it shows. -/
theorem Event.Sound.read_field {other : Ref} {i : Nat} {read : Expr}
    (sound : Event.Sound heap (action, .ok (.expr read)))
    (hreads : action.reads? = some (other, .int i)) (hother : other.address? = some address) :
    ∃ field, Event.UsesAt (action, .ok (.expr read)) address field ∧ field.index = i ∧
      read.typeOf = field.ty := by
  obtain ⟨_, base, prior, field, hread, -⟩ := sound.matching _ _ _ _ rfl hreads
  cases hread
  have huses := Action.uses?_of_reads? hreads
  obtain ⟨shown, hshown, -, hindex⟩ := sound.named _ _ _ _ rfl huses
  have hfield : Event.field? (action, .ok (.expr (.access base prior field))) = some field := by
    rw [Event.field?, huses]
    rfl
  rw [hfield] at hshown
  cases hshown
  injection hindex with hindex
  exact ⟨field, ⟨other, _, huses, hother, hfield⟩, (Int.ofNat.inj hindex).symm, rfl⟩

-- ============================================================== the result

/-- After any run, for every array and every handle on it: what was
written to it and what was read from it by the operations on elements has
the type of the elements.  So has all that was written to or read from an
index in any other way, if an operation on elements went through there as
well, or if the others were all made at that type. -/
theorem elements_typed (id : Nat) (actions : List Action) :
    let heap := afterActions { id } actions
    let events := Heap.events { id } actions
    ∀ ref ∈ heap.refs, ∀ address tag element, ref.place = .array address tag element →
      (∀ other ∈ heap.refs, other.address? = some address → other.place = ref.place) ∧
      (∃ history, heap.histories.find? address = some history ∧
        ∀ state ∈ history.later, ∃ base index value, state = .assign base index value tag ∧
          ∃ event ∈ events, event.UsesAt address ⟨tag, index, value.typeOf⟩) ∧
      (∀ event ∈ events, ∀ field, event.UsesAt address field → field.tag = tag ∧
        (event.1.isElement = true → field.ty = element)) ∧
      ∀ index, UsedAsElement events address index element →
        (∀ history, heap.histories.find? address = some history → ∀ base value,
          .assign base index value tag ∈ history.later → value.typeOf = element) ∧
        ∀ action other read, (action, .ok (.expr read)) ∈ events →
          action.reads? = some (other, .int index) → other.address? = some address →
          read.typeOf = element := by
  intro heap events ref issued address tag element hplace
  obtain ⟨⟨cells, refines⟩, indexed⟩ := afterActions_indexed id actions
  have told := afterActions_told id actions
  have checked := afterActions_checked id actions
  have haddress : ref.address? = some address := by rw [Ref.address?, hplace]
  have places : ∀ other ∈ heap.refs, other.address? = some address → other.place = ref.place :=
    fun other hother h => indexed.places other hother ref issued address h haddress
  have houses : heap.Houses address tag element := fun other hother h =>
    (places other hother h).trans hplace
  have used := told.of_array houses
  obtain ⟨history, hfind, -⟩ := (indexed.wellShaped refines).shared ref issued address haddress
  have states := told.states address history hfind
  refine ⟨places, ⟨history, hfind, ?_⟩, used, fun index usedAs => ⟨?_, ?_⟩⟩
  · intro state hstate
    obtain ⟨base, i, value, t, same, event, hevent, uses⟩ := states state hstate
    obtain rfl : t = tag := (used event hevent _ uses).1
    exact ⟨base, i, value, same, event, hevent, uses⟩
  · intro other hother base value hmem
    rw [hfind] at hother
    cases hother
    obtain ⟨_, _, _, _, same, event, hevent, uses⟩ := states _ hmem
    cases same
    exact told.settled checked houses usedAs event hevent _ uses rfl
  · intro action other read hevent hreads hother
    obtain ⟨field, uses, hindex, hty⟩ := (checked.sound _ hevent).read_field hreads hother
    rw [hty]
    exact told.settled checked houses usedAs _ hevent field uses hindex

/-- A write and a read of an element, through two handles, with a field
of the same array written in between. -/
theorem elements_typed_alias :
    let first : Ref := ⟨1, 0, .array 1 "[]int" .int⟩
    let second : Ref := ⟨1, 1, .array 1 "[]int" .int⟩
    let actions : List Action := [.allocate (.array .int) none none, .share first,
      .writeElement first (.int 0) (.int 5), .writeField second (.int 0) (.bool true),
      .readElement second (.int 0) none]
    ∃ history, (afterActions { id := 1 } actions).histories.find? 1 = some history ∧
      ∀ base value, .assign base 0 value "[]int" ∈ history.later → value.typeOf = .int := by
  intro first second actions
  obtain ⟨-, ⟨history, hfind, -⟩, -, settled⟩ :=
    elements_typed 1 actions first (by decide +kernel) 1 "[]int" .int rfl
  refine ⟨history, hfind, (settled 0 (.inl ?_)).1 history hfind⟩
  refine ⟨_, List.mem_of_getElem? (show (Heap.events { id := 1 } actions)[2]? = _ from rfl),
    ⟨"[]int", 0, .int⟩, ⟨first, .int 0, rfl, rfl, rfl⟩, rfl, rfl⟩

/-- An array of integers that holds a truth value: the first use of an
index is that of a field. -/
theorem field_of_another_type :
    let first : Ref := ⟨1, 0, .array 1 "[]int" .int⟩
    let heap := afterActions { id := 1 } [.allocate (.array .int) none none,
      .writeField first (.int 0) (.bool true)]
    (∃ history, heap.histories.find? 1 = some history ∧
      .assign history.rootState 0 (.bool true) "[]int" ∈ history.later) ∧
    (∃ read, ((perform (.readField first (.int 0) .bool)).run heap).1 = .ok (.expr read) ∧
      read.typeOf = .bool) ∧
    ((perform (.writeElement first (.int 0) (.bool true))).run heap).1.isOk = false ∧
    ((perform (.writeElement first (.int 0) (.int 5))).run heap).1.isOk = false := by
  refine ⟨⟨_, rfl, List.mem_singleton_self _⟩, ⟨_, rfl, rfl⟩, ?_, ?_⟩
  · decide +kernel
  · decide +kernel

end Heap

end SymbolicHeap
