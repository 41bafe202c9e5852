/-
Reads pass their checks.

A lowering does not take a read on trust: it walks the chain of writes
below the read, and refuses it if its prior state is not the one below the
newest write to the field, or if a write to the field holds a value of
another type.  A heap keeps prior states by address and types by tag; the
lowering finds both in the chain, by tag and index.  Along any run they
agree (`Checked`).

So what a heap answers to a read is refused by a lowering for three causes
only (`ReadRefused`): a name that the read needs is taken, or cannot be
encoded, or one of the written values on its chain is refused, after all
that is below it went through.
-/
import SymbolicHeap.Proofs.Heap.History
import SymbolicHeap.Proofs.Heap.Read
import SymbolicHeap.Proofs.Lowering.Owner

namespace SymbolicHeap

-- ================================================================= chains

/-- The writes to a field on which a state stands, newest first: what each
was made on, and its value. -/
def Expr.writesAt (tag : String) (index : Nat) : Expr → List (Expr × Expr)
  | .assign base i value t =>
      if i = index ∧ t = tag then (base, value) :: writesAt tag index base
      else writesAt tag index base
  | _ => []

theorem Expr.mem_writesAt_assign {base value : Expr} {tag t : String} {index i : Nat}
    {write : Expr × Expr} (h : write ∈ (Expr.assign base i value t).writesAt tag index) :
    (i = index ∧ t = tag ∧ write = (base, value)) ∨ write ∈ base.writesAt tag index := by
  rw [writesAt] at h
  split at h
  next here =>
    rcases List.mem_cons.1 h with rfl | h
    · exact .inl ⟨here.1, here.2, rfl⟩
    · exact .inr h
  next => exact .inr h

theorem Expr.writesAt_subset_assign (base value : Expr) (tag t : String) (index i : Nat) :
    base.writesAt tag index ⊆ (Expr.assign base i value t).writesAt tag index := by
  intro write hw
  rw [writesAt]
  split
  next => exact List.mem_cons_of_mem _ hw
  next => exact hw

/-- What a lowering checks of a read: its prior state is the one below the
newest write, and all writes to the field have its type. -/
structure Expr.Matching (root : String) (base : Expr) (prior : Option Expr) (field : Field) :
    Prop where
  chain : base.StoreChain root field.tag
  sorted : field.ty.hasSort = true
  prior : Lowering.priorOf field.tag field.index base = prior
  fits : ∀ write ∈ base.writesAt field.tag field.index, write.2.typeOf = field.ty

namespace Lowering

-- ======================================================= lowering a chain

namespace Plan

variable {table after : SymbolTable} {fault : Fault}

/-- A constant with a label is refused only over its name. -/
theorem run_constant_eq_error {request : Request} {label : Label}
    (hlabel : request.label = .ok label)
    (h : (constant request).run table = (.error fault, after)) :
    request.Clashes fault ∨ request.Unencodable fault := by
  have unencodable : request.symbol = .error fault → request.Unencodable fault := by
    intro h
    rcases Request.symbol_eq_error h with h | surrogate
    · rw [hlabel] at h
      cases h
    · exact surrogate
  unfold run at h
  rcases hg : table.grant request with ⟨refusal | ⟨⟩, granted⟩
  · rw [show (constant request).requests = [request] from rfl,
      SymbolTable.grantAll_cons_of_error hg] at h
    cases h
    exact (SymbolTable.symbol_or_clash hg).symm.imp id unencodable
  · rw [show (constant request).requests = [request] from rfl,
      SymbolTable.grantAll_cons_of_ok hg] at h
    injection h with hout
    exact .inr (unencodable (map_eq_error.1 hout))

/-- The contents of a field, seen from a chain whose writes to it have its
type, fail over the names of the field and of the root, or in one of the
values. -/
theorem contents_run_eq_error {root tag : String} {base : Expr} (chain : base.StoreChain root tag)
    {field : Field} (sorted : field.ty.hasSort = true)
    (fits : ∀ write ∈ base.writesAt field.tag field.index, write.2.typeOf = field.ty)
    (h : (contents base field).run table = (.error fault, after)) :
    (∃ request : Request, (request = .array field ∨ request = .var root .object) ∧
        (request.Clashes fault ∨ request.Unencodable fault)) ∨
      ∃ write ∈ base.writesAt field.tag field.index, ∃ found middle,
        (contents write.1 field).run table = (.ok found, middle) ∧
          (lower write.2).run middle = (.error fault, after) := by
  induction chain with
  | root =>
      obtain ⟨label, hlabel⟩ := Request.label_array_ok sorted
      rcases run_bind_eq_error h with h | ⟨initial, middle, -, h⟩
      · exact .inl ⟨_, .inl rfl, run_constant_eq_error hlabel h⟩
      · rcases run_bind_eq_error h with h | ⟨identity, last, -, h⟩
        · exact .inl ⟨_, .inr rfl, run_constant_eq_error rfl h⟩
        · cases h
  | @write base index value chain ih =>
      have below := Expr.writesAt_subset_assign base value field.tag tag field.index index
      rw [contents_assign] at h
      rcases run_bind_eq_error h with h | ⟨⟨found, identity⟩, middle, hfound, h⟩
      · rcases ih (fun write hw => fits write (below hw)) h with refused | ⟨write, hw, found⟩
        · exact .inl refused
        · exact .inr ⟨write, below hw, found⟩
      · by_cases writes : field.isAt index tag = true
        · have here : index = field.index ∧ tag = field.tag := by
            simpa [Field.isAt] using writes
          have newest : (base, value) ∈
              (Expr.assign base index value tag).writesAt field.tag field.index := by
            rw [Expr.writesAt, if_pos here]
            exact List.mem_cons_self
          have held : value.typeOf = field.ty := fits _ newest
          simp only [writes, held, if_true] at h
          rcases run_bind_eq_error h with h | ⟨stored, last, -, h⟩
          · exact .inr ⟨_, newest, _, _, hfound, h⟩
          · cases h
        · simp only [writes] at h
          cases h

/-- A read whose prior state matches asks for nothing beyond the contents
that it selects from. -/
theorem access_run (canonical : table.Canonical) {base : Expr} {prior : Option Expr}
    {field : Field} (matching : priorOf field.tag field.index base = prior) :
    (lower (.access base prior field)).run table =
      match (contents base field).run table with
      | (.ok (contents, identity), middle) => (.ok (Term.select contents identity), middle)
      | (.error fault, middle) => (.error fault, middle) := by
  have hlower : lower (.access base prior field) =
      contents base field >>= fun found => identity base >>= fun identity =>
        pure (Term.select found.1 identity) := by
    rw [lower_access, if_neg (not_not_intro matching)]
  rw [hlower]
  rcases hc : (contents base field).run table with ⟨fault | ⟨found, identity⟩, middle⟩
  · rw [run_bind, hc]
  · obtain ⟨hout, hgrant⟩ := run_eq_ok.1 hc
    obtain ⟨hidentity, hsub⟩ := identity_of_contents hout
    have has : ∀ request ∈ (Plan.identity base).requests, middle.Has request :=
      fun request hr => SymbolTable.has_of_grantAll canonical hgrant request (hsub hr)
    have again : (Plan.identity base).run middle = (.ok identity, middle) := by
      rw [run_of_has has, hidentity]
    rw [run_bind_of_ok hc, run_bind_of_ok again]
    rfl

theorem lowered_access_run (canonical : table.Canonical) {base : Expr} {prior : Option Expr}
    {field : Field} (sorted : field.ty.hasSort = true)
    (matching : priorOf field.tag field.index base = prior) :
    (lowered (.access base prior field)).run table =
      match (contents base field).run table with
      | (.ok (contents, identity), middle) =>
          (.ok (.term (Term.select contents identity)), middle)
      | (.error fault, middle) => (.error fault, middle) := by
  obtain ⟨s, hs⟩ := (Ty.hasSort_iff_sort field.ty).1 sorted
  rw [plan_lowered_of_sort (show (Expr.access base prior field).typeOf.sort = .ok s from hs),
    run_bind, access_run canonical matching]
  rcases (contents base field).run table with ⟨_ | _, _⟩
  · rfl
  · rfl

end Plan

-- ================================================================== reads

variable {μ : Type} [Memo μ]

/-- The causes for which a read that matches is refused. -/
inductive ReadRefused (lowering : With μ) (root : String) (base : Expr) (field : Field)
    (fault : Fault) : Prop
  /-- The name of the field array is taken. -/
  | array : (Request.array field).Clashes fault → ReadRefused lowering root base field fault
  /-- The name of the root is taken. -/
  | root : (Request.var root .object).Clashes fault → ReadRefused lowering root base field fault
  /-- The name of the field array or of the root cannot be encoded. -/
  | unencodable {request : Request} : request = .array field ∨ request = .var root .object →
      request.Unencodable fault → ReadRefused lowering root base field fault
  /-- A written value is refused, where a read of what it was written on
  goes through. -/
  | value {below value : Expr} {found : Lowered} {middle : With μ} :
      (below, value) ∈ base.writesAt field.tag field.index →
      (lowered (.access below (priorOf field.tag field.index below) field)).run lowering
        = (.ok found, middle) →
      ((lowered value).run middle).1 = .error fault →
      ReadRefused lowering root base field fault

/-- A read that matches fails for these causes only. -/
theorem lowered_read_eq_error {lowering : With μ} (faithful : Faithful lowering) {root : String}
    {base : Expr} {prior : Option Expr} {field : Field}
    (matching : Expr.Matching root base prior field) {fault : Fault}
    (h : ((lowered (.access base prior field)).run lowering).1 = .error fault) :
    ReadRefused lowering root base field fault := by
  have failed := (lowered_runsAs _ lowering faithful).outcome.symm.trans h
  rw [Plan.lowered_access_run faithful.symbols matching.sorted matching.prior] at failed
  rcases hcontents : (Plan.contents base field).run lowering.symbols with ⟨cause | found, after⟩
  · rw [hcontents] at failed
    cases failed
    rcases Plan.contents_run_eq_error matching.chain matching.sorted matching.fits hcontents with
      ⟨request, which, clash | surrogate⟩ | ⟨⟨below, value⟩, hw, found, middle, hbelow, hvalue⟩
    · rcases which with rfl | rfl
      · exact .array clash
      · exact .root clash
    · exact .unencodable which surrogate
    · -- the values below are lowered the same when they are read as when they are written on
      obtain ⟨hout, hsym, faithful'⟩ := lowered_runsAs
        (.access below (priorOf field.tag field.index below) field) lowering faithful
      rw [Plan.lowered_access_run faithful.symbols matching.sorted rfl, hbelow] at hout hsym
      refine .value hw (Prod.ext hout rfl) ?_
      obtain ⟨s, hs⟩ := (Ty.hasSort_iff_sort field.ty).1 matching.sorted
      have held : value.typeOf.sort = .ok s := (matching.fits _ hw) ▸ hs
      rw [(lowered_runsAs value _ faithful').outcome, hsym, plan_lowered_of_sort held,
        Plan.run_bind, hvalue]
  · rw [hcontents] at failed
    cases failed

/-- What is kept as the prior state of a field is found in the chain. -/
theorem priorOf_current {history : History} {tag : String}
    (chain : history.states.IsChain (Expr.Follows tag)) (index : Nat) :
    priorOf tag index history.current = history.priorTo index := by
  obtain ⟨root, later⟩ := history
  induction later with
  | nil => rfl
  | cons state later ih =>
      -- the newest state is a write to the one that was newest before
      obtain ⟨earlier, -, links⟩ := List.isChain_append.1
        (History.states_write { root, later } state ▸ chain)
      obtain ⟨i, value, rfl⟩ := links _ (History.getLast?_states _) state rfl
      show priorOf tag index (.assign _ i value tag)
        = (History.write { root, later } _).priorTo index
      rw [priorOf, History.priorTo_write, ih earlier]
      simp

end Lowering

namespace Heap

open Lowering

-- ================================================================ answers

/-- The handle and the index at which an action uses a field. -/
def Action.uses? : Action → Option (Ref × Datum)
  | .readField ref index _ | .readElement ref index _ => some (ref, index)
  | .writeField ref index _ | .writeElement ref index _ => some (ref, index)
  | _ => none

/-- The field that an answer reads, or that it is the state after a write
to. -/
def Answer.field? : Answer → Option Field
  | .expr (.access _ _ field) => some field
  | .expr (.assign _ index value tag) => some ⟨tag, index, value.typeOf⟩
  | _ => none

/-- The field that an event uses, as its answer has it. -/
def Event.field? : Event → Option Field
  | (action, .ok answer) => if action.uses?.isSome then answer.field? else none
  | _ => none

variable {heap after : Heap} {events : List Event} {cells : Cells} {action : Action}
  {answer : Answer} {ref : Ref} {index : Datum}

/-- The field of an answer is that of the handle and the index, and the
heap keeps its type. -/
def Shows (heap : Heap) (ref : Ref) (index : Datum) (answer : Answer) : Prop :=
  ∃ field, answer.field? = some field ∧ ref.tag? = some field.tag ∧ index = .int field.index ∧
    heap.layouts.find? (field.tag, field.index) = some field.ty

theorem readField_shows {ty : Ty} {read : Expr}
    (h : (readField ref index ty).run heap = (.ok read, after)) :
    after.Shows ref index (.expr read) := by
  obtain ⟨_, tag, _, i, -, htarget, -, rfl, rfl, -, fixed⟩ := readField_eq_ok h
  exact ⟨⟨tag, i, ty⟩, rfl, tag?_of_target? htarget, rfl, fixed⟩

theorem writeField_shows {value state : Expr}
    (h : (writeField ref index value).run heap = (.ok state, after)) :
    after.Shows ref index (.expr state) := by
  obtain ⟨_, tag, _, i, -, htarget, -, rfl, -, rfl, -, -, -, -, -, -, fixed⟩ := writeField_eq_ok h
  exact ⟨⟨tag, i, value.typeOf⟩, rfl, tag?_of_target? htarget, rfl, fixed⟩

/-- A field that is used has, from then on, the type of the answer. -/
theorem perform_shows (huses : action.uses? = some (ref, index))
    (h : (perform action).run heap = (.ok answer, after)) : after.Shows ref index answer := by
  cases action with
  | readField =>
      cases huses
      obtain ⟨found, hfound, rfl⟩ := run_map_eq_ok.1 h
      exact readField_shows hfound
  | readElement =>
      cases huses
      obtain ⟨found, hfound, rfl⟩ := run_map_eq_ok.1 h
      obtain ⟨element, hfound⟩ := readElement_eq_ok hfound
      exact readField_shows hfound
  | writeField =>
      cases huses
      obtain ⟨found, hfound, rfl⟩ := run_map_eq_ok.1 h
      exact writeField_shows hfound
  | writeElement =>
      cases huses
      obtain ⟨found, hfound, rfl⟩ := run_map_eq_ok.1 h
      exact writeField_shows (writeElement_eq_ok hfound)
  | _ => cases huses

/-- What is answered to a read is an expression. -/
theorem answer_of_reads (hreads : action.reads? = some (ref, index))
    (h : (perform action).run heap = (.ok answer, after)) : ∃ read, answer = .expr read := by
  cases action with
  | readField | readElement =>
      obtain ⟨found, -, rfl⟩ := run_map_eq_ok.1 h
      exact ⟨found, rfl⟩
  | _ => cases hreads

-- ========================================================== the invariant

/-- What an event shows of a field has the type that the heap keeps for
it, and what it reads matches. -/
structure Event.Sound (heap : Heap) (event : Event) : Prop where
  /-- The field is that of the handle and the index. -/
  named : ∀ action answer ref index, event = (action, .ok answer) →
    action.uses? = some (ref, index) →
    ∃ field, event.field? = some field ∧ ref.tag? = some field.tag ∧ index = .int field.index
  typed : ∀ field, event.field? = some field →
    heap.layouts.find? (field.tag, field.index) = some field.ty
  matching : ∀ action answer ref index, event = (action, .ok answer) →
    action.reads? = some (ref, index) →
    ∃ root base prior field, answer = .expr (.access base prior field) ∧
      Expr.Matching root base prior field

theorem Event.Sound.mono {event : Event} (sound : event.Sound heap)
    (keeps : heap.KeepsLayouts after) : event.Sound after where
  named := sound.named
  typed field hfield := keeps _ _ (sound.typed field hfield)
  matching := sound.matching

/-- The types that a heap keeps are those of all that was written and
answered. -/
structure Checked (heap : Heap) (events : List Event) : Prop where
  written : ∀ address history, heap.histories.find? address = some history →
    ∀ tag index, ∀ write ∈ history.current.writesAt tag index,
      heap.layouts.find? (tag, index) = some write.2.typeOf
  sound : ∀ event ∈ events, event.Sound heap

namespace Checked

theorem start (id : Nat) : Checked { id } [] where
  written _ _ h := by cases h
  sound _ h := by cases h

/-- A read is made as it will be checked. -/
theorem matching (checked : heap.Checked events) (indexed : heap.Indexed events)
    (refines : heap.Refines cells) (hreads : action.reads? = some (ref, index))
    (h : (perform action).run heap = (.ok answer, after)) :
    ∃ root base prior field, answer = .expr (.access base prior field) ∧
      Expr.Matching root base prior field := by
  obtain ⟨read, rfl⟩ := answer_of_reads hreads h
  obtain ⟨address, tag, history, i, ty, issued, htarget, hfind, rfl, rfl, sorted, fixed⟩ :=
    perform_reads hreads h
  refine ⟨history.root, _, _, _, rfl, ⟨?_, sorted, ?_, fun write hw => ?_⟩⟩
  · obtain ⟨found, hfound, chain, -⟩ := refines.chains ref issued address tag htarget
    rw [hfind] at hfound
    cases hfound
    exact chain
  · rw [indexed.priors, hfind]
    exact priorOf_current (indexed.chains ref issued address tag history htarget hfind) i
  · have kept := (perform_change h).keepsLayouts _ _
      (checked.written address history hfind tag i write hw)
    rw [fixed] at kept
    injection kept with kept
    exact kept.symm

/-- The types of what was written last are kept as well. -/
theorem written_after (checked : heap.Checked events) {cell : Option CellWrite}
    (change : heap.Change cell after) :
    ∀ address history, after.histories.find? address = some history →
      ∀ tag index, ∀ write ∈ history.current.writesAt tag index,
        after.layouts.find? (tag, index) = some write.2.typeOf := by
  have old : ∀ address history, heap.histories.find? address = some history →
      ∀ tag index, ∀ write ∈ history.current.writesAt tag index,
        after.layouts.find? (tag, index) = some write.2.typeOf :=
    fun address history hfind tag index write hw =>
      change.keepsLayouts _ _ (checked.written address history hfind tag index write hw)
  intro address history hfind tag index write hw
  cases change with
  | quiet untouched =>
      rw [untouched.histories] at hfind
      exact old address history hfind tag index write hw
  | handle _ _ _ _ hhist =>
      rw [hhist] at hfind
      exact old address history hfind tag index write hw
  | root _ _ _ _ _ hhist =>
      rw [hhist] at hfind
      rcases Table.find?_set_eq_some hfind with ⟨-, rfl⟩ | hfind
      · cases hw
      · exact old address history hfind tag index write hw
  | write _ _ before _ _ hhist _ _ _ fixed =>
      rw [hhist] at hfind
      rcases Table.find?_set_eq_some hfind with ⟨-, rfl⟩ | hfind
      · rw [History.current_write] at hw
        rcases Expr.mem_writesAt_assign hw with ⟨rfl, rfl, rfl⟩ | hw
        · exact fixed
        · exact old _ _ before tag index write hw
      · exact old address history hfind tag index write hw

/-- One action. -/
theorem after_action (checked : heap.Checked events) (indexed : heap.Indexed events)
    (refines : heap.Refines cells) {outcome : Except Fault Answer}
    (h : (perform action).run heap = (outcome, after)) :
    after.Checked (events ++ [(action, outcome)]) where
  written := checked.written_after (perform_change h)
  sound := by
    have keeps := (perform_change h).keepsLayouts
    refine List.forall_mem_append.2 ⟨fun event hevent => (checked.sound event hevent).mono keeps,
      List.forall_mem_singleton.2 ⟨?_, ?_, ?_⟩⟩
    · intro action' answer ref index same huses
      cases same
      obtain ⟨field, hfield, htag, hindex, -⟩ := perform_shows huses h
      exact ⟨field, by rw [Event.field?, huses]; exact hfield, htag, hindex⟩
    · intro field hfield
      unfold Event.field? at hfield
      split at hfield
      next action' answer same =>
        cases same
        split at hfield
        next uses =>
          obtain ⟨⟨ref, index⟩, huses⟩ := Option.isSome_iff_exists.1 uses
          obtain ⟨found, hfound, -, -, fixed⟩ := perform_shows huses h
          rw [hfield] at hfound
          cases hfound
          exact fixed
        next => cases hfield
      next => cases hfield
    · intro action' answer ref index same hreads
      cases same
      exact checked.matching indexed refines hreads h

end Checked

theorem afterActions_checked (id : Nat) (actions : List Action) :
    (afterActions { id } actions).Checked (Heap.events { id } actions) := by
  refine (afterActions_induction
    (motive := fun heap past => ((∃ cells, heap.Refines cells) ∧ heap.Indexed past) ∧
      heap.Checked past) id actions ⟨⟨⟨_, Refines.start id⟩, .start id⟩, .start id⟩ ?_).2
  rintro heap after past action answer ⟨⟨⟨cells, refines⟩, indexed⟩, checked⟩ h
  exact ⟨⟨⟨_, refines.change (perform_change h)⟩, indexed.after_action refines h⟩,
    checked.after_action indexed refines h⟩

/-- Whatever a heap has been used for: every answer to a read passes the
checks of a lowering, so that any lowering at any time refuses it over a
name or a written value only; and all that was ever read from or written
to a field of a tag has one type. -/
theorem reads_pass {μ : Type} [Memo μ] (id : Nat) (actions : List Action) :
    let events := Heap.events { id } actions
    (∀ action answer ref index, (action, .ok answer) ∈ events →
      action.reads? = some (ref, index) →
      ∃ root base prior field, answer = .expr (.access base prior field) ∧
        Expr.Matching root base prior field ∧
        ∀ (calls : List Call) fault,
          ((lowered (.access base prior field)).run (afterAll ({} : With μ) calls)).1
            = .error fault →
          ReadRefused (afterAll ({} : With μ) calls) root base field fault) ∧
    (∀ action answer ref index, (action, .ok answer) ∈ events →
      action.uses? = some (ref, index) →
      ∃ field, Event.field? (action, .ok answer) = some field ∧
        ref.tag? = some field.tag ∧ index = .int field.index) ∧
    ∀ event ∈ events, ∀ other ∈ events, ∀ field field', event.field? = some field →
      other.field? = some field' → field.tag = field'.tag → field.index = field'.index →
      field.ty = field'.ty := by
  intro events
  have checked := afterActions_checked id actions
  refine ⟨?_, ?_, ?_⟩
  · intro action answer ref index hevent hreads
    obtain ⟨root, base, prior, field, rfl, matching⟩ :=
      (checked.sound _ hevent).matching _ _ _ _ rfl hreads
    exact ⟨root, base, prior, field, rfl, matching, fun calls fault h =>
      lowered_read_eq_error (faithful_afterAll calls) matching h⟩
  · intro action answer ref index hevent huses
    exact (checked.sound _ hevent).named _ _ _ _ rfl huses
  · intro event hevent other hother field field' hfield hfield' htag hindex
    have typed := (checked.sound _ hevent).typed field hfield
    have typed' := (checked.sound _ hother).typed field' hfield'
    rw [htag, hindex, typed'] at typed
    injection typed with same
    exact same.symm

/-- A read, through a second handle, of a field that was written twice. -/
theorem reads_pass_alias :
    let first : Ref := ⟨1, 0, .object 1 "T"⟩
    let second : Ref := ⟨1, 1, .object 1 "T"⟩
    let events := Heap.events { id := 1 } [.allocate .object (some "T") (some "o"),
      .share first, .writeField first (.int 0) (.int 5), .writeField first (.int 0) (.int 6),
      .readField second (.int 0) .int]
    ∃ answer root base prior field,
      (.readField second (.int 0) .int, .ok answer) ∈ events ∧
      answer = .expr (.access base prior field) ∧ Expr.Matching root base prior field := by
  intro first second events
  have hmem : (.readField second (.int 0) .int, .ok _) ∈ events :=
    List.mem_of_getElem? (show events[4]? = _ from rfl)
  obtain ⟨root, base, prior, field, hread, matching, -⟩ :=
    (reads_pass (μ := Chains) 1 _).1 _ _ _ _ hmem rfl
  exact ⟨_, root, base, prior, field, hmem, hread, matching⟩

/-- A heap takes any name for an object, also one that is a surrogate.
A lowering in which no name was given away yet refuses the read of a field
that was never written. -/
theorem surrogate_root_refused :
    let name := Text.ofPoints [0xd800]
    let handle : Ref := ⟨1, 0, .object 1 "T"⟩
    let read : Expr := .access (.var name .object) none ⟨"T", 0, .int⟩
    Heap.events { id := 1 } [.allocate .object (some "T") (some name),
        .readField handle (.int 0) .int]
      = [(.allocate .object (some "T") (some name), .ok (.handle handle)),
        (.readField handle (.int 0) .int, .ok (.expr read))] ∧
    (Expr.var name .object).writesAt "T" 0 = [] ∧
    ((lowered read).run ({} : Lowering)).1 = .error (.unencodable (name ++ "!id")) :=
  ⟨by rfl, rfl, by rfl⟩

end Heap
end SymbolicHeap
