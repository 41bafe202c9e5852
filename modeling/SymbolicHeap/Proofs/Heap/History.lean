/-
The shape of a heap.

A heap keeps one thing in several places: the handles know their address
and tag, the histories the states of each address, and the prior states
are an index over the histories.  Along any run these stay in step
(`WellShaped`), whichever of the actions are refused.  Every history is a
chain from its root, with one state for each write that went through; the
index names, for each field, the state below the newest write to it.

An action adds to histories and takes nothing away, and it adds only to
the history of the address that it writes (`Extends`).
-/
import Mathlib.Data.List.Chain
import Mathlib.Data.List.Nodup
import SymbolicHeap.Proofs.Heap.Plain

namespace SymbolicHeap

-- =============================================================== one history

/-- A state that one write under a tag makes of the one before it. -/
def Expr.Follows (tag : String) (before state : Expr) : Prop :=
  ∃ index value, state = .assign before index value tag

namespace History

/-- What the newest write to a field was made on. -/
def priorTo (history : History) (index : Nat) : Option Expr :=
  history.later.findSome? fun
    | .assign base i _ _ => if i = index then some base else none
    | _ => none

@[simp]
theorem states_write (history : History) (state : Expr) :
    (history.write state).states = history.states ++ [state] := by
  simp [states, write, rootState]

/-- The newest state is the last one. -/
theorem getLast?_states (history : History) :
    history.states.getLast? = some history.current := by
  obtain ⟨root, later⟩ := history
  cases later with
  | nil => rfl
  | cons state later => simp [states, current, List.getLast?_cons]

@[simp]
theorem current_write (history : History) (state : Expr) :
    (history.write state).current = state := rfl

theorem priorTo_write (history : History) (base value : Expr) (index other : Nat)
    (tag : String) :
    (history.write (.assign base index value tag)).priorTo other =
      if index = other then some base else history.priorTo other := by
  by_cases here : index = other
  · simp [priorTo, write, here]
  · simp [priorTo, write, here]

/-- Nothing is below a write that was never made. -/
theorem priorTo_eq_none {history : History} {index : Nat} :
    history.priorTo index = none ↔
      ∀ base value tag, .assign base index value tag ∉ history.states := by
  rw [priorTo, List.findSome?_eq_none_iff]
  constructor
  · intro silent base value tag hmem
    have later : .assign base index value tag ∈ history.later := by
      simpa [states, rootState] using hmem
    simpa using silent _ later
  · intro never state hstate
    have known : state ∈ history.states := by simp [states, hstate]
    split
    next base i value tag =>
      refine if_neg fun here => never base value tag ?_
      rw [← here]
      exact known
    next => rfl

/-- A state more keeps the chain, if it is a write to the newest. -/
theorem isChain_write {history : History} {tag : String}
    (chain : history.states.IsChain (Expr.Follows tag)) (index : Nat) (value : Expr) :
    (history.write (.assign history.current index value tag)).states.IsChain
      (Expr.Follows tag) := by
  rw [states_write, List.isChain_append]
  refine ⟨chain, .singleton _, ?_⟩
  intro last hlast state hstate
  rw [getLast?_states] at hlast
  cases hlast
  cases hstate
  exact ⟨index, value, rfl⟩

/-- Every state on a chain has the root of the first. -/
theorem root?_of_isChain {tag root : String} {first : Expr} {rest : List Expr}
    (chain : (first :: rest).IsChain (Expr.Follows tag)) (h : first.root? = some root) :
    ∀ state ∈ first :: rest, state.root? = some root := by
  induction rest generalizing first with
  | nil =>
      intro state hstate
      rw [List.mem_singleton.1 hstate]
      exact h
  | cons second rest ih =>
      obtain ⟨⟨index, value, rfl⟩, chain⟩ := List.isChain_cons_cons.1 chain
      refine List.forall_mem_cons.2 ⟨h, ih chain ?_⟩
      -- a write has the bottom of what it is made on
      exact h

end History

namespace Heap

-- ==================================================================== runs

/-- An action of a run, and what was answered. -/
abbrev Event := Action × Except Fault Answer

/-- What happens when actions are performed one after the other; a refusal
does not end the run. -/
def events (heap : Heap) : List Action → List Event
  | [] => []
  | action :: rest => (action, ((perform action).run heap).1) :: events (after heap action) rest

/-- The heap after several actions. -/
def afterActions (heap : Heap) (actions : List Action) : Heap :=
  actions.foldl after heap

/-- Events are those of the actions of the run. -/
theorem action_mem_of_mem_events {heap : Heap} {actions : List Action} {event : Event}
    (h : event ∈ events heap actions) : event.1 ∈ actions := by
  induction actions generalizing heap with
  | nil => cases h
  | cons action rest ih =>
      rcases List.mem_cons.1 h with rfl | h
      · exact List.mem_cons_self
      · exact List.mem_cons_of_mem _ (ih h)

/-- Every event is the answer of some heap. -/
theorem exists_run_of_mem_events {heap : Heap} {actions : List Action} {event : Event}
    (h : event ∈ events heap actions) :
    ∃ before after : Heap, (perform event.1).run before = (event.2, after) := by
  induction actions generalizing heap with
  | nil => cases h
  | cons action rest ih =>
      rcases List.mem_cons.1 h with rfl | h
      · exact ⟨heap, _, rfl⟩
      · exact ih h

/-- Whether an event is a write that went through, to an address. -/
def Event.writesTo (address : Nat) : Event → Bool
  | (.writeField ref _ _, .ok _) | (.writeElement ref _ _, .ok _) => ref.address? = some address
  | _ => false

/-- The writes that went through are those that leave a value in a cell. -/
theorem writesTo_iff {heap after : Heap} {action : Action} {answer : Except Fault Answer}
    (h : (perform action).run heap = (answer, after)) (address : Nat) :
    Event.writesTo address (action, answer) = true ↔
      ∃ written, action.write? answer = some written ∧ written.address = address := by
  have cell : ∀ {ref : Ref} {index : Datum} {value state : Expr} {heap' : Heap},
      (writeField ref index value).run heap' = (.ok state, after) →
      (ref.address? = some address ↔
        ∃ written, cellWrite? ref index value = some written ∧ written.address = address) := by
    intro ref index value state heap' hwrite
    obtain ⟨found, tag, history, i, -, htarget, -, rfl, short, -⟩ := writeField_eq_ok hwrite
    rw [cellWrite?_of_short (address?_of_target? htarget) short, address?_of_target? htarget]
    simp
  cases action with
  | writeField ref index value =>
      cases answer with
      | error fault => simp [Event.writesTo, Action.write?]
      | ok answer =>
          obtain ⟨state, hwrite, -⟩ := run_map_eq_ok.1 h
          simpa [Event.writesTo, Action.write?] using cell hwrite
  | writeElement ref index value =>
      cases answer with
      | error fault => simp [Event.writesTo, Action.write?]
      | ok answer =>
          obtain ⟨state, hwrite, -⟩ := run_map_eq_ok.1 h
          simpa [Event.writesTo, Action.write?] using cell (writeElement_eq_ok hwrite)
  | _ => simp [Event.writesTo, Action.write?]

-- ========================================================== the invariant

/-- The number of writes to an address that went through. -/
def writeCount (address : Nat) (events : List Event) : Nat :=
  (events.filter (Event.writesTo address)).length

/-- What a heap keeps of the events so far, beyond what the plain heap
tells. -/
structure Indexed (heap : Heap) (events : List Event) : Prop where
  /-- No address has two histories. -/
  addresses : heap.histories.keys.Nodup
  /-- All handles are of this heap. -/
  issued : ∀ ref ∈ heap.refs, ref.heap = heap.id
  /-- Handles on one address are handles on the same place: they agree on
  kind, tag and element type. -/
  places : ∀ ref ∈ heap.refs, ∀ other ∈ heap.refs, ∀ address,
    ref.address? = some address → other.address? = some address → ref.place = other.place
  /-- Every address has a handle. -/
  handled : ∀ address history, heap.histories.find? address = some history →
    ∃ ref ∈ heap.refs, ref.address? = some address
  /-- Each state is a write to the one before it, under the tag of the
  address. -/
  chains : ∀ ref ∈ heap.refs, ∀ address tag history, ref.target? = some (address, tag) →
    heap.histories.find? address = some history → history.states.IsChain (Expr.Follows tag)
  /-- There is one state for each write. -/
  versions : ∀ address,
    ((heap.histories.find? address).map History.version).getD 0 = writeCount address events
  /-- The prior states are those below the newest writes. -/
  priors : ∀ address index, heap.priors.find? (address, index) =
    (heap.histories.find? address).bind (·.priorTo index)

theorem writeCount_append (address : Nat) (events : List Event) (event : Event) :
    writeCount address (events ++ [event]) =
      writeCount address events + if event.writesTo address then 1 else 0 := by
  unfold writeCount
  rw [List.filter_append, List.length_append]
  by_cases h : event.writesTo address = true
  · simp [h]
  · simp [h]

namespace Indexed

variable {heap after : Heap} {events : List Event} {cells : Cells}

theorem start (id : Nat) : Indexed { id } [] where
  addresses := List.nodup_nil
  issued _ h := by cases h
  places _ h := by cases h
  handled _ _ h := by cases h
  chains _ h := by cases h
  versions _ := rfl
  priors _ _ := rfl

theorem quiet (indexed : heap.Indexed events) (h : heap.Untouched after) {event : Event}
    (silent : ∀ address, event.writesTo address = false) :
    after.Indexed (events ++ [event]) where
  addresses := by
    rw [h.histories]
    exact indexed.addresses
  issued := by
    rw [h.refs, h.id]
    exact indexed.issued
  places := by
    rw [h.refs]
    exact indexed.places
  handled := by
    rw [h.refs, h.histories]
    exact indexed.handled
  chains := by
    rw [h.refs, h.histories]
    exact indexed.chains
  versions address := by
    rw [h.histories, indexed.versions, writeCount_append, silent]
    rfl
  priors := by
    rw [h.priors, h.histories]
    exact indexed.priors

/-- A second handle on a place says what the first one does. -/
theorem handle {ref : Ref} (indexed : heap.Indexed events) (here : ref.heap = heap.id)
    (hknown : ∀ address, ref.address? = some address →
      ∃ known ∈ heap.refs, known.place = ref.place)
    (hid : after.id = heap.id) (hrefs : after.refs = ref :: heap.refs)
    (hhist : after.histories = heap.histories) (hpriors : after.priors = heap.priors)
    {event : Event} (silent : ∀ address, event.writesTo address = false) :
    after.Indexed (events ++ [event]) := by
  -- whatever is asked of the new handle is asked of one known before
  have known : ∀ other ∈ after.refs, ∀ address, other.address? = some address →
      ∃ old ∈ heap.refs, old.place = other.place := by
    intro other hother address haddress
    rw [hrefs] at hother
    rcases List.mem_cons.1 hother with rfl | hother
    · exact hknown address haddress
    · exact ⟨other, hother, rfl⟩
  refine ⟨?_, ?_, ?_, ?_, ?_, fun address => ?_, ?_⟩
  · rw [hhist]
    exact indexed.addresses
  · rw [hrefs, hid]
    exact List.forall_mem_cons.2 ⟨here, indexed.issued⟩
  · intro r hr s hs address hra hsa
    obtain ⟨old, hold, hplace⟩ := known r hr address hra
    obtain ⟨old', hold', hplace'⟩ := known s hs address hsa
    rw [← hplace, ← hplace']
    refine indexed.places old hold old' hold' address ?_ ?_
    · rw [← hra, Ref.address?, Ref.address?, hplace]
    · rw [← hsa, Ref.address?, Ref.address?, hplace']
  · intro address history hfind
    rw [hhist] at hfind
    obtain ⟨old, hold, haddress⟩ := indexed.handled address history hfind
    rw [hrefs]
    exact ⟨old, List.mem_cons_of_mem _ hold, haddress⟩
  · intro r hr address tag history htarget hfind
    rw [hhist] at hfind
    obtain ⟨old, hold, hplace⟩ := known r hr address (address?_of_target? htarget)
    refine indexed.chains old hold address tag history ?_ hfind
    rw [← htarget, Ref.target?, Ref.target?, hplace]
  · rw [hhist, indexed.versions, writeCount_append, silent]
    rfl
  · rw [hpriors, hhist]
    exact indexed.priors

/-- A new address has one handle, one state, and no prior states. -/
theorem root {ref : Ref} {tag root : String} (indexed : heap.Indexed events)
    (refines : heap.Refines cells) (here : ref.heap = heap.id)
    (htarget : ref.target? = some (heap.nextAddress, tag)) (hid : after.id = heap.id)
    (hrefs : after.refs = ref :: heap.refs)
    (hhist : after.histories = heap.histories.set heap.nextAddress { root })
    (hpriors : after.priors = heap.priors) {event : Event}
    (silent : ∀ address, event.writesTo address = false) :
    after.Indexed (events ++ [event]) := by
  have new := refines.find?_nextAddress
  have haddress : ref.address? = some heap.nextAddress := address?_of_target? htarget
  -- no handle known before is on the new address
  have elsewhere : ∀ other ∈ heap.refs, other.address? ≠ some heap.nextAddress := by
    intro other hother same
    obtain ⟨tag, htag⟩ := target?_of_address? same
    exact refines.ne_nextAddress hother htag rfl
  refine ⟨?_, ?_, ?_, ?_, ?_, ?_, ?_⟩
  · rw [hhist]
    exact Table.nodup_keys_set _ _ indexed.addresses
  · rw [hrefs, hid]
    exact List.forall_mem_cons.2 ⟨here, indexed.issued⟩
  · rw [hrefs]
    intro r hr s hs address hra hsa
    rcases List.mem_cons.1 hr with rfl | hr'
    · rw [haddress] at hra
      cases hra
      rcases List.mem_cons.1 hs with rfl | hs'
      · rfl
      · exact absurd hsa (elsewhere s hs')
    · rcases List.mem_cons.1 hs with rfl | hs'
      · rw [haddress] at hsa
        cases hsa
        exact absurd hra (elsewhere r hr')
      · exact indexed.places r hr' s hs' address hra hsa
  · intro address history hfind
    rw [hhist] at hfind
    rw [hrefs]
    rcases Table.find?_set_eq_some hfind with ⟨rfl, -⟩ | hfind
    · exact ⟨ref, List.mem_cons_self, haddress⟩
    · obtain ⟨old, hold, hold'⟩ := indexed.handled address history hfind
      exact ⟨old, List.mem_cons_of_mem _ hold, hold'⟩
  · intro r hr address tag' history hr' hfind
    rw [hhist] at hfind
    rcases Table.find?_set_eq_some hfind with ⟨rfl, rfl⟩ | hfind
    · exact .singleton _
    · rw [hrefs] at hr
      rcases List.mem_cons.1 hr with rfl | hr
      · rw [address?_of_target? hr'] at haddress
        cases haddress
        rw [new] at hfind
        cases hfind
      · exact indexed.chains r hr address tag' history hr' hfind
  · intro address
    rw [writeCount_append, silent, ← indexed.versions, hhist]
    by_cases there : address = heap.nextAddress
    · subst there
      rw [Table.find?_set_self, new]
      rfl
    · rw [Table.find?_set_of_ne _ _ there]
      rfl
  · intro address index
    rw [hpriors, hhist, indexed.priors]
    by_cases there : address = heap.nextAddress
    · subst there
      rw [Table.find?_set_self, new]
      rfl
    · rw [Table.find?_set_of_ne _ _ there]

/-- A write adds one state to one history, and tells one prior state
anew. -/
theorem write {ref : Ref} {address index : Nat} {tag : String} {value : Expr}
    {history : History} (indexed : heap.Indexed events) (issued : ref ∈ heap.refs)
    (htarget : ref.target? = some (address, tag))
    (hfind : heap.histories.find? address = some history) (hid : after.id = heap.id)
    (hrefs : after.refs = heap.refs)
    (hhist : after.histories = heap.histories.set address
      (history.write (.assign history.current index value tag)))
    (hpriors : after.priors = heap.priors.set (address, index) history.current)
    {event : Event} (writes : ∀ other, event.writesTo other = true ↔ address = other) :
    after.Indexed (events ++ [event]) := by
  refine ⟨?_, ?_, ?_, ?_, ?_, ?_, ?_⟩
  · rw [hhist]
    exact Table.nodup_keys_set _ _ indexed.addresses
  · rw [hrefs, hid]
    exact indexed.issued
  · rw [hrefs]
    exact indexed.places
  · intro other history' hother
    rw [hhist] at hother
    rw [hrefs]
    rcases Table.find?_set_eq_some hother with ⟨rfl, -⟩ | hother
    · exact indexed.handled _ _ hfind
    · exact indexed.handled _ _ hother
  · intro r hr address' tag' history' hr' hfind'
    rw [hrefs] at hr
    rw [hhist] at hfind'
    by_cases here : address' = address
    · subst here
      rw [Table.find?_set_self] at hfind'
      cases hfind'
      have same := indexed.places r hr ref issued address' (address?_of_target? hr')
        (address?_of_target? htarget)
      rw [Ref.target?, same, ← Ref.target?, htarget] at hr'
      cases hr'
      exact History.isChain_write (indexed.chains ref issued _ _ _ htarget hfind) index value
    · rw [Table.find?_set_of_ne _ _ here] at hfind'
      exact indexed.chains r hr address' tag' history' hr' hfind'
  · intro other
    rw [writeCount_append, ← indexed.versions, hhist]
    by_cases here : other = address
    · subst here
      rw [Table.find?_set_self, hfind, if_pos ((writes other).2 rfl)]
      rfl
    · rw [Table.find?_set_of_ne _ _ here, if_neg fun h => here ((writes other).1 h).symm]
      rfl
  · intro other i
    rw [hpriors, hhist]
    by_cases here : other = address
    · subst here
      rw [Table.find?_set_self]
      show _ = (history.write _).priorTo i
      rw [History.priorTo_write]
      by_cases same : index = i
      · subst same
        rw [Table.find?_set_self, if_pos rfl]
      · have there : (other, i) ≠ (other, index) := fun h => same (Prod.ext_iff.1 h).2.symm
        rw [Table.find?_set_of_ne _ _ there, if_neg same, indexed.priors, hfind]
        rfl
    · have there : (other, i) ≠ (address, index) := fun h => here (Prod.ext_iff.1 h).1
      rw [Table.find?_set_of_ne _ _ there, Table.find?_set_of_ne _ _ here, indexed.priors]

/-- One action. -/
theorem after_action (indexed : heap.Indexed events) (refines : heap.Refines cells)
    {action : Action} {answer : Except Fault Answer}
    (h : (perform action).run heap = (answer, after)) :
    after.Indexed (events ++ [(action, answer)]) := by
  have writes := writesTo_iff h
  have change := perform_change h
  generalize action.write? answer = cell at writes change
  cases change with
  | quiet untouched => exact indexed.quiet untouched fun address => by simpa using writes address
  | handle here hknown hid hrefs hhist _ hpriors =>
      exact indexed.handle here hknown hid hrefs hhist hpriors fun address => by
        simpa using writes address
  | root here htarget _ hid hrefs hhist _ hpriors =>
      exact indexed.root refines here htarget hid hrefs hhist hpriors fun address => by
        simpa using writes address
  | write issued htarget hfind hid hrefs hhist _ hpriors =>
      exact indexed.write issued htarget hfind hid hrefs hhist hpriors fun other => by
        simpa using writes other

end Indexed

-- ============================================================== the result

/-- What holds of a heap after any events. -/
structure WellShaped (heap : Heap) (events : List Event) : Prop extends
    heap.Indexed events where
  /-- Addresses are taken in order. -/
  fresh : ∀ address ∈ heap.histories.keys, address < heap.nextAddress
  /-- No two addresses have roots of one name. -/
  roots : ∀ address other history history', heap.histories.find? address = some history →
    heap.histories.find? other = some history' → address ≠ other →
    history.root ≠ history'.root
  /-- The first state is the root, which all others have. -/
  rooted : ∀ address history, heap.histories.find? address = some history →
    history.states.head? = some (.var history.root .object) ∧
      ∀ state ∈ history.states, state.root? = some history.root
  /-- All handles on an address see its one history. -/
  shared : ∀ ref ∈ heap.refs, ∀ address, ref.address? = some address →
    ∃ history, heap.histories.find? address = some history ∧
      heap.historyOf? ref = some history ∧ heap.current ref = .ok history.current ∧
      heap.version ref = writeCount address events
  /-- There is no prior state exactly where nothing was written. -/
  absent : ∀ address index, heap.priors.find? (address, index) = none ↔
    ∀ history, heap.histories.find? address = some history →
      ∀ base value tag, .assign base index value tag ∉ history.states

/-- Different addresses have different roots. -/
theorem Refines.root_ne {heap : Heap} {cells : Cells} (refines : heap.Refines cells)
    {address other : Nat} {history history' : History}
    (h : heap.histories.find? address = some history)
    (h' : heap.histories.find? other = some history') (apart : address ≠ other) :
    history.root ≠ history'.root := by
  intro same
  have names : (heap.histories.entries.map fun entry => entry.2.root).Nodup := by
    have := refines.names
    rwa [Table.values, List.map_map] at this
  have entry := List.inj_on_of_nodup_map names (Table.mem_entries_of_find? h)
    (Table.mem_entries_of_find? h') same
  exact apart (Prod.ext_iff.1 entry).1

theorem Indexed.wellShaped {heap : Heap} {events : List Event} {cells : Cells}
    (indexed : heap.Indexed events) (refines : heap.Refines cells) :
    heap.WellShaped events where
  toIndexed := indexed
  fresh address hmem := by
    have known := Table.contains_iff_mem_keys.2 hmem
    obtain ⟨history, hfind⟩ := Option.isSome_iff_exists.1 known
    exact refines.fresh address history hfind
  roots _ _ _ _ h h' apart := refines.root_ne h h' apart
  rooted address history hfind := by
    obtain ⟨ref, issued, haddress⟩ := indexed.handled address history hfind
    obtain ⟨tag, htarget⟩ := target?_of_address? haddress
    refine ⟨rfl, ?_⟩
    exact History.root?_of_isChain (indexed.chains ref issued address tag history htarget hfind)
      rfl
  shared ref issued address haddress := by
    obtain ⟨tag, htarget⟩ := target?_of_address? haddress
    obtain ⟨history, hfind, -⟩ := refines.chains ref issued address tag htarget
    have found : heap.historyOf? ref = some history := by
      rw [historyOf?, haddress]
      dsimp only
      rw [if_pos (indexed.issued ref issued), hfind]
    refine ⟨history, hfind, found, ?_, ?_⟩
    · rw [current, found]
    · rw [version, found, ← indexed.versions, hfind]
  absent address index := by
    rw [indexed.priors]
    cases heap.histories.find? address with
    | none => simp
    | some history => simpa using History.priorTo_eq_none

/-- What an action adds to the histories. -/
structure Extends (before : Heap) (event : Event) (after : Heap) : Prop where
  /-- No state is taken away. -/
  grows : ∀ address history, before.histories.find? address = some history →
    ∃ history', after.histories.find? address = some history' ∧
      history.states <+: history'.states
  /-- Where nothing was written, nothing is added. -/
  still : ∀ address history, before.histories.find? address = some history →
    event.writesTo address = false → after.histories.find? address = some history
  /-- A write that went through adds one state. -/
  adds : ∀ address, event.writesTo address = true →
    ∃ history state, before.histories.find? address = some history ∧
      after.histories.find? address = some (history.write state)

/-- An address keeps its root. -/
theorem Extends.roots {before after : Heap} {event : Event} (h : before.Extends event after)
    (address : Nat) (history : History)
    (found : before.histories.find? address = some history) :
    ∃ history', after.histories.find? address = some history' ∧
      history'.root = history.root := by
  obtain ⟨history', found', states⟩ := h.grows address history found
  refine ⟨history', found', ?_⟩
  obtain ⟨more, hmore⟩ := states
  injection hmore with hroot
  injection hroot with hroot
  exact hroot.symm

/-- Histories that are found again as they were. -/
theorem Extends.of_silent {before after : Heap} {event : Event}
    (silent : ∀ address, event.writesTo address = false)
    (kept : ∀ address history, before.histories.find? address = some history →
      after.histories.find? address = some history) : before.Extends event after where
  grows address history hfind := ⟨history, kept address history hfind, List.prefix_refl _⟩
  still address history hfind _ := kept address history hfind
  adds address h := by
    rw [silent] at h
    cases h

theorem Extends.of_write {before after : Heap} {event : Event} {address : Nat}
    {history : History} {state : Expr} (hfind : before.histories.find? address = some history)
    (hhist : after.histories = before.histories.set address (history.write state))
    (writes : ∀ other, event.writesTo other = true ↔ address = other) :
    before.Extends event after where
  grows other old hold := by
    rw [hhist]
    by_cases here : other = address
    · subst here
      rw [hfind] at hold
      cases hold
      refine ⟨_, Table.find?_set_self _ _ _, ?_⟩
      rw [History.states_write]
      exact List.prefix_append _ _
    · exact ⟨old, by rw [Table.find?_set_of_ne _ _ here, hold], List.prefix_refl _⟩
  still other old hold quiet := by
    have there : other ≠ address := by
      intro here
      rw [(writes other).2 here.symm] at quiet
      cases quiet
    rw [hhist, Table.find?_set_of_ne _ _ there]
    exact hold
  adds other h := by
    obtain rfl := (writes other).1 h
    exact ⟨history, state, hfind, by rw [hhist, Table.find?_set_self]⟩

/-- One action. -/
theorem Refines.extends {heap after : Heap} {cells : Cells} (refines : heap.Refines cells)
    {action : Action} {answer : Except Fault Answer}
    (h : (perform action).run heap = (answer, after)) :
    heap.Extends (action, answer) after := by
  have writes := writesTo_iff h
  have change := perform_change h
  generalize action.write? answer = cell at writes change
  cases change with
  | quiet untouched =>
      refine .of_silent (by simpa using writes) fun address history hfind => ?_
      rw [untouched.histories]
      exact hfind
  | handle _ _ _ _ hhist =>
      refine .of_silent (by simpa using writes) fun address history hfind => ?_
      rw [hhist]
      exact hfind
  | root _ _ _ _ _ hhist =>
      refine .of_silent (by simpa using writes) fun address history hfind => ?_
      rw [hhist]
      exact Table.find?_set_of_find?_eq_none refines.find?_nextAddress hfind
  | write _ _ hfind _ _ hhist =>
      exact .of_write hfind hhist fun other => by simpa using writes other

/-- What holds of a new heap, and is kept by each action with its answer,
holds after any run. -/
theorem afterActions_induction {motive : Heap → List Event → Prop} (id : Nat)
    (actions : List Action) (start : motive { id } [])
    (step : ∀ {heap after past action answer}, motive heap past →
      (perform action).run heap = (answer, after) → motive after (past ++ [(action, answer)])) :
    motive (afterActions { id } actions) (events { id } actions) := by
  suffices h : ∀ heap past, motive heap past →
      motive (afterActions heap actions) (past ++ events heap actions) from h { id } [] start
  clear start
  induction actions with
  | nil =>
      intro heap past held
      rw [events, List.append_nil]
      exact held
  | cons action rest ih =>
      intro heap past held
      rw [events, List.append_cons]
      exact ih (after heap action) _ (step held rfl)

theorem afterActions_indexed (id : Nat) (actions : List Action) :
    (∃ cells, (afterActions { id } actions).Refines cells) ∧
      (afterActions { id } actions).Indexed (events { id } actions) := by
  refine afterActions_induction
    (motive := fun heap past => (∃ cells, heap.Refines cells) ∧ heap.Indexed past) id actions
    ⟨⟨_, Refines.start id⟩, .start id⟩ ?_
  rintro heap after past action answer ⟨⟨cells, refines⟩, indexed⟩ h
  exact ⟨⟨_, refines.change (perform_change h)⟩, indexed.after_action refines h⟩

/-- Along any run, refusals included, a heap is well shaped, and whatever
is done next adds to its histories only. -/
theorem afterActions_wellShaped (id : Nat) (actions : List Action) :
    (afterActions { id } actions).WellShaped (events { id } actions) ∧
      ∀ action, (afterActions { id } actions).Extends
        (action, ((perform action).run (afterActions { id } actions)).1)
        (after (afterActions { id } actions) action) := by
  obtain ⟨⟨cells, refines⟩, indexed⟩ := afterActions_indexed id actions
  exact ⟨indexed.wellShaped refines, fun action => refines.extends rfl⟩

/-- Two handles on one object, with a write through each; the second one
is refused, since the field holds integers. -/
theorem afterActions_wellShaped_alias :
    let first : Ref := ⟨1, 0, .object 1 "T"⟩
    let second : Ref := ⟨1, 1, .object 1 "T"⟩
    let heap := afterActions { id := 1 } [.allocate .object (some "T") (some "o"), .share first,
      .writeField first (.int 0) (.int 5), .writeField second (.int 0) (.bool true)]
    ∃ history, heap.historyOf? first = some history ∧ heap.historyOf? second = some history ∧
      heap.version second = 1 := by
  intro first second heap
  obtain ⟨shaped, -⟩ := afterActions_wellShaped 1 [.allocate .object (some "T") (some "o"),
    .share first, .writeField first (.int 0) (.int 5), .writeField second (.int 0) (.bool true)]
  have issued : first ∈ heap.refs := by decide +kernel
  have issued' : second ∈ heap.refs := by decide +kernel
  obtain ⟨history, hfind, found, -⟩ := shaped.shared first issued 1 rfl
  obtain ⟨other, hother, found', -, version⟩ := shaped.shared second issued' 1 rfl
  rw [hfind] at hother
  cases hother
  exact ⟨history, found, found', version.trans (by decide +kernel)⟩

end Heap

end SymbolicHeap
