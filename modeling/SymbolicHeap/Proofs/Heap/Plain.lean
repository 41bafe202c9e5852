/-
The plain heap that a symbolic heap stands for.

A plain heap is a table of cells that are overwritten in place: what a
write leaves behind is there until the next write to the same cell.  Along
any run, each history of the symbolic heap is a chain of writes over its
root, and the newest of them to a field is what the plain heap has in that
cell (`Refines`).  Writes through other handles, to other fields, and to
other objects of the same tag do not get in between, since each address
has a chain of its own.
-/
import SymbolicHeap.Proofs.Heap.Step

namespace SymbolicHeap

-- ================================================================= chains

/-- The value written last to a field of a tag, below which the state
holds what the root does. -/
def Expr.lastWrite (tag : String) (index : Nat) : Expr → Option Expr
  | .assign base i value t =>
      if i = index ∧ t = tag then some value else lastWrite tag index base
  | _ => none

/-- A chain of writes to an object of a tag, down to its root. -/
inductive Expr.StoreChain (root tag : String) : Expr → Prop
  | root : StoreChain root tag (.var root .object)
  | write {base : Expr} (index : Nat) (value : Expr) : StoreChain root tag base →
      StoreChain root tag (.assign base index value tag)

namespace Heap

-- ========================================================= the plain heap

/-- What has been written to each field of each address. -/
abbrev Cells := Nat → Nat → Option Expr

/-- Overwrites a cell. -/
def Cells.write (cells : Cells) : Option CellWrite → Cells
  | none => cells
  | some written => fun address index =>
      if address = written.address ∧ index = written.index then some written.value
      else cells address index

/-- A symbolic heap beside the plain heap that it stands for. -/
structure Tracked where
  heap : Heap
  cells : Cells := fun _ _ => none

/-- One action on both heaps. -/
def Tracked.after (tracked : Tracked) (action : Action) : Tracked :=
  let (answer, heap) := (perform action).run tracked.heap
  ⟨heap, tracked.cells.write (action.write? answer)⟩

/-- Several actions on both heaps, from empty ones. -/
def Tracked.afterAll (id : Nat) (actions : List Action) : Tracked :=
  actions.foldl Tracked.after ⟨{ id }, fun _ _ => none⟩

-- ========================================================== the invariant

/-- A symbolic heap holds what a plain heap does. -/
structure Refines (heap : Heap) (cells : Cells) : Prop where
  /-- Addresses are taken in order. -/
  fresh : ∀ address history,
    heap.histories.find? address = some history → address < heap.nextAddress
  /-- Behind each handle is a chain of writes, with the last write to each
  field in its cell. -/
  chains : ∀ ref ∈ heap.refs, ∀ address tag, ref.target? = some (address, tag) →
    ∃ history, heap.histories.find? address = some history ∧
      history.current.StoreChain history.root tag ∧
      ∀ index, cells address index = history.current.lastWrite tag index
  /-- Handles on one address agree on the tag. -/
  tags : ∀ ref ∈ heap.refs, ∀ other ∈ heap.refs, ∀ address tag tag',
    ref.target? = some (address, tag) → other.target? = some (address, tag') → tag = tag'
  /-- Where nothing is allocated, nothing is written. -/
  blank : ∀ address, heap.histories.find? address = none → ∀ index, cells address index = none
  /-- No two roots share a name. -/
  names : (heap.histories.values.map History.root).Nodup

namespace Refines

variable {heap after : Heap} {cells : Cells}

theorem start (id : Nat) : Refines { id } fun _ _ => none where
  fresh _ _ h := by cases h
  chains _ h := by cases h
  tags _ h := by cases h
  blank _ _ _ := rfl
  names := List.nodup_nil

theorem quiet (refines : heap.Refines cells) (h : heap.Untouched after) :
    after.Refines cells where
  fresh address history hfind := by
    rw [h.histories] at hfind
    exact Nat.lt_of_lt_of_le (refines.fresh address history hfind) h.nextAddress
  chains := by
    rw [h.refs, h.histories]
    exact refines.chains
  tags := by
    rw [h.refs]
    exact refines.tags
  blank := by
    rw [h.histories]
    exact refines.blank
  names := by
    rw [h.histories]
    exact refines.names

/-- A second handle on a place sees what the first one does. -/
theorem handle {ref : Ref} (refines : heap.Refines cells)
    (hknown : ∀ address, ref.address? = some address →
      ∃ known ∈ heap.refs, known.place = ref.place)
    (hrefs : after.refs = ref :: heap.refs) (hhist : after.histories = heap.histories)
    (hnext : heap.nextAddress ≤ after.nextAddress) : after.Refines cells := by
  -- whatever is asked of the new handle is asked of one known before
  have known : ∀ other ∈ after.refs, ∀ target, other.target? = some target →
      ∃ old ∈ heap.refs, old.target? = some target := by
    intro other hother target htarget
    rw [hrefs] at hother
    rcases List.mem_cons.1 hother with rfl | hother
    · obtain ⟨old, hold, same⟩ := hknown _ (address?_of_target? htarget)
      exact ⟨old, hold, by rw [← htarget, Ref.target?, Ref.target?, same]⟩
    · exact ⟨other, hother, htarget⟩
  refine ⟨?_, ?_, ?_, ?_, ?_⟩
  · intro address history hfind
    rw [hhist] at hfind
    exact Nat.lt_of_lt_of_le (refines.fresh address history hfind) hnext
  · intro other hother address tag htarget
    obtain ⟨old, hold, htarget⟩ := known other hother _ htarget
    rw [hhist]
    exact refines.chains old hold address tag htarget
  · intro r hr s hs address tag tag' hrt hst
    obtain ⟨old, hold, hrt⟩ := known r hr _ hrt
    obtain ⟨old', hold', hst⟩ := known s hs _ hst
    exact refines.tags old hold old' hold' address tag tag' hrt hst
  · rw [hhist]
    exact refines.blank
  · rw [hhist]
    exact refines.names

/-- No handle points at an address that is not taken yet. -/
theorem ne_nextAddress (refines : heap.Refines cells) {ref : Ref} (issued : ref ∈ heap.refs)
    {address : Nat} {tag : String} (htarget : ref.target? = some (address, tag)) :
    address ≠ heap.nextAddress := by
  obtain ⟨history, hfind, -⟩ := refines.chains ref issued address tag htarget
  exact Nat.ne_of_lt (refines.fresh address history hfind)

theorem find?_nextAddress (refines : heap.Refines cells) :
    heap.histories.find? heap.nextAddress = none := by
  cases hfind : heap.histories.find? heap.nextAddress with
  | none => rfl
  | some history => exact absurd (refines.fresh _ _ hfind) (Nat.lt_irrefl _)

/-- A handle on a new address has no other to agree with. -/
theorem tags_cons {ref : Ref} {tag : String} (refines : heap.Refines cells)
    (htarget : ref.target? = some (heap.nextAddress, tag)) :
    ∀ r ∈ ref :: heap.refs, ∀ s ∈ ref :: heap.refs, ∀ address t t',
      r.target? = some (address, t) → s.target? = some (address, t') → t = t' := by
  have mixed : ∀ other ∈ heap.refs, ∀ address t t', ref.target? = some (address, t) →
      other.target? = some (address, t') → t = t' := by
    intro other hother address t t' hrt hot
    rw [htarget] at hrt
    injection hrt with hrt
    injection hrt with ha
    exact absurd ha.symm (refines.ne_nextAddress hother hot)
  intro r hr s hs address t t' hrt hst
  rcases List.mem_cons.1 hr with rfl | hr'
  · rcases List.mem_cons.1 hs with rfl | hs'
    · rw [hrt] at hst
      injection hst with hst
      injection hst
    · exact mixed s hs' address t t' hrt hst
  · rcases List.mem_cons.1 hs with rfl | hs'
    · exact (mixed r hr' address t' t hst hrt).symm
    · exact refines.tags r hr' s hs' address t t' hrt hst

/-- A new address has a root of its own, and nothing written to it. -/
theorem root {ref : Ref} {tag root : String} (refines : heap.Refines cells)
    (htarget : ref.target? = some (heap.nextAddress, tag))
    (free : root ∉ heap.histories.values.map History.root)
    (hrefs : after.refs = ref :: heap.refs)
    (hhist : after.histories = heap.histories.set heap.nextAddress { root })
    (hnext : heap.nextAddress < after.nextAddress) : after.Refines cells := by
  have new := refines.find?_nextAddress
  refine ⟨?_, ?_, ?_, ?_, ?_⟩
  · intro address history hfind
    rw [hhist] at hfind
    rcases Table.find?_set_eq_some hfind with ⟨rfl, -⟩ | hfind
    · exact hnext
    · exact Nat.lt_trans (refines.fresh address history hfind) hnext
  · intro other hother address tag' hother'
    rw [hrefs] at hother
    rw [hhist]
    rcases List.mem_cons.1 hother with rfl | hother
    · rw [htarget] at hother'
      injection hother' with hother'
      injection hother' with ha ht
      subst ha ht
      refine ⟨{ root }, Table.find?_set_self _ _ _, .root, fun index => ?_⟩
      rw [refines.blank _ new]
      rfl
    · obtain ⟨history, hfind, hchain, hcells⟩ := refines.chains other hother address tag' hother'
      exact ⟨history, Table.find?_set_of_find?_eq_none new hfind, hchain, hcells⟩
  · rw [hrefs]
    exact refines.tags_cons htarget
  · intro address hfind
    rw [hhist] at hfind
    by_cases here : address = heap.nextAddress
    · rw [here, Table.find?_set_self] at hfind
      cases hfind
    · rw [Table.find?_set_of_ne _ _ here] at hfind
      exact refines.blank address hfind
  · rw [hhist, Table.values_set_of_find?_eq_none _ new, List.map_append]
    refine List.nodup_append.2 ⟨refines.names, by simp, ?_⟩
    intro name hname other hother same
    have hother : other = root := by simpa using hother
    rw [same, hother] at hname
    exact free hname

/-- A write changes its own cell and no other. -/
theorem write {ref : Ref} {address index : Nat} {tag : String} {value : Expr}
    {history : History} (refines : heap.Refines cells) (issued : ref ∈ heap.refs)
    (htarget : ref.target? = some (address, tag))
    (hfind : heap.histories.find? address = some history) (hrefs : after.refs = heap.refs)
    (hhist : after.histories = heap.histories.set address
      (history.write (.assign history.current index value tag)))
    (hnext : heap.nextAddress ≤ after.nextAddress) :
    after.Refines (cells.write (some ⟨address, index, value⟩)) := by
  obtain ⟨found, hfound, hchain, hcells⟩ := refines.chains ref issued address tag htarget
  rw [hfind] at hfound
  injection hfound with hfound
  subst hfound
  refine ⟨?_, ?_, ?_, ?_, ?_⟩
  · intro other history' hother
    rw [hhist] at hother
    rcases Table.find?_set_eq_some hother with ⟨rfl, -⟩ | hother
    · exact Nat.lt_of_lt_of_le (refines.fresh _ _ hfind) hnext
    · exact Nat.lt_of_lt_of_le (refines.fresh other history' hother) hnext
  · intro other hother address' tag' hother'
    rw [hrefs] at hother
    rw [hhist]
    by_cases here : address' = address
    · subst here
      have same := refines.tags other hother ref issued address' tag' tag hother' htarget
      subst same
      refine ⟨_, Table.find?_set_self _ _ _, .write index value hchain, fun i => ?_⟩
      show (if address' = address' ∧ i = index then some value else cells address' i)
        = if index = i ∧ tag' = tag' then some value else history.current.lastWrite tag' i
      rw [hcells]
      by_cases hi : i = index
      · simp [hi]
      · simp [hi, Ne.symm hi]
    · obtain ⟨history', hfind', hchain', hcells'⟩ :=
        refines.chains other hother address' tag' hother'
      refine ⟨history', ?_, hchain', fun i => ?_⟩
      · rw [Table.find?_set_of_ne _ _ here]
        exact hfind'
      · show (if address' = address ∧ i = index then some value else cells address' i) = _
        rw [if_neg (fun both => here both.1), hcells']
  · rw [hrefs]
    exact refines.tags
  · intro other hother i
    rw [hhist] at hother
    have there : other ≠ address := by
      intro same
      rw [same, Table.find?_set_self] at hother
      cases hother
    rw [Table.find?_set_of_ne _ _ there] at hother
    show (if other = address ∧ i = index then some value else cells other i) = none
    rw [if_neg (fun both => there both.1), refines.blank other hother]
  · have same : (history.write (.assign history.current index value tag)).root = history.root :=
      rfl
    rw [hhist, Table.map_values_set History.root hfind same]
    exact refines.names

/-- Whatever an action does, the heaps go on agreeing. -/
theorem change {cell : Option CellWrite} (refines : heap.Refines cells)
    (h : heap.Change cell after) : after.Refines (cells.write cell) := by
  cases h with
  | quiet untouched => exact refines.quiet untouched
  | handle _ hknown _ hrefs hhist hnext => exact refines.handle hknown hrefs hhist hnext
  | root _ htarget free _ hrefs hhist hnext => exact refines.root htarget free hrefs hhist hnext
  | write issued htarget hfind _ hrefs hhist hnext =>
      exact refines.write issued htarget hfind hrefs hhist hnext

end Refines

/-- One action. -/
theorem Tracked.after_refines {tracked : Tracked} (h : tracked.heap.Refines tracked.cells)
    (action : Action) : (tracked.after action).heap.Refines (tracked.after action).cells :=
  h.change (perform_change rfl)

/-- Any run of a heap is that of a plain heap. -/
theorem Tracked.afterAll_refines (id : Nat) (actions : List Action) :
    (Tracked.afterAll id actions).heap.Refines (Tracked.afterAll id actions).cells := by
  suffices h : ∀ tracked : Tracked, tracked.heap.Refines tracked.cells →
      (actions.foldl Tracked.after tracked).heap.Refines
        (actions.foldl Tracked.after tracked).cells from h _ (Refines.start id)
  induction actions with
  | nil => exact fun _ h => h
  | cons action rest ih => exact fun tracked h => ih _ (after_refines h action)

end Heap

end SymbolicHeap
