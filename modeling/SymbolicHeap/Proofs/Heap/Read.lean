/-
What a read comes to.

A read is built against a history and lowered at any later time, by any
lowering.  Wherever it has a term, that is the term of the value which the
plain heap had in the cell when the read was built, or, if nothing was
written to the cell by then, the initial array of the field at the
identity of the root (`read_refines`).  No axiom that objects are
different is needed: the chain below a read stores and selects at one
identity throughout.
-/
import SymbolicHeap.Proofs.Heap.Plain
import SymbolicHeap.Proofs.Semantics.Lowering

namespace SymbolicHeap

namespace Lowering

-- ================================================================= chains

/-- The contents that a chain of writes leaves in a field array, at the
identity of its root. -/
structure ChainContents (root : String) (field : Field) (base : Expr) (contents identity : Term) :
    Prop where
  sorted : ∃ s, field.ty.sort = .ok s
  root : (Request.var root .object).constant = .ok identity
  /-- What was written last has been lowered on the way. -/
  written : ∀ value, base.lastWrite field.tag field.index = some value →
    value.typeOf = field.ty ∧
      (Plan.lower value).requests ⊆ (Plan.contents base field).requests ∧
      ∃ stored, (Plan.lower value).outcome = .ok stored ∧
        ∀ I : Interp, (I.eval contents).element (I.eval identity) = I.eval stored
  initial : base.lastWrite field.tag field.index = none →
    (Request.array field).constant = .ok contents

theorem chain_contents {root tag : String} {base : Expr} (chain : base.StoreChain root tag)
    {field : Field} {contents identity : Term}
    (h : (Plan.contents base field).outcome = .ok (contents, identity)) :
    ChainContents root field base contents identity := by
  induction chain generalizing contents identity with
  | root =>
      obtain ⟨initial, hinitial, h⟩ := Plan.outcome_bind_eq_ok.1 h
      obtain ⟨found, hroot, h⟩ := Plan.outcome_bind_eq_ok.1 h
      injection h with h
      injection h with hc hi
      subst hc hi
      obtain ⟨s, hs, -⟩ := constant_array_means hinitial
      refine ⟨⟨s, hs⟩, hroot, fun _ h => ?_, fun _ => hinitial⟩
      cases h
  | @write base index value _ ih =>
      rw [Plan.contents_assign] at h
      obtain ⟨below, hbelow, hwritten⟩ := Plan.written_eq_ok h
      obtain ⟨sorted, hroot, hlast, hinitial⟩ := ih hbelow
      cases writes : field.isAt index tag with
      | true =>
          rw [writes, if_pos rfl] at hwritten
          obtain ⟨held, stored, hstored, rfl⟩ := hwritten
          have here : index = field.index ∧ tag = field.tag := by
            simpa [Field.isAt] using writes
          have hlast' : (Expr.assign base index value tag).lastWrite field.tag field.index
              = some value := if_pos here
          refine ⟨sorted, hroot, fun other hother => ?_, fun hnone => ?_⟩
          · rw [hlast'] at hother
            injection hother with hother
            subst hother
            refine ⟨held, ?_, stored, hstored, fun I => ?_⟩
            · rw [writes] at h
              rw [Plan.contents_assign, writes]
              exact Plan.value_requests_written h
            · rw [Interp.eval_store, Value.element_update]
          · rw [hlast'] at hnone
            cases hnone
      | false =>
          rw [writes, if_neg Bool.false_ne_true] at hwritten
          subst hwritten
          have there : ¬ (index = field.index ∧ tag = field.tag) := by
            simpa [Field.isAt] using writes
          have hlast' : (Expr.assign base index value tag).lastWrite field.tag field.index
              = base.lastWrite field.tag field.index := if_neg there
          refine ⟨sorted, hroot, fun other hother => ?_, fun hnone => ?_⟩
          · rw [hlast'] at hother
            obtain ⟨hty, hsub, stored, hstored, hvalue⟩ := hlast other hother
            refine ⟨hty, ?_, stored, hstored, hvalue⟩
            rw [Plan.contents_assign]
            exact List.Subset.trans hsub (Plan.subset_requests_bind _ _)
          · rw [hlast'] at hnone
            exact hinitial hnone

-- ================================================================== reads

theorem requests_lowered_of_sort {e : Expr} {s : Srt} (hs : e.typeOf.sort = .ok s) {t : Term}
    (ht : (Plan.lower e).outcome = .ok t) :
    (Plan.lowered e).requests = (Plan.lower e).requests ∧
      (Plan.lowered e).outcome = .ok (.term t) := by
  rw [plan_lowered_of_sort hs, Plan.requests_bind ht]
  exact ⟨List.append_nil _, Plan.outcome_bind_eq_ok.2 ⟨t, ht, rfl⟩⟩

/-- The contents that a read selects from are asked for by the read. -/
theorem requests_access {base : Expr} {prior : Option Expr} {field : Field} {t : Term}
    (h : (Plan.lower (.access base prior field)).outcome = .ok t) :
    (Plan.contents base field).requests ⊆ (Plan.lower (.access base prior field)).requests := by
  rw [Plan.lower_access] at h ⊢
  split at h
  next =>
    obtain ⟨_, h, -⟩ := Plan.outcome_bind_eq_ok.1 h
    cases h
  next matching =>
    rw [if_neg matching]
    exact Plan.subset_requests_bind _ _

/-- What a faithful lowering makes of something that it has lowered before
as a part: the term of the plan, and nothing new. -/
theorem lowered_of_has {μ : Type} [Memo μ] {lowering : With μ} (faithful : Faithful lowering)
    {e : Expr} (has : ∀ request ∈ (Plan.lowered e).requests, lowering.symbols.Has request) :
    ((lowered e).run lowering).1 = (Plan.lowered e).outcome ∧
      ((lowered e).run lowering).2.symbols = lowering.symbols := by
  obtain ⟨hout, hsym, -⟩ := lowered_runsAs e lowering faithful
  rw [Plan.run_of_has has] at hout hsym
  exact ⟨hout, hsym⟩

end Lowering

namespace Heap

open Lowering

/-- The handle and the index that an action reads at. -/
def Action.reads? : Action → Option (Ref × Datum)
  | .readField ref index _ | .readElement ref index _ => some (ref, index)
  | _ => none

/-- A read, of a field or of an element, is made against the newest state
of an address, with the prior state that is kept for the field, at the
type that the field has from then on. -/
theorem perform_reads {heap after : Heap} {action : Action} {ref : Ref} {index : Datum}
    {read : Expr} (hreads : action.reads? = some (ref, index))
    (h : (perform action).run heap = (.ok (.expr read), after)) :
    ∃ address tag history, ∃ i : Nat, ∃ ty, ref ∈ heap.refs ∧
      ref.target? = some (address, tag) ∧ heap.histories.find? address = some history ∧
      index = .int i ∧
      read = .access history.current (heap.priors.find? (address, i)) ⟨tag, i, ty⟩ ∧
      ty.hasSort = true ∧ after.layouts.find? (tag, i) = some ty := by
  cases action with
  | readField ref' index' ty =>
      injection hreads with hreads
      injection hreads with hr hi
      subst hr hi
      obtain ⟨found, hfound, hsame⟩ := run_map_eq_ok.1 h
      injection hsame with hsame
      subst hsame
      obtain ⟨address, tag, history, i, h⟩ := readField_eq_ok hfound
      exact ⟨address, tag, history, i, ty, h⟩
  | readElement ref' index' ty =>
      injection hreads with hreads
      injection hreads with hr hi
      subst hr hi
      obtain ⟨found, hfound, hsame⟩ := run_map_eq_ok.1 h
      injection hsame with hsame
      subst hsame
      obtain ⟨element, hfield⟩ := readElement_eq_ok hfound
      obtain ⟨address, tag, history, i, h⟩ := readField_eq_ok hfield
      exact ⟨address, tag, history, i, element, h⟩
  | _ => cases hreads

theorem perform_read {heap after : Heap} {action : Action} {ref : Ref} {index : Datum}
    {read : Expr} (hreads : action.reads? = some (ref, index))
    (h : (perform action).run heap = (.ok (.expr read), after)) :
    ∃ address tag history prior, ∃ i : Nat, ∃ ty, ref ∈ heap.refs ∧
      ref.target? = some (address, tag) ∧ heap.histories.find? address = some history ∧
      index = .int i ∧ read = .access history.current prior ⟨tag, i, ty⟩ := by
  obtain ⟨address, tag, history, i, ty, issued, htarget, hfind, hindex, hread, -⟩ :=
    perform_reads hreads h
  exact ⟨address, tag, history, _, i, ty, issued, htarget, hfind, hindex, hread⟩

/-- Whatever a heap and a lowering have been used for, a read comes to the
value last written to its cell, or to what the field starts with. -/
theorem read_refines {μ : Type} [Memo μ] (id : Nat) (actions : List Action) (action : Action)
    {ref : Ref} {index : Datum} (hreads : action.reads? = some (ref, index)) {read : Expr}
    {after : Heap}
    (hread : (perform action).run (Tracked.afterAll id actions).heap = (.ok (.expr read), after))
    (calls : List Call) {found : Lowered} {lowering : With μ}
    (h : (lowered read).run (afterAll ({} : With μ) calls) = (.ok found, lowering)) :
    ∃ address tag history, ∃ i : Nat, ∃ t, ref.target? = some (address, tag) ∧
      (Tracked.afterAll id actions).heap.histories.find? address = some history ∧
      index = .int i ∧ found = .term t ∧
      match (Tracked.afterAll id actions).cells address i with
      | some value => ∃ stored, ((lowered value).run lowering).1 = .ok (.term stored) ∧
          ((lowered value).run lowering).2.symbols = lowering.symbols ∧
          ∀ I : Interp, I.eval t = I.eval stored
      | none => ∀ I : Interp, I.eval t
          = (I.initial ⟨tag, i, read.typeOf⟩).element (I.var history.root .object) := by
  obtain ⟨address, tag, history, prior, i, ty, issued, htarget, hfind, rfl, rfl⟩ :=
    perform_read hreads hread
  have refines := Tracked.afterAll_refines id actions
  obtain ⟨found', hfound', chain, hcells⟩ := refines.chains ref issued address tag htarget
  rw [hfind] at hfound'
  injection hfound' with hfound'
  subst hfound'
  -- the plan of the read
  have start : Faithful (afterAll ({} : With μ) calls) := faithful_afterAll calls
  obtain ⟨hout, hsym, faithful⟩ := lowered_runsAs _ _ start
  rw [h] at hout hsym faithful
  obtain ⟨hplan, hgrant⟩ := Plan.run_eq_ok.1 (Prod.ext hout.symm hsym.symm)
  rw [Plan.lowered_term fun _ => Expr.noConfusion] at hplan hgrant
  obtain ⟨t, ht, hterm⟩ := Plan.outcome_bind_eq_ok.1 hplan
  injection hterm with hterm
  obtain ⟨contents, identity, hcontents, rfl⟩ := outcome_access ht
  obtain ⟨⟨s, hs⟩, hroot, hwritten, hinitial⟩ := chain_contents chain hcontents
  refine ⟨address, tag, history, i, _, htarget, hfind, rfl, hterm.symm, ?_⟩
  rw [hcells]
  cases hlast : history.current.lastWrite tag i with
  | some value =>
      obtain ⟨hty, hsub, stored, hstored, hvalue⟩ := hwritten value hlast
      have hsort : value.typeOf.sort = .ok s := hty ▸ hs
      obtain ⟨hrequests, houtcome⟩ := requests_lowered_of_sort hsort hstored
      -- the value was lowered on the way, so nothing of it is new
      have has : ∀ request ∈ (Plan.lowered value).requests, lowering.symbols.Has request := by
        intro request hr
        refine SymbolTable.has_of_grantAll start.symbols hgrant request ?_
        rw [hrequests] at hr
        exact Plan.subset_requests_bind _ _ (requests_access ht (hsub hr))
      obtain ⟨hfinal, hkept⟩ := lowered_of_has faithful has
      refine ⟨stored, hfinal.trans houtcome, hkept, fun I => ?_⟩
      rw [Interp.eval_select, hvalue]
  | none =>
      intro I
      obtain ⟨s', hs', -, harray⟩ := constant_array_means (hinitial hlast)
      obtain ⟨-, hidentity⟩ := constant_root_means hroot
      rw [Interp.eval_select, harray, hidentity]
      rfl

/-- A field written through one handle and read through another. -/
theorem read_refines_alias :
    ∃ read after found lowering,
      (perform (.readField ⟨1, 1, .object 1 "T"⟩ (.int 0) .int)).run
        (Tracked.afterAll 1 [.allocate .object (some "T") (some "o"),
          .share ⟨1, 0, .object 1 "T"⟩,
          .writeField ⟨1, 0, .object 1 "T"⟩ (.int 0) (.int 5)]).heap
        = (.ok (.expr read), after) ∧
      (lowered read).run (afterAll ({} : Lowering) []) = (.ok found, lowering) ∧
      ∃ t stored, found = .term t ∧
        ((lowered (.int 5)).run lowering).1 = .ok (.term stored) ∧
        ∀ I : Interp, I.eval t = I.eval stored := by
  refine ⟨_, _, _, _, rfl, rfl, ?_⟩
  obtain ⟨address, tag, history, i, t, htarget, -, hindex, hfound, hcell⟩ :=
    read_refines 1 [.allocate .object (some "T") (some "o"), .share ⟨1, 0, .object 1 "T"⟩,
      .writeField ⟨1, 0, .object 1 "T"⟩ (.int 0) (.int 5)]
      (.readField ⟨1, 1, .object 1 "T"⟩ (.int 0) .int) rfl rfl [] rfl
  cases htarget
  cases hindex
  obtain ⟨stored, hlowered, -, hvalue⟩ := hcell
  exact ⟨t, stored, hfound, hlowered, hvalue⟩

end Heap

end SymbolicHeap
