/-
What does not disturb a verdict.

Questions and activity on the heap leave their traces in a session: names
are interned, and the axiom that the objects are different is about more
and more of them.  None of this has a say in a later verdict.  The names
that come in have symbols of their own, so whatever interpretation there
was can be changed to tell the new objects apart too, with no change to
the value of anything that does not mention them
(`Lowering.exists_separates_more`); and so a check comes out as it would
have come out before (`verdict_undisturbed`).

All of this is about names that a solver reads in full.  Where two names
differ only behind a null character, the objects have one symbol, and
nothing can tell them apart (`verdict_disturbed_behind_null`).
-/
import SymbolicHeap.Proofs.Lowering.Drawn
import SymbolicHeap.Proofs.Semantics.Names
import SymbolicHeap.Proofs.Session.Oracle
import SymbolicHeap.Proofs.Session.Run

namespace SymbolicHeap

namespace Lowering

-- ================================================================= symbols

namespace SymbolTable

variable {table : SymbolTable}

/-- Entries whose names are read in full have symbols of their own. -/
theorem Owned.eq_of_symbol (owned : table.Owned) (whole : table.Whole) {request other : Request}
    {symbol : Symbol} (has : table.Has request) (has' : table.Has other)
    (h : request.symbol = .ok symbol) (h' : other.symbol = .ok symbol) : request = other := by
  obtain ⟨label, hlabel, given⟩ := owned.given has
  obtain ⟨label', hlabel', given'⟩ := owned.given has'
  have own := Request.symbol_of_label hlabel given.1
  have own' := Request.symbol_of_label hlabel' given'.1
  rw [h] at own
  rw [h'] at own'
  exact owned.eq_of_whole has has' hlabel hlabel' (whole label given) (whole label' given')
    (Except.ok.inj (own.symm.trans own'))

/-- What a known constraint means hangs on the symbols that it asks
for. -/
theorem Knows.value_congr {e : Expr} (knows : table.Knows e) {I J : Interp}
    (agree : I.Agree (fun symbol => ∃ request ∈ (Plan.lowered e).requests,
      request.symbol = .ok symbol) J) : J.value e = I.value e := by
  obtain ⟨t, ht, hmeans⟩ := knows.formula
  rw [← hmeans.value, ← hmeans.value]
  exact (lowered_draws ht).2.eval_congr agree

theorem Knows.mentions {e : Expr} (knows : table.Knows e) {name : String}
    (asked : .var name .object ∈ (Plan.lowered e).requests) : e.Mentions name := by
  obtain ⟨t, ht, -⟩ := knows.formula
  exact (lowered_draws ht).1 _ asked name rfl

/-- An object that has been seen has its identity for symbol. -/
theorem Owned.symbol_root (owned : table.Owned) {name : String}
    (has : table.Has (.var name .object)) :
    (Request.var name .object).symbol = .ok (identitySymbol name) := by
  obtain ⟨label, hlabel, given⟩ := owned.given has
  have own := Request.symbol_of_label hlabel given.1
  cases hlabel
  exact own

end SymbolTable

/-- Objects that no constraint asks for can be told apart beside those
that are, and the constraints keep their values. -/
theorem exists_separates_more {table : SymbolTable} (owned : table.Owned) (whole : table.Whole)
    {names more : List String} (has : ∀ name ∈ more, table.Has (.var name .object))
    (fewer : names ⊆ more) {exprs : List Expr} (knows : ∀ e ∈ exprs, table.Knows e)
    (unasked : ∀ name ∈ more, name ∉ names → .var name .object ∉ Plan.requestsAll exprs)
    {I : Interp} (apart : I.Separates names) :
    ∃ J : Interp, J.Separates more ∧ ∀ e ∈ exprs, J.value e = I.value e := by
  have hnew {name : String} (h : name ∈ more.filter (· ∉ names)) :
      name ∈ more ∧ name ∉ names := by
    rw [List.mem_filter, decide_eq_true_eq] at h
    exact h
  have differ : ∀ x ∈ more.filter (· ∉ names), ∀ y ∈ more.filter (· ∉ names) ++ names, y ≠ x →
      identitySymbol y ≠ identitySymbol x := by
    intro x hx y hy other same
    have hy : y ∈ more := by
      rcases List.mem_append.1 hy with hy | hy
      · exact (hnew hy).1
      · exact fewer hy
    have requests := owned.eq_of_symbol whole (has y hy) (has x (hnew hx).1)
      ((owned.symbol_root (has y hy)).trans (congrArg _ same))
      (owned.symbol_root (has x (hnew hx).1))
    cases requests
    exact other rfl
  obtain ⟨J, hJ, agree⟩ := Interp.exists_separates apart _ differ
  refine ⟨J, hJ.mono fun name hname => ?_, fun e he => (knows e he).value_congr (agree.mono ?_)⟩
  · by_cases known : name ∈ names
    · exact List.mem_append_right _ known
    · exact List.mem_append_left _ (List.mem_filter.2 ⟨hname, decide_eq_true known⟩)
  · rintro symbol ⟨request, hrequest, hsymbol⟩ name hname rfl
    obtain ⟨member, new⟩ := hnew hname
    -- the symbol is that of the object, so it is the object that was asked for
    have asked := owned.eq_of_symbol whole ((knows e he).has request hrequest) (has name member)
      hsymbol (owned.symbol_root (has name member))
    subst asked
    exact unasked name member new (mem_requestsAll.2 ⟨e, he, hrequest⟩)

end Lowering

open Lowering

-- ===================================================================== runs

/-- The steps that neither assume anything nor take assumptions back. -/
def Command.keepsAssumptions : Command → Bool
  | .assume _ | .reset => false
  | _ => true

namespace Workspace

variable {engine : Engine}

theorem Tracked.assumed_after {command : Command} (keeps : command.keepsAssumptions = true)
    (tracked : Tracked) : (tracked.after engine command).assumed = tracked.assumed := by
  cases command with
  | assume | reset => cases keeps
  | _ => rfl

theorem Tracked.assumed_foldl {commands : List Command}
    (keep : ∀ command ∈ commands, command.keepsAssumptions = true) (tracked : Tracked) :
    (commands.foldl (Tracked.after engine) tracked).assumed = tracked.assumed := by
  induction commands generalizing tracked with
  | nil => rfl
  | cons command rest ih =>
      rw [List.forall_mem_cons] at keep
      exact (ih keep.2 _).trans (tracked.assumed_after keep.1)

-- ------------------------------------------------------------- the objects

variable {before after : Workspace}

/-- Behind the name of a root there is an address. -/
theorem exists_of_mem_roots {heap : Heap} (addresses : heap.histories.keys.Nodup) {name : String}
    (h : name ∈ heap.histories.values.map History.root) :
    ∃ address history, heap.histories.find? address = some history ∧ history.root = name := by
  obtain ⟨history, hhistory, rfl⟩ := List.mem_map.1 h
  obtain ⟨⟨address, _⟩, entry, rfl⟩ := List.mem_map.1 hhistory
  exact ⟨address, _, Table.find?_of_mem_entries addresses entry, rfl⟩

/-- What is told apart stays so. -/
theorem Grounded.distinctNames {tracked : Tracked} (grounded : Grounded tracked)
    (onward : Onward tracked.space after) :
    distinctNames tracked.space.session ⊆ distinctNames after.session := by
  obtain ⟨events, shaped⟩ := grounded.wellShaped
  intro name hname
  rcases mem_distinctNames.1 hname with allocated | ⟨demanded, seen⟩
  · obtain ⟨address, history, found, rfl⟩ := exists_of_mem_roots shaped.addresses allocated
    obtain ⟨later, found', same⟩ := onward.roots address history found
    rw [← same]
    exact root_mem_distinctNames found'
  · refine mem_distinctNames.2 (.inr ⟨onward.assumeDistinct.trans demanded, ?_⟩)
    exact (onward.lowering grounded.lowering).2.objects seen

-- ============================================================ two questions

namespace Posed

variable {exprs : List Expr} {asked : Interp → Prop} {verdict verdict' : Verdict}
  {after' : Workspace} {tracked later : Tracked} (grounded : Grounded tracked)
  (grounded' : Grounded later) (onward : Onward tracked.space later.space)
  (posed : Posed engine tracked.space exprs asked verdict after)
  (posed' : Posed engine later.space exprs asked verdict' after')
include grounded grounded' onward posed posed'

/-- A question put later tells at least the same objects apart. -/
theorem distinctNames_later :
    distinctNames after.session ⊆ distinctNames after'.session := by
  intro name hname
  rcases posed.names name hname with old | ⟨demanded, requested⟩
  · exact grounded'.distinctNames posed'.around.onward (grounded.distinctNames onward old)
  · obtain ⟨e, he, hrequest⟩ := mem_requestsAll.1 requested
    refine mem_distinctNames.2 (.inr ⟨?_, ?_⟩)
    · exact (posed'.around.assumeDistinct.trans onward.assumeDistinct).trans demanded
    · exact SymbolTable.mem_objects_of_has ((posed'.knows e he).has _ hrequest)

/-- Of the objects that only the later question tells apart, nothing asks
for any that is not mentioned; on demand, all that is asked for is told
apart from the start. -/
theorem unasked_later
    (unmentioned : ∀ address history,
      later.space.session.heap.histories.find? address = some history →
      tracked.space.session.heap.histories.find? address = none →
      ∀ e ∈ tracked.assumed ++ exprs, ¬e.Mentions history.root)
    {name : String} (told : name ∈ distinctNames after'.session)
    (new : name ∉ distinctNames after.session) :
    .var name .object ∉ Plan.requestsAll (tracked.assumed ++ exprs) := by
  intro requested
  obtain ⟨e, he, hrequest⟩ := mem_requestsAll.1 requested
  obtain ⟨-, knows⟩ := posed.known grounded
  rcases mem_distinctNames.1 told with allocated | ⟨demanded, -⟩
  · obtain ⟨events, shaped⟩ := grounded'.wellShaped
    rw [posed'.around.heap] at allocated
    obtain ⟨address, history, found, rfl⟩ := exists_of_mem_roots shaped.addresses allocated
    cases old : tracked.space.session.heap.histories.find? address with
    | none => exact unmentioned address history found old e he ((knows e he).mentions hrequest)
    | some earlier =>
        obtain ⟨history', found', same⟩ := onward.roots address earlier old
        rw [found] at found'
        cases found'
        rw [same] at new
        exact new (grounded.distinctNames posed.around.onward (root_mem_distinctNames old))
  · refine new (mem_distinctNames.2 (.inr ⟨?_, ?_⟩))
    · rw [posed.around.assumeDistinct, ← onward.assumeDistinct, ← posed'.around.assumeDistinct]
      exact demanded
    · exact SymbolTable.mem_objects_of_has ((knows e he).has _ hrequest)

end Posed

-- ================================================================ verdicts

/-- An exact engine gives no verdict but yes and no. -/
theorem Posed.status_eq_of_isSat_iff {space space' after after' : Workspace}
    {assumed assumed' exprs exprs' : List Expr} {asked asked' : Interp → Prop}
    {verdict verdict' : Verdict} (exact : engine.Exact) (coherent : Coherent ⟨space, assumed⟩)
    (coherent' : Coherent ⟨space', assumed'⟩)
    (posed : Posed engine space exprs asked verdict after)
    (posed' : Posed engine space' exprs' asked' verdict' after')
    (same : verdict.isSat = true ↔ verdict'.isSat = true) : verdict.status = verdict'.status := by
  have unsat : verdict.isUnsat = true ↔ verdict'.isUnsat = true := by
    rw [posed.isUnsat_iff exact coherent, ← posed.isSat_iff exact coherent, same,
      posed'.isUnsat_iff exact coherent', ← posed'.isSat_iff exact coherent']
  cases verdict with
  | sat model =>
      cases verdict' with
      | sat model' => rfl
      | unsat => cases same.1 rfl
      | unknown reason => cases same.1 rfl
  | unsat =>
      cases verdict' with
      | sat model' => cases same.2 rfl
      | unsat => rfl
      | unknown reason => cases unsat.1 rfl
  | unknown reason =>
      cases verdict' with
      | sat model' => cases same.2 rfl
      | unsat => cases unsat.2 rfl
      | unknown reason' => rfl

/-- A verdict does not hang on what happened on the way: if an object
allocated in between is mentioned neither in an assumption nor in the
constraints, a check comes out as it would have come out before.  Where
nothing has been assumed, there is nothing that could fail. -/
theorem verdict_undisturbed {engine : Engine} (exact : engine.Exact)
    {commands between : List Command} (inSession : ∀ command ∈ commands, command.InSession)
    (inSession' : ∀ command ∈ between, command.InSession)
    (keep : ∀ command ∈ between, command.keepsAssumptions = true) (timeout : Int)
    (assumeDistinct : Bool) (log : Logger) {tracked later : Tracked}
    (run : Tracked.afterAll engine (fresh timeout assumeDistinct log) commands = tracked)
    (run' : between.foldl (Tracked.after engine) tracked = later) :
    (∀ (exprs : List Expr) (verdict verdict' : Verdict) (after after' : Workspace),
      (∀ e ∈ exprs, e.Made) →
      (∀ address history, later.space.session.heap.histories.find? address = some history →
        tracked.space.session.heap.histories.find? address = none →
        ∀ e ∈ tracked.assumed ++ exprs, ¬e.Mentions history.root) →
      step engine tracked.space (.check exprs) = (.ok (.verdict verdict), after) →
      step engine later.space (.check exprs) = (.ok (.verdict verdict'), after') →
      after'.session.lowering.symbols.Whole → verdict.status = verdict'.status) ∧
    (tracked.assumed = [] → ∀ (verdict : Verdict) (after : Workspace),
      step engine tracked.space (.check []) = (.ok (.verdict verdict), after) →
      after.session.lowering.symbols.Whole → verdict.isSat = true) := by
  have grounded : Grounded tracked := by
    rw [← run]
    exact .afterAll inSession timeout assumeDistinct log
  constructor
  · intro exprs verdict verdict' after after' made unmentioned h h' whole
    have others : ∀ command ∈ between, command ≠ .reset := by
      rintro command hcommand rfl
      cases keep _ hcommand
    have assumed : later.assumed = tracked.assumed := by
      rw [← run']
      exact tracked.assumed_foldl keep
    obtain ⟨grounded', onward⟩ : Grounded later ∧ Onward tracked.space later.space := by
      rw [← run']
      exact grounded.onwardAll inSession' others
    have formulas : ∀ e ∈ exprs, e.IsFormula := fun e he => (made e he).isFormula
    obtain ⟨_, hanswer, posed⟩ := query_posed h rfl formulas grounded.lowering
    cases hanswer
    obtain ⟨_, hanswer, posed'⟩ := query_posed h' rfl formulas grounded'.lowering
    cases hanswer
    refine posed.status_eq_of_isSat_iff exact grounded.toCoherent grounded'.toCoherent posed' ?_
    rw [posed.isSat_iff exact grounded.toCoherent, posed'.isSat_iff exact grounded'.toCoherent,
      assumed]
    have fewer := posed.distinctNames_later grounded grounded' onward posed'
    constructor
    · rintro ⟨I, hassumed, hasked, apart⟩
      -- the objects that are new get identities of their own
      obtain ⟨owned, knows⟩ := posed'.known grounded'
      rw [assumed] at knows
      obtain ⟨J, hJ, values⟩ := exists_separates_more owned whole posed'.has fewer knows
        (fun name => posed.unasked_later grounded grounded' onward posed' unmentioned) apart
      have holds : ∀ e ∈ tracked.assumed ++ exprs, J.Holds e := fun e he =>
        (values e he).trans (List.forall_mem_append.2 ⟨hassumed, hasked⟩ e he)
      rw [List.forall_mem_append] at holds
      exact ⟨J, holds.1, holds.2, hJ⟩
    · rintro ⟨I, hassumed, hasked, apart⟩
      exact ⟨I, hassumed, hasked, apart.mono fewer⟩
  · intro nothing verdict after h whole
    obtain ⟨_, hanswer, posed⟩ := query_posed h rfl (List.forall_mem_nil _) grounded.lowering
    cases hanswer
    have nobody : (default : Interp).Separates [] := List.forall_mem_nil _
    obtain ⟨J, hJ, -⟩ := exists_separates_more (posed.known grounded).1 whole posed.has
      (List.nil_subset _) (List.forall_mem_nil _) (fun _ _ _ => List.not_mem_nil) nobody
    rw [posed.isSat_iff exact grounded.toCoherent, nothing]
    exact ⟨J, List.forall_mem_nil _, List.forall_mem_nil _, hJ⟩

-- ------------------------------------------------ an object comes in between

def oneMore : List Command := [.heap (.allocate .object (some "T") (some "p")), .check comparison]

/-- A session in which objects are compared, -/
noncomputable def beforeOneMore : Tracked := Tracked.afterAll comparing (fresh 0 false {}) compared

/-- and after one more has been allocated. -/
noncomputable def afterOneMore : Tracked := oneMore.foldl (Tracked.after comparing) beforeOneMore

theorem beforeOneMore_check :
    ((check comparing comparison).run beforeOneMore.space).1.isOk = true := by
  decide +kernel

theorem afterOneMore_check :
    ((check comparing comparison).run afterOneMore.space).1.isOk = true ∧
      ∀ label ∈ ((check comparing comparison).run
        afterOneMore.space).2.session.lowering.symbols.owners.keys,
        '\x00' ∉ label.name.toList := by
  decide +kernel

theorem afterOneMore_roots :
    afterOneMore.space.session.heap.histories.entries.map (fun entry => (entry.1, entry.2.root))
      = [(1, "o"), (2, "p")] := by
  decide +kernel

/-- An allocation and a check that was made do not disturb a check. -/
theorem verdict_undisturbed_allocated :
    ∃ verdict verdict' after after',
      step comparing beforeOneMore.space (.check comparison) = (.ok (.verdict verdict), after) ∧
      step comparing afterOneMore.space (.check comparison) = (.ok (.verdict verdict'), after') ∧
      verdict.status = verdict'.status := by
  have inSession : ∀ command ∈ compared, command.InSession := by
    simp only [compared, List.forall_mem_cons]
    refine ⟨.heap _, .assume (List.forall_mem_singleton.2 ?_), List.forall_mem_nil _⟩
    exact .binary (.var rfl) (.var rfl) rfl
  have inSession' : ∀ command ∈ oneMore, command.InSession := by
    simp only [oneMore, List.forall_mem_cons]
    exact ⟨.heap _, .check _, List.forall_mem_nil _⟩
  have made : ∀ e ∈ comparison, e.Made :=
    List.forall_mem_singleton.2 (.binary (.var rfl) (.var rfl) rfl)
  -- of the two objects that are allocated, only the one that was there before is mentioned
  have unmentioned : ∀ address history,
      afterOneMore.space.session.heap.histories.find? address = some history →
      beforeOneMore.space.session.heap.histories.find? address = none →
      ∀ e ∈ beforeOneMore.assumed ++ comparison, ¬e.Mentions history.root := by
    intro address history found new
    have root := List.mem_map_of_mem (f := fun entry : Nat × History => (entry.1, entry.2.root))
      (Table.mem_entries_of_find? found)
    rw [afterOneMore_roots, List.mem_cons, List.mem_singleton] at root
    rcases root with old | young
    · rw [show address = 1 from (Prod.ext_iff.1 old).1] at new
      cases new
    · rw [show history.root = "p" from (Prod.ext_iff.1 young).2]
      show ∀ e ∈ [Expr.binary .ne (.var "x" .object) (.var "o" .object),
        .binary .eq (.var "x" .object) (.var "y" .object)], ¬e.Mentions "p"
      simp [Expr.mentions_binary, Expr.mentions_var]
  obtain ⟨verdict, after, hcheck⟩ := eq_ok_of_isOk beforeOneMore_check
  obtain ⟨answers, whole⟩ := afterOneMore_check
  obtain ⟨verdict', after', hcheck'⟩ := eq_ok_of_isOk answers
  rw [hcheck'] at whole
  have first : step comparing beforeOneMore.space (.check comparison)
      = (.ok (.verdict verdict), after) := run_map_eq_ok.2 ⟨verdict, hcheck, rfl⟩
  have second : step comparing afterOneMore.space (.check comparison)
      = (.ok (.verdict verdict'), after') := run_map_eq_ok.2 ⟨verdict', hcheck', rfl⟩
  have run : Tracked.afterAll comparing (fresh 0 false {}) compared = beforeOneMore := rfl
  have run' : oneMore.foldl (Tracked.after comparing) beforeOneMore = afterOneMore := rfl
  obtain ⟨same, -⟩ := verdict_undisturbed comparing_exact inSession inSession' (by decide) 0 false
    {} run run'
  exact ⟨verdict, verdict', after, after', first, second,
    same comparison _ _ _ _ made unmentioned first second fun label ⟨_, _, held⟩ =>
      whole label (Table.mem_keys_of_find? held)⟩

-- ------------------------------------------------------------ shared symbols

/-- An engine that knows by heart that nothing is different from itself. -/
noncomputable def telling : Engine :=
  let shared : Term := .call (.ofName "a" [] .int) []
  recalling default [[.truth true]] [[.distinct [shared, shared]]]

theorem telling_exact : telling.Exact := by
  refine recalling_exact ?_ ?_
  · simp
  · simp [Interp.eval_distinct, Value.allDiffer]

/-- Nothing tells objects apart whose names differ only behind a null
character: where nothing has been assumed, allocating two of them turns
the verdict around. -/
theorem verdict_disturbed_behind_null :
    telling.Exact ∧ ∃ model after after',
      step telling (fresh 0 false {}) (.check []) = (.ok (.verdict (.sat model)), after) ∧
      step telling ([Command.heap (.allocate .object (some "T") (some "a\x00b")),
          .heap (.allocate .object (some "T") (some "a\x00c"))].foldl (Tracked.after telling)
            { space := fresh 0 false {} }).space (.check [])
        = (.ok (.verdict .unsat), after') :=
  ⟨telling_exact, _, _, _, rfl, rfl⟩

end Workspace

end SymbolicHeap
