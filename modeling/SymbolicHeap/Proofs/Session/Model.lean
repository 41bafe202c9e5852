/-
The model that values are read from.

A question that is found satisfiable leaves its model with the session,
and no step but another question or a reset takes it away (`Idle.since`).
Whatever is assumed, lowered, written or allocated in the meantime, a
constraint of the question goes on lowering to the very term that was
asserted, so its value is read off a model of that term
(`values_of_model`).
-/
import SymbolicHeap.Proofs.Heap.Read
import SymbolicHeap.Proofs.Session.Apart
import SymbolicHeap.Proofs.Session.Oracle

namespace SymbolicHeap

open Lowering

/-- What an answer says of the question whether something can be so. -/
def Answer.isYes : Answer → Bool
  | .verdict found => found.isSat
  | .truth value => value
  | _ => false

/-- A handle on an object that has been allocated on a heap. -/
def Heap.Allocated (heap : Heap) (ref : Ref) : Prop :=
  ∃ address history, ref.address? = some address ∧
    heap.histories.find? address = some history

-- ================================================================ the solver

theorem Verdict.exists_model_of_isSat {verdict : Verdict} (h : verdict.isSat = true) :
    ∃ model, verdict = .sat model := by
  cases verdict with
  | sat model => exact ⟨model, rfl⟩
  | unsat => cases h
  | unknown reason => cases h

namespace Solver

variable (solver : Solver) (verdict : Verdict)

theorem Unasked.model {before after : Solver} (h : Unasked before after) :
    after.model = before.model := by
  have same : after.tally.model = before.tally.model := by
    rw [h]
  exact same

theorem model_asked : (solver.asked verdict).model = verdict.model? := by
  cases verdict with
  | sat model => rfl
  | unsat => rfl
  | unknown reason => rfl

theorem model?_of_satCount (same : (solver.asked verdict).satCount = solver.satCount) :
    verdict.model? = none := by
  cases verdict with
  | sat model => exact absurd same (Nat.succ_ne_self _)
  | unsat => rfl
  | unknown reason => rfl

/-- A question that was neither denied nor left open has a model. -/
theorem exists_model_of_unknownCount (denied : verdict.isUnsat = false)
    (same : (solver.asked verdict).unknownCount = solver.unknownCount) :
    ∃ model, verdict = .sat model := by
  cases verdict with
  | sat model => exact ⟨model, rfl⟩
  | unsat => cases denied
  | unknown reason => exact absurd same (Nat.succ_ne_self _)

end Solver

namespace Workspace

variable {engine : Engine}

-- ============================================================ reading back

section

variable {space after : Workspace} {e : Expr}

/-- A value is that of what the expression lowers to, in the model of the
last question. -/
theorem valueOf_eq_ok {reading : Option Reading} :
    (valueOf e).run space = (.ok reading, after) ↔
      ∃ found value, (lowerOne e).run space = (.ok found, after) ∧
        space.session.solver.evaluate found = .ok value ∧
        reading = value.map fun t => Reading.of (.term t) := by
  have quiet {found : Lowered} {lowered : Workspace}
      (h : (lowerOne e).run space = (.ok found, lowered)) :
      lowered.session.solver = space.session.solver :=
    ((onLowering_leads same_steady (lowered_runsAs e)).of_run h).solver.symm
  constructor
  · intro h
    obtain ⟨found, lowered, hlowered, h⟩ := run_bind_eq_ok.1 h
    rw [run_get_bind] at h
    obtain ⟨value, reached, hread, h⟩ := run_bind_eq_ok.1 h
    obtain ⟨hvalue, rfl⟩ := run_liftM_eq_ok.1 hread
    obtain ⟨rfl, rfl⟩ := run_pure_eq_ok.1 h
    rw [mapError_eq_ok, quiet hlowered] at hvalue
    exact ⟨found, value, hlowered, hvalue, rfl⟩
  · rintro ⟨found, value, hlowered, hvalue, rfl⟩
    rw [← quiet hlowered] at hvalue
    refine run_bind_eq_ok.2 ⟨found, after, hlowered, ?_⟩
    rw [run_get_bind]
    exact run_bind_eq_ok.2 ⟨value, after,
      run_liftM_eq_ok.2 ⟨mapError_eq_ok.2 hvalue, rfl⟩, run_pure_eq_ok.2 ⟨rfl, rfl⟩⟩

/-- A step that reads a value. -/
theorem step_valueOf {found : Lowered} {value : Option Term}
    (hlowered : (lowerOne e).run space = (.ok found, after))
    (hvalue : space.session.solver.evaluate found = .ok value) :
    (step engine space (.valueOf e)).1
      = .ok (.reading (value.map fun t => Reading.of (.term t))) := by
  have hrun := valueOf_eq_ok.2 ⟨found, value, hlowered, hvalue, rfl⟩
  exact congrArg Prod.fst (run_map_eq_ok.2 ⟨_, hrun, rfl⟩)

/-- Where there is no model, no expression that lowers has a value. -/
theorem valueOf_without_model (nothing : space.session.solver.model = none) {answer : Answer}
    (h : (step engine space (.lower e)).1 = .ok answer) :
    (step engine space (.valueOf e)).1 = .ok (.reading none) := by
  obtain ⟨found, hlowered, -⟩ := run_map_eq_ok.1 (Prod.ext h rfl)
  have hvalue : space.session.solver.evaluate found = .ok none := by
    unfold Solver.evaluate
    rw [nothing]
  exact step_valueOf hlowered hvalue

variable {model : Model} {I : Interp} {b : Bool}
  (hmodel : space.session.solver.model = some model) (shows : model.Shows I)
  (hvalue : I.value e = .bool b)
include hmodel shows hvalue

theorem valueOf_means {t : Term} (hlowered : (lowerOne e).run space = (.ok (.term t), after))
    (means : t.Means .bool fun I => I.value e) :
    (step engine space (.valueOf e)).1 = .ok (.reading (some (.bool b))) := by
  have heval : model.eval t = .truth b :=
    shows.eval_of_bool means.sort ((means.value I).trans hvalue)
  have hread : space.session.solver.evaluate (.term t) = .ok (some (.truth b)) := by
    unfold Solver.evaluate
    rw [hmodel, ← heval]
  exact step_valueOf hlowered hread

/-- What is known has the value that the model shows. -/
theorem valueOf_known (faithful : Faithful space.session.lowering)
    (knows : space.session.lowering.symbols.Knows e) :
    (step engine space (.valueOf e)).1 = .ok (.reading (some (.bool b))) := by
  obtain ⟨t, ht, means⟩ := knows.formula
  have hout : ((Lowering.lowered e).run space.session.lowering).1 = .ok (.term t) :=
    (lowered_of_has faithful knows.has).1.trans ht
  refine valueOf_means hmodel shows hvalue (Prod.ext ?_ rfl) means
  exact mapError_eq_ok.2 hout

/-- So has a formula that can be lowered. -/
theorem valueOf_formula (faithful : Faithful space.session.lowering) (formula : e.IsFormula)
    (hb : e.typeOf = .bool) {answer : Answer}
    (h : (step engine space (.valueOf e)).1 = .ok answer) :
    answer = .reading (some (.bool b)) := by
  obtain ⟨reading, hrun, -⟩ := run_map_eq_ok.1 (Prod.ext h rfl)
  obtain ⟨found, _, hlowered, -, -⟩ := valueOf_eq_ok.1 hrun
  obtain ⟨t, rfl, means⟩ :=
    formula hb (onLowering_eq_ok (lowered_runsAs e) faithful hlowered).1
  rw [valueOf_means hmodel shows hvalue hlowered means] at h
  injection h with h
  exact h.symm

end

-- ============================================================= the meantime

/-- What leads from a moment of a session to a later one without a reset
and without a question that was answered. -/
inductive Idle (engine : Engine) (start : Tracked) : Tracked → Prop
  | refl : Idle engine start start
  | more {tracked : Tracked} {command : Command} : Idle engine start tracked →
      command.InSession → command ≠ .reset →
      (command.isQuery = true →
        ∃ fault, (Workspace.step engine tracked.space command).1 = .error fault) →
      Idle engine start (tracked.after engine command)

/-- A step that is none of these leaves model and counts alone. -/
theorem Moves.unasked {before after : Tracked} {command : Command} {answer : Except Fault Answer}
    (moves : Moves before command answer after) (other : command ≠ .reset)
    (refused : command.isQuery = true → ∃ fault, answer = .error fault) :
    Solver.Unasked before.space.session.solver after.space.session.solver := by
  cases moves with
  | heap action answer session =>
      rw [session]
      exact Solver.unasked_steady.refl _
  | assumed _ _ asserted =>
      rw [asserted.solver]
      exact rfl
  | reset => exact absurd rfl other
  | quiet _ quiet =>
      rw [← quiet.solver]
      exact Solver.unasked_steady.refl _
  | answered answer asking _ =>
      obtain ⟨fault, h⟩ := refused asking
      cases h

/-- In the meantime symbols are only added, objects keep their roots, and
the model stays. -/
theorem Idle.since {start later : Tracked} (idle : Idle engine start later)
    (grounded : Grounded start) :
    Grounded later ∧ Onward start.space later.space ∧
      Solver.Unasked start.space.session.solver later.space.session.solver := by
  induction idle with
  | refl => exact ⟨grounded, onward_steady.refl _, Solver.unasked_steady.refl _⟩
  | @more tracked command _ inSession other refused ih =>
      obtain ⟨grounded, onward, unasked⟩ := ih
      have moves : Moves tracked command (Workspace.step engine tracked.space command).1
          (tracked.after engine command) := .of_step inSession grounded.lowering
      exact ⟨grounded.moves moves, onward_steady.trans onward (grounded.onward moves other),
        Solver.unasked_steady.trans unasked (moves.unasked other refused)⟩

-- ================================================================ the model

/-- A model that an answer comes with shows something that was looked
for. -/
theorem Posed.shows {space after : Workspace} {assumed exprs : List Expr}
    {sought : Interp → Prop} {model : Model} (truthful : engine.Truthful)
    (posed : Posed engine space exprs sought (.sat model) after)
    (coherent : Coherent ⟨space, assumed⟩) :
    ∃ I : Interp, (∀ e ∈ assumed, I.Holds e) ∧ sought I ∧
      I.Separates (distinctNames after.session) ∧ model.Shows I := by
  obtain ⟨terms, hverdict, hterms⟩ := posed.decided
  obtain ⟨I, ⟨hassumed, hsought, apart⟩, shows⟩ :=
    truthful.models (coherent.assertions.append hterms) hverdict.symm
  exact ⟨I, hassumed, hsought, apart, shows⟩

/-- The states of an object have the root that the object had before. -/
theorem Onward.root?_of_history {before after : Workspace} (onward : Onward before after)
    {events : List Heap.Event} (shaped : after.session.heap.WellShaped events) {ref : Ref}
    {address : Nat} {history : History} (haddress : ref.address? = some address)
    (found : before.session.heap.histories.find? address = some history) {states : List Expr}
    (h : ((Heap.history ref).run after.session.heap).1 = .ok states) :
    ∀ state ∈ states, state.root? = some history.root := by
  obtain ⟨_, history', haddress', found', rooted⟩ := shaped.root?_of_history h
  rw [haddress] at haddress'
  cases haddress'
  obtain ⟨later, hlater, same⟩ := onward.roots address history found
  rw [found'] at hlater
  cases hlater
  rw [← same]
  exact rooted

/-- A later moment of a session at which the last question that was
answered is still the same. -/
structure Recalls (engine : Engine) (tracked : Tracked) (query : Command) (verdict : Verdict)
    (after later : Workspace) : Prop where
  shaped : ∃ events, tracked.space.session.heap.WellShaped events
  posed : Posed engine tracked.space query.questions query.Seeks verdict after
  onward : Onward tracked.space later
  faithful : Faithful later.session.lowering
  stillShaped : ∃ events, later.session.heap.WellShaped events
  model : later.session.solver.model = verdict.model?
  knows : ∀ e ∈ tracked.assumed ++ query.questions, later.session.lowering.symbols.Knows e

theorem Idle.recalls {tracked later : Tracked} {query : Command} {verdict : Verdict}
    {after : Workspace} (idle : Idle engine ⟨after, tracked.assumed⟩ later)
    (grounded : Grounded tracked) (asking : query.isQuery = true)
    (posed : Posed engine tracked.space query.questions query.Seeks verdict after) :
    Recalls engine tracked query verdict after later.space := by
  have groundedAfter : Grounded ⟨after, tracked.assumed⟩ :=
    grounded.moves (.answered (query.answerTo verdict) asking posed.kept)
  obtain ⟨groundedLater, onward, unasked⟩ := idle.since groundedAfter
  have grown := (onward.lowering groundedAfter.lowering).2.grows groundedAfter.lowering.symbols
  exact {
    shaped := grounded.wellShaped
    posed := posed
    onward := onward_steady.trans posed.around.onward onward
    faithful := groundedLater.lowering
    stillShaped := groundedLater.wellShaped
    model := by rw [unasked.model, posed.around.solver, Solver.model_asked]
    knows := fun e he => ((posed.known grounded).2 e he).mono grown }

namespace Recalls

variable {tracked : Tracked} {query : Command} {after later : Workspace} {model : Model}
  {I : Interp} (recalls : Recalls engine tracked query (.sat model) after later)
  (shows : model.Shows I)
include recalls shows

/-- The assumptions and what was asked have the values that the model
shows. -/
theorem valueOf_asked {e : Expr} (he : e ∈ tracked.assumed ++ query.questions) {b : Bool}
    (h : I.value e = .bool b) :
    (step engine later (.valueOf e)).1 = .ok (.reading (some (.bool b))) :=
  valueOf_known recalls.model shows h recalls.faithful (recalls.knows e he)

/-- States of objects that the question told apart are different. -/
theorem valueOf_apart (apart : I.Separates (distinctNames after.session)) {p q : Ref}
    (differ : p.address? ≠ q.address?) (hp : tracked.space.session.heap.Allocated p)
    (hq : tracked.space.session.heap.Allocated q) {states others : List Expr}
    (hstates : ((Heap.history p).run later.session.heap).1 = .ok states)
    (hothers : ((Heap.history q).run later.session.heap).1 = .ok others) {s t : Expr}
    (hs : s ∈ states) (ht : t ∈ others) {value : Answer}
    (h : (step engine later (.valueOf (.binary .ne s t))).1 = .ok value) :
    value = .reading (some (.bool true)) := by
  obtain ⟨a, history, ha, found⟩ := hp
  obtain ⟨b, history', hb, found'⟩ := hq
  obtain ⟨_, shaped⟩ := recalls.shaped
  obtain ⟨_, stillShaped⟩ := recalls.stillShaped
  have hroot := recalls.onward.root?_of_history stillShaped ha found hstates s hs
  have hroot' := recalls.onward.root?_of_history stillShaped hb found' hothers t ht
  rw [ha, hb] at differ
  have addresses : a ≠ b := fun same => differ (by rw [same])
  have hne : I.value (.binary .ne s t) = .bool true := by
    rw [I.value_ne hroot hroot', recalls.posed.same_eq_false shaped found found' addresses apart]
    rfl
  exact valueOf_formula recalls.model shows hne recalls.faithful
    (comparison_isFormula rfl hroot hroot') rfl h

end Recalls

/-- The values that a session gives after a question, as long as no other
is answered and there is no reset, are those of a model of what was asked.
After a check that found something, the assumptions and constraints are
true, and the objects that had been allocated are different; after a proof
that failed for certain, what was to be proved is false and the
assumptions are true; and after a question that found nothing, there are
no values. -/
theorem values_of_model {engine : Engine} (truthful : engine.Truthful) {commands : List Command}
    (inSession : ∀ command ∈ commands, command.InSession) (timeout : Int)
    (assumeDistinct : Bool) (log : Logger) {tracked : Tracked}
    (run : Tracked.afterAll engine (fresh timeout assumeDistinct log) commands = tracked)
    {query : Command} (asking : query.isQuery = true) (made : ∀ e ∈ query.questions, e.Made)
    {answer : Answer} {after : Workspace}
    (asked : step engine tracked.space query = (.ok answer, after)) {later : Tracked}
    (idle : Idle engine ⟨after, tracked.assumed⟩ later) :
    let valueOf (e : Expr) := (step engine later.space (.valueOf e)).1
    ((∀ exprs, query = .check exprs ∨ query = .isSatisfiable exprs → answer.isYes = true →
      (∀ e ∈ tracked.assumed ++ exprs, valueOf e = .ok (.reading (some (.bool true)))) ∧
      ∀ (p q : Ref) (states others : List Expr), p.address? ≠ q.address? →
        tracked.space.session.heap.Allocated p → tracked.space.session.heap.Allocated q →
        ((Heap.history p).run later.space.session.heap).1 = .ok states →
        ((Heap.history q).run later.space.session.heap).1 = .ok others →
        ∀ s ∈ states, ∀ t ∈ others, ∀ value, valueOf (.binary .ne s t) = .ok value →
          value = .reading (some (.bool true))) ∧
    (∀ e, query = .prove e → answer = .truth false →
      after.session.solver.unknownCount = tracked.space.session.solver.unknownCount →
      valueOf e = .ok (.reading (some (.bool false))) ∧
      ∀ other ∈ tracked.assumed, valueOf other = .ok (.reading (some (.bool true)))) ∧
    (after.session.solver.satCount = tracked.space.session.solver.satCount →
      ∀ e lowered, (step engine later.space (.lower e)).1 = .ok lowered →
        valueOf e = .ok (.reading none))) := by
  intro valueOf
  have grounded : Grounded tracked := by
    rw [← run]
    exact .afterAll inSession timeout assumeDistinct log
  obtain ⟨verdict, hanswer, posed⟩ :=
    query_posed asked asking (fun e he => (made e he).isFormula) grounded.lowering
  have recalls := idle.recalls grounded asking posed
  refine ⟨?_, ?_, ?_⟩
  · intro exprs hquery yes
    have questions : query.questions = exprs := by
      rcases hquery with rfl | rfl
      · rfl
      · rfl
    have seeks (I : Interp) : query.Seeks I → ∀ e ∈ exprs, I.Holds e := by
      rcases hquery with rfl | rfl
      · exact id
      · exact id
    have sat : verdict.isSat = true := by
      rw [hanswer] at yes
      rcases hquery with rfl | rfl
      · exact yes
      · exact yes
    obtain ⟨model, rfl⟩ := verdict.exists_model_of_isSat sat
    obtain ⟨I, hassumed, hsought, apart, shows⟩ := posed.shows truthful grounded.toCoherent
    constructor
    · intro e he
      have holds : I.value e = .bool true :=
        List.forall_mem_append.2 ⟨hassumed, seeks I hsought⟩ e he
      rw [← questions] at he
      exact recalls.valueOf_asked shows he holds
    · intro p q states others differ hp hq hstates hothers s hs t ht value h
      exact recalls.valueOf_apart shows apart differ hp hq hstates hothers hs ht h
  · rintro e rfl denied same
    rw [hanswer] at denied
    injection denied with denied
    rw [posed.around.solver] at same
    obtain ⟨model, rfl⟩ := Solver.exists_model_of_unknownCount _ _ denied same
    obtain ⟨I, hassumed, hsought, -, shows⟩ := posed.shows truthful grounded.toCoherent
    constructor
    · exact recalls.valueOf_asked shows (List.mem_append_right _ List.mem_cons_self) hsought
    · intro other hother
      exact recalls.valueOf_asked shows (List.mem_append_left _ hother) (hassumed other hother)
  · intro same e lowered h
    rw [posed.around.solver] at same
    exact valueOf_without_model (recalls.model.trans (Solver.model?_of_satCount _ _ same)) h

-- ------------------------------------------------ objects that were compared

/-- A session with two objects, one of which is compared with others. -/
noncomputable def twoAllocated : Tracked :=
  Tracked.afterAll comparing (fresh 0 false {})
    (compared ++ [.heap (.allocate .object (some "T") (some "p"))])

/-- The session after a check, -/
noncomputable def checked : Tracked := twoAllocated.after comparing (.check comparison)

/-- and after a write and an assumption. -/
noncomputable def checkedLater : Tracked :=
  (checked.after comparing (.heap (.writeField ⟨1, 0, .object 1 "T"⟩ (.int 0) (.int 5)))).after
    comparing (.assume [.binary .eq (.var "z" .object) (.var "x" .object)])

theorem twoAllocated_check :
    step comparing twoAllocated.space (.check comparison)
      = (.ok (.verdict (.sat scattered.model)), checked.space) := rfl

set_option maxRecDepth 2000 in
theorem checkedLater_histories :
    ((Heap.history ⟨1, 0, .object 1 "T"⟩).run checkedLater.space.session.heap).1
        = .ok [.var "o" .object, .assign (.var "o" .object) 0 (.int 5) "T"] ∧
      ((Heap.history ⟨1, 1, .object 2 "T"⟩).run checkedLater.space.session.heap).1
        = .ok [.var "p" .object] :=
  ⟨rfl, rfl⟩

/-- What was found to hold is true later on, and the objects are
different, whatever has been written. -/
theorem values_of_model_compared :
    (∀ e ∈ twoAllocated.assumed ++ comparison,
      (step comparing checkedLater.space (.valueOf e)).1 = .ok (.reading (some (.bool true)))) ∧
    ∀ value, (step comparing checkedLater.space (.valueOf (.binary .ne
        (.assign (.var "o" .object) 0 (.int 5) "T") (.var "p" .object)))).1 = .ok value →
      value = .reading (some (.bool true)) := by
  have inSession : ∀ command ∈ compared ++ [.heap (.allocate .object (some "T") (some "p"))],
      command.InSession := by
    simp only [compared, List.cons_append, List.nil_append, List.forall_mem_cons]
    refine ⟨.heap _, .assume (List.forall_mem_singleton.2 ?_), .heap _, List.forall_mem_nil _⟩
    exact .binary (.var rfl) (.var rfl) rfl
  have made : ∀ e ∈ (Command.check comparison).questions, e.Made :=
    List.forall_mem_singleton.2 (.binary (.var rfl) (.var rfl) rfl)
  have idle : Idle comparing checked checkedLater := by
    refine (Idle.refl.more (.heap _) ?_ ?_).more (.assume ?_) ?_ ?_
    · rintro ⟨⟩
    · rintro ⟨⟩
    · exact List.forall_mem_singleton.2 (.binary (.var rfl) (.var rfl) rfl)
    · rintro ⟨⟩
    · rintro ⟨⟩
  obtain ⟨hp, hq⟩ := checkedLater_histories
  have run : Tracked.afterAll comparing (fresh 0 false {})
      (compared ++ [.heap (.allocate .object (some "T") (some "p"))]) = twoAllocated := rfl
  obtain ⟨holds, differ⟩ := (values_of_model comparing_truthful inSession 0 false {} run rfl made
    twoAllocated_check idle).1 comparison (.inl rfl) rfl
  exact ⟨holds, differ _ _ _ _ (by decide) ⟨1, _, rfl, rfl⟩ ⟨2, _, rfl, rfl⟩ hp hq _
    (List.mem_cons_of_mem _ List.mem_cons_self) _ List.mem_cons_self⟩

end Workspace

end SymbolicHeap
