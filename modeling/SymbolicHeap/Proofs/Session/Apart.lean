/-
Objects that are apart.

A state of an object means the identity of its root, however many writes
it stands on (`Interp.value_of_root?`), and comparing two states lowers to
a comparison of identities, whatever has been written.  So the verdicts on
such a comparison are those of the axiom on the roots: states of different
addresses are never found equal, and states of one address always are
(`objects_apart`).
-/
import SymbolicHeap.Proofs.Session.Verdict

namespace SymbolicHeap

open Lowering

-- ================================================================== states

/-- What has a root is a state of an object. -/
theorem Expr.typeOf_of_root? {state : Expr} {name : String} (h : state.root? = some name) :
    state.typeOf = .object := by
  cases state with
  | var other ty =>
      cases ty with
      | object => rfl
      | _ => cases h
  | assign base index value tag => rfl
  | _ => cases h

theorem Interp.value_of_root? (I : Interp) {state : Expr} {name : String}
    (h : state.root? = some name) : I.value state = I.var name .object := by
  induction state with
  | var other ty =>
      cases ty with
      | object =>
          injection h with h
          rw [Interp.value, h]
      | _ => cases h
  | assign base index value tag ih _ =>
      rw [Interp.value]
      exact ih h
  | _ => cases h

namespace Lowering

/-- The identity of a state is that of its root. -/
theorem Plan.identity_of_root? {state : Expr} {name : String} (h : state.root? = some name) :
    Plan.identity state = Plan.constant (.var name .object) := by
  induction state with
  | var other ty =>
      cases ty with
      | object =>
          injection h with h
          rw [← h]
          rfl
      | _ => cases h
  | assign base index value tag ih _ =>
      rw [Plan.identity_assign]
      exact ih h
  | _ => cases h

/-- Comparing states is a formula, whatever the values that were
written. -/
theorem comparison_isFormula {op : BinaryOp} (hop : op.isEquality = true) {left right : Expr}
    {name other : String} (hleft : left.root? = some name) (hright : right.root? = some other) :
    (Expr.binary op left right).IsFormula := by
  intro _ found h
  rw [Plan.lowered_term fun _ => Expr.noConfusion] at h
  obtain ⟨t, ht, h⟩ := Plan.outcome_bind_eq_ok.1 h
  injection h with h
  obtain ⟨rule, a, b, hrule, rfl, hparts⟩ := outcome_binary ht
  rw [if_pos (Expr.typeOf_of_root? hleft), Plan.identity_of_root? hleft,
    Plan.identity_of_root? hright] at hparts
  have hmeans := equality_means hop hrule (constant_root_means hparts.1)
    (constant_root_means hparts.2)
  refine ⟨_, h.symm, hmeans.sort, fun I => ?_⟩
  rw [hmeans.value, Interp.value, I.value_of_root? hleft, I.value_of_root? hright]

end Lowering

namespace Interp

variable (I : Interp) {left right : Expr} {name other : String}

theorem value_eq (hleft : left.root? = some name) (hright : right.root? = some other) :
    I.value (.binary .eq left right)
      = .bool ((I.var name .object).same (I.var other .object)) := by
  rw [value, I.value_of_root? hleft, I.value_of_root? hright]
  rfl

theorem value_ne (hleft : left.root? = some name) (hright : right.root? = some other) :
    I.value (.binary .ne left right)
      = .bool !((I.var name .object).same (I.var other .object)) := by
  rw [value, I.value_of_root? hleft, I.value_of_root? hright]
  rfl

/-- Objects that are told apart are not the same. -/
theorem Separates.same_eq_false {I : Interp} {names : List String} (apart : I.Separates names)
    (hname : name ∈ names) (hother : other ∈ names) (differ : name ≠ other) :
    (I.var name .object).same (I.var other .object) = false := by
  rw [Bool.eq_false_iff, ne_eq, Value.same_eq_true]
  exact apart name hname other hother differ

end Interp

-- =============================================================== histories

/-- All states behind a handle have the root of its address. -/
theorem Heap.WellShaped.root?_of_history {heap : Heap} {events : List Event} {ref : Ref}
    {states : List Expr} (shaped : heap.WellShaped events)
    (h : ((Heap.history ref).run heap).1 = .ok states) :
    ∃ address history, ref.address? = some address ∧
      heap.histories.find? address = some history ∧
      ∀ state ∈ states, state.root? = some history.root := by
  obtain ⟨⟨address, tag⟩, _, hcheck, h⟩ := run_bind_eq_ok.1 (Prod.ext h rfl)
  obtain ⟨issued, htarget, rfl⟩ := checkTarget_eq_ok_iff.1 hcheck
  have haddress := address?_of_target? htarget
  obtain ⟨history, found, hhistory, -⟩ := shaped.shared ref issued address haddress
  rw [run_get_bind, hhistory] at h
  obtain ⟨rfl, -⟩ := run_pure_eq_ok.1 h
  exact ⟨address, history, haddress, found, (shaped.rooted address history found).2⟩

namespace Workspace

-- ================================================================ verdicts

/-- Objects that had been allocated at different addresses before a question
are told apart in answering it. -/
theorem Posed.same_eq_false {engine : Engine} {space after : Workspace} {exprs : List Expr}
    {sought : Interp → Prop} {verdict : Verdict}
    (posed : Posed engine space exprs sought verdict after) {events : List Heap.Event}
    (shaped : space.session.heap.WellShaped events) {a b : Nat} {history history' : History}
    (found : space.session.heap.histories.find? a = some history)
    (found' : space.session.heap.histories.find? b = some history') (differ : a ≠ b)
    {I : Interp} (apart : I.Separates (distinctNames after.session)) :
    (I.var history.root .object).same (I.var history'.root .object) = false := by
  have names := shaped.roots a b history history' found found' differ
  rw [← posed.around.heap] at found found'
  exact apart.same_eq_false (root_mem_distinctNames found) (root_mem_distinctNames found') names

/-- Whatever has been done to a session: states of objects of different
addresses, of whatever versions, are proved different and found not to be
equal; states of one address, through whatever handles, are proved
equal. -/
theorem objects_apart {engine : Engine} (exact : engine.Exact) {commands : List Command}
    (inSession : ∀ command ∈ commands, command.InSession) (timeout : Int)
    (assumeDistinct : Bool) (log : Logger) {tracked : Tracked}
    (run : Tracked.afterAll engine (fresh timeout assumeDistinct log) commands = tracked)
    {p q : Ref} {states others : List Expr}
    (hp : ((Heap.history p).run tracked.space.session.heap).1 = .ok states)
    (hq : ((Heap.history q).run tracked.space.session.heap).1 = .ok others)
    {s t : Expr} (hs : s ∈ states) (ht : t ∈ others) :
    (p.address? ≠ q.address? →
      (∀ proved after, step engine tracked.space (.prove (.binary .ne s t))
          = (.ok (.truth proved), after) → proved = true) ∧
      ∀ satisfiable after, step engine tracked.space (.isSatisfiable [.binary .eq s t])
          = (.ok (.truth satisfiable), after) → satisfiable = false) ∧
    (p.address? = q.address? →
      ∀ proved after, step engine tracked.space (.prove (.binary .eq s t))
          = (.ok (.truth proved), after) → proved = true) := by
  have grounded : Grounded tracked := by
    rw [← run]
    exact .afterAll inSession timeout assumeDistinct log
  obtain ⟨events, shaped⟩ := grounded.wellShaped
  obtain ⟨a, history, ha, found, rooted⟩ := shaped.root?_of_history hp
  obtain ⟨b, history', hb, found', rooted'⟩ := shaped.root?_of_history hq
  have hroot := rooted s hs
  have hroot' := rooted' t ht
  rw [ha, hb]
  constructor
  · intro addresses
    have differ : a ≠ b := fun same => addresses (by rw [same])
    constructor
    · intro proved after h
      obtain ⟨verdict, hanswer, posed⟩ := query_posed h rfl
        (List.forall_mem_singleton.2 (comparison_isFormula rfl hroot hroot')) grounded.lowering
      injection hanswer with hproved
      rw [hproved, posed.isUnsat_iff exact grounded.toCoherent]
      rintro ⟨I, -, denied, apart⟩
      rw [Command.Seeks, I.value_ne hroot hroot',
        posed.same_eq_false shaped found found' differ apart] at denied
      cases denied
    · intro satisfiable after h
      obtain ⟨verdict, hanswer, posed⟩ := query_posed h rfl
        (List.forall_mem_singleton.2 (comparison_isFormula rfl hroot hroot')) grounded.lowering
      injection hanswer with hsatisfiable
      rw [hsatisfiable, ← Bool.not_eq_true, posed.isSat_iff exact grounded.toCoherent]
      rintro ⟨I, -, sought, apart⟩
      have holds := sought _ List.mem_cons_self
      rw [Interp.Holds, I.value_eq hroot hroot',
        posed.same_eq_false shaped found found' differ apart] at holds
      cases holds
  · intro same proved after h
    cases same
    rw [found] at found'
    cases found'
    obtain ⟨verdict, hanswer, posed⟩ := query_posed h rfl
      (List.forall_mem_singleton.2 (comparison_isFormula rfl hroot hroot')) grounded.lowering
    injection hanswer with hproved
    rw [hproved, posed.isUnsat_iff exact grounded.toCoherent]
    rintro ⟨I, -, denied, -⟩
    rw [Command.Seeks, I.value_eq hroot hroot', Value.same_eq_true.2 rfl] at denied
    cases denied

-- --------------------------------------------- an object that is written to

/-- A session with two objects, one of which has been written to. -/
noncomputable def oneWritten : Tracked :=
  Tracked.afterAll oracle (fresh 0 false {}) [.heap (.allocate .object (some "T") (some "o")),
    .heap (.allocate .object (some "T") (some "p")),
    .heap (.writeField ⟨1, 0, .object 1 "T"⟩ (.int 0) (.int 5))]

theorem oneWritten_histories :
    ((Heap.history ⟨1, 0, .object 1 "T"⟩).run oneWritten.space.session.heap).1
        = .ok [.var "o" .object, .assign (.var "o" .object) 0 (.int 5) "T"] ∧
      ((Heap.history ⟨1, 1, .object 2 "T"⟩).run oneWritten.space.session.heap).1
        = .ok [.var "p" .object] :=
  ⟨rfl, rfl⟩

/-- The object is different from the other one. -/
def writtenDiffers : Expr :=
  .binary .ne (.assign (.var "o" .object) 0 (.int 5) "T") (.var "p" .object)

theorem oneWritten_prove : ((prove oracle writtenDiffers).run oneWritten.space).1.isOk = true := by
  decide +kernel

theorem objects_apart_written :
    ∃ proved after, step oracle oneWritten.space (.prove writtenDiffers)
      = (.ok (.truth proved), after) ∧ proved = true := by
  have inSession : ∀ command ∈ [Command.heap (.allocate .object (some "T") (some "o")),
      .heap (.allocate .object (some "T") (some "p")),
      .heap (.writeField ⟨1, 0, .object 1 "T"⟩ (.int 0) (.int 5))], command.InSession := by
    simp only [List.forall_mem_cons]
    exact ⟨.heap _, .heap _, .heap _, List.forall_mem_nil _⟩
  obtain ⟨hfirst, hsecond⟩ := oneWritten_histories
  obtain ⟨proved, after, hprove⟩ := eq_ok_of_isOk oneWritten_prove
  have answered : step oracle oneWritten.space (.prove writtenDiffers)
      = (.ok (.truth proved), after) := run_map_eq_ok.2 ⟨proved, hprove, rfl⟩
  obtain ⟨apart, -⟩ := objects_apart oracle_exact inSession 0 false {} rfl hfirst hsecond
    (List.mem_cons_of_mem _ List.mem_cons_self) List.mem_cons_self
  exact ⟨proved, after, answered, (apart (by decide)).1 _ _ answered⟩

end Workspace

end SymbolicHeap
