/-
The verdicts of a session.

Along any run the assertions of the solver describe what has been assumed
(`Coherent`).  So a verdict, if there is one, is right about the symbols
that a solver reads: it is about the interpretations of these that make
the assumptions true and tell the objects of the session apart.

What expressions mean goes by their whole names.  An interpretation of
symbols is one of names as well, so what is found satisfiable is, and
what cannot be false is proved.  The converse needs symbols that tell
the names apart (`verdict_exact`); where a solver reads two names as one,
it may find nothing although there is something
(`verdict_wrong_behind_null`).
-/
import SymbolicHeap.Proofs.Semantics.Names
import SymbolicHeap.Proofs.Session.Undisturbed

namespace SymbolicHeap.Workspace

open Lowering

/-- The interpretations of names that a verdict is about: they make the
assumptions true, and tell the objects apart that are allocated, on demand
also those that have been lowered. -/
structure Tracked.Allows (tracked : Tracked) (after : Workspace) (N : Interp Label) : Prop where
  assumed : ∀ e ∈ tracked.assumed, N.Holds e
  admits : after.session.Admits N

-- ====================================================== names and symbols

section

variable {engine : Engine} {tracked : Tracked} {after : Workspace} {exprs : List Expr}
  {asked : Interp → Prop} {verdict : Verdict}

/-- An answered question does not see the difference between two
interpretations that agree on all that has been interned. -/
theorem Posed.agree {σ τ : Type} [Named σ] [Named τ]
    (posed : Posed engine tracked.space exprs asked verdict after) (grounded : Grounded tracked)
    {I : Interp σ} {J : Interp τ} (divide : I.DividesAs J)
    (same : Interp.Matches after.session.lowering.symbols.Has I J) :
    (∀ e ∈ tracked.assumed ++ exprs, I.value e = J.value e) ∧
      (I.Separates (distinctNames after.session) ↔ J.Separates (distinctNames after.session)) := by
  obtain ⟨-, knows⟩ := posed.known grounded
  constructor
  · intro e he
    obtain ⟨t, ht, -⟩ := (knows e he).formula
    exact value_eq divide ht (same.mono (knows e he).has)
  · have objects : ∀ name ∈ distinctNames after.session, I.var name .object = J.var name .object :=
      fun name hname => same.var (posed.has name hname)
    unfold Interp.Separates
    refine forall₂_congr fun x hx => forall₂_congr fun y hy => ?_
    rw [objects x hx, objects y hy]

/-- The roots of the addresses have names of their own. -/
theorem Posed.admits_iff {σ : Type} [Named σ]
    (posed : Posed engine tracked.space exprs asked verdict after) (grounded : Grounded tracked)
    (N : Interp σ) : after.session.Admits N ↔ N.Separates (distinctNames after.session) := by
  obtain ⟨cells, refines⟩ := grounded.heap
  have names := refines.names
  rw [← posed.around.heap] at names
  exact Workspace.admits_iff names posed.has N

/-- What goes for symbols goes for names. -/
theorem Posed.byName (posed : Posed engine tracked.space exprs asked verdict after)
    (grounded : Grounded tracked) {I : Interp} (holds : ∀ e ∈ tracked.assumed, I.Holds e)
    (separates : I.Separates (distinctNames after.session)) :
    tracked.Allows after I.byName ∧ ∀ e ∈ exprs, I.byName.value e = I.value e := by
  obtain ⟨values, objects⟩ := posed.agree grounded I.byName_divides (I.byName_matches _)
  rw [List.forall_mem_append] at values
  refine ⟨⟨fun e he => (values.1 e he).trans (holds e he), ?_⟩, values.2⟩
  exact (posed.admits_iff grounded _).2 (objects.2 separates)

/-- What goes for names goes for symbols that tell them apart. -/
theorem Posed.bySymbol (posed : Posed engine tracked.space exprs asked verdict after)
    (grounded : Grounded tracked) (apart : after.session.lowering.symbols.Apart)
    {N : Interp Label} (allowed : tracked.Allows after N) :
    ∃ I : Interp, (∀ e ∈ tracked.assumed, I.Holds e) ∧
      I.Separates (distinctNames after.session) ∧ ∀ e ∈ exprs, I.value e = N.value e := by
  obtain ⟨owned, -⟩ := posed.known grounded
  obtain ⟨values, objects⟩ := posed.agree grounded (SymbolTable.bySymbol_divides N)
    (apart.matches owned N)
  rw [List.forall_mem_append] at values
  refine ⟨_, fun e he => (values.1 e he).trans (allowed.assumed e he), ?_, values.2⟩
  exact objects.2 ((posed.admits_iff grounded N).1 allowed.admits)

end

-- =========================================================== the verdicts

/-- The verdicts of a session.  What is found satisfiable is made true,
with all assumptions, by some interpretation of names that tells the
objects apart; and what no such interpretation makes false is proved.
Where no two names that have been interned are one to the solver, the
converse holds too, so that the verdicts are exactly right. -/
theorem verdict_exact {engine : Engine} (exact : engine.Exact) {commands : List Command}
    (inSession : ∀ command ∈ commands, command.InSession) (timeout : Int)
    (assumeDistinct : Bool) (log : Logger) {tracked : Tracked}
    (run : Tracked.afterAll engine (fresh timeout assumeDistinct log) commands = tracked) :
    (∀ (exprs : List Expr) (satisfiable : Bool) (after : Workspace), (∀ e ∈ exprs, e.Made) →
      step engine tracked.space (.isSatisfiable exprs) = (.ok (.truth satisfiable), after) →
      (satisfiable = true → ∃ N, tracked.Allows after N ∧ ∀ e ∈ exprs, N.Holds e) ∧
      (after.session.lowering.symbols.Apart →
        (∃ N, tracked.Allows after N ∧ ∀ e ∈ exprs, N.Holds e) → satisfiable = true)) ∧
    (∀ (e : Expr) (proved : Bool) (after : Workspace), e.Made →
      step engine tracked.space (.prove e) = (.ok (.truth proved), after) →
      ((¬∃ N, tracked.Allows after N ∧ N.value e = .bool false) → proved = true) ∧
      (after.session.lowering.symbols.Apart → proved = true →
        ¬∃ N, tracked.Allows after N ∧ N.value e = .bool false)) := by
  have grounded : Grounded tracked := by
    rw [← run]
    exact .afterAll inSession timeout assumeDistinct log
  constructor
  · intro exprs satisfiable after made h
    obtain ⟨verdict, hanswer, posed⟩ :=
      query_posed h rfl (fun e he => (made e he).isFormula) grounded.lowering
    cases hanswer
    have answer := posed.isSat_iff exact grounded.toCoherent
    constructor
    · intro sat
      obtain ⟨I, holds, asked, separates⟩ := answer.1 sat
      obtain ⟨allowed, values⟩ := posed.byName grounded holds separates
      exact ⟨_, allowed, fun e he => (values e he).trans (asked e he)⟩
    · rintro apart ⟨N, allowed, asked⟩
      obtain ⟨I, holds, separates, values⟩ := posed.bySymbol grounded apart allowed
      exact answer.2 ⟨I, holds, fun e he => (values e he).trans (asked e he), separates⟩
  · intro e proved after made h
    have formulas : ∀ other ∈ [e], other.IsFormula := List.forall_mem_singleton.2 made.isFormula
    obtain ⟨verdict, hanswer, posed⟩ := query_posed h rfl formulas grounded.lowering
    cases hanswer
    have answer := posed.isUnsat_iff exact grounded.toCoherent
    constructor
    · intro nothing
      refine answer.2 fun ⟨I, holds, denied, separates⟩ => nothing ?_
      obtain ⟨allowed, values⟩ := posed.byName grounded holds separates
      exact ⟨_, allowed, (values e List.mem_cons_self).trans denied⟩
    · rintro apart unsat ⟨N, allowed, denied⟩
      obtain ⟨I, holds, separates, values⟩ := posed.bySymbol grounded apart allowed
      exact answer.1 unsat ⟨I, holds, (values e List.mem_cons_self).trans denied, separates⟩

-- ------------------------------------------------- two allocated objects

/-- The formula that two objects are different. -/
def twoApart : Term :=
  .distinct [.call (.ofName "o!id" [] .int) [], .call (.ofName "p!id" [] .int) []]

open Classical in
/-- An engine that is right about everything, and answers at once that two
objects cannot be both different and the same. -/
noncomputable def oracle : Engine where
  decide terms :=
    if terms = [twoApart, twoApart.not] then .unsat
    else if ∃ I : Interp, ∀ t ∈ terms, I.eval t = .bool true then .sat ⟨id⟩
    else .unsat
  simplify := id

theorem oracle_exact : oracle.Exact := by
  have never : ¬∃ I : Interp, ∀ t ∈ [twoApart, twoApart.not], I.eval t = .bool true := by
    rintro ⟨I, h⟩
    have hapart := h twoApart (by simp)
    have hnot := h twoApart.not (by simp)
    rw [I.eval_not, hapart] at hnot
    cases hnot
  refine ⟨fun terms _ => ?_, fun terms _ => ?_⟩ <;> unfold oracle <;> dsimp only <;> split
  next known =>
    rw [known, iff_false_right never]
    exact Bool.false_ne_true
  next =>
    split
    next possible => exact iff_of_true rfl possible
    next impossible => exact iff_of_false Bool.false_ne_true impossible
  next known =>
    rw [known]
    exact iff_of_true rfl never
  next =>
    split
    next possible => exact iff_of_false Bool.false_ne_true (not_not_intro possible)
    next impossible => exact iff_of_true rfl impossible

def pairAllocated : List Command := [.heap (.allocate .object (some "T") (some "o")),
  .heap (.allocate .object (some "T") (some "p"))]

/-- The two objects are different. -/
def pairDiffers : Expr := .binary .ne (.var "o" .object) (.var "p" .object)

theorem pairDiffers_proved :
    let (answer, after) := step oracle
      (Tracked.afterAll oracle (fresh 0 false {}) pairAllocated).space (.prove pairDiffers)
    answer.isOk = true ∧
      ∀ label ∈ after.session.lowering.symbols.owners.keys, '\x00' ∉ label.name.toList := by
  decide +kernel

/-- What has been allocated is different. -/
theorem verdict_exact_apart :
    ∃ after, step oracle (Tracked.afterAll oracle (fresh 0 false {}) pairAllocated).space
        (.prove pairDiffers) = (.ok (.truth true), after) ∧
      ¬∃ N, (Tracked.afterAll oracle (fresh 0 false {}) pairAllocated).Allows after N ∧
        N.value pairDiffers = .bool false := by
  have made : pairDiffers.Made := .binary (.var rfl) (.var rfl) rfl
  have inSession : ∀ command ∈ pairAllocated, command.InSession := by
    unfold pairAllocated
    rw [List.forall_mem_cons, List.forall_mem_singleton]
    exact ⟨.heap _, .heap _⟩
  obtain ⟨-, proofs⟩ := verdict_exact oracle_exact inSession 0 false {} rfl
  obtain ⟨-, whole⟩ := pairDiffers_proved
  refine ⟨_, rfl, ?_⟩
  exact (proofs _ _ _ made rfl).2 (SymbolTable.Whole.apart fun label ⟨_, _, held⟩ =>
    whole label (Table.mem_keys_of_find? held)) rfl

-- -------------------------------------------------- two names read as one

def behindNull : List Command := [.heap (.allocate .object (some "T") (some "a\x00b")),
  .heap (.allocate .object (some "T") (some "a\x00c"))]

/-- An interpretation of names that tells the two apart. -/
def byFullName : Interp Label where
  symbol label _ := if label = ⟨"a\x00b!id", [], .int⟩ then .int 1 else .zero label.result
  quotientByZero _ := 0
  remainderByZero _ := 0
  sorted label args := by
    by_cases first : label = ⟨"a\x00b!id", [], .int⟩
    · rw [if_pos first, first]
      exact Value.hasSort_int 1
    · rw [if_neg first]
      exact Value.hasSort_zero _

/-- Two objects whose names differ only behind a null character may well
be different, but the session finds nothing. -/
theorem verdict_wrong_behind_null :
    telling.Exact ∧ ∃ after,
      step telling (Tracked.afterAll telling (fresh 0 false {}) behindNull).space
        (.isSatisfiable []) = (.ok (.truth false), after) ∧
      (Tracked.afterAll telling (fresh 0 false {}) behindNull).Allows after byFullName := by
  refine ⟨telling_exact, _, rfl, ?_, ?_, fun demanded => nomatch demanded⟩
  · exact List.forall_mem_nil _
  · show [Value.int 1, .int 0].Nodup
    simp

end SymbolicHeap.Workspace
