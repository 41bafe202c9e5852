/-
Engines that are right.

An engine that finds formulas satisfiable hands over a model.  It is
truthful (`Engine.Truthful`) if the model shows an interpretation that
makes all of the formulas true: the literal of its value for each term
that has one.  There are engines that are exact and truthful at once
(`recalling_exact`, `recalling_truthful`), and they may know the answers
to some questions by heart.
-/
import SymbolicHeap.Proofs.Session.Assertions
import SymbolicHeap.Session.Command

namespace SymbolicHeap

-- ================================================================== models

/-- The term that spells out a value; there is none for an array. -/
def Value.literal? : Value → Option Term
  | .int value => some (.numeral value)
  | .bool value => some (.truth value)
  | .array _ => none

/-- A model shows an interpretation if it spells out the values of all
terms. -/
def Model.Shows (model : Model) (I : Interp) : Prop :=
  ∀ (t : Term) (s : Srt), t.sort? = some s →
    ∀ literal, (I.eval t).literal? = some literal → model.eval t = literal

theorem Model.Shows.eval_of_bool {model : Model} {I : Interp} (shows : model.Shows I) {t : Term}
    (hsort : t.sort? = some .bool) {b : Bool} (h : I.eval t = .bool b) :
    model.eval t = .truth b := by
  refine shows t .bool hsort _ ?_
  rw [h]
  rfl

/-- The model of an interpretation. -/
noncomputable def Interp.model (I : Interp) : Model where
  eval t := (I.eval t).literal?.getD t

theorem Interp.model_shows (I : Interp) : I.model.Shows I := by
  intro t s _ literal h
  show (I.eval t).literal?.getD t = literal
  rw [h]
  rfl

-- ================================================================= engines

/-- The models of an engine are models of what was asked. -/
def Engine.Truthful (engine : Engine) : Prop :=
  ∀ (terms : List Term) (model : Model), (∀ t ∈ terms, t.sort? = some .bool) →
    engine.decide terms = .sat model →
    ∃ I : Interp, (∀ t ∈ terms, I.eval t = .bool true) ∧ model.Shows I

/-- What was asked holds under the interpretation that the model shows. -/
theorem Engine.Truthful.models {engine : Engine} (truthful : engine.Truthful)
    {terms : List Term} {p : Interp → Prop} (describes : Describes terms p) {model : Model}
    (h : engine.decide terms = .sat model) : ∃ I : Interp, p I ∧ model.Shows I := by
  obtain ⟨I, holds, shows⟩ := truthful terms model describes.sorts h
  exact ⟨I, (describes.holds I).1 holds, shows⟩

open Classical in
/-- An engine that is right about everything.  It recalls that an
interpretation makes the questions of the one list true, and that nothing
makes any question of the other true. -/
noncomputable def recalling (I : Interp) (possible impossible : List (List Term)) : Engine where
  decide terms :=
    if terms ∈ possible then .sat I.model
    else if terms ∈ impossible then .unsat
    else if found : ∃ J : Interp, ∀ t ∈ terms, J.eval t = .bool true then .sat found.choose.model
    else .unsat
  simplify := id

section

variable {I : Interp} {possible impossible : List (List Term)}
  (yes : ∀ terms ∈ possible, ∀ t ∈ terms, I.eval t = .bool true)
  (no : ∀ terms ∈ impossible, ¬∃ J : Interp, ∀ t ∈ terms, J.eval t = .bool true)
include yes no

/-- It finds what there is to be found, and nothing else. -/
theorem recalling_decide (terms : List Term) :
    (∃ J : Interp, (∀ t ∈ terms, J.eval t = .bool true) ∧
      (recalling I possible impossible).decide terms = .sat J.model) ∨
    ((¬∃ J : Interp, ∀ t ∈ terms, J.eval t = .bool true) ∧
      (recalling I possible impossible).decide terms = .unsat) := by
  unfold recalling
  dsimp only
  split
  next known => exact .inl ⟨I, yes terms known, rfl⟩
  next =>
    split
    next known => exact .inr ⟨no terms known, rfl⟩
    next =>
      split
      next found => exact .inl ⟨_, found.choose_spec, rfl⟩
      next nothing => exact .inr ⟨nothing, rfl⟩

theorem recalling_exact : (recalling I possible impossible).Exact := by
  constructor
  · intro terms _
    rcases recalling_decide yes no terms with ⟨J, holds, h⟩ | ⟨nothing, h⟩
    · rw [h]
      exact iff_of_true rfl ⟨J, holds⟩
    · rw [h]
      exact iff_of_false Bool.false_ne_true nothing
  · intro terms _
    rcases recalling_decide yes no terms with ⟨J, holds, h⟩ | ⟨nothing, h⟩
    · rw [h]
      exact iff_of_false Bool.false_ne_true (not_not_intro ⟨J, holds⟩)
    · rw [h]
      exact iff_of_true rfl nothing

theorem recalling_truthful : (recalling I possible impossible).Truthful := by
  intro terms model _ hdecide
  rcases recalling_decide yes no terms with ⟨J, holds, h⟩ | ⟨-, h⟩
  · rw [h] at hdecide
    cases hdecide
    exact ⟨J, holds, J.model_shows⟩
  · rw [h] at hdecide
    cases hdecide

end

-- ------------------------------------------------------ objects to compare

/-- Two objects that have not been allocated are compared, one of which is
known to differ from an object that has. -/
def comparison : List Expr := [.binary .eq (.var "x" .object) (.var "y" .object)]

def compared : List Command := [.heap (.allocate .object (some "T") (some "o")),
  .assume [.binary .ne (.var "x" .object) (.var "o" .object)]]

def identityOf (name : String) : Term := .call (identitySymbol name) []

def comparisonTerms : List Term :=
  [.distinct [identityOf "x", identityOf "o"], .binary .eq (identityOf "x") (identityOf "y")]

def scattered : Interp := ((default : Interp).withIdentity "o" 1).withIdentity "p" 2

/-- An engine that knows by heart that the comparison may hold. -/
noncomputable def comparing : Engine :=
  recalling scattered [comparisonTerms ++ [.truth true],
    comparisonTerms ++ [.distinct [identityOf "o", identityOf "p"]]] []

/-- What it knows by heart is so. -/
theorem comparison_holds : ∀ terms ∈ [comparisonTerms ++ [.truth true],
    comparisonTerms ++ [.distinct [identityOf "o", identityOf "p"]]],
    ∀ t ∈ terms, scattered.eval t = .bool true := by
  have x : scattered.eval (identityOf "x") = .int 0 := rfl
  have y : scattered.eval (identityOf "y") = .int 0 := rfl
  have o : scattered.eval (identityOf "o") = .int 1 := rfl
  have p : scattered.eval (identityOf "p") = .int 2 := rfl
  simp [comparisonTerms, Interp.eval_distinct, Interp.eval_binary, Interp.operation, x, y, o, p]

theorem comparing_exact : comparing.Exact :=
  recalling_exact comparison_holds (List.forall_mem_nil _)

theorem comparing_truthful : comparing.Truthful :=
  recalling_truthful comparison_holds (List.forall_mem_nil _)

end SymbolicHeap
