/-
A lowering that is watched.

A watched lowering is the lowering itself, on the program's own state and
memo, run on a builder that besides writes down when the value of a write
begins to be lowered, and when it has been (`Watched`).  What is watched is
what happens: the state that a watched lowering leads to and the answers
that it gives are those of the lowering (`perform_projects`,
`lowering_afterAll`).

A write is a node of an expression, so equal states at two nodes are two
writes (`Write`).  What a memo takes for a node is its own affair; that it
finds what it once kept there is all that is asked of it here
(`Memo.Lasting`).
-/
import SymbolicHeap.Proofs.Lowering.Transcript

namespace SymbolicHeap

-- ================================================================ memos

/-- A memo that finds what it once kept. -/
class Memo.Lasting (μ : Type) [Memo μ] where
  /-- Whether there are contents kept at a node. -/
  Knows : μ → Memo.Node μ → ChainKey → Prop
  not_knows_empty : ∀ node key, ¬ Knows Memo.empty node key
  knows_of_find : ∀ {memo : μ} {key node contents},
    (Memo.find key memo).1 = (node, some contents) → Knows memo node key
  not_knows_of_find : ∀ {memo : μ} {key node},
    (Memo.find key memo).1 = (node, none) → ¬ Knows memo node key
  knows_find : ∀ {memo : μ} {key other node},
    Knows (Memo.find key memo).2 node other ↔ Knows memo node other
  knows_keep : ∀ {memo : μ} {key other node place contents},
    Knows (Memo.keep node key contents memo) place other ↔
      (place = node ∧ other = key) ∨ Knows memo place other

instance : Memo.Lasting Chains where
  Knows chains _ key := (chains.find? key).isSome
  not_knows_empty _ _ := Bool.false_ne_true
  knows_of_find found := Option.isSome_iff_exists.2 ⟨_, congrArg Prod.snd found⟩
  not_knows_of_find missing :=
    Bool.eq_false_iff.1 (Option.isSome_eq_false_iff.2 (Option.isNone_iff_eq_none.2
      (congrArg Prod.snd missing)))
  knows_find := Iff.rfl
  knows_keep {memo key other node place contents} := by
    have here : place = node := rfl
    rw [show Memo.keep node key contents memo = Table.set memo key contents from rfl,
      Table.isSome_find?_set]
    simp [here]

instance {node : Nat → Nat} : Memo.Lasting (NodeChains node) where
  Knows chains place key := (chains.known.find? (place, key)).isSome
  not_knows_empty _ _ := Bool.false_ne_true
  knows_of_find found := by
    obtain ⟨here, found⟩ := Prod.mk.injEq .. ▸ found
    rw [← here]
    exact Option.isSome_iff_exists.2 ⟨_, found⟩
  not_knows_of_find missing := by
    obtain ⟨here, missing⟩ := Prod.mk.injEq .. ▸ missing
    rw [← here, missing]
    exact Bool.false_ne_true
  knows_find := Iff.rfl
  knows_keep := by
    intro memo key other node place contents
    show ((memo.known.set (node, key) contents).find? (place, other)).isSome ↔ _
    rw [Table.isSome_find?_set]
    simp

namespace Lowering

-- =============================================================== the log

/-- A write, as the state after it, at the node where that stands. -/
structure Write (ν : Type) where
  node : ν
  state : Expr

/-- What happens to the value that a write stores. -/
inductive Event (ν : Type)
  /-- It begins to be lowered. -/
  | begun (write : Write ν)
  /-- It has been lowered. -/
  | ended (write : Write ν)

def Event.write {ν : Type} : Event ν → Write ν
  | begun write => write
  | ended write => write

/-- The writes whose values began to be lowered, latest first. -/
def begun {ν : Type} (log : List (Event ν)) : List (Write ν) :=
  log.filterMap fun
    | .begun write => some write
    | .ended _ => none

/-- The state of a lowering, with a log. -/
structure Watched (μ : Type) [Memo μ] where
  lowering : With μ := {}
  /-- What happened, latest first. -/
  log : List (Event (Memo.Node μ)) := []

variable {μ : Type} [Memo μ] {α β : Type}

abbrev WatchedRun (μ : Type) [Memo μ] := ExceptT Fault (StateM (Watched μ))

namespace Watched

/-- A step of the lowering with nothing to write down. -/
def plain (step : RunWith μ α) : WatchedRun μ α := fun watched =>
  let (outcome, lowering) := step.run watched.lowering
  (outcome, { watched with lowering })

def noting (watched : Watched μ) (event : Event (Memo.Node μ)) : Watched μ :=
  { watched with log := event :: watched.log }

/-- Writes down the beginning and the end, unless there is a failure in
between. -/
def storing (node : Memo.Node μ) (state : Expr) (value : WatchedRun μ Term) :
    WatchedRun μ Term := do
  modify (noting · (.begun ⟨node, state⟩))
  let stored ← value
  modify (noting · (.ended ⟨node, state⟩))
  return stored

theorem storing_run (node : Memo.Node μ) (state : Expr) (value : WatchedRun μ Term)
    (watched : Watched μ) :
    (storing node state value).run watched =
      match value.run (watched.noting (.begun ⟨node, state⟩)) with
      | (.ok stored, after) => (.ok stored, after.noting (.ended ⟨node, state⟩))
      | (.error fault, after) => (.error fault, after) := by
  show (value >>= fun stored => do
    modify (noting · (.ended ⟨node, state⟩))
    return stored).run (watched.noting (.begun ⟨node, state⟩)) = _
  rw [run_bind]
  rcases value.run (watched.noting (.begun ⟨node, state⟩)) with ⟨fault | stored, after⟩
  · rfl
  · rfl

end Watched

instance : Translator (WatchedRun μ) where
  Node := Memo.Node μ
  fault cause := throw cause
  var name ty := Watched.plain (internVar name ty)
  function signature := Watched.plain (internFun signature)
  initial field := Watched.plain (initialContents field)
  build t := return t
  bare symbol := return Term.call symbol []
  lookUp key := Watched.plain (lookUp key)
  remember node key contents := Watched.plain (remember node key contents)
  storing := Watched.storing
  align e := Watched.plain (aligned e)
  seen := Watched.plain identitiesSeen
  reset := set ({} : Watched μ)

namespace Watched

section

variable {field : Field} {state : Expr} {watched : Watched μ} {node : Memo.Node μ}

/-- Contents that are found are not worked out. -/
theorem known_run_of_found {contents : Term}
    (found : (Memo.find (.of field state) watched.lowering.chains).1 = (node, some contents))
    (identity : WatchedRun μ Term) (work : Memo.Node μ → WatchedRun μ (Term × Term)) :
    (Builder.known field state identity work).run watched
      = (identity >>= fun identity => pure (contents, identity)).run
          ((plain (lookUp (.of field state))).run watched).2 := by
  unfold Builder.known
  rw [run_bind]
  simp only [Builder.lookUp, plain, lookUp, ExceptT.run, found]

/-- Contents that are not found are worked out and kept. -/
theorem known_run_of_not_found
    (missing : (Memo.find (.of field state) watched.lowering.chains).1 = (node, none))
    (identity : WatchedRun μ Term) (work : Memo.Node μ → WatchedRun μ (Term × Term)) :
    (Builder.known field state identity work).run watched
      = (work node >>= fun found => do
          plain (remember node (.of field state) found.1)
          return found).run ((plain (lookUp (.of field state))).run watched).2 := by
  unfold Builder.known
  rw [run_bind]
  simp only [Builder.lookUp, plain, lookUp, ExceptT.run, missing]
  rfl

end

/-- A watched lowering after one call, failed or not. -/
def after (watched : Watched μ) (call : Call) : Watched μ :=
  ((Builder.perform call : WatchedRun μ Answer).run watched).2

/-- A watched lowering after several calls.  A reset empties the log. -/
def afterAll (watched : Watched μ) (calls : List Call) : Watched μ :=
  calls.foldl after watched

end Watched

-- ============================================================ projection

/-- Without its log, the one does what the other does. -/
def Projects (x : WatchedRun μ α) (y : RunWith μ α) : Prop :=
  ∀ watched, (x.run watched).1 = (y.run watched.lowering).1 ∧
    (x.run watched).2.lowering = (y.run watched.lowering).2

namespace Projects

theorem plain (step : RunWith μ α) : Projects (Watched.plain step) step :=
  fun _ => ⟨rfl, rfl⟩

theorem pure (a : α) : Projects (pure a : WatchedRun μ α) (pure a) :=
  fun _ => ⟨rfl, rfl⟩

theorem bind {x : WatchedRun μ α} {y : RunWith μ α} {f : α → WatchedRun μ β}
    {g : α → RunWith μ β} (hx : Projects x y) (hf : ∀ a, Projects (f a) (g a)) :
    Projects (x >>= f) (y >>= g) := by
  intro watched
  obtain ⟨hout, hkept⟩ := hx watched
  rw [run_bind, run_bind]
  rcases hr : x.run watched with ⟨outcome, middle⟩
  rcases hr' : y.run watched.lowering with ⟨outcome', lowering⟩
  rw [hr, hr'] at hout hkept
  subst hout hkept
  cases outcome with
  | error fault => exact ⟨rfl, rfl⟩
  | ok a => exact hf a middle

/-- The value is lowered once between the two notes. -/
theorem storing {value : WatchedRun μ Term} {value' : RunWith μ Term}
    (h : Projects value value') (node : Memo.Node μ) (state : Expr) :
    Projects (Watched.storing node state value) value' := by
  intro watched
  obtain ⟨hout, hkept⟩ := h (watched.noting (.begun ⟨node, state⟩))
  rw [Watched.storing_run]
  rcases hr : value.run (watched.noting (.begun ⟨node, state⟩)) with ⟨fault | stored, middle⟩
  · rw [hr] at hout hkept
    exact ⟨hout, hkept⟩
  · rw [hr] at hout hkept
    exact ⟨hout, hkept⟩

theorem written {field : Field} {writes : Bool} {held : Ty} {before : WatchedRun μ (Term × Term)}
    {before' : RunWith μ (Term × Term)} {value : WatchedRun μ Term} {value' : RunWith μ Term}
    (hbefore : Projects before before') (hvalue : Projects value value') :
    Projects (Builder.written field writes held before value)
      (Builder.written field writes held before' value') := by
  refine hbefore.bind fun found => ?_
  cases writes with
  | false => exact .pure found
  | true =>
      by_cases fits : held = field.ty
      · simp only [fits, if_true]
        exact hvalue.bind fun stored => .pure _
      · simp only [fits, if_true, if_false]
        exact fun _ => ⟨rfl, rfl⟩

end Projects

theorem relates_projects : Builder.Relates fun _ {α} (x : WatchedRun μ α) y => Projects x y where
  mono _ := id
  pure := .pure
  bind := .bind
  fault _ _ := ⟨rfl, rfl⟩
  var _ _ := .plain _
  function _ := .plain _
  initial _ := .plain _
  build := .pure
  bare symbol := .pure (Term.call symbol [])
  align := id
  assign field hbase hvalue := by
    rw [Builder.contents_assign, Builder.contents_assign]
    refine (Projects.plain _).bind fun (node, found) => ?_
    cases found with
    | some contents => exact hbase.identity.bind fun _ => .pure _
    | none =>
        refine Projects.bind (.written (hbase.contents field) (hvalue.lower.storing node _)) ?_
        exact fun found => (Projects.plain _).bind fun _ => .pure _

theorem perform_projects (call : Call) :
    Projects (Builder.perform call : WatchedRun μ Answer) (perform call) := by
  by_cases forgets : call = .reset
  · subst forgets
    exact fun _ => ⟨rfl, rfl⟩
  · obtain ⟨_, projects⟩ := (relates_projects (μ := μ)).perform (.plain _) forgets
    exact projects

/-- A watched lowering goes through the states of the lowering. -/
theorem Watched.lowering_afterAll (watched : Watched μ) (calls : List Call) :
    (watched.afterAll calls).lowering = Lowering.afterAll watched.lowering calls := by
  induction calls generalizing watched with
  | nil => rfl
  | cons call rest ih =>
      refine (ih (watched.after call)).trans ?_
      rw [show (watched.after call).lowering = Lowering.after watched.lowering call from
        (perform_projects call watched).2]
      rfl

end Lowering

end SymbolicHeap
