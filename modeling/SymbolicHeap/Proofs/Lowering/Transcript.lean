/-
Sequences of calls.

The answers of a lowering to a sequence of calls, and the symbols that it
has interned after each of them, do not hang on its memo
(`transcript_eq`).  With the memo that knows nothing on the one side, they
are those of a lowering that works every chain of writes out from the
bottom.

All that a sequence of calls can lead to is a faithful lowering
(`faithful_afterAll`); what later files say of a lowering in use, they say
of faithful ones.
-/
import SymbolicHeap.Lowering.Call
import SymbolicHeap.Proofs.Lowering.Memo

namespace SymbolicHeap.Lowering

variable {μ ν : Type} [Memo μ] [Memo ν] {α : Type}

-- =========================================================== whole answers

namespace Plan

def lowered (e : Expr) : Plan Lowered := Builder.lowered e

def loweredAll (exprs : List Expr) : Plan (List Lowered) := Builder.loweredAll exprs

def rootTerms (roots : List Expr) (terms : Table String Term) : Plan (Table String Term) :=
  Builder.rootTerms roots terms

def distinctRoots (roots : List Expr) : Plan Term := Builder.distinctRoots roots

/-- A function by itself is declared, and is no term. -/
theorem lowered_function (signature : Signature) :
    lowered (.function signature) =
      (do return .declaration (← symbol (.function signature))) := rfl

/-- What is no function has a term. -/
theorem lowered_term {e : Expr} (bare : ∀ signature, e ≠ .function signature) :
    lowered e = lower e >>= fun t => pure (.term t) := by
  cases e with
  | function signature => exact absurd rfl (bare signature)
  | _ => rfl

theorem loweredAll_cons (e : Expr) (rest : List Expr) :
    loweredAll (e :: rest) = (do
      let lowered ← lowered e
      return lowered :: (← loweredAll rest)) := rfl

/-- The roots are lowered first; only then may there be too few or of unlike
sorts. -/
theorem distinctRoots_eq (roots : List Expr) :
    distinctRoots roots = rootTerms roots {} >>= fun terms =>
      ofExcept (allDistinct terms.values) :=
  congrArg (rootTerms roots {} >>= ·) (funext fun _ => ofExcept_eq _)

end Plan

/-- What is lowered by itself runs as its plan, on any memo. -/
theorem lowered_runsAs (expr : Expr) :
    RunsAs (lowered expr : RunWith μ Lowered) (Plan.lowered expr) :=
  relates_runsAs.lowered (Nat.lt_succ_self _)

theorem loweredAll_runsAs (exprs : List Expr) :
    RunsAs (loweredAll exprs : RunWith μ (List Lowered)) (Plan.loweredAll exprs) :=
  relates_runsAs.loweredAll fun _ among => List.sizeOf_lt_of_mem among

theorem distinctRoots_runsAs (roots : List Expr) :
    RunsAs (distinctRoots roots : RunWith μ Term) (Plan.distinctRoots roots) :=
  relates_runsAs.distinctRoots 0 roots

-- ============================================================== two memos

/-- Two lowerings that have interned the same, each with a faithful memo. -/
structure Agree (left : With μ) (right : With ν) : Prop where
  symbols : left.symbols = right.symbols
  left : Faithful left
  right : Faithful right

/-- Two computations answer alike and lead from lowerings that agree to
lowerings that agree. -/
def Alike (x : RunWith μ α) (y : RunWith ν α) : Prop :=
  ∀ left right, Agree left right →
    (x.run left).1 = (y.run right).1 ∧ Agree (x.run left).2 (y.run right).2

/-- What runs as one plan, runs alike. -/
theorem RunsAs.alike {x : RunWith μ α} {y : RunWith ν α} {plan : Plan α} (hx : RunsAs x plan)
    (hy : RunsAs y plan) : Alike x y := by
  intro left right agree
  obtain ⟨hout, hsym, hfaith⟩ := hx left agree.left
  obtain ⟨hout', hsym', hfaith'⟩ := hy right agree.right
  rw [agree.symbols] at hout hsym
  exact ⟨hout.trans hout'.symm, hsym.trans hsym'.symm, hfaith, hfaith'⟩

theorem Alike.map {β : Type} {x : RunWith μ α} {y : RunWith ν α} (h : Alike x y) (f : α → β) :
    Alike (f <$> x) (f <$> y) := by
  intro left right agree
  obtain ⟨hout, hkept⟩ := h left right agree
  rw [run_map, run_map, hout]
  exact ⟨rfl, hkept⟩

/-- The objects seen so far stand in the symbol table. -/
theorem distinctSeen_run (lowering : With μ) :
    (distinctSeen : RunWith μ Term).run lowering
      = (allDistinct (lowering.symbols.identities.map (·.2)), lowering) := by
  show (Builder.ofExcept (allDistinct (lowering.symbols.identities.map (·.2))) :
    RunWith μ Term).run lowering = _
  cases allDistinct (lowering.symbols.identities.map (·.2)) with
  | ok term => rfl
  | error fault => rfl

/-- The axiom over all identities hangs on the symbols only. -/
theorem distinctSeen_alike :
    Alike (distinctSeen : RunWith μ Term) (distinctSeen : RunWith ν Term) := by
  intro left right agree
  rw [distinctSeen_run, distinctSeen_run, agree.symbols]
  exact ⟨rfl, agree⟩

theorem reset_alike :
    Alike (Translator.reset : RunWith μ Unit) (Translator.reset : RunWith ν Unit) :=
  fun _ _ _ => ⟨rfl, rfl, .fresh, .fresh⟩

/-- One call. -/
theorem perform_alike (call : Call) :
    Alike (perform call : RunWith μ Answer) (perform call : RunWith ν Answer) := by
  cases call with
  | lower expr => exact ((lowered_runsAs expr).alike (lowered_runsAs expr)).map _
  | lowerAll exprs => exact ((loweredAll_runsAs exprs).alike (loweredAll_runsAs exprs)).map _
  | distinct roots =>
      cases roots with
      | some roots =>
          exact ((distinctRoots_runsAs roots).alike (distinctRoots_runsAs roots)).map _
      | none => exact distinctSeen_alike.map _
  | reset => exact reset_alike.map _

/-- One call, then the transcript of the rest from where it ends. -/
theorem transcript_cons (lowering : With μ) (call : Call) (rest : List Call) :
    transcript lowering (call :: rest) =
      (((perform call).run lowering).1, (after lowering call).symbols)
        :: transcript (after lowering call) rest := rfl

/-- Any number of calls, from lowerings that agree. -/
theorem transcript_eq_of_agree {left : With μ} {right : With ν} (agree : Agree left right)
    (calls : List Call) : transcript left calls = transcript right calls := by
  induction calls generalizing left right with
  | nil => rfl
  | cons call rest ih =>
      obtain ⟨hout, hkept⟩ := perform_alike call left right agree
      rw [transcript_cons, transcript_cons, hout]
      unfold after
      rw [hkept.symbols, ih hkept]

/-- A memo is not to be seen: the answers to all calls, and the symbols
interned after each of them, are as without one. -/
theorem transcript_eq (calls : List Call) :
    transcript ({} : With μ) calls = transcript ({} : With NoChains) calls := by
  have agree : Agree ({} : With μ) ({} : With NoChains) := ⟨rfl, .fresh, .fresh⟩
  exact transcript_eq_of_agree agree calls

-- ==================================================== lowerings in use

/-- A call leaves a faithful lowering faithful, also one that fails. -/
theorem faithful_after {lowering : With μ} (faithful : Faithful lowering) (call : Call) :
    Faithful (after lowering call) :=
  (perform_alike call lowering lowering ⟨rfl, faithful, faithful⟩).2.left

/-- However a lowering has been used, its memo answers what would be lowered
anew. -/
theorem faithful_afterAll (calls : List Call) : Faithful (afterAll ({} : With μ) calls) := by
  suffices h : ∀ lowering : With μ, Faithful lowering → Faithful (afterAll lowering calls) from
    h _ .fresh
  induction calls with
  | nil => exact fun _ faithful => faithful
  | cons call rest ih => exact fun lowering faithful => ih _ (faithful_after faithful call)

end SymbolicHeap.Lowering
