/-
The uses of a lowering as data.

A lowering serves a sequence of calls; a call that fails leaves what it
had interned until then, and the next call goes on from there.
-/
import SymbolicHeap.Lowering.Basic

namespace SymbolicHeap.Lowering

/-- One use of a lowering. -/
inductive Call
  | lower (expr : Expr)
  | lowerAll (exprs : List Expr)
  /-- The axiom that roots are different objects; without roots, that all
  objects seen so far are. -/
  | distinct (roots : Option (List Expr))
  | reset

/-- What a use answers. -/
inductive Answer
  | done
  | lowered (lowered : Lowered)
  | loweredAll (lowered : List Lowered)
  | constraint (term : Term)

def Builder.perform {m : Type → Type} [Monad m] [Translator m] : Call → m Answer
  | .lower expr => .lowered <$> lowered expr
  | .lowerAll exprs => .loweredAll <$> loweredAll exprs
  | .distinct (some roots) => .constraint <$> distinctRoots roots
  | .distinct none => .constraint <$> distinctSeen
  | .reset => (fun _ => .done) <$> Translator.reset

variable {μ : Type} [Memo μ]

def perform (call : Call) : RunWith μ Answer := Builder.perform call

/-- The lowering after one call, failed or not. -/
def after (lowering : With μ) (call : Call) : With μ :=
  ((perform call).run lowering).2

/-- The lowering after several calls. -/
def afterAll (lowering : With μ) (calls : List Call) : With μ :=
  calls.foldl after lowering

/-- What a sequence of calls shows: each answer, with the symbols
interned by then. -/
def transcript (lowering : With μ) : List Call → List (Except Fault Answer × SymbolTable)
  | [] => []
  | call :: rest =>
      let (answer, lowering) := (perform call).run lowering
      (answer, lowering.symbols) :: transcript lowering rest

end SymbolicHeap.Lowering
