import SymbolicHeap.Expr.Variables
import SymbolicHeap.Session.Command
import SymbolicHeap.Settings.File
import SymbolicHeap.Smt.Dag
import SymbolicHeap.Solver.Search
import SymbolicHeap.Lowering.Call
import SymbolicHeap.Proofs.Ty.Readable
import SymbolicHeap.Proofs.Expr.Made
import SymbolicHeap.Proofs.Lowering.Request
import SymbolicHeap.Proofs.Lowering.Related
import SymbolicHeap.Proofs.Lowering.Plan
import SymbolicHeap.Proofs.Lowering.Memo
import SymbolicHeap.Proofs.Lowering.Transcript
import SymbolicHeap.Proofs.Lowering.Watched
import SymbolicHeap.Proofs.Lowering.Once
import SymbolicHeap.Proofs.Lowering.Owner
import SymbolicHeap.Proofs.Lowering.Order
import SymbolicHeap.Proofs.Lowering.Drawn
import SymbolicHeap.Proofs.Semantics.Term
import SymbolicHeap.Proofs.Semantics.Symbols
import SymbolicHeap.Proofs.Semantics.Sort
import SymbolicHeap.Proofs.Semantics.Expr
import SymbolicHeap.Proofs.Semantics.Lowering
import SymbolicHeap.Proofs.Heap.Success
import SymbolicHeap.Proofs.Heap.Step
import SymbolicHeap.Proofs.Heap.Write
import SymbolicHeap.Proofs.Heap.Plain
import SymbolicHeap.Proofs.Heap.Read
import SymbolicHeap.Proofs.Heap.History
import SymbolicHeap.Proofs.Heap.Checks
import SymbolicHeap.Proofs.Heap.Refusal
import SymbolicHeap.Proofs.Heap.Count
import SymbolicHeap.Proofs.Heap.Elements
import SymbolicHeap.Proofs.Heap.Naming
import SymbolicHeap.Proofs.Heap.Untagged
import SymbolicHeap.Proofs.Lowering.Alike
import SymbolicHeap.Proofs.Heap.Alike
import SymbolicHeap.Proofs.Heap.Progress
import SymbolicHeap.Proofs.Heap.Commute
import SymbolicHeap.Proofs.Session.Distinct
import SymbolicHeap.Proofs.Session.Assertions
import SymbolicHeap.Proofs.Session.Step
import SymbolicHeap.Proofs.Session.Question
import SymbolicHeap.Proofs.Session.Run
import SymbolicHeap.Proofs.Session.Verdict
import SymbolicHeap.Proofs.Session.Frame
import SymbolicHeap.Proofs.Session.Stack
import SymbolicHeap.Proofs.Session.Apart
import SymbolicHeap.Proofs.Session.Oracle
import SymbolicHeap.Proofs.Session.Undisturbed
import SymbolicHeap.Proofs.Session.Model
import SymbolicHeap.Proofs.Lowering.Stuck
import SymbolicHeap.Proofs.Semantics.Strict
import SymbolicHeap.Proofs.Lockstep
import SymbolicHeap.Proofs.Heap.Renumber
import SymbolicHeap.Proofs.Session.Beside
import SymbolicHeap.Proofs.Session.Reset
import SymbolicHeap.Proofs.Session.Logging
import SymbolicHeap.Proofs.Session.Dual
import SymbolicHeap.Proofs.Session.Statistics
import SymbolicHeap.Proofs.Session.Noted
import SymbolicHeap.Proofs.Lowering.Variables
import SymbolicHeap.Proofs.FileTree
import SymbolicHeap.Proofs.Settings.Search
import SymbolicHeap.Proofs.Settings.RoundTrip
