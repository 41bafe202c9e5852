/-
The order of translation does not matter.

Symbols go to whoever asks first, and only whoever comes second is
refused.  Yet whether all of a number of requests are granted is a matter
of which requests they are: each must have a symbol, and every two of them
must get along (`SymbolTable.grantAll_iff`).  That is the same in any
order, and holds of a part if it holds of the whole.

What an expression asks for, and the term that it comes to, are fixed by
its plan.  So expressions that go through in one order go through in any
other, each with the term that it has alone (`answers_perm`).
-/
import SymbolicHeap.Proofs.Lowering.Owner

namespace SymbolicHeap.Lowering

-- ============================================================== requests

/-- Every request has a symbol, and every two of them get along. -/
structure Request.Harmonious (requests : List Request) : Prop where
  symbols : ∀ request ∈ requests, ∃ symbol, request.symbol = .ok symbol
  pairwise : requests.Pairwise Request.Compatible

namespace SymbolTable

/-- All requests are granted if they get along with the entries and with
each other. -/
theorem Owned.grantAll_iff {table : SymbolTable} (owned : table.Owned)
    (requests : List Request) :
    (table.grantAll requests).1 = .ok () ↔
      Request.Harmonious requests ∧
        ∀ request ∈ requests, ∀ other, table.Has other → other.Compatible request := by
  induction requests generalizing table with
  | nil =>
      refine ⟨fun _ => ⟨⟨?_, .nil⟩, ?_⟩, fun _ => rfl⟩
      · simp
      · simp
  | cons request rest ih =>
      rcases hg : table.grant request with ⟨fault | ⟨⟩, after⟩
      · rw [grantAll_cons_of_error hg]
        constructor
        · intro h
          cases h
        · rintro ⟨harmonious, compatible⟩
          obtain ⟨after, granted⟩ := owned.grant_iff.2
            ⟨harmonious.symbols request List.mem_cons_self,
              compatible request List.mem_cons_self⟩
          rw [hg] at granted
          cases granted
      · obtain ⟨owned', hhas⟩ := owned.grant hg
        obtain ⟨symbols, compatible⟩ := owned.grant_iff.1 ⟨after, hg⟩
        rw [grantAll_cons_of_ok hg, ih owned']
        constructor
        · rintro ⟨harmonious, later⟩
          refine ⟨⟨List.forall_mem_cons.2 ⟨symbols, harmonious.symbols⟩,
            List.pairwise_cons.2 ⟨fun other hother => ?_, harmonious.pairwise⟩⟩,
            List.forall_mem_cons.2 ⟨compatible, fun other hother known has => ?_⟩⟩
          · exact later other hother request ((hhas request).2 (.inr rfl))
          · exact later other hother known ((hhas known).2 (.inl has))
        · rintro ⟨harmonious, known⟩
          obtain ⟨first, pairwise⟩ := List.pairwise_cons.1 harmonious.pairwise
          refine ⟨⟨(List.forall_mem_cons.1 harmonious.symbols).2, pairwise⟩,
            fun other hother entry has => ?_⟩
          rcases (hhas entry).1 has with has | rfl
          · exact (List.forall_mem_cons.1 known).2 other hother entry has
          · exact first other hother

/-- A table without entries grants what is in harmony with itself. -/
theorem grantAll_iff (requests : List Request) :
    (({} : SymbolTable).grantAll requests).1 = .ok () ↔ Request.Harmonious requests := by
  rw [Owned.empty.grantAll_iff]
  refine ⟨And.left, fun harmonious => ⟨harmonious, fun request _ other has => ?_⟩⟩
  cases other with
  | var | function | array =>
      obtain ⟨_, found⟩ := has
      cases found

end SymbolTable

namespace Request.Harmonious

variable {requests other : List Request}

theorem perm (harmonious : Harmonious requests) (same : requests.Perm other) :
    Harmonious other where
  symbols request hr := harmonious.symbols request (same.mem_iff.2 hr)
  pairwise := (same.pairwise_iff Compatible.symm).1 harmonious.pairwise

theorem sublist (harmonious : Harmonious requests) (fewer : other.Sublist requests) :
    Harmonious other where
  symbols request hr := harmonious.symbols request (fewer.mem hr)
  pairwise := harmonious.pairwise.sublist fewer

end Request.Harmonious

-- =============================================================== answers

variable {μ : Type} [Memo μ]

/-- The answers to expressions that are lowered one after the other; what
comes after a failure is lowered all the same. -/
def answers (lowering : With μ) (exprs : List Expr) : List (Except Fault Answer) :=
  (transcript lowering (exprs.map .lower)).map (·.1)

/-- The answer that a fresh lowering gives to an expression alone. -/
def alone (μ : Type) [Memo μ] (expr : Expr) : Except Fault Answer :=
  ((perform (.lower expr)).run ({} : With μ)).1

theorem answers_cons (lowering : With μ) (expr : Expr) (rest : List Expr) :
    answers lowering (expr :: rest) =
      ((perform (.lower expr)).run lowering).1 :: answers (after lowering (.lower expr)) rest :=
  rfl

namespace Plan

/-- What expressions ask for, one after the other. -/
def requestsAll (exprs : List Expr) : List Request :=
  exprs.flatMap fun expr => (lowered expr).requests

/-- The answer to an expression whose requests are granted. -/
def answer (expr : Expr) : Except Fault Answer :=
  (lowered expr).outcome.map Answer.lowered

end Plan

/-- One expression goes through if its plan does and its requests are
granted. -/
theorem perform_lower {lowering : With μ} (faithful : Faithful lowering) (expr : Expr) :
    (((perform (.lower expr)).run lowering).1.isOk = true ↔
      (Plan.answer expr).isOk = true ∧
        (lowering.symbols.grantAll (Plan.lowered expr).requests).1 = .ok ()) ∧
    (((perform (.lower expr)).run lowering).1.isOk = true →
      ((perform (.lower expr)).run lowering).1 = Plan.answer expr) := by
  have hrun : ((perform (.lower expr)).run lowering).1
      = (((Plan.lowered expr).run lowering.symbols).1).map Answer.lowered := by
    show ((Answer.lowered <$> lowered expr : RunWith μ Answer).run lowering).1 = _
    rw [run_map, (lowered_runsAs expr lowering faithful).outcome]
  rw [hrun, Plan.run, Plan.answer]
  rcases lowering.symbols.grantAll (Plan.lowered expr).requests with ⟨fault | ⟨⟩, after⟩
  · simp [Except.map, Except.isOk, Except.toBool]
  · simp

/-- Several expressions go through if their plans do and all their requests
are granted; each has then the answer of its plan. -/
theorem answers_isOk {lowering : With μ} (faithful : Faithful lowering) (exprs : List Expr) :
    ((∀ answer ∈ answers lowering exprs, answer.isOk = true) ↔
      (∀ expr ∈ exprs, (Plan.answer expr).isOk = true) ∧
        (lowering.symbols.grantAll (Plan.requestsAll exprs)).1 = .ok ()) ∧
    ((∀ answer ∈ answers lowering exprs, answer.isOk = true) →
      answers lowering exprs = exprs.map Plan.answer) := by
  induction exprs generalizing lowering with
  | nil =>
      refine ⟨⟨fun _ => ⟨?_, rfl⟩, fun _ => ?_⟩, fun _ => rfl⟩
      · simp
      · simp [answers, transcript]
  | cons expr rest ih =>
      obtain ⟨hfirst, hanswer⟩ := perform_lower faithful expr
      obtain ⟨hrest, hanswers⟩ := ih (faithful_after faithful (.lower expr))
      have hsym : (after lowering (.lower expr)).symbols
          = (lowering.symbols.grantAll (Plan.lowered expr).requests).2 :=
        (lowered_runsAs expr).map_symbols _ faithful
      have happend : (lowering.symbols.grantAll (Plan.requestsAll (expr :: rest))).1 = .ok () ↔
          (lowering.symbols.grantAll (Plan.lowered expr).requests).1 = .ok () ∧
            ((after lowering (.lower expr)).symbols.grantAll (Plan.requestsAll rest)).1
              = .ok () := by
        rw [hsym]
        show (lowering.symbols.grantAll
          ((Plan.lowered expr).requests ++ Plan.requestsAll rest)).1 = _ ↔ _
        rw [SymbolTable.grantAll_append]
        rcases lowering.symbols.grantAll (Plan.lowered expr).requests with ⟨fault | ⟨⟩, granted⟩
        · simp
        · simp
      rw [answers_cons, List.forall_mem_cons, List.forall_mem_cons, happend, hfirst, hrest]
      refine ⟨?_, ?_⟩
      · constructor
        · rintro ⟨⟨hplan, hgrant⟩, hplans, hgrants⟩
          exact ⟨⟨hplan, hplans⟩, hgrant, hgrants⟩
        · rintro ⟨⟨hplan, hplans⟩, hgrant, hgrants⟩
          exact ⟨⟨hplan, hgrant⟩, hplans, hgrants⟩
      · rintro ⟨first, later⟩
        rw [hanswer (hfirst.2 first), hanswers (hrest.2 later), List.map_cons]

/-- A fresh lowering takes expressions whose requests are in harmony. -/
theorem answers_isOk_iff (exprs : List Expr) :
    (∀ answer ∈ answers ({} : With μ) exprs, answer.isOk = true) ↔
      (∀ expr ∈ exprs, (Plan.answer expr).isOk = true) ∧
        Request.Harmonious (Plan.requestsAll exprs) := by
  rw [(answers_isOk .fresh exprs).1]
  show _ ∧ (SymbolTable.grantAll {} _).1 = _ ↔ _
  rw [SymbolTable.grantAll_iff]

/-- One of several expressions that go through goes through alone, with
the same answer. -/
theorem alone_eq {exprs : List Expr}
    (h : ∀ answer ∈ answers ({} : With μ) exprs, answer.isOk = true) {expr : Expr}
    (hexpr : expr ∈ exprs) : alone μ expr = Plan.answer expr := by
  obtain ⟨plans, harmonious⟩ := answers_isOk_iff exprs |>.1 h
  have part : (Plan.lowered expr).requests.Sublist (Plan.requestsAll exprs) := by
    rw [Plan.requestsAll, List.flatMap_def]
    exact List.sublist_flatten_of_mem (List.mem_map_of_mem hexpr)
  have granted := (SymbolTable.grantAll_iff _).2 (harmonious.sublist part)
  obtain ⟨hfirst, hanswer⟩ := perform_lower (μ := μ) .fresh expr
  exact hanswer (hfirst.2 ⟨plans expr hexpr, granted⟩)

/-- Expressions that go through in one order go through in every other.
Each has the same answer in both, the one that it has alone. -/
theorem answers_perm {exprs other : List Expr} (same : exprs.Perm other) :
    ((∀ answer ∈ answers ({} : With μ) exprs, answer.isOk = true) ↔
      ∀ answer ∈ answers ({} : With μ) other, answer.isOk = true) ∧
    ((∀ answer ∈ answers ({} : With μ) exprs, answer.isOk = true) →
      answers ({} : With μ) exprs = exprs.map (alone μ) ∧
      answers ({} : With μ) other = other.map (alone μ)) := by
  have requests : (Plan.requestsAll exprs).Perm (Plan.requestsAll other) :=
    same.flatMap_right _
  have both : (∀ answer ∈ answers ({} : With μ) exprs, answer.isOk = true) ↔
      ∀ answer ∈ answers ({} : With μ) other, answer.isOk = true := by
    rw [answers_isOk_iff, answers_isOk_iff]
    constructor
    · rintro ⟨plans, harmonious⟩
      exact ⟨fun expr he => plans expr (same.mem_iff.2 he), harmonious.perm requests⟩
    · rintro ⟨plans, harmonious⟩
      exact ⟨fun expr he => plans expr (same.mem_iff.1 he), harmonious.perm requests.symm⟩
  have each : ∀ exprs : List Expr,
      (∀ answer ∈ answers ({} : With μ) exprs, answer.isOk = true) →
        answers ({} : With μ) exprs = exprs.map (alone μ) := by
    intro exprs h
    rw [(answers_isOk .fresh exprs).2 h]
    exact List.map_congr_left fun expr he => (alone_eq h he).symm
  exact ⟨both, fun h => ⟨each exprs h, each other (both.1 h)⟩⟩

/-- Two states on one chain and a sum over both, forwards and backwards. -/
theorem answers_perm_chain :
    let root := Expr.var "o" .object
    let first := Expr.assign root 0 (.int 5) "T"
    let read := Expr.access first (some root) ⟨"T", 0, .int⟩
    let second := Expr.assign first 0 read "T"
    let sum := Expr.binary .add (.access second (some first) ⟨"T", 0, .int⟩) read
    (∀ answer ∈ answers ({} : Lowering) [second, read, sum], answer.isOk = true) ∧
      answers ({} : Lowering) [sum, read, second]
        = [sum, read, second].map (alone Chains) := by
  intro root first read second sum
  have forwards : ∀ answer ∈ answers ({} : Lowering) [second, read, sum],
      answer.isOk = true := by decide +kernel
  have same : [second, read, sum].Perm [sum, read, second] :=
    (List.reverse_perm [second, read, sum]).symm
  exact ⟨forwards, ((answers_perm same).2 forwards).2⟩

end SymbolicHeap.Lowering
