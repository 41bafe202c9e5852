/-
Lowering without a state.

What a lowering makes of an expression does not hang on what was lowered
before: the symbols that it asks for, their order, and the term that it
builds from the answers are fixed by the expression.  Only whether the
symbols are granted is up to the table.  The plan of an expression
(`Plan.lower`) is that fixed part, lowered on a builder that only writes
down what it is asked for; running a plan on a table puts its requests to
the table and then yields its outcome.

Nothing is remembered here: contents are worked out from the bottom of the
chain each time.
-/
import SymbolicHeap.Proofs.Expr.Made
import SymbolicHeap.Proofs.Lowering.Related
import SymbolicHeap.Proofs.Lowering.Request

namespace SymbolicHeap.Lowering

/-- The symbols that a lowering asks for, up to where it fails of itself,
and what it makes of them. -/
structure Plan (α : Type) where
  requests : List Request
  outcome : Except Fault α

namespace Plan

variable {α β : Type}

-- ============================================================ sequences

instance : Monad Plan where
  pure a := ⟨[], .ok a⟩
  bind plan next :=
    match plan.outcome with
    | .ok a => ⟨plan.requests ++ (next a).requests, (next a).outcome⟩
    | .error fault => ⟨plan.requests, .error fault⟩

/-- An outcome that takes no symbols. -/
def ofExcept (outcome : Except Fault α) : Plan α := ⟨[], outcome⟩

/-- The constant that a request is for. -/
def constant (request : Request) : Plan Term := ⟨[request], request.constant⟩

/-- The symbol that a request is for. -/
def symbol (request : Request) : Plan Symbol := ⟨[request], request.symbol⟩

/-- Puts the requests to a table; the outcome holds if all are granted. -/
def run (plan : Plan α) (table : SymbolTable) : Except Fault α × SymbolTable :=
  match table.grantAll plan.requests with
  | (.ok _, after) => (plan.outcome, after)
  | (.error fault, after) => (.error fault, after)

/-- A last step that only hands on its outcome adds nothing. -/
theorem bind_pure (plan : Plan α) : plan >>= pure = plan := by
  show (match plan.outcome with
    | .ok a => ⟨plan.requests ++ [], .ok a⟩
    | .error fault => ⟨plan.requests, .error fault⟩ : Plan α) = plan
  rcases plan with ⟨requests, _ | a⟩
  · rfl
  · rw [List.append_nil]

-- =========================================================== the plans

/-- A builder that grants every request, remembers nothing, and writes
down what it is asked for. -/
instance : Builder Plan where
  Node := Unit
  fault cause := ofExcept (.error cause)
  var name ty := constant (.var name ty)
  function signature := symbol (.function signature)
  initial field := constant (.array field)
  build t := return t
  bare symbol := return Term.call symbol []
  lookUp _ := return ((), none)
  remember _ _ _ := return ()
  storing _ _ value := value
  align e := return e

def lower (e : Expr) : Plan Term := Builder.lower e

def lowerAll (exprs : List Expr) : Plan (List Term) := Builder.lowerAll exprs

def identity (state : Expr) : Plan Term := Builder.identity state

def contents (state : Expr) (field : Field) : Plan (Term × Term) := Builder.contents state field

theorem ofExcept_eq (outcome : Except Fault α) :
    (Builder.ofExcept outcome : Plan α) = ofExcept outcome := by
  cases outcome with
  | ok a => rfl
  | error fault => rfl

-- ------------------------------------------------------------ expressions

theorem lower_var (name : String) (ty : Ty) :
    lower (.var name ty) = constant (.var name ty) := rfl

theorem lower_binary (op : BinaryOp) (left right : Expr) :
    lower (.binary op left right) =
      match binaryRule op left.typeOf.kind with
      | none => ofExcept (.error (.noBinaryRule op left.typeOf))
      | some rule =>
          if left.typeOf = .object then do
            let left ← identity left
            let right ← identity right
            return rule left right
          else do
            let left ← lower left
            let right ← lower right
            return rule left right := rfl

theorem lower_logical (op : Connective) (operands : List Expr) :
    lower (.logical op operands) = (do ofExcept (connect op (← lowerAll operands))) := by
  show (lowerAll operands >>= fun terms => Builder.ofExcept (connect op terms) >>= pure) = _
  refine congrArg (lowerAll operands >>= ·) (funext fun terms => ?_)
  rw [ofExcept_eq]
  exact bind_pure _

theorem lower_unary (op : UnaryOp) (operand : Expr) :
    lower (.unary op operand) = (do return unaryTerm op (← lower operand)) := rfl

theorem lower_ite (condition thenBranch elseBranch : Expr) :
    lower (.ite condition thenBranch elseBranch) =
      if thenBranch.typeOf = .object then do
        let condition ← lower condition
        let thenBranch ← identity thenBranch
        let elseBranch ← identity elseBranch
        return Term.ite condition thenBranch elseBranch
      else if thenBranch.typeOf.hasSort then do
        let condition ← lower condition
        let thenBranch ← lower thenBranch
        let elseBranch ← lower elseBranch
        return Term.ite condition thenBranch elseBranch
      else ofExcept (.error (.noBranchRule thenBranch.typeOf)) := rfl

theorem lower_function (signature : Signature) :
    lower (.function signature) =
      (do return Term.call (← symbol (.function signature)) []) := rfl

theorem lower_call (callee : Signature) (args : List Expr) :
    lower (.call callee args) = (do
      let symbol ← symbol (.function callee)
      return Term.call symbol (← lowerAll args)) := rfl

theorem lower_access (base : Expr) (prior : Option Expr) (field : Field) :
    lower (.access base prior field) = (do
      if priorOf field.tag field.index base ≠ prior then
        ofExcept (.error (.priorMismatch base prior field))
      let (contents, _) ← contents base field
      return Term.select contents (← identity base)) := rfl

theorem lowerAll_cons (expr : Expr) (rest : List Expr) :
    lowerAll (expr :: rest) = (do
      let term ← lower expr
      return term :: (← lowerAll rest)) := rfl

-- ------------------------------------------------------ states of objects

theorem identity_assign (base : Expr) (index : Nat) (value : Expr) (tag : String) :
    identity (.assign base index value tag) = identity base := rfl

theorem identity_ite (condition thenBranch elseBranch : Expr) :
    identity (.ite condition thenBranch elseBranch) = (do
      let condition ← lower condition
      let thenBranch ← identity thenBranch
      let elseBranch ← identity elseBranch
      return Term.ite condition thenBranch elseBranch) := rfl

theorem contents_root (name : String) (field : Field) :
    contents (.var name .object) field = (do
      let initial ← constant (.array field)
      return (initial, ← constant (.var name .object))) := rfl

theorem contents_assign (base : Expr) (index : Nat) (value : Expr) (tag : String)
    (field : Field) :
    contents (.assign base index value tag) field =
      Builder.written field (field.isAt index tag) value.typeOf (contents base field)
        (lower value) := by
  show Builder.contents _ _ = _
  rw [Builder.contents_assign]
  exact bind_pure _

theorem contents_ite (condition thenBranch elseBranch : Expr) (field : Field) :
    contents (.ite condition thenBranch elseBranch) field = (do
      let choice ← lower condition
      let (thenContents, _) ← contents thenBranch field
      let (elseContents, _) ← contents elseBranch field
      let choice' ← lower condition
      let thenIdentity ← identity thenBranch
      let elseIdentity ← identity elseBranch
      return (Term.ite choice thenContents elseContents,
        Term.ite choice' thenIdentity elseIdentity)) := rfl

/-- What is no state of an object has neither identity nor contents. -/
theorem identity_of_stateless {e : Expr} (stateless : Builder.mayBeState e = false) :
    identity e = ofExcept (.error (.malformed (.noObjectState e))) :=
  Builder.identity_of_stateless stateless

theorem contents_of_stateless {e : Expr} (stateless : Builder.mayBeState e = false)
    (field : Field) :
    contents e field = constant (.array field) >>= fun _ =>
      ofExcept (.error (.malformed (.noObjectState e))) :=
  Builder.contents_of_stateless stateless field

/-- A state that stands by itself shows the field written last. -/
theorem lower_assign (base : Expr) (index : Nat) (value : Expr) (tag : String) :
    lower (.assign base index value tag) = (do
      let (contents, _) ← contents (.assign base index value tag) ⟨tag, index, value.typeOf⟩
      return contents) :=
  Builder.lower_assign base index value tag

-- ================================================== outcomes of sequences

theorem outcome_bind_eq_ok {plan : Plan α} {next : α → Plan β} {b : β} :
    (plan >>= next).outcome = .ok b ↔
      ∃ a, plan.outcome = .ok a ∧ (next a).outcome = .ok b := by
  show (match plan.outcome with | .ok a => _ | .error fault => _ : Plan β).outcome = _ ↔ _
  cases plan.outcome with
  | ok a =>
      constructor
      · intro h
        exact ⟨a, rfl, h⟩
      · rintro ⟨a', h, hnext⟩
        cases h
        exact hnext
  | error fault =>
      constructor
      · intro h
        cases h
      · rintro ⟨a, h, -⟩
        cases h

/-- A step that succeeds is followed by the requests of the next. -/
theorem requests_bind {plan : Plan α} {a : α} (h : plan.outcome = .ok a)
    (next : α → Plan β) :
    (plan >>= next).requests = plan.requests ++ (next a).requests := by
  show (match plan.outcome with | .ok a => _ | .error fault => _ : Plan β).requests = _
  rw [h]

/-- A sequence comes to what its last step comes to. -/
theorem outcome_bind {plan : Plan α} {a : α} (h : plan.outcome = .ok a) (next : α → Plan β) :
    (plan >>= next).outcome = (next a).outcome := by
  show (match plan.outcome with | .ok a => _ | .error fault => _ : Plan β).outcome = _
  rw [h]

/-- A step that fails is the last. -/
theorem bind_of_error {plan : Plan α} {cause : Fault} (h : plan.outcome = .error cause)
    (next : α → Plan β) : plan >>= next = ⟨plan.requests, .error cause⟩ := by
  show (match plan.outcome with | .ok a => _ | .error fault => _ : Plan β) = _
  rw [h]

/-- Whatever comes next, the requests of the first step are made. -/
theorem subset_requests_bind (plan : Plan α) (next : α → Plan β) :
    plan.requests ⊆ (plan >>= next).requests := by
  show _ ⊆ (match plan.outcome with | .ok a => _ | .error fault => _ : Plan β).requests
  cases plan.outcome with
  | ok a => exact List.subset_append_left _ _
  | error fault => exact List.Subset.refl _

-- ================================================================ running

/-- All that a plan does to a table is to put its requests to it. -/
theorem run_symbols (plan : Plan α) (table : SymbolTable) :
    (plan.run table).2 = (table.grantAll plan.requests).2 := by
  unfold run
  rcases table.grantAll plan.requests with ⟨_ | _, after⟩
  · rfl
  · rfl

/-- Running a sequence runs its steps one after the other. -/
theorem run_bind (plan : Plan α) (next : α → Plan β) (table : SymbolTable) :
    (plan >>= next).run table =
      match plan.run table with
      | (.ok a, after) => (next a).run after
      | (.error fault, after) => (.error fault, after) := by
  unfold run
  cases hp : plan.outcome with
  | ok a =>
      rw [requests_bind hp, outcome_bind hp, SymbolTable.grantAll_append]
      rcases table.grantAll plan.requests with ⟨_ | _, after⟩
      · rfl
      · rfl
  | error fault =>
      rw [bind_of_error hp]
      rcases table.grantAll plan.requests with ⟨_ | _, after⟩
      · rfl
      · rfl

/-- A step that goes through is followed by the next. -/
theorem run_bind_of_ok {plan : Plan α} {table middle : SymbolTable} {a : α}
    (h : plan.run table = (.ok a, middle)) (next : α → Plan β) :
    (plan >>= next).run table = (next a).run middle := by
  rw [run_bind, h]

/-- A sequence fails in its first step, or after it. -/
theorem run_bind_eq_error {plan : Plan α} {next : α → Plan β} {table after : SymbolTable}
    {fault : Fault} (h : (plan >>= next).run table = (.error fault, after)) :
    plan.run table = (.error fault, after) ∨
      ∃ a middle, plan.run table = (.ok a, middle) ∧
        (next a).run middle = (.error fault, after) := by
  rcases first : plan.run table with ⟨found | a, middle⟩
  · rw [run_bind, first] at h
    cases h
    exact .inl rfl
  · rw [run_bind_of_ok first] at h
    exact .inr ⟨a, middle, rfl, h⟩

/-- A run succeeds if the outcome does and all requests are granted. -/
theorem run_eq_ok {plan : Plan α} {table after : SymbolTable} {a : α} :
    plan.run table = (.ok a, after) ↔
      plan.outcome = .ok a ∧ table.grantAll plan.requests = (.ok (), after) := by
  unfold run
  rcases table.grantAll plan.requests with ⟨fault | ⟨⟩, granted⟩
  · simp
  · simp

/-- A plan whose requests have all been granted changes nothing. -/
theorem run_of_has {table : SymbolTable} {plan : Plan α}
    (has : ∀ request ∈ plan.requests, table.Has request) :
    plan.run table = (plan.outcome, table) := by
  unfold run
  rw [SymbolTable.grantAll_of_has has]

-- ============================================================ store chains

/-- What is below a write, and what the write adds. -/
theorem written_eq_ok {field : Field} {writes : Bool} {held : Ty}
    {before : Plan (Term × Term)} {value : Plan Term} {contents identity : Term}
    (h : (Builder.written field writes held before value).outcome = .ok (contents, identity)) :
    ∃ below, before.outcome = .ok (below, identity) ∧
      if writes then
        held = field.ty ∧ ∃ stored, value.outcome = .ok stored ∧
          contents = Term.store below identity stored
      else contents = below := by
  obtain ⟨⟨below, found⟩, hb, h⟩ := outcome_bind_eq_ok.1 h
  cases writes with
  | false =>
      injection h with h
      injection h with hc hi
      subst hc hi
      exact ⟨_, hb, rfl⟩
  | true =>
      by_cases fits : held = field.ty
      · simp only [fits, if_true] at h
        obtain ⟨stored, hv, h⟩ := outcome_bind_eq_ok.1 h
        injection h with h
        injection h with hc hi
        subst hc hi
        exact ⟨_, hb, fits, _, hv, rfl⟩
      · simp only [fits, if_true, if_false] at h
        cases h

/-- A write to the field asks for what its value asks for. -/
theorem value_requests_written {field : Field} {held : Ty} {before : Plan (Term × Term)}
    {value : Plan Term} {found : Term × Term}
    (h : (Builder.written field true held before value).outcome = .ok found) :
    value.requests ⊆ (Builder.written field true held before value).requests := by
  obtain ⟨below, hb, hnext⟩ := outcome_bind_eq_ok.1 h
  unfold Builder.written
  rw [requests_bind hb]
  refine List.subset_append_of_subset_right _ ?_
  by_cases fits : held = field.ty
  · simp only [fits, if_true]
    exact subset_requests_bind value _
  · simp only [fits, if_true, if_false] at hnext
    cases hnext

/-- The identity that comes with contents is that of the state, and it
takes no symbols of its own. -/
theorem identity_of_contents {state : Expr} {field : Field} {found identity : Term}
    (h : (contents state field).outcome = .ok (found, identity)) :
    (Plan.identity state).outcome = .ok identity ∧
      (Plan.identity state).requests ⊆ (contents state field).requests := by
  induction state generalizing found identity with
  | assign base index value tag ihBase _ =>
      rw [contents_assign] at h ⊢
      rw [identity_assign]
      obtain ⟨below, hb, -⟩ := written_eq_ok h
      obtain ⟨hout, hsub⟩ := ihBase hb
      exact ⟨hout, List.Subset.trans hsub (subset_requests_bind _ _)⟩
  | var name ty =>
      cases ty with
      | object =>
          rw [contents_root] at h ⊢
          obtain ⟨initial, hf, h⟩ := outcome_bind_eq_ok.1 h
          obtain ⟨root, hr, h⟩ := outcome_bind_eq_ok.1 h
          injection h with h
          injection h with _ hi
          subst hi
          refine ⟨hr, ?_⟩
          show _ ⊆ (constant (.array field) >>= _).requests
          rw [requests_bind hf]
          exact List.subset_append_of_subset_right _ (subset_requests_bind _ _)
      | _ =>
          obtain ⟨_, -, h⟩ := outcome_bind_eq_ok.1 h
          cases h
  | ite condition thenBranch elseBranch _ ihThen ihElse =>
      rw [contents_ite] at h ⊢
      rw [identity_ite]
      obtain ⟨choice, hc, h⟩ := outcome_bind_eq_ok.1 h
      obtain ⟨⟨thenContents, _⟩, ht, h⟩ := outcome_bind_eq_ok.1 h
      obtain ⟨⟨elseContents, _⟩, he, h⟩ := outcome_bind_eq_ok.1 h
      obtain ⟨choice', hc', h⟩ := outcome_bind_eq_ok.1 h
      obtain ⟨thenIdentity, hti, h⟩ := outcome_bind_eq_ok.1 h
      obtain ⟨elseIdentity, hei, h⟩ := outcome_bind_eq_ok.1 h
      injection h with h
      injection h with _ hi
      subst hi
      constructor
      · exact outcome_bind_eq_ok.2 ⟨choice', hc', outcome_bind_eq_ok.2 ⟨thenIdentity, hti,
          outcome_bind_eq_ok.2 ⟨elseIdentity, hei, rfl⟩⟩⟩
      · -- the contents ask for the same symbols again, after those of the branches
        rw [requests_bind hc, requests_bind hc, requests_bind ht, requests_bind he,
          requests_bind hc', requests_bind hti, requests_bind hti, requests_bind hei,
          requests_bind hei]
        refine List.subset_append_of_subset_right _ (List.subset_append_of_subset_right _
          (List.subset_append_of_subset_right _ ?_))
        exact List.Subset.refl _
  | _ =>
      obtain ⟨_, -, h⟩ := outcome_bind_eq_ok.1 h
      cases h

end Plan

end SymbolicHeap.Lowering
