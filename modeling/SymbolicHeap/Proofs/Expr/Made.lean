/-
The expressions that the constructors make.

An expression is a bare tree; that its parts fit together is checked when
a node is made.  `Made` holds of the trees all of whose nodes passed
their check.  What each check lets through is spelled out below, one
lemma for each constructor, and nothing after this file opens the checks
again.

Lists of operands are nested in the type of expressions, so the induction
principle that gives the hypothesis for every operand is stated here too
(`Expr.induction`).
-/
import SymbolicHeap.Expr.Build
import SymbolicHeap.Proofs.Outcome

namespace SymbolicHeap

-- ============================================================ induction

/-- Induction over expressions, with the hypothesis for each operand of
a list.  A prior state is no part that a property passes through. -/
@[induction_eliminator]
theorem Expr.induction {motive : Expr → Prop}
    (var : ∀ name ty, motive (.var name ty))
    (int : ∀ value, motive (.int value))
    (bool : ∀ value, motive (.bool value))
    (binary : ∀ op left right, motive left → motive right → motive (.binary op left right))
    (logical : ∀ op operands, (∀ e ∈ operands, motive e) → motive (.logical op operands))
    (unary : ∀ op operand, motive operand → motive (.unary op operand))
    (ite : ∀ condition thenBranch elseBranch, motive condition → motive thenBranch →
      motive elseBranch → motive (.ite condition thenBranch elseBranch))
    (function : ∀ signature, motive (.function signature))
    (call : ∀ callee args, (∀ e ∈ args, motive e) → motive (.call callee args))
    (assign : ∀ base index value tag, motive base → motive value →
      motive (.assign base index value tag))
    (access : ∀ base prior field, motive base → motive (.access base prior field)) :
    ∀ e, motive e :=
  Expr.rec (motive_1 := motive) (motive_2 := fun operands => ∀ e ∈ operands, motive e)
    (motive_3 := fun _ => True)
    var int bool binary logical unary ite function call assign
    (fun base prior field ih _ => access base prior field ih)
    (fun _ he => absurd he List.not_mem_nil)
    (fun _ _ first rest e he => (List.mem_cons.1 he).elim (fun h => h ▸ first) (rest e))
    trivial (fun _ _ => trivial)

-- ========================================================== the property

/-- Every node of the expression is what its constructor makes of its
parts. -/
inductive Expr.Made : Expr → Prop
  | var {name : String} {ty : Ty} :
      Build.var name ty = .ok (.var name ty) → Made (.var name ty)
  | int {value : Int} : Build.int (.int value) = .ok (.int value) → Made (.int value)
  | bool (value : Bool) : Made (.bool value)
  | binary {op : BinaryOp} {left right : Expr} : Made left → Made right →
      Build.binary op left right = .ok (.binary op left right) → Made (.binary op left right)
  | logical {op : Connective} {operands : List Expr} : (∀ e ∈ operands, Made e) →
      Build.logical op operands = .ok (.logical op operands) → Made (.logical op operands)
  | unary {op : UnaryOp} {operand : Expr} : Made operand →
      Build.unary op operand = .ok (.unary op operand) → Made (.unary op operand)
  | ite {condition thenBranch elseBranch : Expr} :
      Made condition → Made thenBranch → Made elseBranch →
      Build.ite condition thenBranch elseBranch = .ok (.ite condition thenBranch elseBranch) →
      Made (.ite condition thenBranch elseBranch)
  | function {signature : Signature} :
      Build.signature signature.name signature.args signature.result = .ok signature →
      Made (.function signature)
  | call {callee : Signature} {args : List Expr} :
      Build.signature callee.name callee.args callee.result = .ok callee →
      (∀ e ∈ args, Made e) → Build.call callee args = .ok (.call callee args) →
      Made (.call callee args)
  | assign {base : Expr} {index : Nat} {value : Expr} {tag : String} : Made base → Made value →
      Build.assign base (.int index) value tag = .ok (.assign base index value tag) →
      Made (.assign base index value tag)
  | access {base : Expr} {prior : Option Expr} {field : Field} : Made base →
      (∀ state ∈ prior, Made state) →
      Build.access base (.int field.index) prior field.tag field.ty
        = .ok (.access base prior field) →
      Made (.access base prior field)

-- ===================================================== what checks let by

namespace Build

theorem require_eq_ok {holds : Bool} {misfit : Expr.Misfit} :
    require holds misfit = .ok () ↔ holds = true := by
  cases holds with
  | false => simp [require]
  | true => simp [require]

theorem requireSorted_eq_ok {place : Expr.SortedPlace} {ty : Ty} :
    requireSorted place ty = .ok () ↔ ty.hasSort = true :=
  require_eq_ok

/-- Operands of a comparison for equality are of one type. -/
theorem equality_operands {op : BinaryOp} {left right e : Expr} (hop : op.isEquality = true)
    (h : binary op left right = .ok e) :
    left.typeOf = right.typeOf ∧ left.typeOf.kind ≠ .function ∧ left.typeOf.kind ≠ .ref := by
  unfold binary Expr.binaryType at h
  cases op with
  | eq | ne => grind
  | _ => cases hop

/-- Operands of arithmetic and of comparisons by order are integers. -/
theorem integer_operands {op : BinaryOp} {left right e : Expr}
    (hop : op.isArithmetic = true ∨ op.isOrdering = true)
    (h : binary op left right = .ok e) : left.typeOf = .int ∧ right.typeOf = .int := by
  unfold binary Expr.binaryType at h
  cases op with
  | eq | ne | select => rcases hop with hop | hop <;> cases hop
  | _ => grind

/-- What is read at an integer index is an array. -/
theorem select_operands {left right e : Expr} (h : binary .select left right = .ok e) :
    ∃ element, left.typeOf = .array element ∧ right.typeOf = .int := by
  unfold binary Expr.binaryType at h
  cases hl : left.typeOf with
  | array element =>
      by_cases hr : right.typeOf = .int
      · exact ⟨element, rfl, hr⟩
      · simp [hl, hr] at h
  | _ =>
      rw [hl] at h
      simp at h

theorem requireBools_eq_ok {op : Connective} {operands : List Expr}
    (h : requireBools op operands = .ok ()) : ∀ e ∈ operands, e.typeOf = .bool := by
  induction operands with
  | nil => simp
  | cons first rest ih =>
      obtain ⟨_, -, h⟩ := bind_eq_ok.1 h
      obtain ⟨_, hb, h⟩ := bind_eq_ok.1 h
      intro e he
      rcases List.mem_cons.1 he with rfl | he
      · simpa using require_eq_ok.1 hb
      · exact ih h e he

/-- Operands of a connective are truth values. -/
theorem bool_operands {op : Connective} {operands : List Expr} {e : Expr}
    (h : logical op operands = .ok e) : ∀ e ∈ operands, e.typeOf = .bool := by
  unfold logical at h
  cases op with
  | and | or | not | implies =>
      obtain ⟨_, -, h⟩ := bind_eq_ok.1 h
      obtain ⟨_, hb, -⟩ := bind_eq_ok.1 h
      exact requireBools_eq_ok hb

/-- A connective that takes a fixed number of operands has that many, the
others have one at least. -/
theorem operand_count {op : Connective} {operands : List Expr} {e : Expr}
    (h : logical op operands = .ok e) :
    match op.arity? with
    | some expected => operands.length = expected
    | none => operands ≠ [] := by
  unfold logical at h
  cases op with
  | and | or =>
      obtain ⟨_, hc, -⟩ := bind_eq_ok.1 h
      simpa [Connective.arity?] using require_eq_ok.1 hc
  | not | implies =>
      obtain ⟨_, hc, -⟩ := bind_eq_ok.1 h
      simpa [Connective.arity?] using require_eq_ok.1 hc

theorem requireBools_of_bools {op : Connective} {operands : List Expr}
    (bools : ∀ e ∈ operands, e.typeOf = .bool) : requireBools op operands = .ok () := by
  induction operands with
  | nil => rfl
  | cons first rest ih =>
      obtain ⟨hfirst, hrest⟩ := List.forall_mem_cons.1 bools
      unfold requireBools
      rw [hfirst, require_eq_ok.2 (by decide), require_eq_ok.2 (by decide)]
      exact ih hrest

/-- Nothing else is asked of the operands of a connective. -/
theorem logical_of_operands {op : Connective} {operands : List Expr}
    (count : match op.arity? with
      | some expected => operands.length = expected
      | none => operands ≠ [])
    (bools : ∀ e ∈ operands, e.typeOf = .bool) :
    logical op operands = .ok (.logical op operands) := by
  unfold logical
  cases op with
  | and | or =>
      rw [requireBools_of_bools bools]
      simp only [Connective.arity?] at count ⊢
      rw [require_eq_ok.2 (by simpa using count)]
      rfl
  | not | implies =>
      rw [requireBools_of_bools bools]
      simp only [Connective.arity?] at count ⊢
      rw [require_eq_ok.2 (by simpa using count)]
      rfl

theorem unary_operand {op : UnaryOp} {operand e : Expr} (h : unary op operand = .ok e) :
    operand.typeOf = operandTy op := by
  unfold unary at h
  split at h
  case isTrue same => exact same
  case isFalse => cases h

/-- The condition of a choice is a truth value, and its branches are of
one type. -/
theorem ite_parts {condition thenBranch elseBranch e : Expr}
    (h : ite condition thenBranch elseBranch = .ok e) :
    condition.typeOf = .bool ∧ thenBranch.typeOf = elseBranch.typeOf := by
  obtain ⟨_, hc, h⟩ := bind_eq_ok.1 h
  obtain ⟨_, hb, -⟩ := bind_eq_ok.1 h
  exact ⟨by simpa using require_eq_ok.1 hc, by simpa using require_eq_ok.1 hb⟩

/-- Nothing else is asked of a choice. -/
theorem ite_of_parts {condition thenBranch elseBranch : Expr} (bool : condition.typeOf = .bool)
    (same : thenBranch.typeOf = elseBranch.typeOf) :
    ite condition thenBranch elseBranch = .ok (.ite condition thenBranch elseBranch) := by
  unfold ite
  rw [require_eq_ok.2 (by simpa using bool), require_eq_ok.2 (by simpa using same)]
  rfl

theorem requireSortedArgs_eq_ok {position : Nat} {args : List Ty}
    (h : requireSortedArgs position args = .ok ()) : ∀ ty ∈ args, ty.hasSort = true := by
  induction args generalizing position with
  | nil => simp
  | cons first rest ih =>
      obtain ⟨_, hf, h⟩ := bind_eq_ok.1 h
      intro ty hty
      rcases List.mem_cons.1 hty with rfl | hty
      · exact requireSorted_eq_ok.1 hf
      · exact ih h ty hty

/-- The types of a signature have solver values. -/
theorem sorted_signature {name : String} {args : List Ty} {result : Ty} {made : Signature}
    (h : signature name args result = .ok made) :
    (∀ ty ∈ args, ty.hasSort = true) ∧ result.hasSort = true := by
  obtain ⟨_, -, h⟩ := bind_eq_ok.1 h
  obtain ⟨_, ha, h⟩ := bind_eq_ok.1 h
  obtain ⟨_, hr, -⟩ := bind_eq_ok.1 h
  exact ⟨requireSortedArgs_eq_ok ha, requireSorted_eq_ok.1 hr⟩

theorem requireArgs_eq_ok {callee : String} {position : Nat} {types : List Ty}
    {args : List Expr} (hlen : args.length = types.length)
    (h : requireArgs callee position types args = .ok ()) : args.map Expr.typeOf = types := by
  induction types generalizing position args with
  | nil =>
      rw [List.length_nil, List.length_eq_zero_iff] at hlen
      rw [hlen, List.map_nil]
  | cons expected types ih =>
      cases args with
      | nil => cases hlen
      | cons arg args =>
          obtain ⟨_, ha, h⟩ := bind_eq_ok.1 h
          have harg : arg.typeOf = expected := by simpa using require_eq_ok.1 ha
          rw [List.map_cons, harg, ih (Nat.succ.inj hlen) h]

/-- Arguments of a call have the types that the callee takes. -/
theorem call_args {callee : Signature} {args : List Expr} {e : Expr}
    (h : call callee args = .ok e) : args.map Expr.typeOf = callee.args := by
  obtain ⟨_, hlen, h⟩ := bind_eq_ok.1 h
  obtain ⟨_, ha, -⟩ := bind_eq_ok.1 h
  exact requireArgs_eq_ok (by simpa using require_eq_ok.1 hlen) ha

theorem requireArgs_of_args {callee : String} {position : Nat} {types : List Ty}
    {args : List Expr} (h : args.map Expr.typeOf = types) :
    requireArgs callee position types args = .ok () := by
  induction types generalizing position args with
  | nil =>
      rw [List.map_eq_nil_iff.1 h]
      rfl
  | cons expected types ih =>
      cases args with
      | nil => cases h
      | cons arg args =>
          obtain ⟨hfirst, hrest⟩ := List.cons.inj h
          unfold requireArgs
          rw [hfirst, require_eq_ok.2 (by simp)]
          exact ih hrest

/-- Nothing else is asked of the arguments of a call. -/
theorem call_of_args {callee : Signature} {args : List Expr}
    (h : args.map Expr.typeOf = callee.args) : call callee args = .ok (.call callee args) := by
  have count : args.length = callee.args.length := by rw [← h, List.length_map]
  unfold call
  rw [require_eq_ok.2 (by simpa using count), requireArgs_of_args h]
  rfl

theorem fieldIndex_eq_ok {node : Expr.HeapNode} {index : Datum} {i : Nat} :
    fieldIndex node index = .ok i ↔ index = .int i ∧ Datum.isShort i = true := by
  constructor
  · intro h
    obtain ⟨_, short, h⟩ := bind_eq_ok.1 h
    split at h
    next n =>
      cases h
      exact ⟨rfl, require_eq_ok.1 short⟩
    next => cases h
  · rintro ⟨rfl, short⟩
    exact bind_eq_ok.2 ⟨(), require_eq_ok.2 short, rfl⟩

/-- A write is made on the state of an object, at a field index, and
leaves a solver value; the node holds the parts as given. -/
theorem assign_eq_ok {base value e : Expr} {index : Datum} {tag : String} :
    assign base index value tag = .ok e ↔
      base.typeOf = .object ∧ value.typeOf.hasSort = true ∧
        ∃ i : Nat, index = .int i ∧ Datum.isShort i = true ∧ e = .assign base i value tag := by
  constructor
  · intro h
    obtain ⟨_, hb, h⟩ := bind_eq_ok.1 h
    obtain ⟨i, hi, h⟩ := bind_eq_ok.1 h
    obtain ⟨_, hv, h⟩ := bind_eq_ok.1 h
    cases h
    obtain ⟨rfl, short⟩ := fieldIndex_eq_ok.1 hi
    exact ⟨by simpa using require_eq_ok.1 hb, requireSorted_eq_ok.1 hv, i, rfl, short, rfl⟩
  · rintro ⟨hbase, sorted, i, rfl, short, rfl⟩
    unfold assign
    rw [hbase, require_eq_ok.2 (by simp), fieldIndex_eq_ok.2 ⟨rfl, short⟩,
      requireSorted_eq_ok.2 sorted]
    rfl

theorem requirePrior_eq_ok {prior : Option Expr} :
    requirePrior prior = .ok () ↔ ∀ state ∈ prior, state.typeOf = .object := by
  cases prior with
  | none => simp [requirePrior]
  | some prior => simp [requirePrior, require_eq_ok]

/-- A read is made on the state of an object, at a field index, and has a
solver value; its prior state, if there is one, is the state of an object
too.  The node holds the parts as given. -/
theorem access_eq_ok {base e : Expr} {index : Datum} {prior : Option Expr} {tag : String}
    {ty : Ty} :
    access base index prior tag ty = .ok e ↔
      base.typeOf = .object ∧ (∀ state ∈ prior, state.typeOf = .object) ∧ ty.hasSort = true ∧
        ∃ i : Nat, index = .int i ∧ Datum.isShort i = true ∧
          e = .access base prior ⟨tag, i, ty⟩ := by
  constructor
  · intro h
    obtain ⟨_, hb, h⟩ := bind_eq_ok.1 h
    obtain ⟨_, hprior, h⟩ := bind_eq_ok.1 h
    obtain ⟨i, hi, h⟩ := bind_eq_ok.1 h
    obtain ⟨_, hv, h⟩ := bind_eq_ok.1 h
    cases h
    obtain ⟨rfl, short⟩ := fieldIndex_eq_ok.1 hi
    exact ⟨by simpa using require_eq_ok.1 hb, requirePrior_eq_ok.1 hprior,
      requireSorted_eq_ok.1 hv, i, rfl, short, rfl⟩
  · rintro ⟨hbase, priors, sorted, i, rfl, short, rfl⟩
    unfold access
    rw [hbase, require_eq_ok.2 (by simp), requirePrior_eq_ok.2 priors,
      fieldIndex_eq_ok.2 ⟨rfl, short⟩, requireSorted_eq_ok.2 sorted]
    rfl

end Build

end SymbolicHeap
