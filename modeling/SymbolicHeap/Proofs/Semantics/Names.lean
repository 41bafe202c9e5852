/-
What the value of an expression hangs on.

An expression names things in full, and a solver reads a name up to its
first null character only.  So there are interpretations of whole names
beside those of symbols.  Whichever of the two they are, interpretations
give an expression one value if they agree on what its plan asks for, and
on division (`value_eq`).

From the symbols each name gets a meaning (`Interp.byName`).  The other
way a symbol would need one meaning for all names that are read as it; so
names can be left behind for symbols as long as these tell apart the
labels that have been given away (`SymbolTable.Apart`, `exists_bySymbol`).
-/
import SymbolicHeap.Proofs.Lowering.Owner
import SymbolicHeap.Proofs.Semantics.Means

namespace SymbolicHeap

open Lowering

variable {σ τ : Type} [Named σ] [Named τ]

-- ============================================================== agreement

namespace Interp

/-- What is made of a label, in full or as it is read. -/
def ofLabel (I : Interp σ) (label : Label) : List Value → Value :=
  I.symbol (Named.ofName label.name label.args label.result)

/-- Two interpretations, be it of names or of symbols, make the same of
all that is asked for. -/
def Matches (asked : Request → Prop) (I : Interp σ) (J : Interp τ) : Prop :=
  ∀ request, asked request → ∀ label, request.label = .ok label → I.ofLabel label = J.ofLabel label

/-- Two interpretations divide alike. -/
structure DividesAs (I : Interp σ) (J : Interp τ) : Prop where
  quotientByZero : I.quotientByZero = J.quotientByZero
  remainderByZero : I.remainderByZero = J.remainderByZero

/-- Operators are the same under both then. -/
theorem DividesAs.binary {I : Interp σ} {J : Interp τ} (h : I.DividesAs J) (op : BinaryOp)
    (a b : Value) : I.binary op a b = J.binary op a b := by
  cases op with
  | div => simp only [Interp.binary, Interp.quotient, h.quotientByZero]
  | mod => simp only [Interp.binary, Interp.remainder, h.remainderByZero]
  | _ => rfl

namespace Matches

variable {asked fewer : Request → Prop} {I : Interp σ} {J : Interp τ}

theorem mono (h : Matches asked I J) (within : ∀ request, fewer request → asked request) :
    Matches fewer I J :=
  fun request here => h request (within request here)

theorem var (h : Matches asked I J) {name : String} {ty : Ty} (here : asked (.var name ty)) :
    I.var name ty = J.var name ty := by
  have at_sort : ∀ {s : Srt}, ty.sort = .ok s → (Request.var name ty).label = .ok ⟨name, [], s⟩ →
      I.var name ty = J.var name ty := by
    intro s hs hlabel
    rw [var_of_sort hs, var_of_sort hs]
    exact congrFun (h _ here _ hlabel) []
  cases ty with
  | object => exact congrFun (h _ here _ rfl) []
  | int | bool => exact at_sort rfl rfl
  | array element =>
      cases hs : (Ty.array element).sort with
      | ok s =>
          refine at_sort hs ?_
          rw [Request.label, sortOf, hs]
          · rfl
          · exact Ty.noConfusion
      | error fault => simp only [Interp.var, hs]
  | function | ref => rfl

theorem initial (h : Matches asked I J) {field : Field} (here : asked (.array field)) :
    I.initial field = J.initial field := by
  cases hs : field.ty.sort with
  | ok s =>
      rw [initial_of_sort hs, initial_of_sort hs]
      have hlabel : (Request.array field).label
          = .ok ⟨field.tag ++ "." ++ toString field.index, [], .array s⟩ := by
        rw [Request.label, sortOf, hs]
        rfl
      exact congrFun (h _ here _ hlabel) []
  | error fault => simp only [Interp.initial, hs]

theorem function (h : Matches asked I J) {signature : Signature} {symbol : Symbol}
    (hsymbol : (Request.function signature).symbol = .ok symbol)
    (here : asked (.function signature)) : I.function signature = J.function signature := by
  obtain ⟨label, hlabel, -⟩ := Request.label_of_symbol hsymbol
  have agree := h _ here _ hlabel
  obtain ⟨sorts, hargs, hlabel⟩ := bind_eq_ok.1 hlabel
  obtain ⟨s, hs, hlabel⟩ := bind_eq_ok.1 hlabel
  injection hlabel with hlabel
  subst hlabel
  funext args
  rw [function_of_sorts (mapM_sortOf hargs) (mapError_eq_ok.1 hs),
    function_of_sorts (mapM_sortOf hargs) (mapError_eq_ok.1 hs)]
  exact congrFun agree args

end Matches

end Interp

namespace Lowering

-- ================================================================== rules

/-- Something holds once the plan has gone through, if two interpretations
agree on what it asks for. -/
def Plan.Fixes {α : Type} (I : Interp σ) (J : Interp τ) (plan : Plan α) (p : Prop) : Prop :=
  ∀ a, plan.outcome = .ok a → Interp.Matches (· ∈ plan.requests) I J → p

namespace Plan.Fixes

variable {α β : Type} {I : Interp σ} {J : Interp τ} {plan : Plan α} {next : α → Plan β}
  {p q : Prop}

theorem mono (h : plan.Fixes I J p) (implies : p → q) : plan.Fixes I J q :=
  fun a ha agree => implies (h a ha agree)

theorem of (h : p) : plan.Fixes I J p := fun _ _ _ => h

theorem fault (cause : Fault) : (Plan.ofExcept (.error cause) : Plan α).Fixes I J p := by
  intro a ha
  cases ha

theorem constant (request : Request)
    (h : Interp.Matches (· ∈ [request]) I J → p) : (Plan.constant request).Fixes I J p :=
  fun _ _ => h

/-- What comes next may use what the first step has fixed. -/
theorem bind (hx : plan.Fixes I J p) (hf : ∀ a, (next a).Fixes I J (p → q)) :
    (plan >>= next).Fixes I J q := by
  intro b hb agree
  obtain ⟨a, ha, hb⟩ := outcome_bind_eq_ok.1 hb
  rw [requests_bind ha] at agree
  have first := hx a ha (agree.mono fun _ => List.mem_append_left _)
  exact hf a b hb (agree.mono fun _ => List.mem_append_right _) first

end Plan.Fixes

-- ============================================================ the clauses

section

variable {I : Interp σ} {J : Interp τ}

/-- All that an expression comes to is fixed by what its plans ask for. -/
structure Fixed (I : Interp σ) (J : Interp τ) (e : Expr) : Prop where
  lower : (Plan.lower e).Fixes I J (I.value e = J.value e)
  identity : (Plan.identity e).Fixes I J (I.value e = J.value e)
  contents : ∀ field,
    (Plan.contents e field).Fixes I J (I.value e = J.value e ∧ I.read e field = J.read e field)

/-- What is no state of an object has neither identity nor contents. -/
theorem Fixed.stateless {e : Expr} (hlower : (Plan.lower e).Fixes I J (I.value e = J.value e))
    (stateless : Builder.mayBeState e = false) : Fixed I J e where
  lower := hlower
  identity := by
    rw [Plan.identity_of_stateless stateless]
    exact .fault _
  contents field := by
    rw [Plan.contents_of_stateless stateless]
    exact (Plan.Fixes.of trivial).bind fun _ => .fault _

theorem lowerAll_fixed {exprs : List Expr}
    (h : ∀ e ∈ exprs, (Plan.lower e).Fixes I J (I.value e = J.value e)) :
    (Plan.lowerAll exprs).Fixes I J (I.values exprs = J.values exprs) := by
  induction exprs with
  | nil =>
      refine .of ?_
      rw [Interp.values, Interp.values]
  | cons e rest ih =>
      rw [List.forall_mem_cons] at h
      rw [Plan.lowerAll_cons]
      refine h.1.bind fun _ => (ih h.2).bind fun _ => .of fun others here => ?_
      rw [Interp.values, Interp.values, here, others]

theorem var_fixed (name : String) (ty : Ty) : Fixed I J (.var name ty) := by
  have value : ∀ ty, (Plan.constant (.var name ty)).Fixes I J
      (I.value (.var name ty) = J.value (.var name ty)) := by
    intro ty
    refine .constant _ fun agree => ?_
    rw [Interp.value, Interp.value]
    exact agree.var List.mem_cons_self
  cases ty with
  | object =>
      refine ⟨value _, value _, fun field => ?_⟩
      have initial : (Plan.constant (.array field)).Fixes I J (I.initial field = J.initial field) :=
        .constant _ fun agree => agree.initial List.mem_cons_self
      refine initial.bind fun _ => (value .object).bind fun _ => .of fun same start => ⟨same, ?_⟩
      simp only [Interp.value] at same
      rw [Interp.read, Interp.read, start, same]
  | _ => exact .stateless (value _) rfl

theorem binary_fixed (divide : I.DividesAs J) {op : BinaryOp} {left right : Expr}
    (hl : Fixed I J left) (hr : Fixed I J right) : Fixed I J (.binary op left right) := by
  refine .stateless ?_ rfl
  have value : I.value right = J.value right → I.value left = J.value left →
      I.value (.binary op left right) = J.value (.binary op left right) := by
    intro there here
    rw [Interp.value, Interp.value, here, there]
    exact divide.binary op _ _
  rw [Plan.lower_binary]
  cases binaryRule op left.typeOf.kind with
  | none => exact .fault _
  | some rule =>
      by_cases object : left.typeOf = .object
      · simp only [object, if_true]
        exact hl.identity.bind fun _ => hr.identity.bind fun _ => .of value
      · simp only [object, if_false]
        exact hl.lower.bind fun _ => hr.lower.bind fun _ => .of value

theorem logical_fixed {op : Connective} {operands : List Expr}
    (h : ∀ e ∈ operands, Fixed I J e) : Fixed I J (.logical op operands) := by
  refine .stateless ?_ rfl
  rw [Plan.lower_logical]
  refine (lowerAll_fixed fun e he => (h e he).lower).bind fun _ => .of fun same => ?_
  rw [Interp.value, Interp.value, same]

theorem unary_fixed {op : UnaryOp} {operand : Expr} (h : Fixed I J operand) :
    Fixed I J (.unary op operand) := by
  refine .stateless ?_ rfl
  rw [Plan.lower_unary]
  refine h.lower.bind fun _ => .of fun same => ?_
  rw [Interp.value, Interp.value, same]

theorem ite_fixed {condition thenBranch elseBranch : Expr} (hc : Fixed I J condition)
    (ht : Fixed I J thenBranch) (he : Fixed I J elseBranch) :
    Fixed I J (.ite condition thenBranch elseBranch) := by
  have value : I.value elseBranch = J.value elseBranch → I.value thenBranch = J.value thenBranch →
      I.value condition = J.value condition →
      I.value (.ite condition thenBranch elseBranch)
        = J.value (.ite condition thenBranch elseBranch) := by
    intro there here choice
    rw [Interp.value, Interp.value, choice, here, there]
  have identities : (do
      let condition ← Plan.lower condition
      let thenBranch ← Plan.identity thenBranch
      let elseBranch ← Plan.identity elseBranch
      return Term.ite condition thenBranch elseBranch : Plan Term).Fixes I J
        (I.value (.ite condition thenBranch elseBranch)
          = J.value (.ite condition thenBranch elseBranch)) :=
    hc.lower.bind fun _ => ht.identity.bind fun _ => he.identity.bind fun _ => .of value
  refine ⟨?_, ?_, fun field => ?_⟩
  · rw [Plan.lower_ite]
    by_cases object : thenBranch.typeOf = .object
    · simp only [object, if_true]
      exact identities
    · by_cases sorted : thenBranch.typeOf.hasSort = true
      · simp only [object, sorted, if_true, if_false]
        exact hc.lower.bind fun _ => ht.lower.bind fun _ => he.lower.bind fun _ => .of value
      · simp only [object, sorted, if_false]
        exact .fault _
  · rw [Plan.identity_ite]
    exact identities
  · rw [Plan.contents_ite]
    refine hc.lower.bind fun _ => (ht.contents field).bind fun _ =>
      (he.contents field).bind fun _ => .of fun there here choice => ⟨?_, ?_⟩
    · exact value there.1 here.1 choice
    · rw [Interp.read, Interp.read, choice, here.2, there.2]

theorem call_fixed {callee : Signature} {args : List Expr} (h : ∀ e ∈ args, Fixed I J e) :
    Fixed I J (.call callee args) := by
  refine .stateless ?_ rfl
  have function : (Plan.symbol (.function callee)).Fixes I J
      (I.function callee = J.function callee) :=
    fun _ hsymbol agree => agree.function hsymbol List.mem_cons_self
  rw [Plan.lower_call]
  refine function.bind fun _ => (lowerAll_fixed fun e he => (h e he).lower).bind fun _ =>
    .of fun same here => ?_
  rw [Interp.value, Interp.value, same, here]

/-- What a state reads after a write is what was written, or what was read
before. -/
theorem written_fixed {field : Field} {base value : Expr} (index : Nat) (tag : String)
    (hb : (Plan.contents base field).Fixes I J
      (I.value base = J.value base ∧ I.read base field = J.read base field))
    (hv : (Plan.lower value).Fixes I J (I.value value = J.value value)) :
    (Builder.written field (field.isAt index tag) value.typeOf (Plan.contents base field)
      (Plan.lower value)).Fixes I J
        (I.value (.assign base index value tag) = J.value (.assign base index value tag) ∧
          I.read (.assign base index value tag) field
            = J.read (.assign base index value tag) field) := by
  simp only [Interp.value, Interp.read]
  refine hb.bind fun found => ?_
  cases field.isAt index tag with
  | false => exact .of fun below => ⟨below.1, below.2⟩
  | true =>
      by_cases fits : value.typeOf = field.ty
      · simp only [fits, if_true]
        exact hv.bind fun _ => .of fun here below => ⟨below.1, here⟩
      · simp only [fits, if_true, if_false]
        exact .fault _

theorem assign_fixed {base value : Expr} {index : Nat} {tag : String} (hb : Fixed I J base)
    (hv : Fixed I J value) : Fixed I J (.assign base index value tag) := by
  have contents := fun field => written_fixed index tag (hb.contents field) hv.lower
  simp only [← Plan.contents_assign] at contents
  refine ⟨?_, ?_, contents⟩
  · rw [Plan.lower_assign]
    exact (contents _).bind fun _ => .of And.left
  · rw [Plan.identity_assign]
    refine hb.identity.mono fun same => ?_
    rw [Interp.value, Interp.value, same]

theorem access_fixed {base : Expr} {prior : Option Expr} {field : Field} (h : Fixed I J base) :
    Fixed I J (.access base prior field) := by
  refine .stateless ?_ rfl
  rw [Plan.lower_access]
  by_cases matching : priorOf field.tag field.index base = prior
  · rw [if_neg (not_not_intro matching)]
    refine (h.contents field).bind fun _ => .of fun same => ?_
    rw [Interp.value, Interp.value, same.2]
  · rw [if_pos matching]
    have fails : (Plan.ofExcept (.error (.priorMismatch base prior field)) :
        Plan PUnit).Fixes I J False := .fault _
    exact fails.bind fun _ => .of False.elim

theorem fixed (divide : I.DividesAs J) (e : Expr) : Fixed I J e := by
  induction e with
  | var name ty => exact var_fixed name ty
  | int value =>
      refine .stateless (.of ?_) rfl
      rw [Interp.value, Interp.value]
  | bool value =>
      refine .stateless (.of ?_) rfl
      rw [Interp.value, Interp.value]
  | binary op left right ihLeft ihRight => exact binary_fixed divide ihLeft ihRight
  | logical op operands ih => exact logical_fixed ih
  | unary op operand ih => exact unary_fixed ih
  | ite condition thenBranch elseBranch ihCondition ihThen ihElse =>
      exact ite_fixed ihCondition ihThen ihElse
  | function signature =>
      refine .stateless (.of ?_) rfl
      rw [Interp.value, Interp.value]
  | call callee args ih => exact call_fixed ih
  | assign base index value tag ihBase ihValue => exact assign_fixed ihBase ihValue
  | access base prior field ih => exact access_fixed ih

/-- The value of an expression hangs on what its plan asks for, and on
division. -/
theorem value_eq (divide : I.DividesAs J) {e : Expr} {t : Term}
    (h : (Plan.lowered e).outcome = .ok (.term t))
    (agree : Interp.Matches (· ∈ (Plan.lowered e).requests) I J) : I.value e = J.value e := by
  have lower : (Plan.lowered e).Fixes I J (I.value e = J.value e) := by
    cases e with
    | function signature => exact .of (by rw [Interp.value, Interp.value])
    | _ => exact (fixed divide _).lower.bind fun _ => .of id
  exact lower _ h agree

end

end Lowering

-- ====================================================== names and symbols

namespace Interp

/-- The interpretation of names as what a solver reads in them. -/
def byName (I : Interp) : Interp Label where
  symbol label := I.symbol label.symbol
  quotientByZero := I.quotientByZero
  remainderByZero := I.remainderByZero
  sorted label := I.sorted label.symbol

theorem byName_divides (I : Interp) : I.byName.DividesAs I := ⟨rfl, rfl⟩

theorem byName_matches (I : Interp) (asked : Request → Prop) : Matches asked I.byName I :=
  fun _ _ _ _ => rfl

end Interp

namespace Lowering

namespace SymbolTable

variable {table : SymbolTable}

/-- A label that has been given away, and that a solver takes. -/
def Given (table : SymbolTable) (label : Label) : Prop :=
  Text.encodes label.name = true ∧ ∃ owner, table.owners.find? label = some owner

/-- A solver reads the names of all labels that it takes in full. -/
def Whole (table : SymbolTable) : Prop :=
  ∀ label, table.Given label → label.Whole

/-- A solver tells apart all labels that it takes. -/
def Apart (table : SymbolTable) : Prop :=
  ∀ label other, table.Given label → table.Given other → label.symbol = other.symbol →
    label = other

/-- It does if it reads their names in full. -/
theorem Whole.apart (whole : table.Whole) : table.Apart :=
  fun label other given given' => Label.eq_of_symbol (whole label given) (whole other given')

/-- The label of an entry is given. -/
theorem Owned.given (owned : table.Owned) {request : Request} (has : table.Has request) :
    ∃ label, request.label = .ok label ∧ table.Given label := by
  obtain ⟨label, hlabel, encodes, held⟩ := owned.entry request has
  exact ⟨label, hlabel, encodes, _, held⟩

open Classical in
/-- The interpretation of symbols as the labels that they stand for. -/
noncomputable def bySymbol (table : SymbolTable) (N : Interp Label) : Interp where
  symbol symbol :=
    if given : ∃ label, table.Given label ∧ label.symbol = symbol then
      N.symbol given.choose
    else fun _ => .zero symbol.result
  quotientByZero := N.quotientByZero
  remainderByZero := N.remainderByZero
  sorted symbol args := by
    split
    next given =>
      obtain ⟨-, same⟩ := given.choose_spec
      have sorted := N.sorted given.choose args
      have result : Named.result given.choose = Named.result symbol := congrArg Symbol.result same
      rw [result] at sorted
      exact sorted
    next => exact Value.hasSort_zero _

theorem bySymbol_divides (N : Interp Label) : (table.bySymbol N).DividesAs N := ⟨rfl, rfl⟩

/-- Where symbols tell labels apart, each means its label. -/
theorem Apart.matches (apart : table.Apart) (owned : table.Owned) (N : Interp Label) :
    Interp.Matches table.Has (table.bySymbol N) N := by
  intro request has label hlabel
  obtain ⟨its, hits, here⟩ := owned.given has
  rw [hlabel] at hits
  cases hits
  have given : ∃ other, table.Given other ∧ other.symbol = label.symbol := ⟨label, here, rfl⟩
  obtain ⟨there, same⟩ := given.choose_spec
  have here : given.choose = label := apart _ _ there here same
  show (table.bySymbol N).symbol label.symbol = N.symbol label
  unfold bySymbol
  dsimp only
  rw [dif_pos given, here]

end SymbolTable

end Lowering

end SymbolicHeap
