/-
What terms are made of.

The symbols in the term of an expression are those that its plan asks for,
and what the plan asks for is named in the expression (`lowered_over`):
its variables, the functions it calls or stands for, and the fields it
reads or writes.  Both are shown at once, clause by clause, by the rules of
`Plan.Draws` for sequences.  In particular the objects that the plan asks
for are mentioned by the expression (`lowered_draws`).
-/
import SymbolicHeap.Proofs.Lowering.Transcript
import SymbolicHeap.Proofs.Semantics.Symbols

namespace SymbolicHeap

-- ============================================================== mentions

/-- An object is mentioned where its variable is part of what the value of
the expression is made from. -/
inductive Expr.Mentions (name : String) : Expr → Prop
  | object : Mentions name (.var name .object)
  | part {e part : Expr} : part ∈ e.children → Mentions name part → Mentions name e

/-- An expression that is a variable mentions it if it is an object. -/
theorem Expr.mentions_var {name other : String} {ty : Ty} :
    (Expr.var other ty).Mentions name ↔ other = name ∧ ty = .object := by
  constructor
  · intro mentions
    cases mentions with
    | object => exact ⟨rfl, rfl⟩
    | part member => cases member
  · rintro ⟨rfl, rfl⟩
    exact .object

theorem Expr.mentions_binary {name : String} {op : BinaryOp} {left right : Expr} :
    (Expr.binary op left right).Mentions name ↔ left.Mentions name ∨ right.Mentions name := by
  have parts (part : Expr) :
      part ∈ (Expr.binary op left right).children ↔ part = left ∨ part = right := by
    simp [Expr.children]
  constructor
  · intro mentions
    cases mentions with
    | part member here =>
        rcases (parts _).1 member with rfl | rfl
        · exact .inl here
        · exact .inr here
  · rintro (here | here)
    · exact .part ((parts left).2 (.inl rfl)) here
    · exact .part ((parts right).2 (.inr rfl)) here

/-- All symbols in what something lowered to are among the given ones. -/
def Lowered.Over (P : Symbol → Prop) : Lowered → Prop
  | .term t => t.Over P
  | .declaration symbol => P symbol

namespace Lowering

/-- An expression covers a request if it mentions the object that is asked
for, if it is one. -/
def Covers (e : Expr) (request : Request) : Prop :=
  ∀ name, request = .var name .object → e.Mentions name

/-- What an expression names: the variables, functions and fields that it
is written with, whether or not its value hangs on them.  The state before
a write that a read carries along is no part of it. -/
inductive Names : Expr → Request → Prop
  | var {name : String} {ty : Ty} : Names (.var name ty) (.var name ty)
  | function {signature : Signature} : Names (.function signature) (.function signature)
  | call {callee : Signature} {args : List Expr} : Names (.call callee args) (.function callee)
  | assign {base value : Expr} {index : Nat} {tag : String} :
      Names (.assign base index value tag) (.array ⟨tag, index, value.typeOf⟩)
  | access {base : Expr} {prior : Option Expr} {field : Field} :
      Names (.access base prior field) (.array field)
  | part {e part : Expr} {request : Request} : part ∈ e.children → Names part request →
      Names e request

/-- An object that is named is mentioned. -/
theorem Names.covers {e : Expr} {request : Request} (names : Names e request) :
    Covers e request := by
  induction names with
  | var =>
      intro name same
      cases same
      exact .object
  | function | call | assign | access => exact fun _ same => nomatch same
  | part member _ ih => exact fun name same => .part member (ih name same)

-- ================================================================= rules

/-- All requests of a plan are of one kind, and what it comes to is made
of symbols with a property if all symbols asked for have it. -/
structure Plan.Draws {α : Type} (asks : Request → Prop) (P : Symbol → Prop) (made : α → Prop)
    (plan : Plan α) : Prop where
  requests : ∀ request ∈ plan.requests, asks request
  outcome : (∀ request ∈ plan.requests, ∀ symbol, request.symbol = .ok symbol → P symbol) →
    ∀ a, plan.outcome = .ok a → made a

namespace Plan.Draws

variable {α β : Type} {asks asks' : Request → Prop} {P : Symbol → Prop} {made : α → Prop}
  {made' : β → Prop} {plan : Plan α} {next : α → Plan β}

/-- A plan may be said to ask for more. -/
theorem mono (h : plan.Draws asks P made) (more : ∀ request, asks request → asks' request) :
    plan.Draws asks' P made :=
  ⟨fun request hr => more request (h.requests request hr), h.outcome⟩

theorem pure {a : α} (h : made a) : (pure a : Plan α).Draws asks P made := by
  refine ⟨nofun, fun _ b hb => ?_⟩
  injection hb with hb
  rw [← hb]
  exact h

theorem ofExcept {outcome : Except Fault α} (h : ∀ a, outcome = .ok a → made a) :
    (Plan.ofExcept outcome).Draws asks P made :=
  ⟨nofun, fun _ => h⟩

/-- A plan that fails makes nothing. -/
theorem fault (cause : Fault) :
    (Plan.ofExcept (.error cause) : Plan α).Draws asks P made :=
  .ofExcept nofun

/-- A plan of one symbol makes what it asks for. -/
theorem symbol {request : Request} (h : asks request) :
    (Plan.symbol request).Draws asks P P := by
  refine ⟨List.forall_mem_singleton.2 h, fun drawn symbol hsymbol => ?_⟩
  exact drawn request List.mem_cons_self symbol hsymbol

/-- A constant is made of the symbol that is asked for. -/
theorem constant {request : Request} (h : asks request) :
    (Plan.constant request).Draws asks P (Term.Over P) := by
  refine ⟨List.forall_mem_singleton.2 h, fun drawn t ht => ?_⟩
  obtain ⟨symbol, hsymbol, rfl⟩ := map_eq_ok.1 ht
  exact .constant (drawn request List.mem_cons_self symbol hsymbol)

/-- What comes next may use what the first step came to. -/
theorem bind (hx : plan.Draws asks P made)
    (hf : ∀ a, (next a).Draws asks P fun b => made a → made' b) :
    (plan >>= next).Draws asks P made' := by
  cases hout : plan.outcome with
  | error cause =>
      rw [bind_of_error hout]
      exact ⟨hx.requests, nofun⟩
  | ok a =>
      have hrequests := requests_bind hout next
      refine ⟨?_, fun drawn b hb => ?_⟩
      · rw [hrequests]
        exact List.forall_mem_append.2 ⟨hx.requests, (hf a).requests⟩
      · rw [hrequests, List.forall_mem_append] at drawn
        obtain ⟨a', ha', hb⟩ := outcome_bind_eq_ok.1 hb
        rw [hout] at ha'
        cases ha'
        exact (hf a).outcome drawn.2 b hb (hx.outcome drawn.1 a hout)

end Plan.Draws

-- ============================================================ the clauses

section

variable {asks : Request → Prop} {P : Symbol → Prop}

/-- No rule of an operator adds a symbol. -/
theorem binaryRule_over {op : BinaryOp} {kind : Ty.Kind} {rule : Term → Term → Term}
    (hrule : binaryRule op kind = some rule) {a b : Term} (ha : a.Over P) (hb : b.Over P) :
    (rule a b).Over P := by
  unfold binaryRule at hrule
  split at hrule
  all_goals first
    | cases hrule
      first
        | exact .binary _ ha hb
        | exact .compare _ ha hb
    | cases hrule

/-- Nor does a connective. -/
theorem connect_over {op : Connective} {terms : List Term} {t : Term}
    (h : ∀ t ∈ terms, t.Over P) (ht : connect op terms = .ok t) : t.Over P := by
  unfold connect at ht
  split at ht
  next =>
    cases ht
    exact .foldl .and h
  next =>
    cases ht
    exact .foldl .or h
  next operand =>
    cases ht
    exact .one .not (h operand List.mem_cons_self)
  next premise conclusion =>
    cases ht
    rw [List.forall_mem_cons, List.forall_mem_singleton] at h
    exact .binary .implies h.1 h.2
  next => cases ht

theorem unaryTerm_over (op : UnaryOp) {a : Term} (ha : a.Over P) : (unaryTerm op a).Over P := by
  cases op with
  | neg => exact .one .neg ha
  | not => exact .one .not ha

theorem lowerAll_draws {exprs : List Expr}
    (h : ∀ e ∈ exprs, (Plan.lower e).Draws asks P (Term.Over P)) :
    (Plan.lowerAll exprs).Draws asks P fun terms => ∀ t ∈ terms, t.Over P := by
  induction exprs with
  | nil => exact .pure nofun
  | cons e rest ih =>
      rw [List.forall_mem_cons] at h
      rw [Plan.lowerAll_cons]
      refine h.1.bind fun t => (ih h.2).bind fun terms => .pure fun others here => ?_
      exact List.forall_mem_cons.2 ⟨here, others⟩

/-- A choice is made of what its three parts are made of. -/
theorem ite_draws {condition thenPlan elsePlan : Plan Term}
    (hc : condition.Draws asks P (Term.Over P)) (ht : thenPlan.Draws asks P (Term.Over P))
    (he : elsePlan.Draws asks P (Term.Over P)) :
    (do
      let condition ← condition
      let thenBranch ← thenPlan
      let elseBranch ← elsePlan
      return Term.ite condition thenBranch elseBranch : Plan Term).Draws asks P (Term.Over P) :=
  hc.bind fun _ => ht.bind fun _ => he.bind fun _ => .pure fun here there choice =>
    .three .ite choice there here

/-- A chain is made of what was there before and of the value, if it is a
write to the field. -/
theorem written_draws {field : Field} {writes : Bool} {held : Ty} {before : Plan (Term × Term)}
    {value : Plan Term}
    (hbefore : before.Draws asks P fun found => found.1.Over P ∧ found.2.Over P)
    (hvalue : value.Draws asks P (Term.Over P)) :
    (Builder.written field writes held before value).Draws asks P
      fun found => found.1.Over P ∧ found.2.Over P := by
  refine hbefore.bind fun found => ?_
  cases writes with
  | false => exact .pure id
  | true =>
      by_cases fits : held = field.ty
      · simp only [fits, if_true]
        exact hvalue.bind fun stored => .pure fun here below =>
          ⟨.three .store below.1 below.2 here, below.2⟩
      · simp only [fits, if_true, if_false]
        exact .fault _

end

-- ============================================================ expressions

section

variable {α : Type} {P : Symbol → Prop} {made : α → Prop} {plan : Plan α} {e : Expr} {field : Field}

/-- Where contents are wanted, their field may be asked for. -/
theorem Plan.Draws.orArray (h : plan.Draws (Names e) P made) :
    plan.Draws (fun request => Names e request ∨ request = .array field) P made :=
  h.mono fun _ => .inl

/-- The field of a read, or of a write that is lowered for itself, is
named. -/
theorem Plan.Draws.named
    (h : plan.Draws (fun request => Names e request ∨ request = .array field) P made)
    (here : Names e (.array field)) : plan.Draws (Names e) P made := by
  refine h.mono fun request asked => ?_
  rcases asked with names | rfl
  · exact names
  · exact here

end

/-- What the plans of an expression draw on.  The field whose contents are
wanted need not be named. -/
structure Drawn (P : Symbol → Prop) (e : Expr) : Prop where
  lower : (Plan.lower e).Draws (Names e) P (Term.Over P)
  identity : (Plan.identity e).Draws (Names e) P (Term.Over P)
  contents : ∀ field,
    (Plan.contents e field).Draws (fun request => Names e request ∨ request = .array field) P
      fun found => found.1.Over P ∧ found.2.Over P

namespace Drawn

variable {P : Symbol → Prop}

/-- What is no state of an object has neither identity nor contents. -/
theorem stateless {e : Expr} (hlower : (Plan.lower e).Draws (Names e) P (Term.Over P))
    (stateless : Builder.mayBeState e = false) : Drawn P e where
  lower := hlower
  identity := by
    rw [Plan.identity_of_stateless stateless]
    exact .fault _
  contents field := by
    rw [Plan.contents_of_stateless stateless]
    exact (Plan.Draws.constant (.inr rfl)).bind fun _ => .fault _

/-- A part draws on what the whole names. -/
theorem part {e part : Expr} (h : Drawn P part) (member : part ∈ e.children) :
    (Plan.lower part).Draws (Names e) P (Term.Over P) ∧
      (Plan.identity part).Draws (Names e) P (Term.Over P) ∧
      ∀ field, (Plan.contents part field).Draws
        (fun request => Names e request ∨ request = .array field) P
        fun found => found.1.Over P ∧ found.2.Over P :=
  ⟨h.lower.mono fun _ => .part member, h.identity.mono fun _ => .part member,
    fun field => (h.contents field).mono fun _ => Or.imp_left (.part member)⟩

-- -------------------------------------------------------- one constructor

/-- A variable is what it asks for, and as a root it has the array that any
field starts with. -/
theorem var (name : String) (ty : Ty) : Drawn P (.var name ty) := by
  cases ty with
  | object =>
      refine ⟨.constant .var, .constant .var, fun field => ?_⟩
      exact (Plan.Draws.constant (.inr rfl)).bind fun _ =>
        (Plan.Draws.constant (.inl .var)).bind fun _ =>
          .pure fun identity initial => ⟨initial, identity⟩
  | _ => exact stateless (.constant .var) rfl

theorem binary {op : BinaryOp} {left right : Expr} (hleft : Drawn P left)
    (hright : Drawn P right) : Drawn P (.binary op left right) := by
  refine stateless ?_ rfl
  have hl : left ∈ (Expr.binary op left right).children := by simp [Expr.children]
  have hr : right ∈ (Expr.binary op left right).children := by simp [Expr.children]
  obtain ⟨lowerLeft, identityLeft, -⟩ := hleft.part hl
  obtain ⟨lowerRight, identityRight, -⟩ := hright.part hr
  rw [Plan.lower_binary]
  cases hrule : binaryRule op left.typeOf.kind with
  | none => exact .fault _
  | some rule =>
      by_cases object : left.typeOf = .object
      · simp only [object, if_true]
        exact identityLeft.bind fun _ => identityRight.bind fun _ =>
          .pure fun hb ha => binaryRule_over hrule ha hb
      · simp only [object, if_false]
        exact lowerLeft.bind fun _ => lowerRight.bind fun _ =>
          .pure fun hb ha => binaryRule_over hrule ha hb

theorem logical {op : Connective} {operands : List Expr} (h : ∀ e ∈ operands, Drawn P e) :
    Drawn P (.logical op operands) := by
  refine stateless ?_ rfl
  rw [Plan.lower_logical]
  have parts : ∀ e ∈ (Expr.logical op operands).children,
      (Plan.lower e).Draws (Names (.logical op operands)) P (Term.Over P) :=
    fun e he => ((h e he).part he).1
  exact (lowerAll_draws parts).bind fun terms => .ofExcept fun t ht here =>
    connect_over here ht

theorem unary {op : UnaryOp} {operand : Expr} (h : Drawn P operand) :
    Drawn P (.unary op operand) := by
  refine stateless ?_ rfl
  rw [Plan.lower_unary]
  have member : operand ∈ (Expr.unary op operand).children := List.mem_cons_self
  exact (h.part member).1.bind fun _ => .pure (unaryTerm_over op)

theorem ite {condition thenBranch elseBranch : Expr} (hcondition : Drawn P condition)
    (hthen : Drawn P thenBranch) (helse : Drawn P elseBranch) :
    Drawn P (.ite condition thenBranch elseBranch) := by
  have members : ∀ e ∈ [condition, thenBranch, elseBranch],
      e ∈ (Expr.ite condition thenBranch elseBranch).children := fun _ => id
  rw [List.forall_mem_cons, List.forall_mem_cons, List.forall_mem_singleton] at members
  obtain ⟨hc, -⟩ := hcondition.part members.1
  obtain ⟨ht, hti, htc⟩ := hthen.part members.2.1
  obtain ⟨he, hei, hec⟩ := helse.part members.2.2
  refine ⟨?_, ?_, fun field => ?_⟩
  · rw [Plan.lower_ite]
    by_cases object : thenBranch.typeOf = .object
    · simp only [object, if_true]
      exact ite_draws hc hti hei
    · by_cases sorted : thenBranch.typeOf.hasSort = true
      · simp only [object, sorted, if_true, if_false]
        exact ite_draws hc ht he
      · simp only [object, sorted, if_false]
        exact .fault _
  · rw [Plan.identity_ite]
    exact ite_draws hc hti hei
  · rw [Plan.contents_ite]
    refine hc.orArray.bind fun _ => (htc field).bind fun _ => (hec field).bind fun _ =>
      hc.orArray.bind fun _ => hti.orArray.bind fun _ => hei.orArray.bind fun _ => .pure ?_
    exact fun thereIdentity hereIdentity choice' there here choice =>
      ⟨.three .ite choice here.1 there.1, .three .ite choice' hereIdentity thereIdentity⟩

theorem function (signature : Signature) : Drawn P (.function signature) := by
  refine stateless ?_ rfl
  rw [Plan.lower_function]
  exact (Plan.Draws.symbol .function).bind fun _ => .pure .constant

theorem call {callee : Signature} {args : List Expr} (h : ∀ e ∈ args, Drawn P e) :
    Drawn P (.call callee args) := by
  refine stateless ?_ rfl
  rw [Plan.lower_call]
  have parts : ∀ e ∈ (Expr.call callee args).children,
      (Plan.lower e).Draws (Names (.call callee args)) P (Term.Over P) :=
    fun e he => ((h e he).part he).1
  exact (Plan.Draws.symbol .call).bind fun _ => (lowerAll_draws parts).bind fun _ =>
    .pure fun hargs here => .call here hargs

theorem assign {base value : Expr} {index : Nat} {tag : String} (hbase : Drawn P base)
    (hvalue : Drawn P value) : Drawn P (.assign base index value tag) := by
  have hb : base ∈ (Expr.assign base index value tag).children := by simp [Expr.children]
  have hv : value ∈ (Expr.assign base index value tag).children := by simp [Expr.children]
  obtain ⟨-, hidentity, hcontents⟩ := hbase.part hb
  obtain ⟨hvalue, -⟩ := hvalue.part hv
  have contents : ∀ field, (Plan.contents (.assign base index value tag) field).Draws
      (fun request => Names (.assign base index value tag) request ∨ request = .array field) P
      fun found => found.1.Over P ∧ found.2.Over P := by
    intro field
    rw [Plan.contents_assign]
    exact written_draws (hcontents field) hvalue.orArray
  refine ⟨?_, ?_, contents⟩
  · rw [Plan.lower_assign]
    exact ((contents _).named .assign).bind fun _ => .pure And.left
  · rw [Plan.identity_assign]
    exact hidentity

/-- A read asks for the array of its field, which is named in it. -/
theorem access {base : Expr} {prior : Option Expr} {field : Field} (h : Drawn P base) :
    Drawn P (.access base prior field) := by
  refine stateless ?_ rfl
  have member : base ∈ (Expr.access base prior field).children := List.mem_cons_self
  obtain ⟨-, hidentity, hcontents⟩ := h.part member
  have hcontents := (hcontents field).named .access
  rw [Plan.lower_access]
  by_cases matching : priorOf field.tag field.index base = prior
  · rw [if_neg (not_not_intro matching)]
    exact hcontents.bind fun _ => hidentity.bind fun _ =>
      .pure fun identity contents => .binary .select contents.1 identity
  · rw [if_pos matching]
    have fails : (Plan.ofExcept (.error (.priorMismatch base prior field)) :
        Plan PUnit).Draws (Names (.access base prior field)) P fun _ => True := .fault _
    exact fails.bind fun _ => hcontents.bind fun _ => hidentity.bind fun _ =>
      .pure fun identity contents _ => .binary .select contents.1 identity

end Drawn

theorem drawn (P : Symbol → Prop) (e : Expr) : Drawn P e := by
  induction e with
  | var name ty => exact .var name ty
  | int value => exact .stateless (.pure (.numeral value)) rfl
  | bool value => exact .stateless (.pure (.truth value)) rfl
  | binary _ _ _ ihLeft ihRight => exact ihLeft.binary ihRight
  | logical _ _ ih => exact .logical ih
  | unary _ _ ih => exact ih.unary
  | ite _ _ _ ihCondition ihThen ihElse => exact ihCondition.ite ihThen ihElse
  | function signature => exact .function signature
  | call _ _ ih => exact .call ih
  | assign _ _ _ _ ihBase ihValue => exact ihBase.assign ihValue
  | access _ _ _ ih => exact ih.access

theorem lowered_drawn (P : Symbol → Prop) (e : Expr) :
    (Plan.lowered e).Draws (Names e) P (Lowered.Over P) := by
  have lower := (drawn P e).lower
  cases e with
  | function signature =>
      rw [Plan.lowered_function]
      exact (Plan.Draws.symbol .function).bind fun _ => .pure id
  | _ =>
      rw [Plan.lowered_term fun _ => Expr.noConfusion]
      exact lower.bind fun _ => .pure id

/-- What the plan of an expression asks for is named in it, and the symbols
of what it comes to are among those asked for. -/
theorem lowered_over {e : Expr} {found : Lowered} (h : (Plan.lowered e).outcome = .ok found) :
    (∀ request ∈ (Plan.lowered e).requests, Names e request) ∧
      found.Over fun symbol => ∃ request ∈ (Plan.lowered e).requests,
        request.symbol = .ok symbol := by
  have draws := lowered_drawn (fun symbol => ∃ request ∈ (Plan.lowered e).requests,
    request.symbol = .ok symbol) e
  exact ⟨draws.requests,
    draws.outcome (fun request asked symbol same => ⟨request, asked, same⟩) found h⟩

/-- The objects that the plan of an expression asks for are mentioned by
it, and the symbols of its term are among those asked for. -/
theorem lowered_draws {e : Expr} {t : Term} (h : (Plan.lowered e).outcome = .ok (.term t)) :
    (∀ request ∈ (Plan.lowered e).requests, Covers e request) ∧
      t.Over fun symbol => ∃ request ∈ (Plan.lowered e).requests,
        request.symbol = .ok symbol := by
  obtain ⟨names, made⟩ := lowered_over h
  exact ⟨fun request asked => (names request asked).covers, made⟩

end Lowering

end SymbolicHeap
