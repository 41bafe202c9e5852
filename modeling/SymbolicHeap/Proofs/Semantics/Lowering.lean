/-
Lowering preserves meaning.

The term of an expression has, under every interpretation, the value of
the expression (`lowered_means`).  The plan of an expression fixes its
term, so this is shown of plans, for the three at once that lower
expressions, identities and contents of arrays (`plan_sound`): the term
of a read selects from contents, contents hold the terms of values that
were written, and these may be reads again.

A field is read where the identity of the state says.  There the array
built by the writes holds the value written last, since a write stores at
the very identity that a later read of the same chain selects at.  What
the same write does at other identities is part of the contents too, but
a read of this object never comes across it.
-/
import SymbolicHeap.Proofs.Lowering.Transcript
import SymbolicHeap.Proofs.Semantics.Means

namespace SymbolicHeap

/-- What something lowered is worth beside its expression: a function gives
the symbol that stands for it, the state after a write the array that was
written to, everything else a term with its value. -/
def Lowered.Means (I : Interp) : Expr → Lowered → Prop
  | .function signature, lowered =>
      ∃ symbol, lowered = .declaration symbol ∧
        ∀ args, I.symbol symbol args = I.function signature args
  | .assign base index value tag, lowered =>
      ∃ t, lowered = .term t ∧
        I.eval t = I.contents (.assign base index value tag) ⟨tag, index, value.typeOf⟩
  | e, lowered => ∃ t, lowered = .term t ∧ I.eval t = I.value e

/-- Whether an expression lowers to its value.  A function does not, and
the state after a write lowers to the array that was written to. -/
def Expr.isPlain : Expr → Bool
  | .function _ | .assign _ _ _ _ => false
  | _ => true

/-- The sort of the values of a type, where objects are their identities. -/
def Ty.valueSort : Ty → Except Ty Srt
  | .object => .ok .int
  | ty => ty.sort

theorem Expr.isPlain_of_typeOf {e : Expr} (object : e.typeOf ≠ .object)
    (function : e.typeOf.kind ≠ .function) : e.isPlain = true := by
  cases e with
  | function signature => exact absurd rfl function
  | assign base index value tag => exact absurd rfl object
  | _ => rfl

theorem Ty.valueSort_of_sort {ty : Ty} {s : Srt} (h : ty.sort = .ok s) :
    ty.valueSort = .ok s := by
  cases ty with
  | object => cases h
  | _ => exact h

theorem Ty.sort_of_valueSort {ty : Ty} {s : Srt} (object : ty ≠ .object)
    (h : ty.valueSort = .ok s) : ty.sort = .ok s := by
  cases ty with
  | object => exact absurd rfl object
  | _ => exact h

namespace Lowering

-- ================================================================== plans

/-- What the plans of an expression come to. -/
structure Sound (e : Expr) : Prop where
  lower : ∀ {t : Term}, (Plan.lower e).outcome = .ok t → e.isPlain = true →
    ∃ s, e.typeOf.valueSort = .ok s ∧ t.Means s fun I => I.value e
  identity : ∀ {t : Term}, (Plan.identity e).outcome = .ok t →
    t.Means .int fun I => I.value e
  contents : ∀ {field : Field} {found identity : Term},
    (Plan.contents e field).outcome = .ok (found, identity) →
    ∃ s, field.ty.sort = .ok s ∧ found.Means (.array s) fun I => I.contents e field

/-- The term of an expression of a type with values. -/
theorem Sound.lower_of_sort {e : Expr} (h : Sound e) {s : Srt} (hs : e.typeOf.sort = .ok s)
    {t : Term} (ht : (Plan.lower e).outcome = .ok t) : t.Means s fun I => I.value e := by
  have plain : e.isPlain = true := by
    cases e with
    | function signature => cases hs
    | assign base index value tag => cases hs
    | _ => rfl
  obtain ⟨s', hs', hmeans⟩ := h.lower ht plain
  rw [Ty.valueSort_of_sort hs] at hs'
  injection hs' with hs'
  rw [hs']
  exact hmeans

/-- What is no state of an object has neither identity nor contents. -/
theorem Sound.stateless {e : Expr}
    (hlower : ∀ {t : Term}, (Plan.lower e).outcome = .ok t → e.isPlain = true →
      ∃ s, e.typeOf.valueSort = .ok s ∧ t.Means s fun I => I.value e)
    (stateless : Builder.mayBeState e = false) : Sound e where
  lower := hlower
  identity h := by
    rw [Plan.identity_of_stateless stateless] at h
    cases h
  contents h := by
    rw [Plan.contents_of_stateless stateless] at h
    obtain ⟨_, -, h⟩ := Plan.outcome_bind_eq_ok.1 h
    cases h

/-- The terms of several expressions of types with values. -/
theorem lowerAll_sound {exprs : List Expr} (h : ∀ e ∈ exprs, Sound e) {sorts : List Srt}
    (hs : (exprs.map Expr.typeOf).mapM Ty.sort = .ok sorts) {terms : List Term}
    (ht : (Plan.lowerAll exprs).outcome = .ok terms) :
    Term.sorts? terms = some sorts ∧ ∀ I : Interp, terms.map I.eval = I.values exprs := by
  induction exprs generalizing sorts terms with
  | nil =>
      injection hs with hs
      injection ht with ht
      subst hs ht
      exact ⟨by rw [Term.sorts?]; rfl, fun I => by rw [Interp.values, List.map_nil]⟩
  | cons e rest ih =>
      rw [List.map_cons, List.mapM_cons] at hs
      obtain ⟨s, hse, hs⟩ := bind_eq_ok.1 hs
      obtain ⟨found, hsr, hs⟩ := bind_eq_ok.1 hs
      injection hs with hs
      rw [Plan.lowerAll_cons] at ht
      obtain ⟨t, hte, ht⟩ := Plan.outcome_bind_eq_ok.1 ht
      obtain ⟨ts, htr, ht⟩ := Plan.outcome_bind_eq_ok.1 ht
      injection ht with ht
      subst hs ht
      obtain ⟨hsort, hvalue⟩ := (h e List.mem_cons_self).lower_of_sort hse hte
      obtain ⟨hsorts, hvalues⟩ := ih (fun e he => h e (List.mem_cons_of_mem _ he)) hsr htr
      refine ⟨Term.sorts?_cons_eq_some.2 ⟨s, found, hsort, hsorts, rfl⟩, fun I => ?_⟩
      rw [List.map_cons, hvalue, hvalues, Interp.values]

/-- The terms of several truth values. -/
theorem lowerAll_bools {exprs : List Expr} (h : ∀ e ∈ exprs, Sound e)
    (hb : ∀ e ∈ exprs, e.typeOf = .bool) {terms : List Term}
    (ht : (Plan.lowerAll exprs).outcome = .ok terms) :
    (∀ t ∈ terms, t.sort? = some .bool) ∧ ∀ I : Interp, terms.map I.eval = I.values exprs := by
  have hs : (exprs.map Expr.typeOf).mapM Ty.sort = .ok (exprs.map fun _ => Srt.bool) := by
    clear h ht
    induction exprs with
    | nil => rfl
    | cons e rest ih =>
        rw [List.map_cons, List.mapM_cons, hb e List.mem_cons_self,
          ih fun e he => hb e (List.mem_cons_of_mem _ he)]
        rfl
  obtain ⟨hsorts, hvalues⟩ := lowerAll_sound h hs ht
  refine ⟨fun t htm => ?_, hvalues⟩
  obtain ⟨s, hsm, hsort⟩ := Term.sort?_of_mem hsorts htm
  obtain ⟨_, -, rfl⟩ := List.mem_map.1 hsm
  exact hsort

-- ------------------------------------------------------- node by node

/-- The terms of the operands of a binary operator: identities of objects,
and values of all else. -/
theorem outcome_binary {op : BinaryOp} {left right : Expr} {t : Term}
    (h : (Plan.lower (.binary op left right)).outcome = .ok t) :
    ∃ rule a b, binaryRule op left.typeOf.kind = some rule ∧ t = rule a b ∧
      if left.typeOf = .object then
        (Plan.identity left).outcome = .ok a ∧ (Plan.identity right).outcome = .ok b
      else (Plan.lower left).outcome = .ok a ∧ (Plan.lower right).outcome = .ok b := by
  rw [Plan.lower_binary] at h
  split at h
  next => cases h
  next rule hrule =>
    refine ⟨rule, ?_⟩
    split at h
    case isTrue object =>
      obtain ⟨a, ha, h⟩ := Plan.outcome_bind_eq_ok.1 h
      obtain ⟨b, hb, h⟩ := Plan.outcome_bind_eq_ok.1 h
      injection h with h
      exact ⟨a, b, hrule, h.symm, by rw [if_pos object]; exact ⟨ha, hb⟩⟩
    case isFalse object =>
      obtain ⟨a, ha, h⟩ := Plan.outcome_bind_eq_ok.1 h
      obtain ⟨b, hb, h⟩ := Plan.outcome_bind_eq_ok.1 h
      injection h with h
      exact ⟨a, b, hrule, h.symm, by rw [if_neg object]; exact ⟨ha, hb⟩⟩

/-- The operands of an operator on integers. -/
theorem integer_sound {op : BinaryOp} {left right : Expr} {a b : Term}
    (hop : op.isArithmetic = true ∨ op.isOrdering = true)
    (made : Build.binary op left right = .ok (.binary op left right)) (hl : Sound left)
    (hr : Sound right)
    (hparts : if left.typeOf = .object then
        (Plan.identity left).outcome = .ok a ∧ (Plan.identity right).outcome = .ok b
      else (Plan.lower left).outcome = .ok a ∧ (Plan.lower right).outcome = .ok b) :
    left.typeOf = .int ∧ a.Means .int (fun I => I.value left) ∧
      b.Means .int (fun I => I.value right) := by
  obtain ⟨hlt, hrt⟩ := Build.integer_operands hop made
  have object : left.typeOf ≠ .object := by
    rw [hlt]
    exact Ty.noConfusion
  rw [if_neg object] at hparts
  have hls : left.typeOf.sort = .ok .int := by
    rw [hlt]
    rfl
  have hrs : right.typeOf.sort = .ok .int := by
    rw [hrt]
    rfl
  exact ⟨hlt, hl.lower_of_sort hls hparts.1, hr.lower_of_sort hrs hparts.2⟩

theorem binary_sound {op : BinaryOp} {left right : Expr}
    (made : Build.binary op left right = .ok (.binary op left right)) (hl : Sound left)
    (hr : Sound right) {t : Term} (h : (Plan.lower (.binary op left right)).outcome = .ok t) :
    ∃ s, (Expr.binary op left right).typeOf.valueSort = .ok s ∧
      t.Means s fun I => I.value (.binary op left right) := by
  obtain ⟨rule, a, b, hrule, rfl, hparts⟩ := outcome_binary h
  simp only [Interp.value]
  cases op
  case add | sub | mul | div | mod =>
    obtain ⟨hlt, ha, hb⟩ := integer_sound (.inl rfl) made hl hr hparts
    rw [hlt] at hrule
    exact ⟨.int, rfl, arithmetic_means rfl hrule ha hb⟩
  case lt | le | gt | ge =>
    obtain ⟨hlt, ha, hb⟩ := integer_sound (.inr rfl) made hl hr hparts
    rw [hlt] at hrule
    exact ⟨.bool, rfl, ordering_means rfl hrule ha hb⟩
  case select =>
    obtain ⟨element, hlt, hrt⟩ := Build.select_operands made
    rw [hlt] at hrule
    have object : left.typeOf ≠ .object := by
      rw [hlt]
      exact Ty.noConfusion
    have function : left.typeOf.kind ≠ .function := by
      rw [hlt]
      exact Ty.Kind.noConfusion
    rw [if_neg object] at hparts
    have plain : left.isPlain = true := Expr.isPlain_of_typeOf object function
    obtain ⟨s, hs, ha⟩ := hl.lower hparts.1 plain
    have hb := hr.lower_of_sort (by rw [hrt]; rfl) hparts.2
    have harray := Ty.sort_of_valueSort object hs
    rw [hlt] at harray
    obtain ⟨inner, hinner, rfl⟩ := map_eq_ok.1 harray
    injection hrule with hrule
    subst hrule
    refine ⟨inner, ?_, select_means ha hb⟩
    rw [Expr.typeOf, hlt]
    exact Ty.valueSort_of_sort hinner
  case eq | ne =>
    obtain ⟨same, hfunction, -⟩ := Build.equality_operands rfl made
    refine ⟨.bool, rfl, ?_⟩
    by_cases object : left.typeOf = .object
    · rw [if_pos object] at hparts
      exact equality_means rfl hrule (hl.identity hparts.1) (hr.identity hparts.2)
    · rw [if_neg object] at hparts
      obtain ⟨s, hs, ha⟩ := hl.lower hparts.1 (Expr.isPlain_of_typeOf object hfunction)
      have hs' := Ty.sort_of_valueSort object hs
      have hb := hr.lower_of_sort (same ▸ hs') hparts.2
      exact equality_means rfl hrule ha hb

/-- A choice between two terms of one sort. -/
theorem outcome_ite {condition thenPlan elsePlan : Plan Term} {t : Term}
    (h : (do
      let condition ← condition
      let thenBranch ← thenPlan
      let elseBranch ← elsePlan
      return Term.ite condition thenBranch elseBranch : Plan Term).outcome = .ok t) :
    ∃ c a b, condition.outcome = .ok c ∧ thenPlan.outcome = .ok a ∧
      elsePlan.outcome = .ok b ∧ t = Term.ite c a b := by
  obtain ⟨c, hc, h⟩ := Plan.outcome_bind_eq_ok.1 h
  obtain ⟨a, ha, h⟩ := Plan.outcome_bind_eq_ok.1 h
  obtain ⟨b, hb, h⟩ := Plan.outcome_bind_eq_ok.1 h
  injection h with h
  exact ⟨c, a, b, hc, ha, hb, h.symm⟩

theorem ite_sound {condition thenBranch elseBranch : Expr}
    (made : Build.ite condition thenBranch elseBranch
      = .ok (.ite condition thenBranch elseBranch))
    (hc : Sound condition) (ht : Sound thenBranch) (he : Sound elseBranch) :
    Sound (.ite condition thenBranch elseBranch) := by
  obtain ⟨hbool, same⟩ := Build.ite_parts made
  have condition_means : ∀ {t : Term}, (Plan.lower condition).outcome = .ok t →
      t.Means .bool fun I => I.value condition :=
    fun h => hc.lower_of_sort (by rw [hbool]; rfl) h
  refine ⟨?_, ?_, ?_⟩
  · intro t h _
    simp only [Interp.value]
    rw [Plan.lower_ite] at h
    by_cases object : thenBranch.typeOf = .object
    · rw [if_pos object] at h
      obtain ⟨c, a, b, hc', ha, hb, rfl⟩ := outcome_ite h
      exact ⟨.int, by rw [Expr.typeOf, object]; rfl,
        ite_means (condition_means hc') (ht.identity ha) (he.identity hb)⟩
    · rw [if_neg object] at h
      split at h
      case isFalse => cases h
      case isTrue sorted =>
        obtain ⟨s, hs⟩ := (Ty.hasSort_iff_sort _).1 sorted
        obtain ⟨c, a, b, hc', ha, hb, rfl⟩ := outcome_ite h
        exact ⟨s, Ty.valueSort_of_sort hs, ite_means (condition_means hc')
          (ht.lower_of_sort hs ha) (he.lower_of_sort (same ▸ hs) hb)⟩
  · intro t h
    rw [Plan.identity_ite] at h
    obtain ⟨c, a, b, hc', ha, hb, rfl⟩ := outcome_ite h
    simp only [Interp.value]
    exact ite_means (condition_means hc') (ht.identity ha) (he.identity hb)
  · intro field found identity h
    rw [Plan.contents_ite] at h
    obtain ⟨choice, hchoice, h⟩ := Plan.outcome_bind_eq_ok.1 h
    obtain ⟨⟨a, _⟩, ha, h⟩ := Plan.outcome_bind_eq_ok.1 h
    obtain ⟨⟨b, _⟩, hb, h⟩ := Plan.outcome_bind_eq_ok.1 h
    obtain ⟨_, -, h⟩ := Plan.outcome_bind_eq_ok.1 h
    obtain ⟨_, -, h⟩ := Plan.outcome_bind_eq_ok.1 h
    obtain ⟨_, -, h⟩ := Plan.outcome_bind_eq_ok.1 h
    injection h with h
    injection h with h
    subst h
    obtain ⟨s, hs, hthen⟩ := ht.contents ha
    obtain ⟨s', hs', helse⟩ := he.contents hb
    rw [hs] at hs'
    injection hs' with hs'
    subst hs'
    refine ⟨s, hs, ?_⟩
    simp only [Interp.contents]
    exact ite_means (condition_means hchoice) hthen helse

theorem call_sound {callee : Signature} {args : List Expr}
    (made : Build.call callee args = .ok (.call callee args)) (ih : ∀ e ∈ args, Sound e)
    {t : Term} (h : (Plan.lower (.call callee args)).outcome = .ok t) :
    ∃ s, (Expr.call callee args).typeOf.valueSort = .ok s ∧
      t.Means s fun I => I.value (.call callee args) := by
  rw [Plan.lower_call] at h
  obtain ⟨symbol, hsym, h⟩ := Plan.outcome_bind_eq_ok.1 h
  obtain ⟨terms, hterms, h⟩ := Plan.outcome_bind_eq_ok.1 h
  injection h with h
  subst h
  obtain ⟨hargs, hresult, hvalue⟩ := symbol_function hsym
  rw [← Build.call_args made] at hargs
  obtain ⟨hsorts, hvalues⟩ := lowerAll_sound ih hargs hterms
  refine ⟨symbol.result, Ty.valueSort_of_sort hresult, Term.sort?_call hsorts, fun I => ?_⟩
  rw [Interp.eval_call, hvalue, hvalues, Interp.value]

/-- What the contents after a write hold, if the contents before it are as
they should be. -/
theorem assign_sound {base value : Expr} {index : Nat} {tag : String} (hb : Sound base)
    (hv : Sound value) : Sound (.assign base index value tag) where
  lower _ plain := absurd plain Bool.false_ne_true
  identity h := by
    rw [Plan.identity_assign] at h
    simp only [Interp.value]
    exact hb.identity h
  contents {field found identity} h := by
    rw [Plan.contents_assign] at h
    obtain ⟨below, hbelow, hwritten⟩ := Plan.written_eq_ok h
    obtain ⟨s, hs, hmeans⟩ := hb.contents hbelow
    refine ⟨s, hs, ?_⟩
    simp only [Interp.contents]
    cases writes : field.isAt index tag with
    | false =>
        rw [writes, if_neg Bool.false_ne_true] at hwritten
        subst hwritten
        exact hmeans
    | true =>
        rw [writes, if_pos rfl] at hwritten
        obtain ⟨held, stored, hstored, rfl⟩ := hwritten
        have hidentity := hb.identity (Plan.identity_of_contents hbelow).1
        have hvalue := hv.lower_of_sort (held ▸ hs) hstored
        exact store_means hmeans hidentity hvalue

/-- The term of a state after a write is the contents written to. -/
theorem outcome_assign {base value : Expr} {index : Nat} {tag : String} {t : Term}
    (h : (Plan.lower (.assign base index value tag)).outcome = .ok t) :
    ∃ identity, (Plan.contents (.assign base index value tag) ⟨tag, index, value.typeOf⟩).outcome
      = .ok (t, identity) := by
  rw [Plan.lower_assign] at h
  obtain ⟨⟨contents, identity⟩, hc, h⟩ := Plan.outcome_bind_eq_ok.1 h
  injection h with h
  subst h
  exact ⟨identity, hc⟩

/-- A read selects from the contents at the identity of its state. -/
theorem outcome_access {base : Expr} {prior : Option Expr} {field : Field} {t : Term}
    (h : (Plan.lower (.access base prior field)).outcome = .ok t) :
    ∃ contents identity, (Plan.contents base field).outcome = .ok (contents, identity) ∧
      t = Term.select contents identity := by
  rw [Plan.lower_access] at h
  split at h
  case isTrue =>
    obtain ⟨_, h, -⟩ := Plan.outcome_bind_eq_ok.1 h
    cases h
  case isFalse =>
    obtain ⟨⟨contents, identity⟩, hc, h⟩ := Plan.outcome_bind_eq_ok.1 h
    obtain ⟨identity', hi, h⟩ := Plan.outcome_bind_eq_ok.1 h
    injection h with h
    rw [(Plan.identity_of_contents hc).1] at hi
    injection hi with hi
    subst hi
    exact ⟨contents, identity, hc, h.symm⟩

/-- Only a state has an identity. -/
theorem isState_of_identity {e : Expr} {t : Term} (h : (Plan.identity e).outcome = .ok t) :
    e.IsState := by
  induction e generalizing t with
  | var name ty =>
      cases ty with
      | object => exact .var name
      | _ => cases h
  | assign base index value tag ih _ =>
      rw [Plan.identity_assign] at h
      exact .assign index value tag (ih h)
  | ite condition thenBranch elseBranch _ ihThen ihElse =>
      rw [Plan.identity_ite] at h
      obtain ⟨_, _, _, -, ha, hb, -⟩ := outcome_ite h
      exact .ite condition (ihThen ha) (ihElse hb)
  | _ => cases h

theorem access_sound {base : Expr} {prior : Option Expr} {field : Field} (hb : Sound base)
    {t : Term}
    (h : (Plan.lower (.access base prior field)).outcome = .ok t) :
    ∃ s, field.ty.valueSort = .ok s ∧ t.Means s fun I => I.value (.access base prior field) := by
  obtain ⟨contents, identity, hc, rfl⟩ := outcome_access h
  have hidentity := (Plan.identity_of_contents hc).1
  have state := isState_of_identity hidentity
  obtain ⟨s, hs, hmeans⟩ := hb.contents hc
  obtain ⟨hsort, hvalue⟩ := select_means hmeans (hb.identity hidentity)
  refine ⟨s, Ty.valueSort_of_sort hs, hsort, fun I => ?_⟩
  rw [hvalue, I.element_contents state, Interp.value]

/-- A variable is its constant, and an object is the one constant where it
starts. -/
theorem var_sound (name : String) (ty : Ty) : Sound (.var name ty) := by
  have hlower : ∀ {t : Term}, (Plan.lower (.var name ty)).outcome = .ok t →
      ∃ s, ty.valueSort = .ok s ∧ t.Means s fun I => I.value (.var name ty) := by
    intro t h
    simp only [Interp.value]
    by_cases object : ty = .object
    · subst object
      exact ⟨.int, rfl, constant_root_means h⟩
    · obtain ⟨s, hs⟩ := sort_of_constant_var object h
      exact ⟨s, Ty.valueSort_of_sort hs, constant_var_means hs h⟩
  cases ty with
  | object =>
      refine ⟨fun h _ => hlower h, fun h => ?_, fun h => ?_⟩
      · simp only [Interp.value]
        exact constant_root_means h
      · obtain ⟨initial, hinitial, h⟩ := Plan.outcome_bind_eq_ok.1 h
        obtain ⟨_, -, h⟩ := Plan.outcome_bind_eq_ok.1 h
        injection h with h
        injection h with h
        subst h
        exact constant_array_means hinitial
  | _ => exact .stateless (fun h _ => hlower h) rfl

theorem int_sound (value : Int) : Sound (.int value) := by
  refine .stateless (fun h _ => ?_) rfl
  injection h with h
  subst h
  exact ⟨.int, rfl, Term.sort?_numeral _, fun I => by rw [I.eval_numeral, Interp.value]⟩

theorem bool_sound (value : Bool) : Sound (.bool value) := by
  refine .stateless (fun h _ => ?_) rfl
  injection h with h
  subst h
  exact ⟨.bool, rfl, Term.sort?_truth _, fun I => by rw [I.eval_truth, Interp.value]⟩

theorem logical_sound {op : Connective} {operands : List Expr}
    (made : Build.logical op operands = .ok (.logical op operands))
    (h : ∀ e ∈ operands, Sound e) : Sound (.logical op operands) := by
  refine .stateless (fun hlower _ => ?_) rfl
  rw [Plan.lower_logical] at hlower
  obtain ⟨terms, hterms, hlower⟩ := Plan.outcome_bind_eq_ok.1 hlower
  obtain ⟨hbools, hvalues⟩ := lowerAll_bools h (Build.bool_operands made) hterms
  obtain ⟨hsort, hvalue⟩ := connect_means hbools hlower
  refine ⟨.bool, rfl, hsort, fun I => ?_⟩
  rw [hvalue, hvalues, Interp.value]

/-- The operand has the one type that the operator takes. -/
theorem unary_sound {op : UnaryOp} {operand : Expr}
    (made : Build.unary op operand = .ok (.unary op operand)) (h : Sound operand) :
    Sound (.unary op operand) := by
  refine .stateless (fun hlower _ => ?_) rfl
  have hty := Build.unary_operand made
  obtain ⟨s, hs⟩ : ∃ s, (Build.operandTy op).sort = .ok s := by
    cases op with
    | neg => exact ⟨.int, rfl⟩
    | not => exact ⟨.bool, rfl⟩
  rw [Plan.lower_unary] at hlower
  obtain ⟨a, ha, hlower⟩ := Plan.outcome_bind_eq_ok.1 hlower
  injection hlower with hlower
  subst hlower
  refine ⟨s, by rw [Expr.typeOf, hty]; exact Ty.valueSort_of_sort hs, ?_⟩
  simp only [Interp.value]
  exact unary_means hs (h.lower_of_sort (by rw [hty]; exact hs) ha)

/-- What a made expression, its identity and its contents come to is what
they mean. -/
theorem plan_sound {e : Expr} (made : e.Made) : Sound e := by
  induction made with
  | var => exact var_sound _ _
  | int => exact int_sound _
  | bool => exact bool_sound _
  | binary _ _ made ihLeft ihRight =>
      exact .stateless (fun h _ => binary_sound made ihLeft ihRight h) rfl
  | logical _ made ih => exact logical_sound made ih
  | unary _ made ih => exact unary_sound made ih
  | ite _ _ _ made ihCondition ihThen ihElse => exact ite_sound made ihCondition ihThen ihElse
  | function => exact .stateless (fun _ plain => absurd plain Bool.false_ne_true) rfl
  | call _ _ made ih => exact .stateless (fun h _ => call_sound made ih h) rfl
  | assign _ _ _ ihBase ihValue => exact assign_sound ihBase ihValue
  | access _ _ _ ih => exact .stateless (fun h _ => access_sound ih h) rfl

-- ============================================================== lowerings

/-- A value of a sort lowers to the term of its plan. -/
theorem plan_lowered_of_sort {e : Expr} {s : Srt} (hs : e.typeOf.sort = .ok s) :
    Plan.lowered e = Plan.lower e >>= fun t => pure (.term t) := by
  refine Plan.lowered_term ?_
  rintro _ rfl
  cases hs

theorem plan_lowered_means {e : Expr} (made : e.Made) {found : Lowered}
    (h : (Plan.lowered e).outcome = .ok found) (I : Interp) : found.Means I e := by
  have term {t : Term} (ht : (Plan.lower e).outcome = .ok t) (plain : e.isPlain = true) :
      I.eval t = I.value e := by
    obtain ⟨_, -, hmeans⟩ := (plan_sound made).lower ht plain
    exact hmeans.value I
  cases e with
  | function signature =>
      rw [Plan.lowered_function] at h
      obtain ⟨symbol, hsym, h⟩ := Plan.outcome_bind_eq_ok.1 h
      injection h with h
      exact ⟨symbol, h.symm, (symbol_function hsym).2.2 I⟩
  | assign base index value tag =>
      rw [Plan.lowered_term fun _ => Expr.noConfusion] at h
      obtain ⟨t, ht, h⟩ := Plan.outcome_bind_eq_ok.1 h
      injection h with h
      obtain ⟨contents, hcontents⟩ := outcome_assign ht
      obtain ⟨_, -, hmeans⟩ := (plan_sound made).contents hcontents
      exact ⟨t, h.symm, hmeans.value I⟩
  | _ =>
      rw [Plan.lowered_term fun _ => Expr.noConfusion] at h
      obtain ⟨t, ht, h⟩ := Plan.outcome_bind_eq_ok.1 h
      injection h with h
      exact ⟨t, h.symm, term ht rfl⟩

/-- Whatever a lowering has been used for, what an expression lowers to
means the expression. -/
theorem lowered_means {μ : Type} [Memo μ] (calls : List Call) {e : Expr} (made : e.Made)
    {found : Lowered} {lowering : With μ}
    (h : (lowered e).run (afterAll ({} : With μ) calls) = (.ok found, lowering))
    (I : Interp) : found.Means I e := by
  have faithful : Faithful (afterAll ({} : With μ) calls) := faithful_afterAll calls
  obtain ⟨hplan, -, -⟩ := (lowered_runsAs e).eq_ok faithful h
  exact plan_lowered_means made hplan I

/-- A read of a field that was written before, by a lowering that has
seen the object. -/
theorem lowered_means_read :
    ∃ found lowering,
      (lowered (.access (.assign (.var "o" .object) 0 (.int 5) "T")
          (some (.var "o" .object)) ⟨"T", 0, .int⟩)).run
        (afterAll ({} : Lowering) [.lower (.var "o" .object)]) = (.ok found, lowering) ∧
      ∀ I, found.Means I (.access (.assign (.var "o" .object) 0 (.int 5) "T")
          (some (.var "o" .object)) ⟨"T", 0, .int⟩) := by
  have root : (Expr.var "o" .object).Made := .var rfl
  have state : (Expr.assign (.var "o" .object) 0 (.int 5) "T").Made := .assign root (.int rfl) rfl
  have read : (Expr.access (.assign (.var "o" .object) 0 (.int 5) "T")
      (some (.var "o" .object)) ⟨"T", 0, .int⟩).Made :=
    .access state (fun prior h => by injection h with h; subst h; exact root) rfl
  exact ⟨_, _, rfl, lowered_means [.lower (.var "o" .object)] read rfl⟩

end Lowering

end SymbolicHeap
