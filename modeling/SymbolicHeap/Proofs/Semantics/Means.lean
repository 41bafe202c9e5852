/-
Terms that mean what they should.

A term means a value if it has that value under every interpretation, and
is well sorted so that a solver takes it (`Term.Means`).  The symbols that
a lowering asks for mean the names of expressions, and the terms that it
builds from operands mean the operators on what the operands mean.  These
are the steps from which the meaning of whole terms is put together.
-/
import SymbolicHeap.Lowering.Basic
import SymbolicHeap.Proofs.Lowering.Request
import SymbolicHeap.Proofs.Semantics.Expr
import SymbolicHeap.Proofs.Semantics.Sort

namespace SymbolicHeap

/-- A term of a sort has the given value under every interpretation. -/
structure Term.Means (t : Term) (s : Srt) (value : Interp → Value) : Prop where
  sort : t.sort? = some s
  value : ∀ I : Interp, I.eval t = value I

namespace Lowering

-- =============================================================== symbols

/-- The constant of a variable. -/
theorem constant_var_means {name : String} {ty : Ty} {s : Srt} {t : Term}
    (hs : ty.sort = .ok s) (h : (Request.var name ty).constant = .ok t) :
    t.Means s fun I => I.var name ty := by
  obtain ⟨label, hl, -, rfl⟩ := Request.label_of_constant h
  have hlabel : label = ⟨name, [], s⟩ := by
    cases ty with
    | int | bool | array element =>
        obtain ⟨found, hf, hl⟩ := bind_eq_ok.1 hl
        rw [sortOf, mapError_eq_ok, hs] at hf
        injection hf with hf
        injection hl with hl
        rw [← hl, hf]
    | function args result => cases hs
    | object => cases hs
    | ref => cases hs
  subst hlabel
  refine ⟨Term.sort?_call (by rw [Term.sorts?]; rfl), fun I => ?_⟩
  rw [Interp.eval_call, Interp.var_of_sort hs]
  rfl

/-- The identity of a root. -/
theorem constant_root_means {name : String} {t : Term}
    (h : (Request.var name .object).constant = .ok t) :
    t.Means .int fun I => I.var name .object := by
  obtain ⟨label, hl, -, rfl⟩ := Request.label_of_constant h
  cases hl
  refine ⟨Term.sort?_call (by rw [Term.sorts?]; rfl), fun I => ?_⟩
  rw [Interp.eval_call]
  rfl

/-- The sort of a type is known once the type has been asked for. -/
theorem sort_of_constant_var {name : String} {ty : Ty} {t : Term} (object : ty ≠ .object)
    (h : (Request.var name ty).constant = .ok t) : ∃ s, ty.sort = .ok s := by
  obtain ⟨label, hl, -⟩ := Request.label_of_constant h
  cases ty with
  | object => exact absurd rfl object
  | _ =>
      obtain ⟨s, hs, -⟩ := bind_eq_ok.1 hl
      exact ⟨s, mapError_eq_ok.1 hs⟩

/-- The contents that the array of a field starts with. -/
theorem constant_array_means {field : Field} {t : Term}
    (h : (Request.array field).constant = .ok t) :
    ∃ s, field.ty.sort = .ok s ∧ t.Means (.array s) fun I => I.initial field := by
  obtain ⟨label, hl, -, rfl⟩ := Request.label_of_constant h
  obtain ⟨s, hs, hl⟩ := bind_eq_ok.1 hl
  injection hl with hl
  subst hl
  rw [sortOf, mapError_eq_ok] at hs
  refine ⟨s, hs, Term.sort?_call (by rw [Term.sorts?]; rfl), fun I => ?_⟩
  rw [Interp.eval_call, Interp.initial_of_sort hs]
  rfl

theorem mapM_sortOf {types : List Ty} {sorts : List Srt} (h : types.mapM sortOf = .ok sorts) :
    types.mapM Ty.sort = .ok sorts := by
  induction types generalizing sorts with
  | nil =>
      injection h with h
      subst h
      rfl
  | cons ty rest ih =>
      rw [List.mapM_cons] at h ⊢
      obtain ⟨s, hs, h⟩ := bind_eq_ok.1 h
      obtain ⟨found, hr, h⟩ := bind_eq_ok.1 h
      injection h with h
      rw [mapError_eq_ok.1 hs, ih hr, ← h]
      rfl

/-- The symbol of a function takes and gives values of the sorts of the
signature. -/
theorem symbol_function {signature : Signature} {symbol : Symbol}
    (h : (Request.function signature).symbol = .ok symbol) :
    signature.args.mapM Ty.sort = .ok symbol.args ∧ signature.result.sort = .ok symbol.result ∧
      ∀ (I : Interp) args, I.symbol symbol args = I.function signature args := by
  obtain ⟨label, hl, -, rfl⟩ := Request.label_of_symbol h
  obtain ⟨sorts, hargs, hl⟩ := bind_eq_ok.1 hl
  obtain ⟨s, hs, hl⟩ := bind_eq_ok.1 hl
  injection hl with hl
  subst hl
  have hargs' := mapM_sortOf hargs
  have hs' := mapError_eq_ok.1 hs
  refine ⟨hargs', hs', fun I args => ?_⟩
  rw [Interp.function_of_sorts hargs' hs']
  rfl

-- ============================================================== operators

section

variable {a b c : Term} {s t : Srt} {va vb vc : Interp → Value} {rule : Term → Term → Term}

theorem arithmetic_means {op : BinaryOp} (hop : op.isArithmetic = true)
    (hrule : binaryRule op .int = some rule) (ha : a.Means .int va) (hb : b.Means .int vb) :
    (rule a b).Means .int fun I => I.binary op (va I) (vb I) := by
  cases op
  case add | sub | mul | div | mod =>
    injection hrule with hrule
    subst hrule
    refine ⟨Term.sort?_binary _ ha.sort hb.sort, fun I => ?_⟩
    rw [Interp.eval_binary, ha.value, hb.value]
    rfl
  all_goals cases hop

theorem ordering_means {op : BinaryOp} (hop : op.isOrdering = true)
    (hrule : binaryRule op .int = some rule) (ha : a.Means .int va) (hb : b.Means .int vb) :
    (rule a b).Means .bool fun I => I.binary op (va I) (vb I) := by
  cases op
  case lt | le | gt | ge =>
    injection hrule with hrule
    subst hrule
    refine ⟨Term.sort?_compare ha.sort hb.sort rfl rfl, fun I => ?_⟩
    rw [Interp.eval_compare I (by simp), ha.value, hb.value]
    rfl
  all_goals cases hop

theorem equality_means {op : BinaryOp} {kind : Ty.Kind} (hop : op.isEquality = true)
    (hrule : binaryRule op kind = some rule) (ha : a.Means s va) (hb : b.Means s vb) :
    (rule a b).Means .bool fun I => I.binary op (va I) (vb I) := by
  cases op
  case eq =>
    have hrule' : rule = Term.compare .eq := by
      cases kind <;> simp_all [binaryRule]
    subst hrule'
    refine ⟨Term.sort?_compare ha.sort hb.sort (Op.onlyOn_self _ _) (Op.onlyOn_self _ _),
      fun I => ?_⟩
    rw [Interp.eval_compare I (by simp), ha.value, hb.value]
    rfl
  case ne =>
    have hrule' : rule = Term.compare .distinct := by
      cases kind <;> simp_all [binaryRule]
    subst hrule'
    refine ⟨Term.sort?_compare ha.sort hb.sort (Op.onlyOn_self _ _) (Op.onlyOn_self _ _),
      fun I => ?_⟩
    rw [Interp.eval_compare I (by simp), ha.value, hb.value]
    exact congrArg Value.bool (Value.allDiffer_two _ _)
  all_goals cases hop

theorem ite_means (ha : a.Means .bool va) (hb : b.Means s vb) (hc : c.Means s vc) :
    (Term.ite a b c).Means s fun I => if (va I).truth then vb I else vc I := by
  refine ⟨Term.sort?_ite ha.sort hb.sort hc.sort, fun I => ?_⟩
  rw [Interp.eval_ite, ha.value, hb.value, hc.value]

theorem select_means (ha : a.Means (.array s) va) (hb : b.Means .int vb) :
    (Term.select a b).Means s fun I => (va I).element (vb I) := by
  refine ⟨Term.sort?_select ha.sort hb.sort, fun I => ?_⟩
  rw [Interp.eval_select, ha.value, hb.value]

theorem store_means (ha : a.Means (.array s) va) (hb : b.Means .int vb) (hc : c.Means s vc) :
    (Term.store a b c).Means (.array s) fun I => (va I).update (vb I) (vc I) := by
  refine ⟨Term.sort?_store ha.sort hb.sort hc.sort, fun I => ?_⟩
  rw [Interp.eval_store, ha.value, hb.value, hc.value]

theorem not_means (ha : a.Means .bool va) :
    (Term.not a).Means .bool fun I => .bool !(va I).truth := by
  refine ⟨Term.sort?_not ha.sort, fun I => ?_⟩
  rw [Interp.eval_not, ha.value]

theorem unary_means {op : UnaryOp} {s : Srt} (hs : (Build.operandTy op).sort = .ok s)
    (ha : a.Means s va) : (unaryTerm op a).Means s fun I => op.apply (va I) := by
  cases op with
  | neg =>
      injection hs with hs
      subst hs
      refine ⟨Term.sort?_neg ha.sort, fun I => ?_⟩
      show I.eval (.neg a) = _
      rw [Interp.eval_neg, ha.value]
      rfl
  | not =>
      injection hs with hs
      subst hs
      exact not_means ha

end

-- ------------------------------------------------------------ connectives

/-- An operation on truth values, chained from the left. -/
theorem chain_means (op : Op) (join : Bool → Bool → Bool)
    (hsort : op.sort? [.bool, .bool] = some .bool)
    (hop : ∀ (I : Interp) a b, I.operation op [a, b] = .bool (join a.truth b.truth))
    {first : Term} {rest : List Term} (h : ∀ t ∈ first :: rest, t.sort? = some .bool) :
    (rest.foldl (Term.binary op) first).Means .bool fun I =>
      .bool ((rest.map fun t => (I.eval t).truth).foldl join (I.eval first).truth) := by
  induction rest generalizing first with
  | nil =>
      have hfirst := h first List.mem_cons_self
      exact ⟨hfirst, fun I => I.eval_eq_bool hfirst⟩
  | cons second rest ih =>
      have hfirst := h first (by simp)
      have hsecond := h second (by simp)
      have hjoined : ∀ t ∈ Term.binary op first second :: rest, t.sort? = some .bool := by
        intro t ht
        rcases List.mem_cons.1 ht with rfl | ht
        · rw [Term.sort?_binary _ hfirst hsecond, hsort]
        · exact h t (by simp [ht])
      obtain ⟨hchain, hvalue⟩ := ih hjoined
      refine ⟨hchain, fun I => ?_⟩
      rw [List.foldl_cons, hvalue, Interp.eval_binary, hop]
      rfl

theorem foldl_and (first : Bool) (rest : List Bool) :
    rest.foldl (· && ·) first = (first :: rest).all id := by
  induction rest generalizing first with
  | nil => simp
  | cons second rest ih => simp [ih, Bool.and_assoc]

theorem foldl_or (first : Bool) (rest : List Bool) :
    rest.foldl (· || ·) first = (first :: rest).any id := by
  induction rest generalizing first with
  | nil => simp
  | cons second rest ih => simp [ih, Bool.or_assoc]

/-- A connective on truth values. -/
theorem connect_means {op : Connective} {terms : List Term} {t : Term}
    (hb : ∀ t ∈ terms, t.sort? = some .bool) (h : connect op terms = .ok t) :
    t.Means .bool fun I => .bool (op.holds ((terms.map I.eval).map Value.truth)) := by
  unfold connect at h
  split at h
  next first rest =>
    injection h with h
    subst h
    obtain ⟨hsort, hvalue⟩ := chain_means .and (· && ·) rfl (fun _ _ _ => rfl) hb
    refine ⟨hsort, fun I => (hvalue I).trans ?_⟩
    rw [foldl_and]
    simp [Connective.holds, Function.comp_def]
  next first rest =>
    injection h with h
    subst h
    obtain ⟨hsort, hvalue⟩ := chain_means .or (· || ·) rfl (fun _ _ _ => rfl) hb
    refine ⟨hsort, fun I => (hvalue I).trans ?_⟩
    rw [foldl_or]
    simp [Connective.holds, Function.comp_def]
  next operand =>
    injection h with h
    subst h
    exact not_means ⟨hb operand (by simp), fun _ => rfl⟩
  next premise conclusion =>
    injection h with h
    subst h
    refine ⟨Term.sort?_binary .implies (hb premise (by simp)) (hb conclusion (by simp)),
      fun I => ?_⟩
    rw [Term.implies, Interp.eval_binary]
    rfl
  next => cases h

end Lowering

end SymbolicHeap
