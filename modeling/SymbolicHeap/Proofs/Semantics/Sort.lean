/-
Well-sorted terms.

A term need not be well sorted; whether it is, and of which sort, can be
computed (`Term.sort?`).  A term of a sort has a value of that sort under
every interpretation (`eval_hasSort`), and the sort that a solver reads
off its head is the right one (`srt_eq`).
-/
import SymbolicHeap.Proofs.Semantics.Term

namespace SymbolicHeap

-- =========================================== operations and their sorts

namespace Op

/-- The sort of what an operation with one list of sorts makes of
arguments. -/
def onlyOn (wanted : List Srt) (result : Srt) (sorts : List Srt) : Option Srt :=
  if sorts = wanted then some result else none

/-- The sort of what an operation makes of arguments of the given sorts,
if it takes such arguments. -/
def sort? (op : Op) (sorts : List Srt) : Option Srt :=
  match op with
  | .neg => onlyOn [.int] .int sorts
  | .add | .sub | .mul | .div | .mod => onlyOn [.int, .int] .int sorts
  | .lt | .le | .gt | .ge => onlyOn [.int, .int] .bool sorts
  | .and | .or | .implies => onlyOn [.bool, .bool] .bool sorts
  | .not => onlyOn [.bool] .bool sorts
  | .eq =>
      match sorts with
      | [s, t] => onlyOn [s] .bool [t]
      | _ => none
  | .distinct =>
      match sorts with
      | s :: rest => onlyOn (rest.map fun _ => s) .bool rest
      | [] => none
  | .ite =>
      match sorts with
      | [condition, s, t] => onlyOn [.bool, s] s [condition, t]
      | _ => none
  | .select =>
      match sorts with
      | [.array s, index] => onlyOn [.int] s [index]
      | _ => none
  | .store =>
      match sorts with
      | [.array s, index, t] => onlyOn [.int, s] (.array s) [index, t]
      | _ => none

theorem onlyOn_self (wanted : List Srt) (result : Srt) :
    onlyOn wanted result wanted = some result := if_pos rfl

/-- An operator with one list of sorts is used at no other. -/
theorem onlyOn_eq_some {wanted sorts : List Srt} {result s : Srt}
    (h : onlyOn wanted result sorts = some s) : sorts = wanted ∧ s = result := by
  unfold onlyOn at h
  split at h
  next same =>
    injection h with h
    exact ⟨same, h.symm⟩
  next => cases h

-- the operations that take several lists of sorts

/-- Both sides of an equality have one sort, whichever it is. -/
theorem eq_sort?_eq_some {sorts : List Srt} {s : Srt} (h : Op.eq.sort? sorts = some s) :
    ∃ t, sorts = [t, t] ∧ s = .bool := by
  simp only [sort?] at h
  split at h
  next t u =>
    obtain ⟨same, rfl⟩ := onlyOn_eq_some h
    injection same with same
    exact ⟨t, by rw [same], rfl⟩
  next => cases h

theorem distinct_sort?_eq_some {sorts : List Srt} {s : Srt}
    (h : Op.distinct.sort? sorts = some s) : s = .bool := by
  simp only [sort?] at h
  split at h
  next => exact (onlyOn_eq_some h).2
  next => cases h

/-- The branches have the sort of the choice. -/
theorem ite_sort?_eq_some {sorts : List Srt} {s : Srt} (h : Op.ite.sort? sorts = some s) :
    sorts = [.bool, s, s] := by
  simp only [sort?] at h
  split at h
  next condition t u =>
    obtain ⟨same, rfl⟩ := onlyOn_eq_some h
    injection same with hc same
    injection same with hu
    rw [hc, hu]
  next => cases h

/-- Arrays are indexed by integers. -/
theorem select_sort?_eq_some {sorts : List Srt} {s : Srt}
    (h : Op.select.sort? sorts = some s) : sorts = [.array s, .int] := by
  simp only [sort?] at h
  split at h
  next t index =>
    obtain ⟨same, rfl⟩ := onlyOn_eq_some h
    rw [same]
  next => cases h

/-- What is stored has the sort of the elements. -/
theorem store_sort?_eq_some {sorts : List Srt} {s : Srt}
    (h : Op.store.sort? sorts = some s) : ∃ t, s = .array t ∧ sorts = [.array t, .int, t] := by
  simp only [sort?] at h
  split at h
  next t index u =>
    obtain ⟨same, rfl⟩ := onlyOn_eq_some h
    exact ⟨t, rfl, by rw [same]⟩
  next => cases h

end Op

/-- The sort of a head on arguments of given sorts, if it takes these. -/
def Head.sort? : Head → List Srt → Option Srt
  | .numeral _, sorts => Op.onlyOn [] .int sorts
  | .truth _, sorts => Op.onlyOn [] .bool sorts
  | .symbol s, sorts => Op.onlyOn s.args s.result sorts
  | .op o, sorts => o.sort? sorts

-- ======================================================== sorts of terms

namespace Term

mutual

/-- The sort of a term, if it is well sorted. -/
def sort? : Term → Option Srt
  | .app head args => (sorts? args).bind head.sort?

/-- The sorts of several terms, if all are well sorted. -/
def sorts? : List Term → Option (List Srt)
  | [] => some []
  | term :: rest => (sort? term).bind fun s => (sorts? rest).map (s :: ·)

end

/-- A term has a sort if its arguments do and its head takes them. -/
theorem sort?_app (head : Head) (args : List Term) :
    sort? (.app head args) = (sorts? args).bind head.sort? := by
  rw [sort?]

/-- Arguments have sorts if each has one. -/
theorem sorts?_cons_eq_some {term : Term} {rest : List Term} {found : List Srt} :
    sorts? (term :: rest) = some found ↔
      ∃ s sorts, term.sort? = some s ∧ sorts? rest = some sorts ∧ found = s :: sorts := by
  rw [sorts?]
  cases term.sort? with
  | none => simp
  | some s =>
      cases sorts? rest with
      | none => simp
      | some sorts => simp [eq_comm]

/-- Terms of one sort. -/
theorem sorts?_of_forall {terms : List Term} {s : Srt} (h : ∀ t ∈ terms, t.sort? = some s) :
    sorts? terms = some (terms.map fun _ => s) := by
  induction terms with
  | nil => rw [sorts?, List.map_nil]
  | cons term rest ih =>
      refine sorts?_cons_eq_some.2 ⟨s, _, h _ List.mem_cons_self, ih fun t ht => ?_, rfl⟩
      exact h t (List.mem_cons_of_mem _ ht)

-- ------------------------------------------------------ the built terms

@[simp]
theorem sort?_numeral (value : Int) : (numeral value).sort? = some .int := by
  rw [numeral, sort?_app, sorts?]
  rfl

@[simp]
theorem sort?_truth (value : Bool) : (truth value).sort? = some .bool := by
  rw [truth, sort?_app, sorts?]
  rfl

/-- A symbol has its sorts written on it. -/
theorem sort?_call {symbol : Symbol} {args : List Term} (h : sorts? args = some symbol.args) :
    (call symbol args).sort? = some symbol.result := by
  rw [call, sort?_app, h]
  exact if_pos rfl

variable {a b c : Term} {s t u : Srt}

/-- An operation on one argument. -/
theorem sort?_op_one (op : Op) (ha : a.sort? = some s) :
    (app (.op op) [a]).sort? = op.sort? [s] := by
  rw [sort?_app, sorts?_cons_eq_some.2 ⟨s, [], ha, by rw [sorts?], rfl⟩]
  rfl

/-- What an operator says of two sorts it says of two terms of these. -/
theorem sort?_binary (op : Op) (ha : a.sort? = some s) (hb : b.sort? = some t) :
    (binary op a b).sort? = op.sort? [s, t] := by
  rw [binary, sort?_app, sorts?_cons_eq_some.2 ⟨s, [t], ha, ?_, rfl⟩]
  · rfl
  · exact sorts?_cons_eq_some.2 ⟨t, [], hb, by rw [sorts?], rfl⟩

/-- An operation on three arguments. -/
theorem sort?_op_three (op : Op) (ha : a.sort? = some s) (hb : b.sort? = some t)
    (hc : c.sort? = some u) : (app (.op op) [a, b, c]).sort? = op.sort? [s, t, u] := by
  rw [sort?_app, sorts?_cons_eq_some.2 ⟨s, [t, u], ha, ?_, rfl⟩]
  · rfl
  · refine sorts?_cons_eq_some.2 ⟨t, [u], hb, ?_, rfl⟩
    exact sorts?_cons_eq_some.2 ⟨u, [], hc, by rw [sorts?], rfl⟩

theorem sort?_not (ha : a.sort? = some .bool) : (not a).sort? = some .bool :=
  sort?_op_one .not ha

theorem sort?_neg (ha : a.sort? = some .int) : (neg a).sort? = some .int :=
  sort?_op_one .neg ha

theorem sort?_ite (ha : a.sort? = some .bool) (hb : b.sort? = some s)
    (hc : c.sort? = some s) : (ite a b c).sort? = some s :=
  (sort?_op_three .ite ha hb hc).trans (Op.onlyOn_self _ _)

theorem sort?_select (ha : a.sort? = some (.array s)) (hb : b.sort? = some .int) :
    (select a b).sort? = some s :=
  sort?_binary .select ha hb

theorem sort?_store (ha : a.sort? = some (.array s)) (hb : b.sort? = some .int)
    (hc : c.sort? = some s) : (store a b c).sort? = some (.array s) :=
  (sort?_op_three .store ha hb hc).trans (Op.onlyOn_self _ _)

/-- Any number of terms of one sort may be said to differ, but not none. -/
theorem sort?_distinct {terms : List Term} (nonempty : terms ≠ [])
    (h : ∀ t ∈ terms, t.sort? = some s) : (distinct terms).sort? = some .bool := by
  cases terms with
  | nil => exact absurd rfl nonempty
  | cons first rest =>
      rw [distinct, sort?_app, sorts?_of_forall h]
      have same : (rest.map fun _ => s).map (fun _ => s) = rest.map fun _ => s := by
        rw [List.map_map]
        rfl
      exact if_pos same.symm

/-- An equality or an ordering takes its operands either way around. -/
theorem sort?_compare {op : Op} (ha : a.sort? = some s) (hb : b.sort? = some t)
    (straight : op.sort? [s, t] = some .bool) (turned : op.turned.sort? [t, s] = some .bool) :
    (compare op a b).sort? = some .bool := by
  unfold compare
  split
  next => rw [sort?_binary _ hb ha, turned]
  next => rw [sort?_binary _ ha hb, straight]

-- ----------------------------------------------------- what a sort means

/-- Sorts of arguments, read from the front. -/
theorem sorts?_eq_cons {terms : List Term} {sorts : List Srt}
    (h : sorts? terms = some (s :: sorts)) :
    ∃ first rest, terms = first :: rest ∧ first.sort? = some s ∧ sorts? rest = some sorts := by
  cases terms with
  | nil =>
      rw [sorts?] at h
      cases h
  | cons first rest =>
      obtain ⟨_, _, hf, hr, h⟩ := sorts?_cons_eq_some.1 h
      injection h with hs hsorts
      subst hs hsorts
      exact ⟨first, rest, rfl, hf, hr⟩

/-- One of several well-sorted terms. -/
theorem sort?_of_mem {terms : List Term} {sorts : List Srt} (h : sorts? terms = some sorts)
    {term : Term} (hmem : term ∈ terms) : ∃ s ∈ sorts, term.sort? = some s := by
  induction terms generalizing sorts with
  | nil => cases hmem
  | cons first rest ih =>
      obtain ⟨s, found, hf, hr, rfl⟩ := sorts?_cons_eq_some.1 h
      rcases List.mem_cons.1 hmem with rfl | hmem
      · exact ⟨s, List.mem_cons_self, hf⟩
      · obtain ⟨t, ht, hsort⟩ := ih hr hmem
        exact ⟨t, List.mem_cons_of_mem _ ht, hsort⟩

/-- The sort that is read off the head of a well-sorted term is its sort. -/
theorem srt_eq {term : Term} : ∀ {s : Srt}, term.sort? = some s → term.srt = s := by
  induction term with
  | app head args ih =>
      intro s h
      rw [sort?_app] at h
      obtain ⟨sorts, hs, h⟩ := Option.bind_eq_some_iff.1 h
      cases head with
      | numeral value => exact (Op.onlyOn_eq_some h).2.symm
      | truth value => exact (Op.onlyOn_eq_some h).2.symm
      | symbol symbol => exact (Op.onlyOn_eq_some h).2.symm
      | op op =>
          cases op
          case ite =>
            rw [Op.ite_sort?_eq_some h] at hs
            obtain ⟨_, _, rfl, -, hs⟩ := sorts?_eq_cons hs
            obtain ⟨a, _, rfl, ha, -⟩ := sorts?_eq_cons hs
            exact ih a (by simp) ha
          case select =>
            rw [Op.select_sort?_eq_some h] at hs
            obtain ⟨a, _, rfl, ha, -⟩ := sorts?_eq_cons hs
            unfold srt
            rw [ih a (by simp) ha]
          case store =>
            obtain ⟨t, rfl, rfl⟩ := Op.store_sort?_eq_some h
            obtain ⟨a, _, rfl, ha, -⟩ := sorts?_eq_cons hs
            exact ih a (by simp) ha
          case eq =>
            obtain ⟨_, -, rfl⟩ := Op.eq_sort?_eq_some h
            rfl
          case distinct =>
            rw [Op.distinct_sort?_eq_some h]
            rfl
          all_goals exact (Op.onlyOn_eq_some h).2.symm

end Term

-- ======================================================= sorts of values

/-- Values of the given sorts, one for one. -/
def Value.HaveSorts : List Value → List Srt → Prop
  | [], [] => True
  | value :: values, s :: sorts => value.HasSort s ∧ HaveSorts values sorts
  | _, _ => False

/-- Values have sorts one by one. -/
theorem Value.haveSorts_cons {values : List Value} {s : Srt} {sorts : List Srt}
    (h : HaveSorts values (s :: sorts)) :
    ∃ a rest, values = a :: rest ∧ a.HasSort s ∧ HaveSorts rest sorts := by
  cases values with
  | nil => exact h.elim
  | cons a rest => exact ⟨a, rest, rfl, h.1, h.2⟩

theorem Value.haveSorts_nil {values : List Value} (h : HaveSorts values []) : values = [] := by
  cases values with
  | nil => rfl
  | cons a rest => exact h.elim

theorem Value.haveSorts_one {values : List Value} {s : Srt} (h : HaveSorts values [s]) :
    ∃ a, values = [a] ∧ a.HasSort s := by
  obtain ⟨a, _, rfl, ha, h⟩ := haveSorts_cons h
  rw [haveSorts_nil h]
  exact ⟨a, rfl, ha⟩

theorem Value.haveSorts_two {values : List Value} {s t : Srt} (h : HaveSorts values [s, t]) :
    ∃ a b, values = [a, b] ∧ a.HasSort s ∧ b.HasSort t := by
  obtain ⟨a, _, rfl, ha, h⟩ := haveSorts_cons h
  obtain ⟨b, rfl, hb⟩ := haveSorts_one h
  exact ⟨a, b, rfl, ha, hb⟩

namespace Interp

variable (I : Interp)

/-- An operation on values of the sorts that it takes. -/
theorem operation_hasSort {op : Op} {sorts : List Srt} {s : Srt} {values : List Value}
    (h : op.sort? sorts = some s) (hv : Value.HaveSorts values sorts) :
    (I.operation op values).HasSort s := by
  cases op
  case ite =>
    rw [Op.ite_sort?_eq_some h] at hv
    obtain ⟨condition, _, rfl, -, hv⟩ := Value.haveSorts_cons hv
    obtain ⟨a, b, rfl, ha, hb⟩ := Value.haveSorts_two hv
    show (if condition.truth then a else b).HasSort s
    split
    next => exact ha
    next => exact hb
  case select =>
    rw [Op.select_sort?_eq_some h] at hv
    obtain ⟨array, index, rfl, ha, -⟩ := Value.haveSorts_two hv
    exact ha.element index
  case store =>
    obtain ⟨t, rfl, rfl⟩ := Op.store_sort?_eq_some h
    obtain ⟨array, _, rfl, ha, hv⟩ := Value.haveSorts_cons hv
    obtain ⟨index, value, rfl, -, hvalue⟩ := Value.haveSorts_two hv
    exact ha.update hvalue index
  case eq =>
    obtain ⟨t, rfl, rfl⟩ := Op.eq_sort?_eq_some h
    obtain ⟨a, b, rfl, -, -⟩ := Value.haveSorts_two hv
    trivial
  case distinct =>
    rw [Op.distinct_sort?_eq_some h]
    trivial
  case neg | not =>
    obtain ⟨rfl, rfl⟩ := Op.onlyOn_eq_some h
    obtain ⟨a, rfl, -⟩ := Value.haveSorts_one hv
    trivial
  -- the results of all others are integers or truth values as they stand
  all_goals
    obtain ⟨rfl, rfl⟩ := Op.onlyOn_eq_some h
    obtain ⟨a, b, rfl, -, -⟩ := Value.haveSorts_two hv
    trivial

/-- If each argument has a value of its sort, so have all of them in their
order. -/
theorem evalAll_haveSorts {terms : List Term} {sorts : List Srt}
    (h : ∀ t ∈ terms, ∀ {s : Srt}, t.sort? = some s → (I.eval t).HasSort s)
    (hs : Term.sorts? terms = some sorts) : Value.HaveSorts (terms.map I.eval) sorts := by
  induction terms generalizing sorts with
  | nil =>
      rw [Term.sorts?] at hs
      injection hs with hs
      subst hs
      trivial
  | cons first rest ih =>
      obtain ⟨t, found, hf, hr, rfl⟩ := Term.sorts?_cons_eq_some.1 hs
      exact ⟨h first List.mem_cons_self hf, ih (fun t ht => h t (List.mem_cons_of_mem _ ht)) hr⟩

/-- The value of a well-sorted term is of its sort. -/
theorem eval_hasSort {term : Term} :
    ∀ {s : Srt}, term.sort? = some s → (I.eval term).HasSort s := by
  induction term with
  | app head args ih =>
      intro s h
      rw [Term.sort?_app] at h
      obtain ⟨sorts, hs, h⟩ := Option.bind_eq_some_iff.1 h
      rw [eval_app]
      cases head with
      | numeral value =>
          obtain ⟨-, rfl⟩ := Op.onlyOn_eq_some h
          trivial
      | truth value =>
          obtain ⟨-, rfl⟩ := Op.onlyOn_eq_some h
          trivial
      | symbol symbol =>
          obtain ⟨-, rfl⟩ := Op.onlyOn_eq_some h
          exact I.sorted _ _
      | op op => exact I.operation_hasSort h (I.evalAll_haveSorts ih hs)

/-- A formula is true or false. -/
theorem eval_eq_bool {term : Term} (h : term.sort? = some .bool) :
    I.eval term = .bool (I.eval term).truth :=
  Value.eq_bool_of_hasSort (I.eval_hasSort h)

end Interp

end SymbolicHeap
