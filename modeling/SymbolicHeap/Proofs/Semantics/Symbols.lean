/-
What the value of a term hangs on.

The value of a term hangs on the symbols that occur in it and on what is
left open of division, and on nothing else (`Term.Over.eval_congr`).  So a
symbol that occurs in none of a number of terms may be given any value
without a change to theirs.
-/
import SymbolicHeap.Proofs.Semantics.Term

namespace SymbolicHeap

-- =========================================================== occurrences

/-- All symbols in a term are among the given ones. -/
inductive Term.Over (P : Symbol → Prop) : Term → Prop
  | app {head : Head} {args : List Term} : (∀ symbol, head = .symbol symbol → P symbol) →
      (∀ t ∈ args, Over P t) → Over P (.app head args)

namespace Term.Over

variable {P : Symbol → Prop} {a b c : Term}

theorem numeral (value : Int) : Over P (.numeral value) := .app nofun nofun

theorem truth (value : Bool) : Over P (.truth value) := .app nofun nofun

/-- A call is made of its symbol and of what its arguments are made of. -/
theorem call {symbol : Symbol} {args : List Term} (here : P symbol)
    (h : ∀ t ∈ args, Over P t) : Over P (.call symbol args) := by
  refine .app (fun other same => ?_) h
  injection same with same
  rw [← same]
  exact here

/-- A symbol by itself. -/
theorem constant {symbol : Symbol} (here : P symbol) : Over P (.call symbol []) :=
  .call here nofun

/-- An operator adds no symbol. -/
theorem op (op : Op) {args : List Term} (h : ∀ t ∈ args, Over P t) :
    Over P (.app (.op op) args) := .app nofun h

theorem one (op : Op) (ha : Over P a) : Over P (.app (.op op) [a]) :=
  .op op (List.forall_mem_singleton.2 ha)

theorem binary (op : Op) (ha : Over P a) (hb : Over P b) : Over P (.binary op a b) :=
  .op op (List.forall_mem_cons.2 ⟨ha, List.forall_mem_singleton.2 hb⟩)

theorem three (op : Op) (ha : Over P a) (hb : Over P b) (hc : Over P c) :
    Over P (.app (.op op) [a, b, c]) := by
  refine .op op (List.forall_mem_cons.2 ⟨ha, ?_⟩)
  exact List.forall_mem_cons.2 ⟨hb, List.forall_mem_singleton.2 hc⟩

/-- A comparison may be turned around. -/
theorem compare (op : Op) (ha : Over P a) (hb : Over P b) : Over P (.compare op a b) := by
  unfold Term.compare
  split
  next => exact .binary _ hb ha
  next => exact .binary _ ha hb

/-- Operands chained from the left. -/
theorem foldl (op : Op) {first : Term} {rest : List Term} (h : ∀ t ∈ first :: rest, Over P t) :
    Over P (rest.foldl (Term.binary op) first) := by
  induction rest generalizing first with
  | nil => exact h first List.mem_cons_self
  | cons second rest ih =>
      rw [List.forall_mem_cons, List.forall_mem_cons] at h
      exact ih (List.forall_mem_cons.2 ⟨.binary op h.1 h.2.1, h.2.2⟩)

end Term.Over

-- ============================================================= agreement

namespace Interp

/-- Two interpretations agree on some symbols, and on division. -/
structure Agree (P : Symbol → Prop) (I J : Interp) : Prop where
  symbol : ∀ symbol, P symbol → J.symbol symbol = I.symbol symbol
  quotientByZero : J.quotientByZero = I.quotientByZero
  remainderByZero : J.remainderByZero = I.remainderByZero

namespace Agree

variable {P Q : Symbol → Prop} {I J K : Interp}

/-- Every interpretation agrees with itself. -/
theorem refl (P : Symbol → Prop) (I : Interp) : Agree P I I := ⟨fun _ _ => rfl, rfl, rfl⟩

/-- Agreement with a third. -/
theorem trans (h : Agree P I J) (k : Agree P J K) : Agree P I K where
  symbol symbol here := (k.symbol symbol here).trans (h.symbol symbol here)
  quotientByZero := k.quotientByZero.trans h.quotientByZero
  remainderByZero := k.remainderByZero.trans h.remainderByZero

/-- Agreement on fewer symbols. -/
theorem mono (h : Agree Q I J) (fewer : ∀ symbol, P symbol → Q symbol) : Agree P I J :=
  ⟨fun symbol here => h.symbol symbol (fewer symbol here), h.quotientByZero, h.remainderByZero⟩

/-- Operations are the same under both. -/
theorem operation (h : Agree P I J) : J.operation = I.operation := by
  obtain ⟨symbol, quotient, remainder, sorted⟩ := I
  obtain ⟨symbol', quotient', remainder', sorted'⟩ := J
  obtain ⟨-, hquotient, hremainder⟩ := h
  dsimp only at hquotient hremainder
  subst hquotient hremainder
  rfl

end Agree

end Interp

/-- Interpretations that agree on the symbols of a term give it one
value. -/
theorem Term.Over.eval_congr {P : Symbol → Prop} {t : Term} (drawn : t.Over P) {I J : Interp}
    (agree : I.Agree P J) : J.eval t = I.eval t := by
  induction t with
  | app head args ih =>
      cases drawn with
      | app here hargs =>
          have values : args.map J.eval = args.map I.eval :=
            List.map_congr_left fun t ht => ih t ht (hargs t ht)
          rw [J.eval_app, I.eval_app, values]
          cases head with
          | numeral | truth => rfl
          | symbol symbol =>
              exact congrFun (agree.symbol symbol (here symbol rfl)) _
          | op op => exact congrFun (congrFun agree.operation op) _

end SymbolicHeap
