/-
Deciding equality of tree-shaped values.

Types, expressions and solver terms are trees whose nodes hold lists of
nodes, and the same subtree is shared many times over.  Their equality
tests therefore stop at the first difference and answer at once for two
shares of one node; what this file holds is the small step all three
tests are made of.

Trees that were built apart share nothing even if they are equal, and
their comparison would walk each of them in full.  Such trees are first
brought to a form in which equal parts are shares of one node (`shared`).
As values they stay what they were, so this is no matter for proofs.
-/
namespace SymbolicHeap

-- ============================================================== sharing

/-- The same value, with equal parts of it kept only once. -/
def shared {α : Type} (a : α) : α :=
  ShareCommon.shareCommon' a

@[simp]
theorem shared_eq {α : Type} (a : α) : shared a = a := rfl

-- ============================================================= deciding

/-- Decides a conjunction; the second question is asked only when the
first one holds. -/
@[inline]
def decideBoth {p q : Prop} (first : Decidable p) (second : Unit → Decidable q) :
    Decidable (p ∧ q) :=
  match first with
  | isFalse h => isFalse fun both => h both.1
  | isTrue h =>
      match second () with
      | isFalse h' => isFalse fun both => h' both.2
      | isTrue h' => isTrue ⟨h, h'⟩

/-- Carries a decision across an equivalence. -/
@[inline]
def decideIff {p q : Prop} (decided : Decidable p) (same : p ↔ q) : Decidable q :=
  match decided with
  | isTrue h => isTrue (same.1 h)
  | isFalse h => isFalse fun hq => h (same.2 hq)

/-- The decision about two values of a type with decidable equality. -/
@[inline]
def decEqOf {α : Type} [DecidableEq α] (a b : α) : Decidable (a = b) :=
  inferInstance

end SymbolicHeap
