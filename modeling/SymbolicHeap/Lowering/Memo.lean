/-
Memos of the contents of field arrays.

The contents that a chain of writes leaves in a field array are worked
out from the bottom of the chain.  A memo keeps them, so that a chain is
gone down only as far as its first state with known contents.

Which states a memo recognises is a matter of cost: it may go by the
states themselves (`Chains`), by the nodes that stand for them
(`NodeChains`), or recognise none (`NoChains`).  All that a memo owes is
that it finds nothing under a key but what was kept there.
-/
import SymbolicHeap.Lowering.Symbols

namespace SymbolicHeap

/-- Contents of a field array, as the state after a write sees them.  The
number of writes is part of the state; it stands before it because most
states are told apart by it alone. -/
structure ChainKey where
  field : Field
  writes : Nat
  state : Expr
deriving DecidableEq

def ChainKey.of (field : Field) (state : Expr) : ChainKey :=
  ⟨field, state.writes, state⟩

/-- A memo of contents.  It need not find all that was kept, and what it
finds may hang on what it was asked before. -/
class Memo (μ : Type) where
  /-- What a memo takes a state for, where that is more than the state
  itself. -/
  Node : Type
  empty : μ
  /-- The contents that are known, and the node that was looked at. -/
  find : ChainKey → μ → (Node × Option Term) × μ
  /-- Keeps contents at the node where they were missing. -/
  keep : Node → ChainKey → Term → μ → μ
  /-- Whether the memo may yet find some contents under a key. -/
  Offers : μ → ChainKey → Term → Prop
  not_offers_empty : ∀ key contents, ¬ Offers empty key contents
  offers_of_find : ∀ {memo key contents},
    (find key memo).1.2 = some contents → Offers memo key contents
  offers_of_offers_find : ∀ {memo key other contents},
    Offers (find key memo).2 other contents → Offers memo other contents
  offers_of_offers_keep : ∀ {memo node key contents other found},
    Offers (keep node key contents memo) other found →
      (other = key ∧ found = contents) ∨ Offers memo other found

/-- The memo that knows every state whose contents were found. -/
abbrev Chains := Table ChainKey Term

@[default_instance]
instance : Memo Chains where
  Node := Unit
  empty := {}
  find key chains := (((), chains.find? key), chains)
  keep _ key contents chains := chains.set key contents
  Offers chains key contents := chains.find? key = some contents
  not_offers_empty := by simp
  offers_of_find found := found
  offers_of_offers_find offered := offered
  offers_of_offers_keep offered := Table.find?_set_eq_some offered

/-- The memo that knows nothing. -/
inductive NoChains
  | none

instance : Memo NoChains where
  Node := Unit
  empty := .none
  find _ memo := (((), Option.none), memo)
  keep _ _ _ memo := memo
  Offers _ _ _ := False
  not_offers_empty _ _ := id
  offers_of_find found := nomatch found
  offers_of_offers_find offered := offered
  offers_of_offers_keep offered := .inr offered

/-- A memo that goes by the nodes that states stand at, so that it does
not recognise an equal state at another node.  States come without their
nodes: the node that each look-up is about is given beforehand, in the
order of the look-ups. -/
structure NodeChains (node : Nat → Nat) where
  /-- How many look-ups there have been. -/
  lookUps : Nat := 0
  /-- The contents kept for a node.  One node stands for one state, so the
  state in the key tells no two entries of a node apart. -/
  known : Table (Nat × ChainKey) Term := {}

namespace NodeChains

variable {node : Nat → Nat}

/-- The node that the next look-up is about. -/
def next (chains : NodeChains node) : Nat := node chains.lookUps

/-- Whether some node has the contents kept. -/
def Holds (chains : NodeChains node) (key : ChainKey) (contents : Term) : Prop :=
  ∃ place, chains.known.find? (place, key) = some contents

end NodeChains

instance {node : Nat → Nat} : Memo (NodeChains node) where
  Node := Nat
  empty := {}
  find key chains :=
    ((chains.next, chains.known.find? (chains.next, key)),
      { chains with lookUps := chains.lookUps + 1 })
  keep place key contents chains :=
    { chains with known := chains.known.set (place, key) contents }
  Offers := NodeChains.Holds
  not_offers_empty _ _ offered := by
    obtain ⟨_, held⟩ := offered
    cases held
  offers_of_find found := ⟨_, found⟩
  offers_of_offers_find offered := offered
  offers_of_offers_keep offered := by
    obtain ⟨_, held⟩ := offered
    rcases Table.find?_set_eq_some held with ⟨same, rfl⟩ | held
    · injection same with _ sameKey
      exact .inl ⟨sameKey, rfl⟩
    · exact .inr ⟨_, held⟩

end SymbolicHeap
