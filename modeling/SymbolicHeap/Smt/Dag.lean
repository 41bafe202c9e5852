/-
Terms as the list of their distinct subterms.

The subterms stand in the order in which a walk leaves them for the first
time, arguments from left to right, so each comes after its arguments and
a whole term comes last of its parts.  Terms that are exponential as trees
are small in this form.
-/
import SymbolicHeap.Smt.Term
import SymbolicHeap.Table

namespace SymbolicHeap

/-- A head whose arguments are given by their places in the list. -/
structure DagNode where
  head : Head
  args : List Nat
deriving DecidableEq, Repr

/-- The subterms met so far, with their places. -/
structure Dag where
  places : Table Term Nat := {}
  nodes : Array DagNode := #[]

namespace Dag

mutual

/-- The place of a term, after its subterms have been added. -/
def visit (dag : Dag) : Term → Nat × Dag
  | term@(.app head args) =>
      match dag.places.find? term with
      | some place => (place, dag)
      | none =>
          let (inner, dag) := dag.visitAll args
          let place := dag.nodes.size
          (place, ⟨dag.places.set term place, dag.nodes.push ⟨head, inner⟩⟩)

/-- The places of several terms, visited one after the other. -/
def visitAll (dag : Dag) : List Term → List Nat × Dag
  | [] => ([], dag)
  | term :: rest =>
      let (place, dag) := dag.visit term
      let (places, dag) := dag.visitAll rest
      (place :: places, dag)

end

end Dag

/-- Several terms with the parts that they have in common. -/
structure Forest where
  /-- The distinct subterms, each after its arguments. -/
  nodes : List DagNode
  /-- The places of the terms themselves. -/
  roots : List Nat

def Forest.ofTerms (terms : List Term) : Forest :=
  let (roots, dag) := ({} : Dag).visitAll (shared terms)
  ⟨dag.nodes.toList, roots⟩

/-- The distinct subterms of a term. -/
def Term.toDag (term : Term) : List DagNode :=
  (Forest.ofTerms [term]).nodes

end SymbolicHeap
