/-
The sorts of solver terms, and the types that have one.
-/
import SymbolicHeap.Ty

namespace SymbolicHeap

/-- A solver sort; arrays are indexed by integers. -/
inductive Srt
  | int
  | bool
  | array (element : Srt)
deriving DecidableEq, Repr, Inhabited

/-- The text of a sort. -/
def Srt.render : Srt → String
  | int => "Int"
  | bool => "Bool"
  | array element => "(Array Int " ++ element.render ++ ")"

instance : ToString Srt := ⟨Srt.render⟩

/-- The sort of a type's values, or the innermost type that has none. -/
def Ty.sort : Ty → Except Ty Srt
  | int => .ok .int
  | bool => .ok .bool
  | array element => (sort element).map .array
  | ty => .error ty

/-- The types with a sort are those said to have one. -/
theorem Ty.hasSort_iff_sort (ty : Ty) : ty.hasSort = true ↔ ∃ s, ty.sort = .ok s := by
  induction ty using Ty.rec (motive_2 := fun _ => True) with
  | array element ih =>
    constructor
    · intro h
      obtain ⟨s, hs⟩ := ih.1 h
      exact ⟨.array s, by simp [Ty.sort, hs, Except.map]⟩
    · rintro ⟨s, hs⟩
      refine ih.2 ?_
      cases he : element.sort with
      | ok t => exact ⟨t, rfl⟩
      | error t => simp [Ty.sort, he, Except.map] at hs
  | nil => trivial
  | cons => trivial
  | _ => simp [Ty.hasSort, Ty.sort]

end SymbolicHeap
