/-
Types can be read off their texts.

The text of a type begins with a letter or a bracket that tells its kind,
and goes on with the texts of its parts.  Nothing closes the text of a
result, and the same comma stands between the parameters of a function and
between those of its parameters; all the same, a text says where it ends.
No text of a type goes on as another one (`render_readable`): two texts
that agree, whatever follows each of them, are of the same type and are
followed by the same.  In particular, the text of a type tells the type
(`render_inj`), and it can stand for the type wherever a text is wanted.
-/
import SymbolicHeap.Ty

namespace SymbolicHeap

namespace Ty

-- ============================================================== induction

/-- Induction over types, with the hypothesis for every parameter. -/
theorem induction {motive : Ty → Prop} (int : motive .int) (bool : motive .bool)
    (array : ∀ element, motive element → motive (.array element))
    (function : ∀ args result, (∀ arg ∈ args, motive arg) → motive result →
      motive (.function args result))
    (object : motive .object) (ref : motive .ref) : ∀ ty, motive ty := by
  refine fun ty => Ty.rec (motive_1 := motive) (motive_2 := fun args => ∀ arg ∈ args, motive arg)
    int bool array function object ref ?_ ?_ ty
  · intro arg harg
    cases harg
  · intro first rest hfirst hrest
    exact List.forall_mem_cons.2 ⟨hfirst, hrest⟩

-- ================================================================== texts

/-- The letter or the bracket that the text of a type begins with. -/
def Kind.initial : Kind → Char
  | .int => 'i'
  | .bool => 'b'
  | .array => '['
  | .function => 'f'
  | .object => 'o'
  | .ref => 'r'

theorem Kind.initial_inj {k l : Kind} (h : k.initial = l.initial) : k = l := by
  cases k <;> cases l <;> cases h <;> rfl

/-- What is written of the parameters that follow the first one. -/
def furtherText : List Ty → List Char
  | [] => []
  | ty :: rest => ',' :: ' ' :: (ty.render.toList ++ furtherText rest)

/-- What is written between the brackets of a function. -/
def paramsText : List Ty → List Char
  | [] => []
  | ty :: rest => ty.render.toList ++ furtherText rest

theorem renderAll_eq_map (args : List Ty) : renderAll args = args.map render := by
  induction args with
  | nil => rw [renderAll, List.map_nil]
  | cons ty rest ih => rw [renderAll, ih, List.map_cons]

theorem toList_intercalate_renderAll (args : List Ty) :
    (", ".intercalate (renderAll args)).toList = paramsText args := by
  rw [renderAll_eq_map]
  cases args with
  | nil => rfl
  | cons ty rest =>
      rw [paramsText, List.map_cons]
      induction rest generalizing ty with
      | nil => simp [furtherText]
      | cons next rest ih =>
          rw [List.map_cons, String.intercalate_cons_of_ne_nil (List.cons_ne_nil _ _),
            String.toList_append, String.toList_append, ih, List.append_assoc]
          rfl

theorem toList_render_array (element : Ty) :
    (array element).render.toList = '[' :: ']' :: element.render.toList := by
  rw [render, String.toList_append]
  rfl

theorem toList_render_function (args : List Ty) (result : Ty) :
    (function args result).render.toList
      = "func(".toList ++ (paramsText args ++ ')' :: ' ' :: result.render.toList) := by
  rw [render, String.toList_append, String.toList_append, String.toList_append,
    toList_intercalate_renderAll, List.append_assoc, List.append_assoc]
  rfl

/-- A text begins with the initial of its kind. -/
theorem render_eq_cons (ty : Ty) : ∃ rest, ty.render.toList = ty.kind.initial :: rest := by
  cases ty with
  | int | bool | object | ref => exact ⟨_, rfl⟩
  | array element => exact ⟨_, toList_render_array element⟩
  | function args result => exact ⟨_, toList_render_function args result⟩

-- ============================================================ readability

/-- A text of the type is told apart from that of any other, whatever may
follow them. -/
def Readable (a : Ty) : Prop :=
  ∀ (b : Ty) (s t : List Char), a.render.toList ++ s = b.render.toList ++ t → a = b ∧ s = t

theorem kind_eq_of_render {a b : Ty} {s t : List Char}
    (h : a.render.toList ++ s = b.render.toList ++ t) : a.kind = b.kind := by
  obtain ⟨_, ha⟩ := render_eq_cons a
  obtain ⟨_, hb⟩ := render_eq_cons b
  rw [ha, hb] at h
  exact Kind.initial_inj (List.cons.inj h).1

/-- A comma says that a parameter follows, a bracket that none does. -/
theorem furtherText_readable {as bs : List Ty} (each : ∀ a ∈ as, a.Readable) {s t : List Char}
    (h : furtherText as ++ ')' :: s = furtherText bs ++ ')' :: t) : as = bs ∧ s = t := by
  induction as generalizing bs with
  | nil =>
      cases bs with
      | nil => exact ⟨rfl, (List.cons.inj h).2⟩
      | cons b bs => exact absurd (List.cons.inj h).1 (by decide)
  | cons a as ih =>
      cases bs with
      | nil => exact absurd (List.cons.inj h).1 (by decide)
      | cons b bs =>
          obtain ⟨first, others⟩ := List.forall_mem_cons.1 each
          rw [furtherText, furtherText, List.cons_append, List.cons_append, List.cons_append,
            List.cons_append, List.append_assoc, List.append_assoc] at h
          obtain ⟨rfl, further⟩ := first b _ _ (List.cons.inj (List.cons.inj h).2).2
          obtain ⟨rfl, rest⟩ := ih others further
          exact ⟨rfl, rest⟩

/-- A bracket that closes at once is the beginning of no parameter. -/
theorem paramsText_readable {as bs : List Ty} (each : ∀ a ∈ as, a.Readable) {s t : List Char}
    (h : paramsText as ++ ')' :: s = paramsText bs ++ ')' :: t) : as = bs ∧ s = t := by
  have opens : ∀ (ty : Ty) (rest u v : List Char),
      ty.render.toList ++ rest ++ u ≠ ')' :: v := by
    intro ty rest u v same
    obtain ⟨more, first⟩ := render_eq_cons ty
    rw [first] at same
    have bracket := (List.cons.inj same).1
    revert bracket
    cases ty.kind <;> decide
  cases as with
  | nil =>
      cases bs with
      | nil => exact ⟨rfl, (List.cons.inj h).2⟩
      | cons b bs => exact absurd h.symm (opens b _ _ _)
  | cons a as =>
      cases bs with
      | nil => exact absurd h (opens a _ _ _)
      | cons b bs =>
          obtain ⟨first, others⟩ := List.forall_mem_cons.1 each
          rw [paramsText, paramsText, List.append_assoc, List.append_assoc] at h
          obtain ⟨rfl, further⟩ := first b _ _ h
          obtain ⟨rfl, rest⟩ := furtherText_readable others further
          exact ⟨rfl, rest⟩

/-- Every text of a type says where it ends. -/
theorem render_readable (a : Ty) : a.Readable := by
  induction a using Ty.induction with
  | int | bool | object | ref =>
      intro b s t h
      have kind := kind_eq_of_render h
      cases b <;> cases kind
      exact ⟨rfl, List.append_cancel_left h⟩
  | array element ih =>
      intro b s t h
      have kind := kind_eq_of_render h
      cases b <;> cases kind
      rw [toList_render_array, toList_render_array] at h
      obtain ⟨rfl, rest⟩ := ih _ s t (List.cons.inj (List.cons.inj h).2).2
      exact ⟨rfl, rest⟩
  | function args result each ih =>
      intro b s t h
      have kind := kind_eq_of_render h
      cases b <;> cases kind
      rw [toList_render_function, toList_render_function, List.append_assoc, List.append_assoc,
        List.append_assoc, List.append_assoc] at h
      obtain ⟨rfl, behind⟩ := paramsText_readable each (List.append_cancel_left h)
      obtain ⟨rfl, rest⟩ := ih _ s t (List.cons.inj behind).2
      exact ⟨rfl, rest⟩

/-- A text tells the type. -/
theorem render_inj {a b : Ty} : a.render = b.render ↔ a = b := by
  constructor
  · intro same
    exact (render_readable a b [] [] (by rw [same])).1
  · rintro rfl
    rfl

/-- The brackets of parameters tell a function of a function from a
function of two values. -/
example : (function [function [int] int, int] int).render = "func(func(int) int, int) int" ∧
    (function [function [int, int] int] int).render = "func(func(int, int) int) int" := by
  decide +kernel

/-- The text of an array tells the type of its elements. -/
theorem render_array_inj {s t : Ty} : (array s).render = (array t).render ↔ s = t := by
  rw [render_inj, array.injEq]

-- ============================================================= characters

/-- The characters that texts of types are made of. -/
def alphabet : List Char := "abcefijlnortu[](), ".toList

theorem furtherText_subset {args : List Ty} (each : ∀ arg ∈ args, arg.render.toList ⊆ alphabet) :
    furtherText args ⊆ alphabet := by
  induction args with
  | nil => exact List.nil_subset _
  | cons ty rest ih =>
      obtain ⟨first, others⟩ := List.forall_mem_cons.1 each
      refine List.cons_subset.2 ⟨by decide, List.cons_subset.2 ⟨by decide, ?_⟩⟩
      exact List.append_subset.2 ⟨first, ih others⟩

theorem paramsText_subset {args : List Ty} (each : ∀ arg ∈ args, arg.render.toList ⊆ alphabet) :
    paramsText args ⊆ alphabet := by
  cases args with
  | nil => exact List.nil_subset _
  | cons ty rest =>
      obtain ⟨first, others⟩ := List.forall_mem_cons.1 each
      exact List.append_subset.2 ⟨first, furtherText_subset others⟩

/-- No other character stands in the text of a type. -/
theorem render_subset (ty : Ty) : ty.render.toList ⊆ alphabet := by
  induction ty using Ty.induction with
  | int | bool | object | ref => decide
  | array element ih =>
      rw [toList_render_array]
      exact List.cons_subset.2 ⟨by decide, List.cons_subset.2 ⟨by decide, ih⟩⟩
  | function args result each ih =>
      rw [toList_render_function]
      refine List.append_subset.2 ⟨by decide, List.append_subset.2 ⟨paramsText_subset each, ?_⟩⟩
      exact List.cons_subset.2 ⟨by decide, List.cons_subset.2 ⟨by decide, ih⟩⟩

end Ty

end SymbolicHeap
