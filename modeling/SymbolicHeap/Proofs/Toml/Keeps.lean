/-
What a document has said stays said.

Lines only add to the tables that a document spells out: they make tables
and add fields that are not there yet, so a text that a path leads to
(`Keeps`) is what it leads to ever after, whatever else is written
(`keeps_read`).
-/
import SymbolicHeap.Proofs.Outcome
import SymbolicHeap.Toml.Document

namespace SymbolicHeap.Toml

/-- Every field on a path is there, and at its end stands a text.  A name
may occur twice; then both fields lead to the text. -/
def Keeps : List String → String → Datum → Prop
  | [], text, item => item = .text text
  | name :: path, text, item => ∃ fields, item = .record fields ∧
      (∃ inner, (name, inner) ∈ fields) ∧ ∀ inner, (name, inner) ∈ fields → Keeps path text inner

variable {path : List String} {text name : String} {fields : Fields}

-- ================================================================= fields

theorem mem_setField (name : String) (item : Datum) (fields : Fields) :
    (name, item) ∈ setField name item fields := by
  fun_induction setField name item fields with
  | case1 => exact List.mem_cons_self
  | case2 => exact List.mem_cons_self
  | case3 _ _ _ _ ih => exact List.mem_cons_of_mem _ ih

/-- Setting a field changes no other. -/
theorem mem_setField_of_ne {other : String} {item value : Datum} (h : other ≠ name) :
    (other, value) ∈ setField name item fields ↔ (other, value) ∈ fields := by
  fun_induction setField name item fields with
  | case1 => simp [h]
  | case2 => simp [h]
  | case3 _ _ _ _ ih => simp [ih]

/-- A field of a name that was set is the new one or an old one. -/
theorem mem_setField_self {item value : Datum} (h : (name, value) ∈ setField name item fields) :
    value = item ∨ (name, value) ∈ fields := by
  fun_induction setField name item fields with
  | case1 => simpa using h
  | case2 rest v =>
      rcases List.mem_cons.1 h with same | later
      · exact .inl (congrArg Prod.snd same)
      · exact .inr (List.mem_cons_of_mem _ later)
  | case3 n v rest _ ih =>
      rcases List.mem_cons.1 h with same | later
      · exact .inr (List.mem_cons.2 (.inl same))
      · exact (ih later).imp id (List.mem_cons_of_mem _)

namespace Keeps

/-- What is found under the first name of the path keeps the rest of it,
in whatever order the fields are looked at. -/
theorem find (keeps : Keeps (name :: path) text (.record fields)) {looked : Fields}
    (same : ∀ entry, entry ∈ looked ↔ entry ∈ fields) :
    ∃ inner, (looked.find? (·.1 = name)).map (·.2) = some inner ∧ Keeps path text inner := by
  obtain ⟨_, ⟨⟩, ⟨present, hmem⟩, all⟩ := keeps
  cases found : looked.find? (·.1 = name) with
  | none =>
      have absent := List.find?_eq_none.1 found _ ((same _).2 hmem)
      exact absurd (decide_eq_true rfl) absent
  | some entry =>
      obtain ⟨other, inner⟩ := entry
      have first := List.find?_some found
      obtain rfl : other = name := of_decide_eq_true first
      exact ⟨inner, rfl, all inner ((same _).1 (List.mem_of_find?_eq_some found))⟩

theorem valueOf? (keeps : Keeps (name :: path) text (.record fields)) :
    ∃ inner, Toml.valueOf? name fields = some inner ∧ Keeps path text inner :=
  keeps.find fun _ => Iff.rfl

theorem field? (keeps : Keeps (name :: path) text (.record fields)) :
    ∃ inner, Datum.field? name fields = some inner ∧ Keeps path text inner :=
  keeps.find fun _ => List.mem_reverse

/-- No list is on the way, nor at the end. -/
theorem ne_list {item : Datum} {items : List Datum} (keeps : Keeps path text item) :
    item ≠ .list items := by
  rintro rfl
  cases path with
  | nil => cases keeps
  | cons name path => obtain ⟨_, ⟨⟩, -⟩ := keeps

theorem setField_of_ne {other : String} {item : Datum} (h : name ≠ other)
    (keeps : Keeps (name :: path) text (.record fields)) :
    Keeps (name :: path) text (.record (setField other item fields)) := by
  obtain ⟨_, ⟨⟩, ⟨present, hmem⟩, all⟩ := keeps
  refine ⟨_, rfl, ⟨present, (mem_setField_of_ne h).2 hmem⟩, fun inner hinner => ?_⟩
  exact all inner ((mem_setField_of_ne h).1 hinner)

theorem setField_self {item : Datum} (keeps : Keeps (name :: path) text (.record fields))
    (inside : Keeps path text item) :
    Keeps (name :: path) text (.record (setField name item fields)) := by
  obtain ⟨_, ⟨⟩, -, all⟩ := keeps
  refine ⟨_, rfl, ⟨item, mem_setField _ _ _⟩, fun inner hinner => ?_⟩
  rcases mem_setField_self hinner with rfl | old
  · exact inside
  · exact all inner old

end Keeps

-- ================================================================= tables

/-- A change of a table that every text in it survives. -/
def Lasting (change : Fields → Except Fault Fields) : Prop :=
  ∀ {path text fields after}, Keeps path text (.record fields) → change fields = .ok after →
    Keeps path text (.record after)

theorem addField_lasting (name : String) (item : Datum) : Lasting (addField name item) := by
  intro path text fields after keeps h
  unfold addField at h
  split at h
  next => cases h
  next absent =>
    cases h
    cases path with
    | nil => cases keeps
    | cons first path =>
        refine keeps.setField_of_ne ?_
        rintro rfl
        obtain ⟨inner, present, -⟩ := keeps.valueOf?
        rw [absent] at present
        cases present

/-- A name that leads to a text is no array of tables. -/
theorem addTable_lasting (name : String) : Lasting (addTable name) := by
  intro path text fields after keeps h
  cases path with
  | nil => cases keeps
  | cons first path =>
      by_cases same : first = name
      · subst same
        obtain ⟨inner, present, inside⟩ := keeps.valueOf?
        unfold addTable at h
        rw [present] at h
        cases inner with
        | list items => exact (inside.ne_list rfl).elim
        | _ => cases h
      · unfold addTable at h
        split at h
        next =>
          cases h
          exact keeps.setField_of_ne same
        next =>
          cases h
          exact keeps.setField_of_ne same
        next => cases h

theorem changeAt_lasting {enterArrays : Bool} {change : Fields → Except Fault Fields}
    (lasting : Lasting change) (table : List String) :
    Lasting (changeAt enterArrays change table) := by
  induction table with
  | nil => exact lasting
  | cons name table ih =>
      intro path text fields after keeps h
      cases path with
      | nil => cases keeps
      | cons first path =>
          unfold changeAt at h
          by_cases same : first = name
          · subst same
            obtain ⟨item, present, inside⟩ := keeps.valueOf?
            rw [present] at h
            cases item with
            | record inner =>
                obtain ⟨changed, inner', h⟩ := bind_eq_ok.1 h
                cases h
                exact keeps.setField_self (ih inside inner')
            | list items => exact (inside.ne_list rfl).elim
            | _ => cases h
          · split at h
            next =>
              obtain ⟨changed, -, h⟩ := bind_eq_ok.1 h
              cases h
              exact keeps.setField_of_ne same
            next =>
              obtain ⟨changed, -, h⟩ := bind_eq_ok.1 h
              cases h
              exact keeps.setField_of_ne same
            next =>
              split at h
              next =>
                obtain ⟨changed, -, h⟩ := bind_eq_ok.1 h
                cases h
                exact keeps.setField_of_ne same
              next => cases h
            next => cases h

-- ============================================================== documents

namespace Document

variable {document after : Document}

theorem keeps_addValue {key : List String} {item : Datum}
    (keeps : Keeps path text (.record document.fields))
    (h : document.addValue key item = .ok after) :
    Keeps path text (.record after.fields) := by
  unfold addValue at h
  dsimp only at h
  split at h
  next => cases h
  next =>
    split at h
    next => cases h
    next =>
      obtain ⟨fields, changed, h⟩ := bind_eq_ok.1 h
      cases h
      exact changeAt_lasting (addField_lasting _ _) _ keeps changed

theorem keeps_addHeader {table : List String} (keeps : Keeps path text (.record document.fields))
    (h : document.addHeader table = .ok after) : Keeps path text (.record after.fields) := by
  unfold addHeader at h
  dsimp only at h
  split at h
  next => cases h
  next =>
    split at h
    next => cases h
    next =>
      obtain ⟨fields, changed, h⟩ := bind_eq_ok.1 h
      cases h
      refine changeAt_lasting (fun keeps h => ?_) _ keeps changed
      cases h
      exact keeps

theorem keeps_addArrayHeader {table : List String}
    (keeps : Keeps path text (.record document.fields)) (h : document.addArrayHeader table = .ok after) : Keeps path text (.record after.fields) := by
  unfold addArrayHeader at h
  dsimp only at h
  split at h
  next => cases h
  next =>
    obtain ⟨fields, changed, h⟩ := bind_eq_ok.1 h
    cases h
    exact changeAt_lasting (addTable_lasting _) _ keeps changed

/-- Whatever a line says, it keeps what the document has said before. -/
theorem keeps_statement {chars rest : List Char}
    (keeps : Keeps path text (.record document.fields))
    (h : document.statement chars = .ok (after, rest)) :
    Keeps path text (.record after.fields) := by
  unfold statement at h
  split at h
  next =>
    cases h
    exact keeps
  next =>
    cases h
    exact keeps
  next =>
    cases h
    exact keeps
  next =>
    obtain ⟨⟨table, left⟩, -, h⟩ := bind_eq_ok.1 h
    obtain ⟨added, header, h⟩ := bind_eq_ok.1 h
    split at h
    next =>
      cases h
      exact keeps_addArrayHeader keeps header
    next => cases h
    next => cases h
  next =>
    obtain ⟨⟨table, left⟩, -, h⟩ := bind_eq_ok.1 h
    obtain ⟨added, header, h⟩ := bind_eq_ok.1 h
    split at h
    next =>
      cases h
      exact keeps_addHeader keeps header
    next => cases h
    next => cases h
  next =>
    obtain ⟨⟨key, left⟩, -, h⟩ := bind_eq_ok.1 h
    dsimp only at h
    split at h
    next =>
      obtain ⟨⟨item, left⟩, -, h⟩ := bind_eq_ok.1 h
      obtain ⟨added, field, h⟩ := bind_eq_ok.1 h
      cases h
      exact keeps_addValue keeps field
    next => cases h
    next => cases h

/-- A document is read line by line. -/
theorem read_succ {fuel : Nat} {chars : List Char}
    (h : read (fuel + 1) document chars = .ok after) :
    ∃ between rest, document.statement chars = .ok (between, rest) ∧
      (after = between ∨ ∃ more, read fuel between more = .ok after) := by
  unfold read at h
  obtain ⟨⟨between, rest⟩, line, h⟩ := bind_eq_ok.1 h
  obtain ⟨left, -, h⟩ := bind_eq_ok.1 h
  refine ⟨between, rest, line, ?_⟩
  split at h
  next =>
    cases h
    exact .inl rfl
  next more => exact .inr ⟨more, h⟩
  next => cases h

/-- Whatever lines follow, they keep what the document has said before. -/
theorem keeps_read {fuel : Nat} {chars : List Char}
    (keeps : Keeps path text (.record document.fields)) (h : read fuel document chars = .ok after) : Keeps path text (.record after.fields) := by
  induction fuel generalizing document chars with
  | zero =>
      cases h
      exact keeps
  | succ fuel ih =>
      obtain ⟨between, rest, line, rfl | ⟨more, h⟩⟩ := read_succ h
      · exact keeps_statement keeps line
      · exact ih (keeps_statement keeps line) h

end Document

end SymbolicHeap.Toml
