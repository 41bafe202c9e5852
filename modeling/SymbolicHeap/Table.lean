/-
Tables: finite maps that remember the order in which their keys came.

The order is part of what the library answers (variables are listed as
they were interned, settings as they were written), so a table is its
list of entries.  Setting a key that is present replaces its value where
it stands; a new key goes to the end.  The two lookup laws
`find?_set_self` and `find?_set_of_ne`, with the case split
`find?_set_eq_some` that they give, are all that users of a table need,
and those that only add have `find?_add_self` and `find?_add_of_ne`;
`keys_set_of_mem` and `keys_set_of_not_mem` say what becomes of the
order, and `values_set_of_find?_eq_none` and `map_values_set` of the
values.
-/
namespace SymbolicHeap

/-- A finite map with its keys in order of first insertion. -/
structure Table (κ : Type) (υ : Type) where
  entries : List (κ × υ) := []

namespace Table

variable {κ υ : Type}

instance : Inhabited (Table κ υ) := ⟨{}⟩

-- ============================================================ lookups

def keys (table : Table κ υ) : List κ :=
  table.entries.map (·.1)

def values (table : Table κ υ) : List υ :=
  table.entries.map (·.2)

def size (table : Table κ υ) : Nat :=
  table.entries.length

variable [DecidableEq κ]

/-- The value of the first entry with the key. -/
def lookup (key : κ) : List (κ × υ) → Option υ
  | [] => none
  | (k, v) :: rest => if k = key then some v else lookup key rest

/-- The value kept under a key. -/
def find? (table : Table κ υ) (key : κ) : Option υ :=
  lookup key table.entries

/-- Whether a key is present. -/
def contains (table : Table κ υ) (key : κ) : Bool :=
  (table.find? key).isSome

-- ============================================================ updates

/-- Replaces the value of the first entry with the key, or adds an entry
at the end. -/
def put (key : κ) (value : υ) : List (κ × υ) → List (κ × υ)
  | [] => [(key, value)]
  | (k, v) :: rest => if k = key then (k, value) :: rest else (k, v) :: put key value rest

/-- Keeps a value under a key; the key stays where it was if it was
present. -/
def set (table : Table κ υ) (key : κ) (value : υ) : Table κ υ :=
  ⟨put key value table.entries⟩

/-- Keeps a value under a key unless the key has one already. -/
def add (table : Table κ υ) (key : κ) (value : υ) : Table κ υ :=
  if table.contains key then table else table.set key value

/-- The table of a list of entries, where a later entry for a key
replaces an earlier one. -/
def ofList (entries : List (κ × υ)) : Table κ υ :=
  entries.foldl (fun table entry => table.set entry.1 entry.2) {}

-- =============================================================== laws

@[simp]
theorem find?_empty (key : κ) : ({} : Table κ υ).find? key = none := rfl

theorem lookup_put_self (key : κ) (value : υ) (entries : List (κ × υ)) :
    lookup key (put key value entries) = some value := by
  induction entries with
  | nil => simp [put, lookup]
  | cons entry rest ih =>
    by_cases h : entry.1 = key <;> simp [put, lookup, h, ih]

theorem lookup_put_of_ne {key other : κ} (value : υ) (h : other ≠ key)
    (entries : List (κ × υ)) :
    lookup other (put key value entries) = lookup other entries := by
  induction entries with
  | nil => simp [put, lookup, Ne.symm h]
  | cons entry rest ih =>
    by_cases hk : entry.1 = key
    · simp [put, lookup, hk, Ne.symm h]
    · simp [put, lookup, hk, ih]

/-- What was set is found. -/
@[simp]
theorem find?_set_self (table : Table κ υ) (key : κ) (value : υ) :
    (table.set key value).find? key = some value :=
  lookup_put_self key value table.entries

/-- Setting one key leaves the others alone. -/
theorem find?_set_of_ne (table : Table κ υ) {key other : κ} (value : υ) (h : other ≠ key) :
    (table.set key value).find? other = table.find? other :=
  lookup_put_of_ne value h table.entries

/-- Two keys may be set in either order. -/
theorem find?_set_comm (table : Table κ υ) {key key' : κ} (value value' : υ) (apart : key ≠ key')
    (other : κ) :
    ((table.set key value).set key' value').find? other
      = ((table.set key' value').set key value).find? other := by
  by_cases here : other = key
  · rw [here, find?_set_of_ne _ _ apart, find?_set_self, find?_set_self]
  · rw [find?_set_of_ne (table.set key' value') _ here]
    by_cases there : other = key'
    · rw [there, find?_set_self, find?_set_self]
    · rw [find?_set_of_ne _ _ there, find?_set_of_ne _ _ there, find?_set_of_ne _ _ here]

/-- What is found after setting a key was set just now or before. -/
theorem find?_set_eq_some {table : Table κ υ} {key other : κ} {value found : υ}
    (h : (table.set key value).find? other = some found) :
    (other = key ∧ found = value) ∨ table.find? other = some found := by
  by_cases same : other = key
  · subst same
    rw [find?_set_self] at h
    injection h with h
    exact .inl ⟨rfl, h.symm⟩
  · rw [find?_set_of_ne table value same] at h
    exact .inr h

/-- Setting a key that is not there hides nothing. -/
theorem find?_set_of_find?_eq_none {table : Table κ υ} {key other : κ} {value found : υ}
    (new : table.find? key = none) (h : table.find? other = some found) :
    (table.set key value).find? other = some found := by
  have hne : other ≠ key := by
    intro same
    rw [same, new] at h
    cases h
  rw [find?_set_of_ne table value hne]
  exact h

/-- A value that is added is found, unless there was one before. -/
theorem find?_add_self (table : Table κ υ) (key : κ) (value : υ) :
    (table.add key value).find? key = some ((table.find? key).getD value) := by
  unfold add contains
  cases known : table.find? key with
  | none => simp
  | some held => simp [known]

/-- Adding under one key leaves the others alone. -/
theorem find?_add_of_ne (table : Table κ υ) {key other : κ} (value : υ) (h : other ≠ key) :
    (table.add key value).find? other = table.find? other := by
  unfold add
  split
  next => rfl
  next => exact find?_set_of_ne table value h

/-- Something is found where it was before, and where it was set. -/
theorem isSome_find?_set (table : Table κ υ) (key other : κ) (value : υ) :
    ((table.set key value).find? other).isSome
      = (decide (other = key) || (table.find? other).isSome) := by
  by_cases here : other = key
  · simp [here]
  · rw [find?_set_of_ne table value here]
    simp [here]

/-- Two values may be added in either order, if they are the same where
they are for one key. -/
theorem find?_add_comm (table : Table κ υ) {key key' : κ} {value value' : υ}
    (agree : key = key' → value = value') (other : κ) :
    ((table.add key value).add key' value').find? other
      = ((table.add key' value').add key value).find? other := by
  by_cases same : key = key'
  · rw [same, agree same]
  · by_cases here : other = key
    · have there : other ≠ key' := fun h => same (here.symm.trans h)
      rw [find?_add_of_ne _ _ there, here, find?_add_self, find?_add_self,
        find?_add_of_ne _ _ same]
    · rw [find?_add_of_ne (table.add key' value') _ here]
      by_cases there : other = key'
      · rw [there, find?_add_self, find?_add_self, find?_add_of_ne _ _ (Ne.symm same)]
      · rw [find?_add_of_ne _ _ there, find?_add_of_ne _ _ there, find?_add_of_ne _ _ here]

theorem lookup_isSome_iff {key : κ} {entries : List (κ × υ)} :
    (lookup key entries).isSome ↔ key ∈ entries.map (·.1) := by
  induction entries with
  | nil => simp [lookup]
  | cons entry rest ih =>
    by_cases h : entry.1 = key
    · simp [lookup, h]
    · have : key ≠ entry.1 := fun e => h e.symm
      simp [lookup, h, ih, this]

/-- An entry after setting a key was set just now or is an old one. -/
theorem mem_entries_set {table : Table κ υ} {key : κ} {value : υ} {entry : κ × υ}
    (h : entry ∈ (table.set key value).entries) :
    entry = (key, value) ∨ entry ∈ table.entries := by
  obtain ⟨entries⟩ := table
  simp only [set] at h ⊢
  induction entries with
  | nil => exact .inl (by simpa [put] using h)
  | cons first rest ih =>
    by_cases hk : first.1 = key
    · simp only [put, hk, if_true] at h
      rcases List.mem_cons.1 h with rfl | h
      · exact .inl rfl
      · exact .inr (List.mem_cons_of_mem _ h)
    · simp only [put, hk, if_false] at h
      rcases List.mem_cons.1 h with rfl | h
      · exact .inr List.mem_cons_self
      · rcases ih h with same | h
        · exact .inl same
        · exact .inr (List.mem_cons_of_mem _ h)

/-- What is found is an entry. -/
theorem mem_entries_of_find? {table : Table κ υ} {key : κ} {value : υ}
    (h : table.find? key = some value) : (key, value) ∈ table.entries := by
  obtain ⟨entries⟩ := table
  simp only [find?] at h ⊢
  induction entries with
  | nil => cases h
  | cons first rest ih =>
    by_cases hk : first.1 = key
    · simp only [lookup, hk, if_true, Option.some.injEq] at h
      rw [← hk, ← h]
      exact List.mem_cons_self
    · simp only [lookup, hk, if_false] at h
      exact List.mem_cons_of_mem _ (ih h)

/-- Where no key comes twice, every entry is found. -/
theorem find?_of_mem_entries {table : Table κ υ} {key : κ} {value : υ}
    (once : table.keys.Nodup) (h : (key, value) ∈ table.entries) :
    table.find? key = some value := by
  obtain ⟨entries⟩ := table
  simp only [find?, keys] at h once ⊢
  induction entries with
  | nil => cases h
  | cons first rest ih =>
    rw [List.map_cons, List.nodup_cons] at once
    rcases List.mem_cons.1 h with rfl | h
    · simp [lookup]
    · have differs : first.1 ≠ key := by
        intro same
        exact once.1 (same ▸ List.mem_map_of_mem h)
      simp only [lookup, differs, if_false]
      exact ih once.2 h

/-- A new entry goes to the end. -/
theorem entries_set_of_find?_eq_none {table : Table κ υ} {key : κ} (value : υ)
    (h : table.find? key = none) :
    (table.set key value).entries = table.entries ++ [(key, value)] := by
  obtain ⟨entries⟩ := table
  simp only [find?, set] at h ⊢
  induction entries with
  | nil => rfl
  | cons entry rest ih =>
    by_cases hk : entry.1 = key
    · simp [lookup, hk] at h
    · simp only [lookup, hk, if_false] at h
      simp only [put, hk, if_false, List.cons_append]
      rw [ih h]

/-- A key is found exactly when it is one of the keys. -/
theorem contains_iff_mem_keys {table : Table κ υ} {key : κ} :
    table.contains key = true ↔ key ∈ table.keys :=
  lookup_isSome_iff

/-- Replacing a value leaves the keys and their order alone. -/
theorem keys_set_of_mem {table : Table κ υ} {key : κ} (value : υ) (h : key ∈ table.keys) :
    (table.set key value).keys = table.keys := by
  obtain ⟨entries⟩ := table
  simp only [keys, set] at h ⊢
  induction entries with
  | nil => simp at h
  | cons entry rest ih =>
    by_cases hk : entry.1 = key
    · simp [put, hk]
    · have : key ∈ rest.map (·.1) := by
        rcases List.mem_cons.1 h with h | h
        · exact absurd h.symm hk
        · exact h
      simp only [put, hk, if_false, List.map_cons]
      rw [ih this]

/-- A new key goes to the end. -/
theorem keys_set_of_not_mem {table : Table κ υ} {key : κ} (value : υ)
    (h : key ∉ table.keys) : (table.set key value).keys = table.keys ++ [key] := by
  obtain ⟨entries⟩ := table
  simp only [keys, set] at h ⊢
  induction entries with
  | nil => simp [put]
  | cons entry rest ih =>
    have hk : entry.1 ≠ key := fun e => h (by simp [e])
    have hr : key ∉ rest.map (·.1) := fun hm => h (by simpa using Or.inr hm)
    simp only [put, hk, if_false, List.map_cons, List.cons_append]
    rw [ih hr]

theorem mem_keys_of_find? {table : Table κ υ} {key : κ} {value : υ}
    (h : table.find? key = some value) : key ∈ table.keys :=
  contains_iff_mem_keys.1 (by simp [contains, h])

/-- No key comes twice because of being set. -/
theorem nodup_keys_set {table : Table κ υ} (key : κ) (value : υ) (h : table.keys.Nodup) :
    (table.set key value).keys.Nodup := by
  by_cases known : key ∈ table.keys
  · rw [keys_set_of_mem value known]
    exact h
  · rw [keys_set_of_not_mem value known, List.nodup_append]
    refine ⟨h, by simp, ?_⟩
    intro old hold new hnew same
    rw [List.mem_singleton] at hnew
    rw [same, hnew] at hold
    exact known hold

/-- The value of a new key goes to the end. -/
theorem values_set_of_find?_eq_none {table : Table κ υ} {key : κ} (value : υ)
    (h : table.find? key = none) : (table.set key value).values = table.values ++ [value] := by
  rw [values, entries_set_of_find?_eq_none value h, List.map_append]
  rfl

/-- Replacing a value by one that looks the same leaves the values looking
the same. -/
theorem map_values_set {α : Type} {table : Table κ υ} {key : κ} {old value : υ} (f : υ → α)
    (h : table.find? key = some old) (same : f value = f old) :
    (table.set key value).values.map f = table.values.map f := by
  obtain ⟨entries⟩ := table
  simp only [find?, values, set] at h ⊢
  induction entries with
  | nil => cases h
  | cons entry rest ih =>
    by_cases hk : entry.1 = key
    · simp only [lookup, hk, if_true, Option.some.injEq] at h
      simp [put, hk, same, h]
    · simp only [lookup, hk, if_false] at h
      simp only [put, hk, if_false, List.map_cons]
      rw [ih h]

end Table

end SymbolicHeap
