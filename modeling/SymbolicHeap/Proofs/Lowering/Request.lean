/-
What a symbol table grants.

A lowering touches the symbol table in one way only: it asks for the
symbol of a variable, a function or a field array (`Request`).  A request
is granted or refused (`grant`); a table that has granted it once grants
it ever after without a change (`grant_of_has`), and tables only grow
(`grantAll_grows`).  What is granted is fixed by the request alone: the
symbol of its label (`Canonical`).
-/
import SymbolicHeap.Lowering.Symbols
import SymbolicHeap.Proofs.Outcome

namespace SymbolicHeap.Lowering

namespace Request

/-- The symbol, if it is granted. -/
def symbol (request : Request) : Except Fault Symbol :=
  request.label.bind Label.symbol?

/-- The constant, if the request for it is granted. -/
def constant (request : Request) : Except Fault Term :=
  request.symbol.map fun symbol => .call symbol []

variable {request : Request}

/-- A label whose name can be encoded has a symbol. -/
theorem symbol_of_label {label : Label} (hlabel : request.label = .ok label)
    (encodes : Text.encodes label.name = true) : request.symbol = .ok label.symbol := by
  unfold Request.symbol
  rw [hlabel]
  show label.symbol? = _
  rw [Label.symbol?, if_pos encodes]

theorem label_of_symbol {symbol : Symbol} (h : request.symbol = .ok symbol) :
    ∃ label, request.label = .ok label ∧ Text.encodes label.name = true ∧
      label.symbol = symbol := by
  unfold Request.symbol at h
  obtain ⟨label, hlabel, h⟩ := bind_eq_ok.1 h
  unfold Label.symbol? at h
  split at h
  case isTrue encodes =>
    cases h
    exact ⟨label, hlabel, encodes, rfl⟩
  case isFalse => cases h

theorem constant_of_symbol {symbol : Symbol} (h : request.symbol = .ok symbol) :
    request.constant = .ok (.call symbol []) := by
  unfold constant
  rw [h]
  rfl

/-- A fault that says that the name of a request cannot be encoded. -/
def Unencodable (request : Request) (fault : Fault) : Prop :=
  ∃ label, request.label = .ok label ∧ Text.encodes label.name = false ∧
    fault = .unencodable label.name

/-- There is no symbol without a label, nor for a name that cannot be
encoded. -/
theorem symbol_eq_error {fault : Fault} (h : request.symbol = .error fault) :
    request.label = .error fault ∨ request.Unencodable fault := by
  unfold symbol at h
  rcases bind_eq_error.1 h with h | ⟨label, hlabel, h⟩
  · exact .inl h
  · unfold Label.symbol? at h
    split at h
    case isTrue => cases h
    case isFalse surrogate =>
      cases h
      exact .inr ⟨label, hlabel, Bool.eq_false_iff.2 surrogate, rfl⟩

/-- The constant of a request is that of its label. -/
theorem label_of_constant {term : Term} (h : request.constant = .ok term) :
    ∃ label, request.label = .ok label ∧ Text.encodes label.name = true ∧
      term = .call label.symbol [] := by
  obtain ⟨symbol, hsymbol, rfl⟩ := map_eq_ok.1 h
  obtain ⟨label, hlabel, encodes, rfl⟩ := label_of_symbol hsymbol
  exact ⟨label, hlabel, encodes, rfl⟩

end Request

namespace SymbolTable

-- =============================================================== growth

/-- Every entry of the one table is in the other. -/
structure Grows (before after : SymbolTable) : Prop where
  vars : ∀ name entry, before.vars.find? name = some entry → after.vars.find? name = some entry
  functions : ∀ signature symbol,
    before.functions.find? signature = some symbol →
      after.functions.find? signature = some symbol
  fields : ∀ field term,
    before.fields.find? field = some term → after.fields.find? field = some term
  owners : ∀ label owner,
    before.owners.find? label = some owner → after.owners.find? label = some owner

theorem Grows.refl (table : SymbolTable) : table.Grows table :=
  ⟨fun _ _ => id, fun _ _ => id, fun _ _ => id, fun _ _ => id⟩

theorem Grows.trans {a b c : SymbolTable} (hab : a.Grows b) (hbc : b.Grows c) : a.Grows c where
  vars name entry h := hbc.vars name entry (hab.vars name entry h)
  functions signature symbol h := hbc.functions signature symbol (hab.functions signature symbol h)
  fields field term h := hbc.fields field term (hab.fields field term h)
  owners label owner h := hbc.owners label owner (hab.owners label owner h)

-- =============================================================== labels

/-- A label that is given touches the owners only, and takes it from no
one. -/
theorem give_eq_ok {table table' : SymbolTable} {label : Label} {owner : Owner}
    (h : table.give label owner = .ok table') :
    table'.vars = table.vars ∧ table'.functions = table.functions ∧
      table'.fields = table.fields ∧ table.Grows table' ∧
      table'.owners.find? label = some owner := by
  unfold give at h
  split at h
  next new =>
    injection h with h
    subst h
    refine ⟨rfl, rfl, rfl, ⟨fun _ _ => id, fun _ _ => id, fun _ _ => id, ?_⟩, ?_⟩
    · exact fun _ _ found => Table.find?_set_of_find?_eq_none new found
    · exact Table.find?_set_self table.owners label owner
  next known held =>
    split at h
    case isTrue same =>
      injection h with h
      subst h same
      exact ⟨rfl, rfl, rfl, Grows.refl _, held⟩
    case isFalse => cases h

-- ============================================================= requests

/-- Whether a request is granted, and the table after it. -/
def grant (table : SymbolTable) : Request → Except Fault Unit × SymbolTable
  | .var name ty => (table.internVariable name ty).map (·.map fun _ => ()) id
  | .function signature => (table.internFunction signature).map (·.map fun _ => ()) id
  | .array field => (table.internField field).map (·.map fun _ => ()) id

/-- Whether the table has granted a request. -/
def Has (table : SymbolTable) : Request → Prop
  | .var name ty => ∃ term, table.vars.find? name = some (ty, term)
  | .function signature => ∃ symbol, table.functions.find? signature = some symbol
  | .array field => ∃ term, table.fields.find? field = some term

/-- Every entry is the symbol of its own label. -/
structure Canonical (table : SymbolTable) : Prop where
  vars : ∀ name ty term,
    table.vars.find? name = some (ty, term) → (Request.var name ty).constant = .ok term
  functions : ∀ signature symbol,
    table.functions.find? signature = some symbol →
      (Request.function signature).symbol = .ok symbol
  fields : ∀ field term,
    table.fields.find? field = some term → (Request.array field).constant = .ok term

theorem Canonical.empty : Canonical {} where
  vars _ _ _ h := by cases h
  functions _ _ h := by cases h
  fields _ _ h := by cases h

theorem Has.mono {table table' : SymbolTable} (h : table.Grows table') {request : Request}
    (has : table.Has request) : table'.Has request := by
  cases request with
  | var name ty =>
      obtain ⟨term, held⟩ := has
      exact ⟨term, h.vars _ _ held⟩
  | function signature =>
      obtain ⟨symbol, held⟩ := has
      exact ⟨symbol, h.functions _ _ held⟩
  | array field =>
      obtain ⟨term, held⟩ := has
      exact ⟨term, h.fields _ _ held⟩

/-- Only the entries have to be canonical. -/
theorem Canonical.congr {table table' : SymbolTable} (canonical : table.Canonical)
    (vars : table'.vars = table.vars) (functions : table'.functions = table.functions)
    (fields : table'.fields = table.fields) : table'.Canonical :=
  ⟨vars ▸ canonical.vars, functions ▸ canonical.functions, fields ▸ canonical.fields⟩

/-- A claim gives the symbol of its label and leaves all entries as they
are, also where it fails. -/
theorem claim_run {table table' : SymbolTable} {request : Request}
    {outcome : Except Fault Symbol} (h : table.claim request = (outcome, table')) :
    (∀ symbol, outcome = .ok symbol → request.symbol = .ok symbol) ∧
      table'.vars = table.vars ∧ table'.functions = table.functions ∧
      table'.fields = table.fields ∧ table.Grows table' := by
  unfold claim at h
  cases hl : request.label with
  | error fault =>
      rw [hl] at h
      cases h
      exact ⟨nofun, rfl, rfl, rfl, .refl _⟩
  | ok label =>
      rw [hl] at h
      dsimp only at h
      cases hg : table.give label request.owner with
      | error fault =>
          rw [hg] at h
          cases h
          exact ⟨nofun, rfl, rfl, rfl, .refl _⟩
      | ok given =>
          rw [hg] at h
          cases h
          obtain ⟨hv, hf, ha, hgrow, -⟩ := give_eq_ok hg
          refine ⟨fun symbol hs => ?_, hv, hf, ha, hgrow⟩
          unfold Request.symbol
          rw [hl]
          exact hs

-- ---------------------------------------------------------- new entries

section

variable {table claimed after : SymbolTable} {request : Request} {symbol : Symbol}

/-- Nothing is kept yet where the entry of a request would stand. -/
def Open (table : SymbolTable) : Request → Prop
  | .var name _ => table.vars.find? name = none
  | .function signature => table.functions.find? signature = none
  | .array field => table.fields.find? field = none

/-- Enters the symbol of a request. -/
def enter (table : SymbolTable) (symbol : Symbol) : Request → SymbolTable
  | .var name ty => { table with vars := table.vars.set name (ty, .call symbol []) }
  | .function signature => { table with functions := table.functions.set signature symbol }
  | .array field => { table with fields := table.fields.set field (.call symbol []) }

theorem grows_enter (vacant : table.Open request) (symbol : Symbol) :
    table.Grows (table.enter symbol request) := by
  cases request with
  | var name ty =>
      exact ⟨fun _ _ => Table.find?_set_of_find?_eq_none vacant, fun _ _ => id, fun _ _ => id,
        fun _ _ => id⟩
  | function signature =>
      exact ⟨fun _ _ => id, fun _ _ => Table.find?_set_of_find?_eq_none vacant, fun _ _ => id,
        fun _ _ => id⟩
  | array field =>
      exact ⟨fun _ _ => id, fun _ _ => id, fun _ _ => Table.find?_set_of_find?_eq_none vacant,
        fun _ _ => id⟩

theorem has_enter_self (table : SymbolTable) (symbol : Symbol) (request : Request) :
    (table.enter symbol request).Has request := by
  cases request with
  | var | function | array => exact ⟨_, Table.find?_set_self _ _ _⟩

theorem Canonical.enter (canonical : table.Canonical) (own : request.symbol = .ok symbol) :
    (table.enter symbol request).Canonical := by
  have constant := Request.constant_of_symbol own
  cases request with
  | var name ty =>
      refine ⟨fun other ty' term found => ?_, canonical.functions, canonical.fields⟩
      rcases Table.find?_set_eq_some found with ⟨rfl, same⟩ | found
      · cases same
        exact constant
      · exact canonical.vars _ _ _ found
  | function signature =>
      refine ⟨canonical.vars, fun other symbol' found => ?_, canonical.fields⟩
      rcases Table.find?_set_eq_some found with ⟨rfl, rfl⟩ | found
      · exact own
      · exact canonical.functions _ _ found
  | array field =>
      refine ⟨canonical.vars, canonical.functions, fun other term found => ?_⟩
      rcases Table.find?_set_eq_some found with ⟨rfl, rfl⟩ | found
      · exact constant
      · exact canonical.fields _ _ found

theorem open_congr (vars : claimed.vars = table.vars)
    (functions : claimed.functions = table.functions) (fields : claimed.fields = table.fields)
    (vacant : table.Open request) : claimed.Open request := by
  cases request with
  | var name ty => rw [Open, vars]; exact vacant
  | function signature => rw [Open, functions]; exact vacant
  | array field => rw [Open, fields]; exact vacant

/-- A claim leaves the place for an entry open, and the entry is that of
its label. -/
theorem enter_claimed (canonical : table.Canonical) (vacant : table.Open request)
    (h : table.claim request = (.ok symbol, claimed)) :
    request.symbol = .ok symbol ∧ table.Grows (claimed.enter symbol request) ∧
      (claimed.enter symbol request).Canonical := by
  obtain ⟨own, hv, hf, ha, hgrow⟩ := claim_run h
  exact ⟨own symbol rfl, hgrow.trans (grows_enter (open_congr hv hf ha vacant) symbol),
    (canonical.congr hv hf ha).enter (own symbol rfl)⟩

-- ----------------------------------------------------- what is granted

/-- A variable gets the constant of its label. -/
theorem internVariable_eq_ok {name : String} {ty : Ty} {term : Term}
    (canonical : table.Canonical) (h : table.internVariable name ty = (.ok term, after)) :
    (Request.var name ty).constant = .ok term := by
  unfold internVariable at h
  split at h
  next known held found =>
    split at h
    case isTrue same =>
      cases h
      subst same
      exact canonical.vars _ _ _ found
    case isFalse => cases h
  next new =>
    split at h
    next => cases h
    next symbol claimed hc =>
      cases h
      exact Request.constant_of_symbol ((claim_run hc).1 symbol rfl)

/-- A function gets the symbol of its label. -/
theorem internFunction_eq_ok {signature : Signature} (canonical : table.Canonical)
    (h : table.internFunction signature = (.ok symbol, after)) :
    (Request.function signature).symbol = .ok symbol := by
  unfold internFunction at h
  split at h
  next held found =>
    cases h
    exact canonical.functions _ _ found
  next new =>
    split at h
    next => cases h
    next claimed hc =>
      cases h
      exact (claim_run hc).1 symbol rfl

/-- A field array gets the constant of its label. -/
theorem internField_eq_ok {field : Field} {term : Term} (canonical : table.Canonical)
    (h : table.internField field = (.ok term, after)) :
    (Request.array field).constant = .ok term := by
  unfold internField at h
  split at h
  next held found =>
    cases h
    exact canonical.fields _ _ found
  next new =>
    split at h
    next => cases h
    next symbol claimed hc =>
      cases h
      exact Request.constant_of_symbol ((claim_run hc).1 symbol rfl)

/-- Granting a request for the second time changes nothing. -/
theorem grant_of_has (has : table.Has request) : table.grant request = (.ok (), table) := by
  cases request with
  | var name ty =>
      obtain ⟨term, found⟩ := has
      simp [grant, internVariable, found, Except.map]
  | function signature =>
      obtain ⟨symbol, found⟩ := has
      simp [grant, internFunction, found, Except.map]
  | array field =>
      obtain ⟨term, found⟩ := has
      simp [grant, internField, found, Except.map]

/-- A request finds its entry, or a place for it, or its name taken by a
variable of another type. -/
theorem has_or_open (table : SymbolTable) (request : Request) :
    table.Has request ∨ table.Open request ∨
      ∃ name ty known, request = .var name ty ∧ known ≠ ty ∧ table.Has (.var name known) := by
  cases request with
  | var name ty =>
      cases found : table.vars.find? name with
      | none => exact .inr (.inl found)
      | some entry =>
          obtain ⟨known, term⟩ := entry
          by_cases same : known = ty
          · subst same
            exact .inl ⟨term, found⟩
          · exact .inr (.inr ⟨name, ty, known, rfl, same, term, found⟩)
  | function signature =>
      cases found : table.functions.find? signature with
      | none => exact .inr (.inl found)
      | some symbol => exact .inl ⟨symbol, found⟩
  | array field =>
      cases found : table.fields.find? field with
      | none => exact .inr (.inl found)
      | some term => exact .inl ⟨term, found⟩

/-- Where there is no entry, the label has to be claimed. -/
theorem grant_of_open (vacant : table.Open request) :
    table.grant request =
      match table.claim request with
      | (.ok symbol, claimed) => (.ok (), claimed.enter symbol request)
      | (.error fault, claimed) => (.error fault, claimed) := by
  cases request with
  | var name ty =>
      rw [Open] at vacant
      rw [grant, internVariable, vacant]
      rcases table.claim (.var name ty) with ⟨_ | _, _⟩ <;> rfl
  | function signature =>
      rw [Open] at vacant
      rw [grant, internFunction, vacant]
      rcases table.claim (.function signature) with ⟨_ | _, _⟩ <;> rfl
  | array field =>
      rw [Open] at vacant
      rw [grant, internField, vacant]
      rcases table.claim (.array field) with ⟨_ | _, _⟩ <;> rfl

/-- A variable that is known at another type is refused. -/
theorem grant_redeclared {name : String} {ty known : Ty} (differ : known ≠ ty)
    (has : table.Has (.var name known)) :
    table.grant (.var name ty) = (.error (.redeclared name known ty), table) := by
  obtain ⟨term, found⟩ := has
  simp [grant, internVariable, found, differ, Except.map]

/-- A request that is granted finds its entry, or makes it. -/
theorem grant_cases (h : table.grant request = (.ok (), after)) :
    (table.Has request ∧ after = table) ∨
      (table.Open request ∧ ∃ symbol claimed,
        table.claim request = (.ok symbol, claimed) ∧ after = claimed.enter symbol request) := by
  rcases table.has_or_open request with has | vacant | ⟨name, ty, known, rfl, differ, has⟩
  · rw [grant_of_has has] at h
    cases h
    exact .inl ⟨has, rfl⟩
  · rw [grant_of_open vacant] at h
    split at h
    next symbol claimed hc =>
      cases h
      exact .inr ⟨vacant, symbol, claimed, hc, rfl⟩
    next => cases h
  · rw [grant_redeclared differ has] at h
    cases h

/-- A request that is granted stays granted; nothing else is lost, and
what is gained is the symbol of a label. -/
theorem grant_eq_ok (canonical : table.Canonical) (h : table.grant request = (.ok (), after)) :
    table.Grows after ∧ after.Canonical ∧ after.Has request := by
  rcases grant_cases h with ⟨has, rfl⟩ | ⟨vacant, symbol, claimed, hc, rfl⟩
  · exact ⟨.refl _, canonical, has⟩
  · obtain ⟨-, hgrow, hcan⟩ := enter_claimed canonical vacant hc
    exact ⟨hgrow, hcan, has_enter_self _ _ _⟩

/-- A request that is refused leaves all entries as they are. -/
theorem grant_refused {fault : Fault} (h : table.grant request = (.error fault, after)) :
    after.vars = table.vars ∧ after.functions = table.functions ∧
      after.fields = table.fields ∧ table.Grows after := by
  rcases table.has_or_open request with has | vacant | ⟨name, ty, known, rfl, differ, has⟩
  · rw [grant_of_has has] at h
    cases h
  · rw [grant_of_open vacant] at h
    split at h
    next => cases h
    next hc =>
      cases h
      exact (claim_run hc).2
  · rw [grant_redeclared differ has] at h
    cases h
    exact ⟨rfl, rfl, rfl, .refl _⟩

/-- Functions and arrays have tables of their own. -/
theorem vars_grant (other : ∀ name ty, request ≠ .var name ty)
    (h : table.grant request = (.ok (), after)) : after.vars = table.vars := by
  rcases grant_cases h with ⟨-, rfl⟩ | ⟨-, symbol, claimed, hc, rfl⟩
  · rfl
  · cases request with
    | var name ty => exact absurd rfl (other name ty)
    | function | array => exact (claim_run hc).2.1

end

-- ================================================== several requests

/-- The table after several requests, up to the first that is refused. -/
def grantAll (table : SymbolTable) : List Request → Except Fault Unit × SymbolTable
  | [] => (.ok (), table)
  | request :: rest =>
      match table.grant request with
      | (.ok _, after) => after.grantAll rest
      | (.error fault, after) => (.error fault, after)

theorem grantAll_cons_of_ok {table after : SymbolTable} {request : Request}
    (h : table.grant request = (.ok (), after)) (rest : List Request) :
    table.grantAll (request :: rest) = after.grantAll rest := by
  rw [grantAll, h]

theorem grantAll_cons_of_error {table after : SymbolTable} {request : Request} {fault : Fault}
    (h : table.grant request = (.error fault, after)) (rest : List Request) :
    table.grantAll (request :: rest) = (.error fault, after) := by
  rw [grantAll, h]

/-- Requests that follow others start from the table that these leave, if
none of them is refused. -/
theorem grantAll_append (table : SymbolTable) (first second : List Request) :
    table.grantAll (first ++ second) =
      match table.grantAll first with
      | (.ok _, after) => after.grantAll second
      | (.error fault, after) => (.error fault, after) := by
  induction first generalizing table with
  | nil => rfl
  | cons request rest ih =>
      rw [List.cons_append]
      rcases hg : table.grant request with ⟨fault | ⟨⟩, after⟩
      · rw [grantAll_cons_of_error hg, grantAll_cons_of_error hg]
      · rw [grantAll_cons_of_ok hg, grantAll_cons_of_ok hg]
        exact ih after

/-- A table only grows, whether all requests are granted or not. -/
theorem grantAll_grows {table : SymbolTable} (canonical : table.Canonical)
    (requests : List Request) :
    table.Grows (table.grantAll requests).2 ∧ (table.grantAll requests).2.Canonical := by
  induction requests generalizing table with
  | nil => exact ⟨.refl _, canonical⟩
  | cons request rest ih =>
      rcases hg : table.grant request with ⟨fault | ⟨⟩, after⟩
      · rw [grantAll_cons_of_error hg]
        obtain ⟨hv, hf, ha, hgrow⟩ := grant_refused hg
        exact ⟨hgrow, canonical.congr hv hf ha⟩
      · rw [grantAll_cons_of_ok hg]
        obtain ⟨hgrow, hcan, -⟩ := grant_eq_ok canonical hg
        obtain ⟨hrest, hcan'⟩ := ih hcan
        exact ⟨hgrow.trans hrest, hcan'⟩

/-- Requests that are all granted stay granted. -/
theorem has_of_grantAll {table after : SymbolTable} (canonical : table.Canonical)
    {requests : List Request} (h : table.grantAll requests = (.ok (), after)) :
    ∀ request ∈ requests, after.Has request := by
  induction requests generalizing table with
  | nil => simp
  | cons request rest ih =>
      rcases hg : table.grant request with ⟨fault | ⟨⟩, granted⟩
      · rw [grantAll_cons_of_error hg] at h
        cases h
      · rw [grantAll_cons_of_ok hg] at h
        obtain ⟨-, hcan, hhas⟩ := grant_eq_ok canonical hg
        have hgrow := (grantAll_grows hcan rest).1
        rw [h] at hgrow
        intro other hother
        rcases List.mem_cons.1 hother with rfl | hother
        · exact hhas.mono hgrow
        · exact ih hcan h other hother

/-- Requests that have all been granted before change nothing. -/
theorem grantAll_of_has {table : SymbolTable} {requests : List Request}
    (has : ∀ request ∈ requests, table.Has request) :
    table.grantAll requests = (.ok (), table) := by
  induction requests with
  | nil => rfl
  | cons request rest ih =>
      rw [grantAll_cons_of_ok (grant_of_has (has request List.mem_cons_self))]
      exact ih fun other hother => has other (List.mem_cons_of_mem _ hother)

-- ------------------------------------------------------- where they lead

/-- Requests lead from the one table to the other, be they granted or
not. -/
inductive Reaches (table : SymbolTable) : SymbolTable → Prop
  | refl : Reaches table table
  | requests {middle : SymbolTable} (earlier : Reaches table middle) (requests : List Request) :
      Reaches table (middle.grantAll requests).2

theorem Reaches.trans {a b c : SymbolTable} (hab : a.Reaches b) (hbc : b.Reaches c) :
    a.Reaches c := by
  induction hbc with
  | refl => exact hab
  | requests _ requests ih => exact .requests ih requests

theorem Reaches.grows {table after : SymbolTable} (h : table.Reaches after)
    (canonical : table.Canonical) : table.Grows after := by
  suffices both : table.Grows after ∧ after.Canonical from both.1
  induction h with
  | refl => exact ⟨.refl _, canonical⟩
  | requests _ requests ih =>
      obtain ⟨hgrow, hcan⟩ := grantAll_grows ih.2 requests
      exact ⟨ih.1.trans hgrow, hcan⟩

end SymbolTable

end SymbolicHeap.Lowering
