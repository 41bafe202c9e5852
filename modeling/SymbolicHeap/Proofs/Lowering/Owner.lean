/-
Whose the symbols are.

A label, a name at some sorts, goes to the first owner that asks for it.
In a table that has come about by requests, the labels given away are
those of its entries, each with its owner (`Owned`), and no two entries
have one label (`Owned.eq_of_label`), however names and tags are spelled.

So whether a further request is granted is a matter of the entries: it
must have a label, and it must get along with each of them
(`Owned.grant_iff`).

A solver does not read a name past its first null character.  In this one
way entries of different labels come to have one symbol
(`symbol_shared_behind_null`); where names are read in full, every entry
has a symbol of its own (`symbols_owned`).
-/
import Mathlib.Data.List.TakeWhile
import SymbolicHeap.Proofs.Lowering.Transcript

namespace SymbolicHeap

-- ================================================================ labels

/-- Different types have different sorts. -/
theorem Ty.eq_of_sort {s t : Ty} {sort : Srt} (hs : s.sort = .ok sort) (ht : t.sort = .ok sort) :
    s = t := by
  induction sort generalizing s t with
  | int => cases s <;> cases t <;> simp_all [Ty.sort, map_eq_ok]
  | bool => cases s <;> cases t <;> simp_all [Ty.sort, map_eq_ok]
  | array element ih =>
      cases s <;> cases t <;> simp_all [Ty.sort, map_eq_ok]
      exact ih ‹_› ‹_›

namespace Lowering

theorem eq_of_sortOf {s t : Ty} {sort : Srt} (hs : sortOf s = .ok sort)
    (ht : sortOf t = .ok sort) : s = t :=
  Ty.eq_of_sort (mapError_eq_ok.1 hs) (mapError_eq_ok.1 ht)

theorem eq_of_sortsOf {ss ts : List Ty} {sorts : List Srt} (hs : ss.mapM sortOf = .ok sorts)
    (ht : ts.mapM sortOf = .ok sorts) : ss = ts := by
  induction ss generalizing ts sorts with
  | nil =>
      injection hs with hs
      subst hs
      cases ts with
      | nil => rfl
      | cons t ts =>
          rw [List.mapM_cons] at ht
          obtain ⟨_, -, ht⟩ := bind_eq_ok.1 ht
          obtain ⟨_, -, ht⟩ := bind_eq_ok.1 ht
          injection ht with ht
          cases ht
  | cons s ss ih =>
      rw [List.mapM_cons] at hs
      obtain ⟨first, hfirst, hs⟩ := bind_eq_ok.1 hs
      obtain ⟨rest, hrest, hs⟩ := bind_eq_ok.1 hs
      injection hs with hs
      subst hs
      cases ts with
      | nil =>
          injection ht with ht
          cases ht
      | cons t ts =>
          rw [List.mapM_cons] at ht
          obtain ⟨first', hfirst', ht⟩ := bind_eq_ok.1 ht
          obtain ⟨rest', hrest', ht⟩ := bind_eq_ok.1 ht
          injection ht with ht
          injection ht with hf hr
          subst hf hr
          rw [eq_of_sortOf hfirst hfirst', ih hrest hrest']

namespace Request

/-- A variable goes by its name, an object by a name that is longer. -/
theorem label_var {name : String} {ty : Ty} {label : Label}
    (h : (Request.var name ty).label = .ok label) :
    (ty = .object ∧ label = ⟨name ++ "!id", [], .int⟩) ∨
      ∃ s, sortOf ty = .ok s ∧ label = ⟨name, [], s⟩ := by
  cases ty with
  | object =>
      injection h with h
      exact .inl ⟨rfl, h.symm⟩
  | _ =>
      obtain ⟨s, hs, h⟩ := bind_eq_ok.1 h
      injection h with h
      exact .inr ⟨s, hs, h.symm⟩

theorem label_function {signature : Signature} {label : Label}
    (h : (Request.function signature).label = .ok label) :
    ∃ args s, signature.args.mapM sortOf = .ok args ∧ sortOf signature.result = .ok s ∧
      label = ⟨signature.name, args, s⟩ := by
  obtain ⟨args, hargs, h⟩ := bind_eq_ok.1 h
  obtain ⟨s, hs, h⟩ := bind_eq_ok.1 h
  injection h with h
  exact ⟨args, s, hargs, hs, h.symm⟩

theorem label_array {field : Field} {label : Label}
    (h : (Request.array field).label = .ok label) :
    ∃ s, sortOf field.ty = .ok s ∧
      label = ⟨field.tag ++ "." ++ toString field.index, [], .array s⟩ := by
  obtain ⟨s, hs, h⟩ := bind_eq_ok.1 h
  injection h with h
  exact ⟨s, hs, h.symm⟩

theorem label_array_ok {field : Field} (sorted : field.ty.hasSort = true) :
    ∃ label, (Request.array field).label = .ok label := by
  obtain ⟨s, hs⟩ := (Ty.hasSort_iff_sort field.ty).1 sorted
  exact ⟨_, bind_eq_ok.2 ⟨s, mapError_eq_ok.2 hs, rfl⟩⟩

theorem append_id_ne (name : String) : name ++ "!id" ≠ name := by
  intro same
  have lengths := congrArg String.length same
  simp at lengths

/-- One owner never asks for a label in two ways. -/
theorem eq_of_label {r r' : Request} {label : Label} (owner : r.owner = r'.owner)
    (h : r.label = .ok label) (h' : r'.label = .ok label) : r = r' := by
  cases r with
  | var name ty =>
      cases r' with
      | var name' ty' =>
          injection owner with owner
          subst owner
          rcases label_var h with ⟨rfl, rfl⟩ | ⟨s, hs, rfl⟩
          · rcases label_var h' with ⟨rfl, -⟩ | ⟨s', -, same⟩
            · rfl
            · injection same with same
              exact absurd same (append_id_ne name)
          · rcases label_var h' with ⟨-, same⟩ | ⟨s', hs', same⟩
            · injection same with same
              exact absurd same.symm (append_id_ne name)
            · injection same with _ _ same
              subst same
              rw [eq_of_sortOf hs hs']
      | function => cases owner
      | array => cases owner
  | function signature =>
      cases r' with
      | function signature' =>
          obtain ⟨args, s, hargs, hs, rfl⟩ := label_function h
          obtain ⟨args', s', hargs', hs', same⟩ := label_function h'
          injection same with hname ha hr
          subst ha hr
          have types := eq_of_sortsOf hargs hargs'
          have result := eq_of_sortOf hs hs'
          obtain ⟨_, _, _⟩ := signature
          obtain ⟨_, _, _⟩ := signature'
          simp_all
      | var => cases owner
      | array => cases owner
  | array field =>
      cases r' with
      | array field' =>
          obtain ⟨s, hs, rfl⟩ := label_array h
          obtain ⟨s', hs', same⟩ := label_array h'
          injection same with _ _ same
          injection same with same
          subst same
          injection owner with htag hindex
          have types := eq_of_sortOf hs hs'
          obtain ⟨_, _, _⟩ := field
          obtain ⟨_, _, _⟩ := field'
          simp_all
      | var => cases owner
      | function => cases owner

/-- Two requests that one table may grant: they are for different labels,
and do not ask for one variable at two types. -/
structure Compatible (r r' : Request) : Prop where
  label : ∀ label, r.label = .ok label → r'.label = .ok label → r = r'
  type : ∀ name ty ty', r = .var name ty → r' = .var name ty' → ty = ty'

theorem Compatible.symm {r r' : Request} (h : r.Compatible r') : r'.Compatible r where
  label label hr hr' := (h.label label hr' hr).symm
  type name ty ty' hr hr' := (h.type name ty' ty hr' hr).symm

/-- A fault that says that another owner has the label of the request, or
that its variable has another type. -/
def Clashes (request : Request) : Fault → Prop
  | .redeclared name known wanted => request = .var name wanted ∧ known ≠ wanted
  | .symbolTaken name known wanted =>
      wanted = request.owner ∧ known ≠ wanted ∧
        ∃ label, request.label = .ok label ∧ label.name = name
  | _ => False

end Request

namespace SymbolTable

-- ============================================================ new entries

variable {table given after : SymbolTable} {request : Request}

theorem not_has_of_open (vacant : table.Open request) : ¬ table.Has request := by
  cases request with
  | var name ty =>
      rintro ⟨term, found⟩
      rw [Open] at vacant
      rw [vacant] at found
      cases found
  | function signature =>
      rintro ⟨symbol, found⟩
      rw [Open] at vacant
      rw [vacant] at found
      cases found
  | array field =>
      rintro ⟨term, found⟩
      rw [Open] at vacant
      rw [vacant] at found
      cases found

theorem give_eq_error {label : Label} {owner : Owner} {fault : Fault}
    (h : table.give label owner = .error fault) :
    ∃ known, known ≠ owner ∧ fault = .symbolTaken label.name known owner := by
  unfold give at h
  split at h
  next => cases h
  next known held =>
    split at h
    case isTrue => cases h
    case isFalse differ =>
      injection h with h
      exact ⟨known, differ, h.symm⟩

theorem claim_of_label {label : Label} (hlabel : request.label = .ok label) :
    table.claim request =
      match table.give label request.owner with
      | .ok given => (label.symbol?, given)
      | .error fault => (.error fault, table) := by
  rw [claim, hlabel]
  dsimp only
  cases table.give label request.owner with
  | ok given => rfl
  | error fault => rfl

/-- A request that has a symbol is refused only over a name. -/
theorem grant_eq_error {fault : Fault} {symbol : Symbol} (hsymbol : request.symbol = .ok symbol)
    (h : table.grant request = (.error fault, after)) : request.Clashes fault := by
  obtain ⟨label, hlabel, encodes, -⟩ := Request.label_of_symbol hsymbol
  rcases table.has_or_open request with has | vacant | ⟨name, ty, known, rfl, differ, has⟩
  · rw [grant_of_has has] at h
    cases h
  · rw [grant_of_open vacant, claim_of_label hlabel] at h
    cases hg : table.give label request.owner with
    | ok given =>
        simp only [hg, Label.symbol?, encodes, if_true] at h
        cases h
    | error refusal =>
        obtain ⟨known, differ, rfl⟩ := give_eq_error hg
        rw [hg] at h
        cases h
        exact ⟨rfl, differ, label, hlabel, rfl⟩
  · rw [grant_redeclared differ has] at h
    cases h
    exact ⟨rfl, differ⟩

/-- A request is refused for want of a symbol, or because what it asks for
is taken. -/
theorem symbol_or_clash {fault : Fault}
    (h : table.grant request = (.error fault, after)) :
    request.symbol = .error fault ∨ request.Clashes fault := by
  cases hsymbol : request.symbol with
  | ok symbol => exact .inr (grant_eq_error hsymbol h)
  | error cause =>
      rcases table.has_or_open request with has | vacant | ⟨name, ty, known, rfl, differ, has⟩
      · rw [grant_of_has has] at h
        cases h
      · rcases Request.symbol_eq_error hsymbol with hlabel | ⟨label, hlabel, surrogate, rfl⟩
        · have hclaim : table.claim request = (.error cause, table) := by rw [claim, hlabel]
          rw [grant_of_open vacant, hclaim] at h
          cases h
          exact .inl rfl
        · rw [grant_of_open vacant, claim_of_label hlabel] at h
          cases hg : table.give label request.owner with
          | ok given =>
              simp only [hg, Label.symbol?, surrogate, Bool.false_eq_true, if_false] at h
              cases h
              exact .inl rfl
          | error refusal =>
              obtain ⟨known, differ, rfl⟩ := give_eq_error hg
              rw [hg] at h
              cases h
              exact .inr ⟨rfl, differ, label, hlabel, rfl⟩
      · rw [grant_redeclared differ has] at h
        cases h
        exact .inr ⟨rfl, differ⟩

/-- What is entered is the one entry that was not there. -/
theorem has_of_has_enter {symbol : Symbol} {other : Request}
    (has : (table.enter symbol request).Has other) : table.Has other ∨ other = request := by
  cases request with
  | var name ty =>
      cases other with
      | var name' ty' =>
          obtain ⟨term, found⟩ := has
          rcases Table.find?_set_eq_some found with ⟨rfl, same⟩ | found
          · injection same with same
            exact .inr (same ▸ rfl)
          · exact .inl ⟨term, found⟩
      | function | array => exact .inl has
  | function signature =>
      cases other with
      | function signature' =>
          obtain ⟨found, hfound⟩ := has
          rcases Table.find?_set_eq_some hfound with ⟨rfl, -⟩ | hfound
          · exact .inr rfl
          · exact .inl ⟨found, hfound⟩
      | var | array => exact .inl has
  | array field =>
      cases other with
      | array field' =>
          obtain ⟨term, found⟩ := has
          rcases Table.find?_set_eq_some found with ⟨rfl, -⟩ | found
          · exact .inr rfl
          · exact .inl ⟨term, found⟩
      | var | function => exact .inl has

theorem has_enter (vacant : table.Open request) (symbol : Symbol) (other : Request) :
    (table.enter symbol request).Has other ↔ table.Has other ∨ other = request := by
  refine ⟨has_of_has_enter, ?_⟩
  rintro (has | rfl)
  · exact has.mono (grows_enter vacant symbol)
  · exact has_enter_self table symbol other

theorem owners_enter (table : SymbolTable) (symbol : Symbol) (request : Request) :
    (table.enter symbol request).owners = table.owners := by
  cases request <;> rfl

/-- Giving a label away makes no entry. -/
theorem has_congr (vars : given.vars = table.vars) (functions : given.functions = table.functions)
    (fields : given.fields = table.fields) (request : Request) :
    given.Has request ↔ table.Has request := by
  cases request with
  | var name ty => rw [Has, Has, vars]
  | function signature => rw [Has, Has, functions]
  | array field => rw [Has, Has, fields]

theorem owner_of_give {label other : Label} {owner known : Owner}
    (h : table.give label owner = .ok given) (held : given.owners.find? other = some known) :
    (other = label ∧ known = owner) ∨ table.owners.find? other = some known := by
  unfold give at h
  split at h
  next =>
    injection h with h
    subst h
    exact Table.find?_set_eq_some held
  next =>
    split at h
    case isTrue =>
      injection h with h
      subst h
      exact .inr held
    case isFalse => cases h

theorem held_of_claim {symbol : Symbol} (h : table.claim request = (.ok symbol, given)) :
    ∃ label, request.label = .ok label ∧ Text.encodes label.name = true ∧
      given.owners.find? label = some request.owner := by
  obtain ⟨label, hlabel, encodes, -⟩ := Request.label_of_symbol ((claim_run h).1 symbol rfl)
  rw [claim_of_label hlabel] at h
  cases hg : table.give label request.owner with
  | error fault =>
      rw [hg] at h
      cases h
  | ok reached =>
      rw [hg] at h
      injection h with _ h
      subst h
      obtain ⟨-, -, -, -, held⟩ := give_eq_ok hg
      exact ⟨label, hlabel, encodes, held⟩

/-- Only the label that is claimed may be new. -/
theorem owner_of_claim {label : Label} {owner : Owner} {outcome : Except Fault Symbol}
    (h : table.claim request = (outcome, given)) (held : given.owners.find? label = some owner) :
    (request.label = .ok label ∧ request.owner = owner ∧ label.symbol? = outcome) ∨
      table.owners.find? label = some owner := by
  cases hlabel : request.label with
  | error fault =>
      rw [SymbolTable.claim, hlabel] at h
      cases h
      exact .inr held
  | ok mine =>
      rw [claim_of_label hlabel] at h
      cases hg : table.give mine request.owner with
      | error fault =>
          rw [hg] at h
          cases h
          exact .inr held
      | ok reached =>
          rw [hg] at h
          cases h
          rcases owner_of_give hg held with ⟨rfl, rfl⟩ | held
          · exact .inl ⟨rfl, rfl, rfl⟩
          · exact .inr held

-- ============================================================ the invariant

/-- The labels given away are those of the entries, each with its owner, and
some that have no symbol. -/
structure Owned (table : SymbolTable) : Prop where
  entry : ∀ request, table.Has request → ∃ label, request.label = .ok label ∧
    Text.encodes label.name = true ∧ table.owners.find? label = some request.owner
  label : ∀ label owner, table.owners.find? label = some owner →
    ∃ request, request.label = .ok label ∧ request.owner = owner ∧
      (Text.encodes label.name = true → table.Has request)

namespace Owned

theorem empty : Owned {} where
  entry request has := by
    cases request with
    | var | function | array =>
        obtain ⟨_, found⟩ := has
        cases found
  label label owner held := by cases held

/-- No two entries have one label. -/
theorem eq_of_label (owned : table.Owned) {other : Request} {label : Label}
    (has : table.Has request) (has' : table.Has other) (h : request.label = .ok label)
    (h' : other.label = .ok label) : request = other := by
  obtain ⟨mine, hmine, -, held⟩ := owned.entry request has
  obtain ⟨its, hits, -, held'⟩ := owned.entry other has'
  rw [h] at hmine
  rw [h'] at hits
  injection hmine with hmine
  injection hits with hits
  subst hmine hits
  rw [held] at held'
  injection held' with owner
  exact Request.eq_of_label owner h h'

theorem compatible (owned : table.Owned) {other : Request} (has : table.Has request)
    (has' : table.Has other) : request.Compatible other where
  label _ h h' := owned.eq_of_label has has' h h'
  type name ty ty' h h' := by
    subst h h'
    obtain ⟨_, found⟩ := has
    obtain ⟨_, found'⟩ := has'
    rw [found] at found'
    cases found'
    rfl

/-- A request that is granted adds its own entry and no other. -/
theorem grant (owned : table.Owned) (h : table.grant request = (.ok (), after)) :
    after.Owned ∧ ∀ other, after.Has other ↔ table.Has other ∨ other = request := by
  rcases grant_cases h with ⟨has, rfl⟩ | ⟨vacant, symbol, claimed, hc, rfl⟩
  · refine ⟨owned, fun other => ⟨.inl, ?_⟩⟩
    rintro (has' | rfl)
    · exact has'
    · exact has
  · obtain ⟨-, hv, hf, ha, hgrow⟩ := claim_run hc
    have hhas : ∀ other, (claimed.enter symbol request).Has other
        ↔ table.Has other ∨ other = request := by
      intro other
      rw [has_enter (open_congr hv hf ha vacant), has_congr hv hf ha]
    refine ⟨⟨fun other has => ?_, fun label owner held => ?_⟩, hhas⟩
    · rw [owners_enter]
      rcases (hhas other).1 has with has | rfl
      · obtain ⟨mine, hmine, encodes, held⟩ := owned.entry other has
        exact ⟨mine, hmine, encodes, hgrow.owners _ _ held⟩
      · exact held_of_claim hc
    · rw [owners_enter] at held
      rcases owner_of_claim hc held with ⟨hlabel, rfl, -⟩ | held
      · exact ⟨request, hlabel, rfl, fun _ => (hhas request).2 (.inr rfl)⟩
      · obtain ⟨its, hits, howner, has⟩ := owned.label label owner held
        exact ⟨its, hits, howner, fun encodes => (hhas its).2 (.inl (has encodes))⟩

/-- A request that is refused may leave a label given away, but not one
that has a symbol. -/
theorem refused (owned : table.Owned) {fault : Fault}
    (h : table.grant request = (.error fault, after)) : after.Owned := by
  rcases table.has_or_open request with has | vacant | ⟨name, ty, known, rfl, differ, has⟩
  · rw [grant_of_has has] at h
    cases h
  · rw [grant_of_open vacant] at h
    split at h
    next => cases h
    next hc =>
      cases h
      obtain ⟨-, hv, hf, ha, hgrow⟩ := claim_run hc
      refine ⟨fun other has => ?_, fun label owner held => ?_⟩
      · obtain ⟨mine, hmine, encodes, held⟩ := owned.entry other ((has_congr hv hf ha other).1 has)
        exact ⟨mine, hmine, encodes, hgrow.owners _ _ held⟩
      · rcases owner_of_claim hc held with ⟨hlabel, rfl, hsymbol⟩ | held
        · refine ⟨request, hlabel, rfl, fun encodes => ?_⟩
          rw [Label.symbol?, if_pos encodes] at hsymbol
          cases hsymbol
        · obtain ⟨its, hits, howner, has⟩ := owned.label label owner held
          exact ⟨its, hits, howner, fun encodes => (has_congr hv hf ha its).2 (has encodes)⟩
  · rw [grant_redeclared differ has] at h
    cases h
    exact owned

/-- A request is granted if it gets along with all entries. -/
theorem grant_iff (owned : table.Owned) :
    (∃ after, table.grant request = (.ok (), after)) ↔
      (∃ symbol, request.symbol = .ok symbol) ∧
        ∀ other, table.Has other → other.Compatible request := by
  constructor
  · rintro ⟨after, h⟩
    obtain ⟨owned', hhas⟩ := owned.grant h
    have has := (hhas request).2 (.inr rfl)
    obtain ⟨label, hlabel, encodes, -⟩ := owned'.entry request has
    exact ⟨⟨_, Request.symbol_of_label hlabel encodes⟩, fun other hother =>
      owned'.compatible ((hhas other).2 (.inl hother)) has⟩
  · rintro ⟨⟨symbol, hsymbol⟩, compatible⟩
    obtain ⟨label, hlabel, encodes, -⟩ := Request.label_of_symbol hsymbol
    rcases table.has_or_open request with has | vacant | ⟨name, ty, known, rfl, differ, has⟩
    · exact ⟨table, grant_of_has has⟩
    · -- an owner of the label would have an entry of its own under it
      have free : table.owners.find? label = none := by
        cases held : table.owners.find? label with
        | none => rfl
        | some owner =>
            obtain ⟨other, hother, -, has⟩ := owned.label label owner held
            have same := (compatible other (has encodes)).label label hother hlabel
            subst same
            exact absurd (has encodes) (not_has_of_open vacant)
      have given : table.give label request.owner
          = .ok { table with owners := table.owners.set label request.owner } := by
        rw [give, free]
      rw [grant_of_open vacant, claim_of_label hlabel, given]
      simp only [Label.symbol?, encodes, if_true]
      exact ⟨_, rfl⟩
    · exact absurd ((compatible _ has).type name known ty rfl rfl) differ

/-- Requests leave a table owned, whether all of them are granted or not. -/
theorem grantAll (owned : table.Owned) (requests : List Request) :
    (table.grantAll requests).2.Owned := by
  induction requests generalizing table with
  | nil => exact owned
  | cons request rest ih =>
      rcases hg : table.grant request with ⟨fault | ⟨⟩, after⟩
      · rw [grantAll_cons_of_error hg]
        exact owned.refused hg
      · rw [grantAll_cons_of_ok hg]
        exact ih (owned.grant hg).1

theorem reaches (owned : table.Owned) (h : table.Reaches after) : after.Owned := by
  induction h with
  | refl => exact owned
  | requests _ requests ih => exact ih.grantAll requests

end Owned

end SymbolTable

-- ==================================================== lowerings in use

variable {μ : Type} [Memo μ]

theorem RunsAs.map_symbols {α β : Type} {x : RunWith μ α} {plan : Plan α} (h : RunsAs x plan)
    (f : α → β) {lowering : With μ} (faithful : Faithful lowering) :
    ((f <$> x).run lowering).2.symbols = (lowering.symbols.grantAll plan.requests).2 := by
  rw [run_map, (h lowering faithful).symbols, Plan.run_symbols]

/-- All that a call other than a reset does to the symbols is to put some
requests to them, also if it fails. -/
theorem symbols_after {lowering : With μ} (faithful : Faithful lowering) {call : Call}
    (hcall : call ≠ .reset) :
    ∃ requests, (after lowering call).symbols = (lowering.symbols.grantAll requests).2 := by
  cases call with
  | lower expr => exact ⟨_, (lowered_runsAs expr).map_symbols _ faithful⟩
  | lowerAll exprs => exact ⟨_, (loweredAll_runsAs exprs).map_symbols _ faithful⟩
  | distinct roots =>
      cases roots with
      | some roots => exact ⟨_, (distinctRoots_runsAs roots).map_symbols _ faithful⟩
      | none =>
          refine ⟨[], ?_⟩
          show ((Answer.constraint <$> distinctSeen : RunWith μ Answer).run lowering).2.symbols = _
          rw [run_map, distinctSeen_run]
          rfl
  | reset => exact absurd rfl hcall

theorem owned_after {lowering : With μ} (faithful : Faithful lowering)
    (owned : lowering.symbols.Owned) (call : Call) : (after lowering call).symbols.Owned := by
  by_cases hcall : call = .reset
  · subst hcall
    exact .empty
  · obtain ⟨requests, hsym⟩ := symbols_after faithful hcall
    rw [hsym]
    exact owned.grantAll requests

theorem owned_afterAll (calls : List Call) : (afterAll ({} : With μ) calls).symbols.Owned := by
  suffices h : ∀ lowering : With μ, Faithful lowering → lowering.symbols.Owned →
      (afterAll lowering calls).symbols.Owned from h _ .fresh .empty
  induction calls with
  | nil => exact fun _ _ owned => owned
  | cons call rest ih =>
      exact fun lowering faithful owned =>
        ih _ (faithful_after faithful call) (owned_after faithful owned call)

-- =============================================================== symbols

/-- A solver reads the name of the label in full. -/
def Label.Whole (label : Label) : Prop := '\x00' ∉ label.name.toList

theorem Label.eq_of_symbol {label other : Label} (whole : label.Whole) (whole' : other.Whole)
    (same : label.symbol = other.symbol) : label = other := by
  have read : ∀ name : String, '\x00' ∉ name.toList →
      name.toList.takeWhile (· ≠ '\x00') = name.toList := by
    intro name whole
    rw [List.takeWhile_eq_self_iff]
    intro c hc
    have : c ≠ '\x00' := fun null => whole (null ▸ hc)
    simpa using this
  obtain ⟨name, args, result⟩ := label
  obtain ⟨name', args', result'⟩ := other
  injection same with hname hargs hresult
  dsimp only at hname hargs hresult
  rw [read name whole, read name' whole', String.ofList_toList, String.ofList_toList] at hname
  rw [hname, hargs, hresult]

namespace SymbolTable

/-- The symbol that a table keeps for a request. -/
def Keeps (table : SymbolTable) (symbol : Symbol) : Request → Prop
  | .var name ty => table.vars.find? name = some (ty, .call symbol [])
  | .function signature => table.functions.find? signature = some symbol
  | .array field => table.fields.find? field = some (.call symbol [])

/-- An entry keeps its symbol. -/
theorem Canonical.keeps {table : SymbolTable} (canonical : table.Canonical) {request : Request}
    {symbol : Symbol} (has : table.Has request) (own : request.symbol = .ok symbol) :
    table.Keeps symbol request := by
  have constant := Request.constant_of_symbol own
  cases request with
  | var name ty =>
      obtain ⟨term, found⟩ := has
      cases (canonical.vars _ _ _ found).symm.trans constant
      exact found
  | function signature =>
      obtain ⟨kept, found⟩ := has
      cases (canonical.functions _ _ found).symm.trans own
      exact found
  | array field =>
      obtain ⟨term, found⟩ := has
      cases (canonical.fields _ _ found).symm.trans constant
      exact found

/-- Two entries that have one symbol are the same entry, if a solver reads
their names in full. -/
theorem Owned.eq_of_whole {table : SymbolTable} (owned : table.Owned) {request other : Request}
    {label label' : Label} (has : table.Has request) (has' : table.Has other)
    (hlabel : request.label = .ok label) (hlabel' : other.label = .ok label')
    (whole : label.Whole) (whole' : label'.Whole) (same : label.symbol = label'.symbol) :
    request = other := by
  have labels := Label.eq_of_symbol whole whole' same
  subst labels
  exact owned.eq_of_label has has' hlabel hlabel'

theorem Keeps.has {table : SymbolTable} {request : Request} {symbol : Symbol}
    (keeps : table.Keeps symbol request) : table.Has request := by
  cases request with
  | var | function | array => exact ⟨_, keeps⟩

theorem Keeps.eq {table : SymbolTable} {request : Request} {symbol other : Symbol}
    (keeps : table.Keeps symbol request) (keeps' : table.Keeps other request) :
    symbol = other := by
  cases request with
  | var name ty =>
      rw [Keeps] at keeps keeps'
      rw [keeps] at keeps'
      injection keeps' with same
      injection same with _ same
      injection same with same
      injection same
  | function signature =>
      rw [Keeps] at keeps keeps'
      rw [keeps] at keeps'
      injection keeps'
  | array field =>
      rw [Keeps] at keeps keeps'
      rw [keeps] at keeps'
      injection keeps' with same
      injection same with same
      injection same

end SymbolTable

/-- Whatever a lowering has been used for: the labels given away, of names
that can be encoded, are those of its entries, each with its owner; each
entry has such a label that no other entry has, and keeps the symbol of that
label; the symbols of entries whose names a solver reads in full are
different; and no call but a reset takes back or changes an entry.  A label
of a name that cannot be encoded is given away, too, to an owner that asks
for it. -/
theorem symbols_owned (calls : List Call) :
    let lowering := afterAll ({} : With μ) calls
    let table := lowering.symbols
    (∀ label owner, Text.encodes label.name = true → (table.owners.find? label = some owner ↔
      ∃ request, table.Has request ∧ request.label = .ok label ∧ request.owner = owner)) ∧
    (∀ label owner, table.owners.find? label = some owner →
      ∃ request : Request, request.label = .ok label ∧ request.owner = owner) ∧
    (∀ request, table.Has request → ∃ label, request.label = .ok label ∧
      Text.encodes label.name = true ∧ table.Keeps label.symbol request ∧
      ∀ other, table.Has other → other.label = .ok label → other = request) ∧
    (∀ request other symbol, table.Keeps symbol request → table.Keeps symbol other →
      (∀ label, request.label = .ok label → label.Whole) →
      (∀ label, other.label = .ok label → label.Whole) → request = other) ∧
    ∀ call, call ≠ .reset → table.Grows (after lowering call).symbols := by
  have owned := owned_afterAll (μ := μ) calls
  have faithful := faithful_afterAll (μ := μ) calls
  refine ⟨fun label owner encodes => ⟨fun held => ?_, ?_⟩, fun label owner held => ?_,
    fun request has => ?_, ?_, ?_⟩
  · obtain ⟨request, hlabel, howner, has⟩ := owned.label label owner held
    exact ⟨request, has encodes, hlabel, howner⟩
  · rintro ⟨request, has, hlabel, rfl⟩
    obtain ⟨its, hits, -, held⟩ := owned.entry request has
    rw [hlabel] at hits
    injection hits with same
    subst same
    exact held
  · obtain ⟨request, hlabel, howner, -⟩ := owned.label label owner held
    exact ⟨request, hlabel, howner⟩
  · obtain ⟨label, hlabel, encodes, -⟩ := owned.entry request has
    exact ⟨label, hlabel, encodes,
      faithful.symbols.keeps has (Request.symbol_of_label hlabel encodes),
      fun other has' hother => owned.eq_of_label has' has hother hlabel⟩
  · intro request other symbol keeps keeps' whole whole'
    obtain ⟨label, hlabel, encodes, -⟩ := owned.entry request keeps.has
    obtain ⟨label', hlabel', encodes', -⟩ := owned.entry other keeps'.has
    have hsymbol := keeps.eq (faithful.symbols.keeps keeps.has
      (Request.symbol_of_label hlabel encodes))
    have hsymbol' := keeps'.eq (faithful.symbols.keeps keeps'.has
      (Request.symbol_of_label hlabel' encodes'))
    have same := Label.eq_of_symbol (whole label hlabel) (whole' label' hlabel')
      (hsymbol.symm.trans hsymbol')
    subst same
    exact owned.eq_of_label keeps.has keeps'.has hlabel hlabel'
  · intro call hcall
    obtain ⟨requests, hsym⟩ := symbols_after faithful hcall
    rw [hsym]
    exact (SymbolTable.grantAll_grows faithful.symbols requests).1

/-- Two variables whose names differ only behind a null character are
given different labels, and have one symbol. -/
theorem symbol_shared_behind_null :
    ∃ request other symbol, request.owner ≠ other.owner ∧
      (afterAll ({} : Lowering) [.lower (.var "a\x00b" .int), .lower (.var "a\x00c" .int)]
        ).symbols.Keeps symbol request ∧
      (afterAll ({} : Lowering) [.lower (.var "a\x00b" .int), .lower (.var "a\x00c" .int)]
        ).symbols.Keeps symbol other := by
  refine ⟨.var "a\x00b" .int, .var "a\x00c" .int, ⟨"a", [], .int⟩, by decide, ?_, ?_⟩
  · rfl
  · rfl

end Lowering
end SymbolicHeap
