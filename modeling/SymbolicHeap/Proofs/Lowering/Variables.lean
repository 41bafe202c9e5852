/-
The variables of an expression.

The variables of an expression can be had without lowering it, and the two
ways to them differ.  `Expr.freeVariables` goes through all parts from left
to right.  A lowering leaves out what is written to fields that nobody
reads, and works out what it does not leave out from the bottom of its
chain of writes.

Both go by what the expression names (`Names`), so what is interned is
among the free variables, if not in their order.  Where no field is named
there is no chain to go through, and the two go the same way
(`lower_lists`): they come to the same table.

A name keeps the type of its first occurrence in either table.  So where an
occurrence is left out, a variable may be interned at another type than it
is listed with, and then stands for another symbol
(`free_variables_mislead`).
-/
import SymbolicHeap.Expr.Variables
import SymbolicHeap.Proofs.Lowering.Drawn

namespace SymbolicHeap

namespace Table

variable {κ υ : Type} [DecidableEq κ]

/-- Adds entries one after the other. -/
def addAll (table : Table κ υ) (entries : List (κ × υ)) : Table κ υ :=
  entries.foldl (fun table entry => table.add entry.1 entry.2) table

theorem mem_keys_add {table : Table κ υ} {key other : κ} {value : υ} :
    other ∈ (table.add key value).keys ↔ other ∈ table.keys ∨ other = key := by
  unfold add
  split
  next known =>
    rw [contains_iff_mem_keys] at known
    constructor
    · exact .inl
    · rintro (there | rfl)
      · exact there
      · exact known
  next new =>
    rw [keys_set_of_not_mem value (mt contains_iff_mem_keys.2 new)]
    simp

theorem mem_keys_addAll {table : Table κ υ} {entries : List (κ × υ)} {key : κ} :
    key ∈ (table.addAll entries).keys ↔ key ∈ table.keys ∨ key ∈ entries.map (·.1) := by
  induction entries generalizing table with
  | nil => simp [addAll]
  | cons entry rest ih =>
      show key ∈ ((table.add entry.1 entry.2).addAll rest).keys ↔ _
      rw [ih, mem_keys_add, List.map_cons, List.mem_cons, or_assoc]

theorem mem_entries_add {table : Table κ υ} {key : κ} {value : υ} {entry : κ × υ}
    (h : entry ∈ (table.add key value).entries) : entry ∈ table.entries ∨ entry = (key, value) := by
  unfold add at h
  split at h
  next => exact .inl h
  next => exact (mem_entries_set h).symm

theorem mem_entries_addAll {table : Table κ υ} {entries : List (κ × υ)} {entry : κ × υ}
    (h : entry ∈ (table.addAll entries).entries) : entry ∈ table.entries ∨ entry ∈ entries := by
  induction entries generalizing table with
  | nil => exact .inl h
  | cons first rest ih =>
      have h : entry ∈ ((table.add first.1 first.2).addAll rest).entries := h
      rcases ih h with here | there
      · rcases mem_entries_add here with old | rfl
        · exact .inl old
        · exact .inr List.mem_cons_self
      · exact .inr (List.mem_cons_of_mem _ there)

/-- A table with other values under the same keys. -/
def mapValues {ω : Type} (f : υ → ω) (table : Table κ υ) : Table κ ω :=
  ⟨table.entries.map fun entry => (entry.1, f entry.2)⟩

theorem find?_mapValues {ω : Type} (f : υ → ω) (table : Table κ υ) (key : κ) :
    (table.mapValues f).find? key = (table.find? key).map f := by
  obtain ⟨entries⟩ := table
  unfold find? mapValues
  dsimp only
  induction entries with
  | nil => rfl
  | cons entry rest ih =>
      rw [List.map_cons, lookup, lookup]
      split
      next => rfl
      next => exact ih

/-- A new key is new whatever the values. -/
theorem mapValues_set {ω : Type} (f : υ → ω) {table : Table κ υ} {key : κ} (value : υ)
    (new : table.find? key = none) :
    (table.set key value).mapValues f = (table.mapValues f).add key (f value) := by
  have new' : (table.mapValues f).find? key = none := by
    rw [find?_mapValues, new]
    rfl
  have other : ¬(table.mapValues f).contains key = true := by
    rw [contains, new']
    exact Bool.false_ne_true
  rw [add, if_neg other, mapValues, entries_set_of_find?_eq_none value new, List.map_append]
  exact congrArg Table.mk (entries_set_of_find?_eq_none (f value) new').symm

end Table

namespace Expr

-- ============================================================= occurrences

mutual

/-- The occurrences of variables in an expression, from left to right. -/
def occurrences : Expr → List (String × Ty)
  | var name ty => [(name, ty)]
  | int _ | bool _ | function _ => []
  | binary _ left right => occurrences left ++ occurrences right
  | logical _ operands => occurrencesAll operands
  | unary _ operand => occurrences operand
  | ite condition thenBranch elseBranch =>
      occurrences condition ++ (occurrences thenBranch ++ occurrences elseBranch)
  | call _ args => occurrencesAll args
  | assign base _ value _ => occurrences base ++ occurrences value
  | access base _ _ => occurrences base

def occurrencesAll : List Expr → List (String × Ty)
  | [] => []
  | expr :: rest => occurrences expr ++ occurrencesAll rest

end

/-- No name occurs at two types. -/
def Unambiguous (e : Expr) : Prop :=
  ∀ name ty ty', (name, ty) ∈ e.occurrences → (name, ty') ∈ e.occurrences → ty = ty'

/-- Collecting adds the occurrences one after the other. -/
theorem collectVariables_eq (e : Expr) (met : Table String Ty) :
    collectVariables e met = met.addAll e.occurrences := by
  have append (met : Table String Ty) (first second : List (String × Ty)) :
      met.addAll (first ++ second) = (met.addAll first).addAll second := List.foldl_append
  have all (exprs : List Expr) (met : Table String Ty)
      (each : ∀ e ∈ exprs, ∀ met, collectVariables e met = met.addAll e.occurrences) :
      collectAll exprs met = met.addAll (occurrencesAll exprs) := by
    induction exprs generalizing met with
    | nil => rfl
    | cons e rest ih =>
        rw [List.forall_mem_cons] at each
        rw [collectAll, occurrencesAll, each.1, ih _ each.2, append]
  induction e generalizing met with
  | var | int | bool | function => rfl
  | binary op left right ihLeft ihRight =>
      rw [collectVariables, occurrences, ihLeft, ihRight, append]
  | logical op operands ih => exact all operands met ih
  | unary op operand ih => exact ih met
  | ite condition thenBranch elseBranch ihCondition ihThen ihElse =>
      rw [collectVariables, occurrences, ihCondition, ihThen, ihElse, append, append]
  | call callee args ih => exact all args met ih
  | assign base index value tag ihBase ihValue =>
      rw [collectVariables, occurrences, ihBase, ihValue, append]
  | access base prior field ih => exact ih met

theorem freeVariables_eq (e : Expr) :
    freeVariables [e] = ({} : Table String Ty).addAll e.occurrences :=
  collectVariables_eq e {}

theorem mem_occurrencesAll {exprs : List Expr} {v : String × Ty} :
    v ∈ occurrencesAll exprs ↔ ∃ e ∈ exprs, v ∈ e.occurrences := by
  induction exprs with
  | nil => simp [occurrencesAll]
  | cons e rest ih => simp [occurrencesAll, ih]

/-- What occurs in a part occurs in the whole. -/
theorem mem_occurrences_of_part {e part : Expr} (member : part ∈ e.children) {v : String × Ty}
    (here : v ∈ part.occurrences) : v ∈ e.occurrences := by
  have among : v ∈ occurrencesAll e.children := mem_occurrencesAll.2 ⟨part, member, here⟩
  cases e with
  | var | int | bool | function => cases member
  | logical | call => exact among
  | binary | unary | ite | assign | access =>
      simpa [children, occurrences, occurrencesAll] using among

end Expr

namespace Lowering

open SymbolicHeap.Expr (occurrences occurrencesAll)

theorem Names.occurs {e : Expr} {request : Request} (names : Names e request) :
    ∀ name ty, request = .var name ty → (name, ty) ∈ e.occurrences := by
  induction names with
  | var =>
      intro name ty same
      cases same
      exact List.mem_cons_self
  | function | call | assign | access => exact fun _ _ same => nomatch same
  | part member _ ih =>
      exact fun name ty same => Expr.mem_occurrences_of_part member (ih name ty same)

-- ================================================================ the order

/-- The variable that is asked for, if it is one. -/
def Request.variable? : Request → Option (String × Ty)
  | .var name ty => some (name, ty)
  | _ => none

namespace Plan

variable {α β : Type} {plan : Plan α} {next : α → Plan β} {vs ws : List (String × Ty)}

/-- A plan that comes to something asks for these variables. -/
def Lists (plan : Plan α) (vs : List (String × Ty)) : Prop :=
  ∀ a, plan.outcome = .ok a → plan.requests.filterMap Request.variable? = vs

theorem Lists.pure (a : α) : (pure a : Plan α).Lists [] := fun _ _ => rfl

theorem Lists.ofExcept (outcome : Except Fault α) : (Plan.ofExcept outcome).Lists [] :=
  fun _ _ => rfl

theorem Lists.fault (cause : Fault) : (Plan.ofExcept (.error cause) : Plan α).Lists vs :=
  fun _ h => nomatch h

theorem Lists.var (name : String) (ty : Ty) : (constant (.var name ty)).Lists [(name, ty)] :=
  fun _ _ => rfl

theorem Lists.function (signature : Signature) : (symbol (.function signature)).Lists [] :=
  fun _ _ => rfl

theorem Lists.bind (hx : plan.Lists vs) (hf : ∀ a, (next a).Lists ws) :
    (plan >>= next).Lists (vs ++ ws) := by
  intro b hb
  obtain ⟨a, ha, hb⟩ := outcome_bind_eq_ok.1 hb
  rw [requests_bind ha, List.filterMap_append, hx a ha, hf a b hb]

/-- What comes last may ask for no variable. -/
theorem Lists.bind_none (hx : plan.Lists vs) (hf : ∀ a, (next a).Lists []) :
    (plan >>= next).Lists vs := by
  have both := hx.bind hf
  rw [List.append_nil] at both
  exact both

theorem lowerAll_lists {exprs : List Expr} (h : ∀ e ∈ exprs, (lower e).Lists e.occurrences) :
    (lowerAll exprs).Lists (occurrencesAll exprs) := by
  induction exprs with
  | nil => exact .pure _
  | cons e rest ih =>
      rw [List.forall_mem_cons] at h
      exact h.1.bind fun _ => (ih h.2).bind_none fun _ => .pure _

end Plan

/-- An expression that reads and writes no field. -/
def Fieldless (e : Expr) : Prop := ∀ field, ¬Names e (.array field)

theorem Fieldless.part {e part : Expr} (fieldless : Fieldless e) (member : part ∈ e.children) :
    Fieldless part :=
  fun field names => fieldless field (.part member names)

/-- Where no field is named, all occurrences are asked for in their
order. -/
theorem lower_lists {e : Expr} (fieldless : Fieldless e) :
    (Plan.lower e).Lists e.occurrences ∧ (Plan.identity e).Lists e.occurrences := by
  induction e with
  | var name ty =>
      refine ⟨.var name ty, ?_⟩
      cases ty with
      | object => exact .var name .object
      | _ => exact .fault _
  | int value => exact ⟨.pure _, .fault _⟩
  | bool value => exact ⟨.pure _, .fault _⟩
  | binary op left right ihLeft ihRight =>
      obtain ⟨lowerLeft, identityLeft⟩ := ihLeft (fieldless.part (by simp [Expr.children]))
      obtain ⟨lowerRight, identityRight⟩ := ihRight (fieldless.part (by simp [Expr.children]))
      refine ⟨?_, .fault _⟩
      rw [Plan.lower_binary, occurrences]
      cases binaryRule op left.typeOf.kind with
      | none => exact .fault _
      | some rule =>
          by_cases object : left.typeOf = .object
          · simp only [object, if_true]
            exact identityLeft.bind fun _ => identityRight.bind_none fun _ => .pure _
          · simp only [object, if_false]
            exact lowerLeft.bind fun _ => lowerRight.bind_none fun _ => .pure _
  | logical op operands ih =>
      refine ⟨?_, .fault _⟩
      rw [Plan.lower_logical, occurrences]
      refine (Plan.lowerAll_lists fun e he => ?_).bind_none fun _ => .ofExcept _
      exact (ih e he (fieldless.part he)).1
  | unary op operand ih =>
      refine ⟨?_, .fault _⟩
      rw [Plan.lower_unary, occurrences]
      exact (ih (fieldless.part List.mem_cons_self)).1.bind_none fun _ => .pure _
  | ite condition thenBranch elseBranch ihCondition ihThen ihElse =>
      obtain ⟨hc, -⟩ := ihCondition (fieldless.part (by simp [Expr.children]))
      obtain ⟨ht, hti⟩ := ihThen (fieldless.part (by simp [Expr.children]))
      obtain ⟨he, hei⟩ := ihElse (fieldless.part (by simp [Expr.children]))
      have joined {thenPlan elsePlan : Plan Term} (ht : thenPlan.Lists thenBranch.occurrences)
          (he : elsePlan.Lists elseBranch.occurrences) :=
        hc.bind fun choice => ht.bind fun thenTerm => he.bind_none fun elseTerm =>
          .pure (Term.ite choice thenTerm elseTerm)
      constructor
      · rw [Plan.lower_ite, occurrences]
        by_cases object : thenBranch.typeOf = .object
        · simp only [object, if_true]
          exact joined hti hei
        · by_cases sorted : thenBranch.typeOf.hasSort = true
          · simp only [object, sorted, if_true, if_false]
            exact joined ht he
          · simp only [object, sorted, if_false]
            exact .fault _
      · rw [Plan.identity_ite]
        exact joined hti hei
  | function signature =>
      refine ⟨?_, .fault _⟩
      rw [Plan.lower_function]
      exact (Plan.Lists.function signature).bind_none fun _ => .pure _
  | call callee args ih =>
      refine ⟨?_, .fault _⟩
      rw [Plan.lower_call, occurrences]
      refine (Plan.Lists.function callee).bind fun _ => ?_
      refine (Plan.lowerAll_lists fun e he => ?_).bind_none fun _ => .pure _
      exact (ih e he (fieldless.part he)).1
  | assign base index value tag => exact absurd .assign (fieldless _)
  | access base prior field => exact absurd .access (fieldless field)

theorem lowered_lists {e : Expr} (fieldless : Fieldless e) :
    (Plan.lowered e).Lists e.occurrences := by
  have lower := (lower_lists fieldless).1
  cases e with
  | function signature => exact (Plan.Lists.function signature).bind_none fun _ => .pure _
  | _ => exact lower.bind_none fun _ => .pure _

-- ======================================================= what is interned

namespace SymbolTable

variable {table after : SymbolTable}

/-- The variables that have been interned, with their types. -/
def varTypes (table : SymbolTable) : Table String Ty := table.vars.mapValues (·.1)

theorem varTypes_grant {request : Request} (h : table.grant request = (.ok (), after)) :
    after.varTypes = table.varTypes.addAll request.variable?.toList := by
  cases request with
  | function signature =>
      rw [varTypes, vars_grant (fun _ _ => Request.noConfusion) h]
      rfl
  | array field =>
      rw [varTypes, vars_grant (fun _ _ => Request.noConfusion) h]
      rfl
  | var name ty =>
      show _ = table.varTypes.add name ty
      rcases grant_cases h with ⟨⟨term, found⟩, rfl⟩ | ⟨new, symbol, claimed, hc, rfl⟩
      · have known : after.varTypes.contains name = true := by
          rw [Table.contains, varTypes, Table.find?_mapValues, found]
          rfl
        rw [Table.add, if_pos known]
      · show (claimed.vars.set name _).mapValues _ = _
        rw [(claim_run hc).2.1]
        exact Table.mapValues_set _ _ new

/-- What is interned is what is asked for, a name with the type that it is
asked for first. -/
theorem varTypes_grantAll {requests : List Request}
    (h : table.grantAll requests = (.ok (), after)) :
    after.varTypes = table.varTypes.addAll (requests.filterMap Request.variable?) := by
  induction requests generalizing table with
  | nil =>
      cases h
      rfl
  | cons request rest ih =>
      rcases hg : table.grant request with ⟨fault | ⟨⟩, granted⟩
      · rw [grantAll_cons_of_error hg] at h
        cases h
      · rw [grantAll_cons_of_ok hg] at h
        rw [ih h, varTypes_grant hg]
        cases request with
        | var | function | array => rfl

end SymbolTable

-- ============================================================== the values

/-- A symbol of an interned variable. -/
def Interned (table : SymbolTable) (symbol : Symbol) : Prop :=
  ∃ name ty, table.vars.find? name = some (ty, .call symbol [])

/-- A symbol of a field that an expression reads or writes, or of a
function that it declares. -/
def Declared (e : Expr) (symbol : Symbol) : Prop :=
  (∃ field, Names e (.array field) ∧ (Request.array field).symbol = .ok symbol) ∨
    ∃ signature, Names e (.function signature) ∧ (Request.function signature).symbol = .ok symbol

/-- A symbol of a variable as it is listed among the free variables. -/
def Listed (e : Expr) (symbol : Symbol) : Prop :=
  ∃ name ty, (name, ty) ∈ (Expr.freeVariables [e]).entries ∧
    (Request.var name ty).symbol = .ok symbol

/-- Two interpretations make the same of what something lowered to. -/
def SameValue (I J : Interp) : Lowered → Prop
  | .term t => J.eval t = I.eval t
  | .declaration symbol => J.symbol symbol = I.symbol symbol

theorem sameValue_of_over {P : Symbol → Prop} {found : Lowered} (made : found.Over P)
    {I J : Interp} (agree : I.Agree P J) : SameValue I J found := by
  cases found with
  | term t => exact Term.Over.eval_congr made agree
  | declaration symbol => exact agree.symbol symbol made

section

variable {e : Expr} {found : Lowered} {after : Lowering}
  (translated : (lowered e).run ({} : Lowering) = (.ok found, after))

include translated

/-- A new lowering interns the variables that the plan asks for. -/
theorem varTypes_translated :
    after.symbols.varTypes
      = ({} : Table String Ty).addAll ((Plan.lowered e).requests.filterMap Request.variable?) := by
  obtain ⟨-, granted, -⟩ := (lowered_runsAs e).eq_ok .fresh translated
  exact SymbolTable.varTypes_grantAll granted

/-- Each variable occurs at the type at which it is interned. -/
theorem occurs_of_interned {name : String} {ty : Ty}
    (interned : (name, ty) ∈ after.symbols.varTypes.entries) : (name, ty) ∈ e.occurrences := by
  obtain ⟨outcome, -⟩ := (lowered_runsAs e).eq_ok .fresh translated
  rw [varTypes_translated translated] at interned
  rcases Table.mem_entries_addAll interned with nothing | asked
  · cases nothing
  · obtain ⟨request, among, isVariable⟩ := List.mem_filterMap.1 asked
    cases request with
    | var =>
        cases isVariable
        exact ((lowered_over outcome).1 _ among).occurs _ _ rfl
    | function | array => cases isVariable

theorem interned_or_declared {request : Request} (asked : request ∈ (Plan.lowered e).requests)
    {symbol : Symbol} (same : request.symbol = .ok symbol) :
    Interned after.symbols symbol ∨ Declared e symbol := by
  obtain ⟨outcome, granted, faithful⟩ := (lowered_runsAs e).eq_ok .fresh translated
  have names := (lowered_over outcome).1 request asked
  have has := SymbolTable.has_of_grantAll .empty granted request asked
  cases request with
  | var name ty =>
      obtain ⟨term, known⟩ := has
      have constant := faithful.symbols.vars name ty term known
      rw [Request.constant_of_symbol same] at constant
      cases constant
      exact .inl ⟨name, ty, known⟩
  | function signature => exact .inr (.inr ⟨signature, names, same⟩)
  | array field => exact .inr (.inl ⟨field, names, same⟩)

/-- If no name occurs at two types, all are interned as they are listed. -/
theorem listed_of_interned
    (unambiguous : e.Unambiguous) {symbol : Symbol}
    (interned : Interned after.symbols symbol) : Listed e symbol := by
  obtain ⟨-, -, faithful⟩ := (lowered_runsAs e).eq_ok .fresh translated
  obtain ⟨name, ty, known⟩ := interned
  obtain ⟨kept, own, same⟩ := map_eq_ok.1 (faithful.symbols.vars _ _ _ known)
  have entry : (name, ty) ∈ after.symbols.varTypes.entries :=
    List.mem_map_of_mem (Table.mem_entries_of_find? known)
  have occurs := occurs_of_interned translated entry
  have listed : name ∈ (Expr.freeVariables [e]).keys := by
    rw [Expr.freeVariables_eq, Table.mem_keys_addAll]
    exact .inr (List.mem_map_of_mem occurs)
  obtain ⟨⟨name, ty'⟩, among, rfl⟩ := List.mem_map.1 listed
  have occurs' : (name, ty') ∈ e.occurrences := by
    rw [Expr.freeVariables_eq] at among
    exact (Table.mem_entries_addAll among).resolve_left nofun
  cases unambiguous _ _ _ occurs occurs'
  injection same with head
  injection head with here
  exact ⟨name, ty, among, here ▸ own⟩

end

/-- An expression that a new lowering lowers: every variable that is
interned is listed among the free variables by its name, and what the
expression lowers to is made of the symbols of these variables, of the
fields that it reads or writes and of the functions that it declares.  If
there are no fields, the free variables are the ones interned, with their
types and in their order.  So its value hangs on these symbols only; where
no name occurs at two types, on those of the free variables as listed and
of its fields and functions. -/
theorem free_variables_suffice {e : Expr} {found : Lowered} {after : Lowering}
    (translated : (lowered e).run ({} : Lowering) = (.ok found, after)) :
    (∀ name ∈ after.symbols.vars.keys, name ∈ (Expr.freeVariables [e]).keys) ∧
    (found.Over fun symbol => Interned after.symbols symbol ∨ Declared e symbol) ∧
    (Fieldless e → after.symbols.varTypes = Expr.freeVariables [e]) ∧
    (∀ I J : Interp,
      I.Agree (fun symbol => Interned after.symbols symbol ∨ Declared e symbol) J →
        SameValue I J found) ∧
    (e.Unambiguous → ∀ I J : Interp, I.Agree (fun symbol => Listed e symbol ∨ Declared e symbol) J →
        SameValue I J found) := by
  obtain ⟨outcome, -⟩ := (lowered_runsAs e).eq_ok .fresh translated
  have made := (lowered_drawn _ e).outcome
    (fun _ asked _ => interned_or_declared translated asked) found outcome
  refine ⟨fun name interned => ?_, made, fun fieldless => ?_,
    fun I J => sameValue_of_over made, ?_⟩
  · obtain ⟨⟨_, ty, term⟩, among, rfl⟩ := List.mem_map.1 interned
    have entry : (_, ty) ∈ after.symbols.varTypes.entries := List.mem_map_of_mem among
    rw [Expr.freeVariables_eq, Table.mem_keys_addAll]
    exact .inr (List.mem_map_of_mem (occurs_of_interned translated entry))
  · rw [varTypes_translated translated, lowered_lists fieldless found outcome,
      Expr.freeVariables_eq]
  · intro unambiguous I J agree
    refine sameValue_of_over made (agree.mono fun symbol here => ?_)
    exact here.imp_left (listed_of_interned translated unambiguous)

/-- What is read from an object, and an integer. -/
def reading : Expr :=
  .binary .add (.access (.var "p" .object) none ⟨"T", 0, .int⟩) (.var "x" .int)

theorem free_variables_suffice_reading :
    ∃ (found : Lowered) (after : Lowering),
      (lowered reading).run ({} : Lowering) = (.ok found, after) ∧
      (∀ name ∈ after.symbols.vars.keys, name ∈ ["p", "x"]) ∧
      ∀ I J : Interp, I.Agree (fun symbol => Listed reading symbol ∨ Declared reading symbol) J →
        SameValue I J found := by
  have translates : ((lowered reading).run ({} : Lowering)).1.isOk = true := by decide +kernel
  obtain ⟨found, after, translated⟩ := eq_ok_of_isOk translates
  obtain ⟨named, -, -, -, values⟩ := free_variables_suffice translated
  have listed : (Expr.freeVariables [reading]).keys = ["p", "x"] := by decide +kernel
  rw [listed] at named
  refine ⟨found, after, translated, named, values ?_⟩
  intro name ty ty' here there
  have occurs : reading.occurrences = [("p", .object), ("x", .int)] := rfl
  rw [occurs] at here there
  simp only [List.mem_cons, Prod.mk.injEq, List.not_mem_nil, or_false] at here there
  rcases here with ⟨rfl, rfl⟩ | ⟨rfl, rfl⟩
  · simpa [eq_comm] using there
  · simpa [eq_comm] using there

-- ------------------------------------------------------------ a listed type

/-- A field is read after a write to another one; what was written is a
truth value `x`, and what is added to what is read is an integer `x`. -/
def misleading : Expr :=
  .binary .add
    (.access (.assign (.var "p" .object) 1 (.var "x" .bool) "T") none ⟨"T", 0, .int⟩)
    (.var "x" .int)

/-- The constant of the integer `x`. -/
def integerX : Symbol := .ofName "x" [] .int

/-- The integer `x` is one, and all else is zero or false. -/
def xIsOne : Interp where
  symbol symbol _ := if symbol = integerX then .int 1 else .zero symbol.result
  quotientByZero _ := 0
  remainderByZero _ := 0
  sorted symbol args := by
    by_cases here : symbol = integerX
    · rw [if_pos here, here]
      exact Value.hasSort_int 1
    · rw [if_neg here]
      exact Value.hasSort_zero symbol.result

theorem xIsOne_agree : (default : Interp).Agree (· ≠ integerX) xIsOne :=
  ⟨fun _ other => funext fun _ => if_neg other, rfl, rfl⟩

theorem misleading_declares {symbol : Symbol} (declared : Declared misleading symbol) :
    symbol ≠ integerX := by
  rcases declared with ⟨field, -, same⟩ | ⟨signature, names, -⟩
  · -- a field is an array
    obtain ⟨label, labelled, -, rfl⟩ := Request.label_of_symbol same
    obtain ⟨sort, -, h⟩ := bind_eq_ok.1 labelled
    cases h
    exact fun same => nomatch congrArg Symbol.result same
  · -- and there is no function
    exfalso
    unfold misleading at names
    have nothing {name : String} {ty : Ty} : ¬Names (.var name ty) (.function signature) := by
      intro names
      cases names with
      | part member _ => cases member
    cases names with
    | part member names =>
        simp only [Expr.children, List.mem_cons, List.not_mem_nil, or_false] at member
        rcases member with rfl | rfl
        · cases names with
          | part member names =>
              cases List.mem_singleton.1 member
              cases names with
              | part member names =>
                  simp only [Expr.children, List.mem_cons, List.not_mem_nil, or_false] at member
                  rcases member with rfl | rfl
                  · exact nothing names
                  · exact nothing names
        · exact nothing names

theorem misleading_lists {symbol : Symbol} (listed : Listed misleading symbol) :
    symbol ≠ integerX := by
  obtain ⟨name, ty, among, same⟩ := listed
  have entries : (Expr.freeVariables [misleading]).entries = [("p", .object), ("x", .bool)] := by
    decide +kernel
  rw [entries] at among
  simp only [List.mem_cons, List.not_mem_nil, or_false, Prod.mk.injEq] at among
  rcases among with ⟨rfl, rfl⟩ | ⟨rfl, rfl⟩
  · cases same
    decide +kernel
  · cases same
    decide +kernel

/-- The free variables are listed with the type of the first occurrence,
which need not be one that is lowered.  Two interpretations may agree on
the symbols listed, on fields and on functions, and still differ. -/
theorem free_variables_mislead :
    ∃ (e : Expr) (found : Lowered) (after : Lowering) (I J : Interp),
      (lowered e).run ({} : Lowering) = (.ok found, after) ∧
      I.Agree (fun symbol => Listed e symbol ∨ Declared e symbol) J ∧ ¬SameValue I J found := by
  let array : Symbol := .ofName "T.0" [] (.array .int)
  let identity : Symbol := .ofName "p!id" [] .int
  let read : Term := .select (.call array []) (.call identity [])
  have translates : ((lowered misleading).run ({} : Lowering)).1.toOption
      = some (.term (.binary .add read (.call integerX []))) := by decide +kernel
  rcases translated : (lowered misleading).run ({} : Lowering) with ⟨fault | found, after⟩
  · rw [translated] at translates
    cases translates
  rw [translated] at translates
  cases translates
  refine ⟨misleading, _, after, default, xIsOne, translated,
    xIsOne_agree.mono fun symbol here => here.elim misleading_lists misleading_declares, ?_⟩
  have drawn : read.Over (· ≠ integerX) :=
    .binary .select (.constant (by decide +kernel)) (.constant (by decide +kernel))
  have same : xIsOne.eval read = (default : Interp).eval read := drawn.eval_congr xIsOne_agree
  have one : xIsOne.symbol integerX [] = .int 1 := by simp [xIsOne]
  have zero : (default : Interp).symbol integerX [] = .int 0 := rfl
  intro alike
  have alike : xIsOne.eval (.binary .add read (.call integerX []))
      = (default : Interp).eval (.binary .add read (.call integerX [])) := alike
  rw [Interp.eval_binary, Interp.eval_binary, same, Interp.eval_call, Interp.eval_call,
    List.map_nil, List.map_nil, one, zero] at alike
  injection alike with sums
  exact absurd (Int.add_left_cancel sums) (by decide)

end Lowering

end SymbolicHeap
