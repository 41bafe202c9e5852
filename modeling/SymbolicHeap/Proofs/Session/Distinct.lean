/-
The axiom that objects are different.

The axiom is made from roots, where roots of one name count once.  It
holds under the interpretations that tell differently named roots apart
(`distinct_sound`), no matter how often a root is given and in which
order.
-/
import Mathlib.Data.List.Nodup
import Mathlib.Data.Set.Finite.Basic
import SymbolicHeap.Proofs.Semantics.Lowering
import SymbolicHeap.Proofs.Semantics.Symbols

namespace SymbolicHeap

section

variable {σ : Type} [Named σ]

/-- Differently named objects are different. -/
def Interp.Separates (I : Interp σ) (names : List String) : Prop :=
  ∀ x ∈ names, ∀ y ∈ names, x ≠ y → I.var x .object ≠ I.var y .object

/-- Only which names there are matters. -/
theorem Interp.separates_congr {I : Interp σ} {names others : List String}
    (same : ∀ name, name ∈ names ↔ name ∈ others) : I.Separates names ↔ I.Separates others := by
  unfold Separates
  simp only [same]

theorem Interp.Separates.mono {I : Interp σ} {names others : List String} (h : I.Separates others)
    (fewer : names ⊆ others) : I.Separates names :=
  fun x hx y hy => h x (fewer hx) y (fewer hy)

/-- Where no name comes twice, the identities are pairwise different. -/
theorem Interp.nodup_identities {I : Interp σ} {names : List String} (h : names.Nodup) :
    (names.map fun name => I.var name .object).Nodup ↔ I.Separates names := by
  rw [List.nodup_map_iff_inj_on h]
  constructor
  · exact fun inj x hx y hy differ same => differ (inj x hx y hy same)
  · intro apart x hx y hy same
    by_cases differ : x = y
    · exact differ
    · exact absurd same (apart x hx y hy differ)

end

-- ====================================================== more told apart

/-- The symbol of the identity of an object. -/
def identitySymbol (name : String) : Symbol := .ofName (name ++ "!id") [] .int

namespace Interp

/-- An interpretation with another integer for the identity of an
object. -/
def withIdentity (I : Interp) (name : String) (n : Int) : Interp where
  symbol symbol args := if symbol = identitySymbol name then .int n else I.symbol symbol args
  quotientByZero := I.quotientByZero
  remainderByZero := I.remainderByZero
  sorted symbol args := by
    by_cases here : symbol = identitySymbol name
    · rw [if_pos here, here]
      exact Value.hasSort_int n
    · rw [if_neg here]
      exact I.sorted symbol args

variable (I : Interp)

theorem withIdentity_agree (name : String) (n : Int) :
    I.Agree (· ≠ identitySymbol name) (I.withIdentity name n) := by
  refine ⟨fun symbol there => funext fun args => ?_, rfl, rfl⟩
  exact if_neg there

theorem withIdentity_self (name : String) (n : Int) :
    (I.withIdentity name n).var name .object = .int n :=
  if_pos rfl

theorem withIdentity_of_ne {name other : String}
    (differ : identitySymbol other ≠ identitySymbol name) (n : Int) :
    (I.withIdentity name n).var other .object = I.var other .object :=
  if_neg differ

/-- An integer that is the identity of none of the given objects. -/
theorem exists_fresh (names : List String) :
    ∃ n : Int, ∀ name ∈ names, I.var name .object ≠ .int n := by
  obtain ⟨n, hn⟩ := Infinite.exists_notMem_finset
    (names.map fun name => (I.var name .object).toInt).toFinset
  refine ⟨n, fun name hname same => hn ?_⟩
  rw [List.mem_toFinset, List.mem_map]
  exact ⟨name, hname, congrArg Value.toInt same⟩

variable {I}

/-- One more object is told apart by giving it an identity that none of
the others has. -/
theorem exists_separates_cons {names : List String} (apart : I.Separates names) {name : String}
    (new : name ∉ names)
    (differ : ∀ other ∈ names, identitySymbol other ≠ identitySymbol name) :
    ∃ n, (I.withIdentity name n).Separates (name :: names) := by
  obtain ⟨n, fresh⟩ := I.exists_fresh names
  have kept : ∀ other ∈ names, (I.withIdentity name n).var other .object = I.var other .object :=
    fun other hother => I.withIdentity_of_ne (differ other hother) n
  refine ⟨n, fun x hx y hy different => ?_⟩
  rcases List.mem_cons.1 hx with rfl | knownX
  · rcases List.mem_cons.1 hy with rfl | knownY
    · exact absurd rfl different
    · rw [I.withIdentity_self, kept y knownY]
      exact (fresh y knownY).symm
  · rcases List.mem_cons.1 hy with rfl | knownY
    · rw [I.withIdentity_self, kept x knownX]
      exact fresh x knownX
    · rw [kept x knownX, kept y knownY]
      exact apart x knownX y knownY different

/-- Objects with symbols of their own can be told apart beside those that
are, with no change to any other symbol. -/
theorem exists_separates {known : List String} (apart : I.Separates known) (new : List String)
    (differ : ∀ x ∈ new, ∀ y ∈ new ++ known, y ≠ x → identitySymbol y ≠ identitySymbol x) :
    ∃ J : Interp, J.Separates (new ++ known) ∧
      I.Agree (fun symbol => ∀ x ∈ new, symbol ≠ identitySymbol x) J := by
  induction new with
  | nil => exact ⟨I, apart, .refl _ I⟩
  | cons name rest ih =>
      rw [List.forall_mem_cons] at differ
      obtain ⟨J, hJ, agree⟩ := ih fun x hx y hy =>
        differ.2 x hx y (List.mem_cons_of_mem _ hy)
      have agree : I.Agree (fun symbol => ∀ x ∈ name :: rest, symbol ≠ identitySymbol x) J :=
        agree.mono fun symbol there x hx => there x (List.mem_cons_of_mem _ hx)
      by_cases known' : name ∈ rest ++ known
      · refine ⟨J, hJ.mono ?_, agree⟩
        exact List.cons_subset.2 ⟨known', List.Subset.refl _⟩
      · have apart' : ∀ other ∈ rest ++ known, identitySymbol other ≠ identitySymbol name := by
          intro other hother
          refine differ.1 other (List.mem_cons_of_mem _ hother) ?_
          rintro rfl
          exact known' hother
        obtain ⟨n, hn⟩ := exists_separates_cons hJ known' apart'
        refine ⟨_, hn, agree.trans ((J.withIdentity_agree name n).mono ?_)⟩
        exact fun symbol there => there name List.mem_cons_self

end Interp

namespace Lowering

-- ======================================================== the objects seen

namespace SymbolTable

/-- The names of the objects that a table knows. -/
def objects (table : SymbolTable) : List String := table.identities.map (·.1)

theorem mem_objects {table : SymbolTable} {name : String} :
    name ∈ table.objects ↔ ∃ term, (name, .object, term) ∈ table.vars.entries := by
  simp [objects, identities]

/-- Asking for an object makes its name known, asking for anything else
none. -/
theorem objects_grant {table after : SymbolTable} {request : Request}
    (h : table.grant request = (.ok (), after)) (name : String) :
    name ∈ after.objects ↔ name ∈ table.objects ∨ request = .var name .object := by
  cases request with
  | function signature =>
      rw [mem_objects, mem_objects, vars_grant (fun _ _ => Request.noConfusion) h]
      simp
  | array field =>
      rw [mem_objects, mem_objects, vars_grant (fun _ _ => Request.noConfusion) h]
      simp
  | var asked ty =>
      rcases grant_cases h with ⟨⟨term, found⟩, rfl⟩ | ⟨new, symbol, claimed, hc, rfl⟩
      · refine ⟨.inl, ?_⟩
        rintro (hname | hname)
        · exact hname
        · cases hname
          exact mem_objects.2 ⟨_, Table.mem_entries_of_find? found⟩
      · rw [mem_objects, mem_objects]
        show (∃ term, _ ∈ (claimed.vars.set asked _).entries) ↔ _
        rw [(claim_run hc).2.1, Table.entries_set_of_find?_eq_none _ new]
        simp [exists_or, eq_comm]

/-- The objects known after a number of requests are those known before,
and those asked for. -/
theorem objects_grantAll {table after : SymbolTable} {requests : List Request}
    (h : table.grantAll requests = (.ok (), after)) (name : String) :
    name ∈ after.objects ↔ name ∈ table.objects ∨ .var name .object ∈ requests := by
  induction requests generalizing table with
  | nil =>
      cases h
      simp
  | cons request rest ih =>
      rcases hg : table.grant request with ⟨fault | ⟨⟩, granted⟩
      · rw [grantAll_cons_of_error hg] at h
        cases h
      · rw [grantAll_cons_of_ok hg] at h
        rw [ih h, objects_grant hg, List.mem_cons, or_assoc, eq_comm (a := request)]

/-- No object is forgotten, whether the requests are granted or not. -/
theorem objects_subset_grantAll (table : SymbolTable) (requests : List Request) :
    table.objects ⊆ (table.grantAll requests).2.objects := by
  induction requests generalizing table with
  | nil => exact List.Subset.refl _
  | cons request rest ih =>
      rcases hg : table.grant request with ⟨fault | ⟨⟩, granted⟩
      · rw [grantAll_cons_of_error hg, objects, objects, identities, identities,
          (grant_refused hg).1]
        exact List.Subset.refl _
      · rw [grantAll_cons_of_ok hg]
        exact List.Subset.trans (fun name known => (objects_grant hg name).2 (.inl known))
          (ih granted)

theorem Reaches.objects {table after : SymbolTable} (h : table.Reaches after) :
    table.objects ⊆ after.objects := by
  induction h with
  | refl => exact List.Subset.refl _
  | requests _ requests ih => exact List.Subset.trans ih (objects_subset_grantAll _ requests)

theorem mem_objects_of_has {table : SymbolTable} {name : String}
    (has : table.Has (.var name .object)) : name ∈ table.objects := by
  obtain ⟨term, found⟩ := has
  exact mem_objects.2 ⟨term, Table.mem_entries_of_find? found⟩

end SymbolTable

-- =============================================================== the roots

/-- The roots of the given names. -/
def rootsOf (names : List String) : List Expr :=
  names.map fun name => .var name .object

/-- The requests for the identities of the given names. -/
def identityRequests (names : List String) : List Request :=
  names.map fun name => .var name .object

theorem mem_identityRequests {names : List String} {name : String} :
    .var name .object ∈ identityRequests names ↔ name ∈ names := by
  simp [identityRequests]

/-- The identities of the given names, each name once. -/
structure Identities (table : Table String Term) (names : List String) : Prop where
  once : table.keys.Nodup
  names : ∀ name, name ∈ table.keys ↔ name ∈ names
  terms : ∀ entry ∈ table.entries, (Request.var entry.1 .object).constant = .ok entry.2

theorem Identities.empty : Identities {} [] where
  once := List.nodup_nil
  names _ := Iff.rfl
  terms _ h := by cases h

theorem Identities.set {table : Table String Term} {names : List String} {name : String}
    {term : Term} (h : Identities table names)
    (hterm : (Request.var name .object).constant = .ok term) :
    Identities (table.set name term) (names ++ [name]) := by
  have hterms : ∀ entry ∈ (table.set name term).entries,
      (Request.var entry.1 .object).constant = .ok entry.2 := by
    intro entry hentry
    rcases Table.mem_entries_set hentry with rfl | hentry
    · exact hterm
    · exact h.terms entry hentry
  by_cases known : name ∈ table.keys
  · refine ⟨?_, fun other => ?_, hterms⟩
    · rw [Table.keys_set_of_mem term known]
      exact h.once
    · rw [Table.keys_set_of_mem term known, h.names, List.mem_append, List.mem_singleton]
      constructor
      · exact .inl
      · rintro (hother | rfl)
        · exact hother
        · exact (h.names _).1 known
  · refine ⟨?_, fun other => ?_, hterms⟩
    · rw [Table.keys_set_of_not_mem term known]
      refine List.nodup_append.2 ⟨h.once, by simp, ?_⟩
      intro a ha b hb same
      rw [same, List.mem_singleton.1 hb] at ha
      exact known ha
    · rw [Table.keys_set_of_not_mem term known, List.mem_append, List.mem_append, h.names]

/-- The identities of roots are asked for in order, and kept by name. -/
theorem rootTerms_sound {names seen : List String} {table found : Table String Term}
    (h : Identities table seen)
    (hout : (Plan.rootTerms (rootsOf names) table).outcome = .ok found) :
    Identities found (seen ++ names) ∧
      (Plan.rootTerms (rootsOf names) table).requests = identityRequests names := by
  induction names generalizing seen table with
  | nil =>
      injection hout with hout
      subst hout
      exact ⟨by rw [List.append_nil]; exact h, rfl⟩
  | cons name rest ih =>
      have first : Plan.rootTerms (rootsOf (name :: rest)) table
          = Plan.constant (.var name .object) >>= fun term =>
              Plan.rootTerms (rootsOf rest) (table.set name term) := rfl
      rw [first] at hout ⊢
      obtain ⟨term, hterm, hrest⟩ := Plan.outcome_bind_eq_ok.1 hout
      obtain ⟨hids, hrequests⟩ := ih (h.set hterm) hrest
      rw [List.append_assoc, List.singleton_append] at hids
      rw [Plan.requests_bind hterm, hrequests]
      exact ⟨hids, rfl⟩

-- =============================================================== the axiom

/-- Integers have one sort. -/
theorem commonSort_of_int {terms : List Term} (h : ∀ t ∈ terms, t.srt = .int) :
    commonSort terms = .ok terms := by
  have hsorts : ∀ s ∈ terms.map Term.srt, s = .int := by
    intro s hs
    obtain ⟨t, ht, rfl⟩ := List.mem_map.1 hs
    exact h t ht
  have hhead : (terms.map Term.srt).headD .int = .int := by
    cases terms with
    | nil => rfl
    | cons first rest => exact h first List.mem_cons_self
  unfold commonSort
  refine if_pos ?_
  rw [hhead]
  exact hsorts

/-- Integers all of which differ. -/
theorem allDistinct_of_int {terms : List Term} (h : ∀ t ∈ terms, t.sort? = some .int)
    {d : Term} (hd : allDistinct terms = .ok d) :
    d.sort? = some .bool ∧ ∀ I : Interp, I.eval d = .bool true ↔ (terms.map I.eval).Nodup := by
  unfold allDistinct at hd
  split at hd
  next few =>
    injection hd with hd
    subst hd
    refine ⟨Term.sort?_truth _, fun I => ?_⟩
    rw [I.eval_truth]
    refine ⟨fun _ => ?_, fun _ => rfl⟩
    match terms, few with
    | [], _ => exact List.nodup_nil
    | [t], _ => exact List.nodup_cons.2 ⟨List.not_mem_nil, List.nodup_nil⟩
  next many =>
    rw [commonSort_of_int fun t ht => Term.srt_eq (h t ht)] at hd
    injection hd with hd
    subst hd
    have nonempty : terms ≠ [] := by
      intro none
      rw [none] at many
      exact many (by simp)
    refine ⟨Term.sort?_distinct nonempty h, fun I => ?_⟩
    rw [I.eval_distinct]
    constructor
    · intro htrue
      injection htrue with htrue
      exact Value.allDiffer_eq_true.1 htrue
    · intro differ
      rw [Value.allDiffer_eq_true.2 differ]

/-- The axiom asks for the identity of every root, and holds where they
are told apart. -/
theorem distinct_sound {names : List String} {d : Term}
    (h : (Plan.distinctRoots (rootsOf names)).outcome = .ok d) :
    (Plan.distinctRoots (rootsOf names)).requests = identityRequests names ∧
      d.sort? = some .bool ∧ ∀ I : Interp, I.eval d = .bool true ↔ I.Separates names := by
  rw [Plan.distinctRoots_eq] at h ⊢
  obtain ⟨table, htable, hd⟩ := Plan.outcome_bind_eq_ok.1 h
  obtain ⟨⟨once, hnames, hterms⟩, hrequests⟩ := rootTerms_sound .empty htable
  have means : ∀ entry ∈ table.entries, entry.2.Means .int fun I => I.var entry.1 .object :=
    fun entry hentry => constant_root_means (hterms entry hentry)
  have hint : ∀ t ∈ table.values, t.sort? = some .int := by
    intro t ht
    obtain ⟨entry, hentry, rfl⟩ := List.mem_map.1 ht
    exact (means entry hentry).sort
  obtain ⟨hsort, hvalue⟩ := allDistinct_of_int hint hd
  refine ⟨?_, hsort, fun I => ?_⟩
  · rw [Plan.requests_bind htable, hrequests]
    exact List.append_nil _
  · have hvalues : table.values.map I.eval = table.keys.map fun name => I.var name .object := by
      rw [Table.values, Table.keys, List.map_map, List.map_map]
      exact List.map_congr_left fun entry hentry => (means entry hentry).value I
    rw [hvalue, hvalues, Interp.nodup_identities once]
    exact Interp.separates_congr hnames

end Lowering

end SymbolicHeap
