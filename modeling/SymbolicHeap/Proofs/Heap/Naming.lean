/-
The names that a heap makes up.

A root that is given no name gets one of its tag and its address, with a
mark in between.  A tag may hold the mark, end in digits or be such a name
itself: the digits of an address hold no mark, so the last mark of a name
is always the one that was put there, and the name tells tag and address
apart again (`generatedName_inj`).

So in a run that names no root, every root has the name of its address
(`Numbered`), no name is ever taken, and no allocation is refused over one
(`generated_roots_apart`).  The identities of the roots have the names as
labels, which are different too; a solver reads them in full unless a tag
holds a null character, and only then two of them can come out as one
constant (`generated_identities_shared_behind_null`).
-/
import SymbolicHeap.Proofs.Heap.History
import SymbolicHeap.Proofs.Lowering.Owner

namespace SymbolicHeap

open Lowering

namespace Heap

-- ================================================================== names

/-- The name made of a tag and an address. -/
def generatedName (tag : String) (address : Nat) : String := tag ++ "#" ++ toString address

theorem toList_generatedName (tag : String) (address : Nat) :
    (generatedName tag address).toList = tag.toList ++ '#' :: Nat.toDigits 10 address := by
  simp [generatedName]

/-- Digits are no marks, nor anything else that is no digit. -/
theorem not_mem_toDigits {c : Char} (hc : c.isDigit = false) (n : Nat) :
    c ∉ Nat.toDigits 10 n := by
  intro hmem
  rw [Nat.isDigit_of_mem_toDigits (by decide) (by decide) hmem] at hc
  cases hc

/-- A name tells its tag and its address. -/
theorem generatedName_inj {tag other : String} {a b : Nat} :
    generatedName tag a = generatedName other b ↔ tag = other ∧ a = b := by
  constructor
  · intro same
    -- read from the end, a name is its digits up to the first mark
    have digits : ∀ (tag : String) (n : Nat),
        (generatedName tag n).toList.reverse.takeWhile (· ≠ '#')
          = (Nat.toDigits 10 n).reverse := by
      intro tag n
      rw [toList_generatedName, List.reverse_append, List.reverse_cons, List.append_assoc,
        List.takeWhile_append_of_pos]
      · simp
      · intro c hc
        have : c ≠ '#' := fun mark =>
          not_mem_toDigits rfl n (mark ▸ List.mem_reverse.1 hc)
        simpa using this
    have last : Nat.toDigits 10 a = Nat.toDigits 10 b := by
      rw [← List.reverse_inj, ← digits tag a, same, digits other b]
    obtain rfl : a = b := calc
      a = Nat.ofDigitChars 10 (Nat.toDigits 10 a) 0 := Nat.ofDigitChars_ten_toDigits.symm
      _ = Nat.ofDigitChars 10 (Nat.toDigits 10 b) 0 := by rw [last]
      _ = b := Nat.ofDigitChars_ten_toDigits
    refine ⟨String.toList_inj.1 ?_, rfl⟩
    have h := congrArg String.toList same
    rw [toList_generatedName, toList_generatedName] at h
    exact List.append_cancel_right h
  · rintro ⟨rfl, rfl⟩
    rfl

/-- The label of an identity is read in full if the tag is. -/
theorem whole_generatedName {tag : String} (whole : '\x00' ∉ tag.toList) (address : Nat) :
    Label.Whole ⟨generatedName tag address ++ "!id", [], .int⟩ := by
  have digits := not_mem_toDigits (c := '\x00') rfl address
  simp [Label.Whole, toList_generatedName, whole, digits]

-- ========================================================== the invariant

/-- Every root has the name of its address and its tag. -/
def Numbered (heap : Heap) : Prop :=
  ∀ ref ∈ heap.refs, ∀ address tag history, ref.target? = some (address, tag) →
    heap.histories.find? address = some history → history.root = generatedName tag address

/-- Roots that are given are given no name. -/
def Action.isUnnamed : Action → Prop
  | .allocate _ _ name => given? name = none
  | _ => True

variable {heap after : Heap} {events : List Event} {cells : Cells} {action : Action}
  {answer : Except Fault Answer}

namespace Numbered

theorem start (id : Nat) : Numbered { id } := nofun

/-- The name of the next address is free. -/
theorem free (numbered : heap.Numbered) (refines : heap.Refines cells)
    (indexed : heap.Indexed events) (tag : String) :
    generatedName tag heap.nextAddress ∉ heap.histories.values.map History.root := by
  intro taken
  obtain ⟨history, hvalue, hroot⟩ := List.mem_map.1 taken
  obtain ⟨⟨address, _⟩, hentry, rfl⟩ := List.mem_map.1 hvalue
  have found := Table.find?_of_mem_entries indexed.addresses hentry
  obtain ⟨ref, issued, haddress⟩ := indexed.handled address _ found
  obtain ⟨other, htarget⟩ := target?_of_address? haddress
  have same := (numbered ref issued address other _ htarget found).symm.trans hroot
  have := refines.fresh address _ found
  rw [(generatedName_inj.1 same).2] at this
  exact Nat.lt_irrefl _ this

theorem allocate_run (numbered : heap.Numbered) (refines : heap.Refines cells)
    (indexed : heap.Indexed events) {ty : Ty} {tag name : Option String} {t : String}
    {place : Nat → Place} (unnamed : given? name = none) (seated : seat? tag ty = some (t, place)) :
    (perform (.allocate ty tag name)).run heap =
      (.ok (.handle ⟨heap.id, heap.refs.length, place heap.nextAddress⟩),
        (heap.rooting (generatedName t heap.nextAddress)).issuing (place heap.nextAddress)) := by
  have named : heap.rootFor t name = generatedName t heap.nextAddress := by
    rw [rootFor, unnamed]
    rfl
  have free := numbered.free refines indexed t
  rw [perform, run_map, Heap.allocate_run, seated]
  dsimp only
  rw [named, if_neg free]
  rfl

/-- A root at the next address has the name of that address. -/
theorem rooting (numbered : heap.Numbered) (refines : heap.Refines cells) {tag : Option String}
    {ty : Ty} {t : String} {place : Nat → Place} (seated : seat? tag ty = some (t, place)) :
    ((heap.rooting (generatedName t heap.nextAddress)).issuing
      (place heap.nextAddress)).Numbered := by
  intro ref issued address other history htarget found
  rcases List.mem_cons.1 issued with rfl | old
  · rw [target?_of_seat? seated] at htarget
    cases htarget
    have root : some history = some { root := generatedName t heap.nextAddress } :=
      found.symm.trans (Table.find?_set_self heap.histories heap.nextAddress _)
    injection root with root
    rw [root]
  · have elsewhere := refines.ne_nextAddress old htarget
    refine numbered ref old address other history htarget ?_
    rw [← found]
    exact (Table.find?_set_of_ne _ _ elsewhere).symm

/-- An access names no root. -/
theorem access (numbered : heap.Numbered) (access : action.isAccess = true)
    (h : (perform action).run heap = (answer, after)) : after.Numbered := by
  have same := (access_slots access h).1
  have change := perform_change h
  generalize action.write? answer = cell at change
  intro ref issued address tag history htarget found
  cases change with
  | quiet untouched =>
      rw [untouched.refs] at issued
      rw [untouched.histories] at found
      exact numbered ref issued address tag history htarget found
  | handle _ known _ hrefs hhist =>
      rw [hhist] at found
      rw [hrefs] at issued
      rcases List.mem_cons.1 issued with rfl | issued
      · obtain ⟨first, hfirst, hplace⟩ := known address (address?_of_target? htarget)
        refine numbered first hfirst address tag history ?_ found
        rw [← htarget, Ref.target?, Ref.target?, hplace]
      · exact numbered ref issued address tag history htarget found
  | root _ _ _ _ _ _ hnext => exact absurd same (Nat.ne_of_gt hnext)
  | write _ _ before _ hrefs hhist =>
      rw [hrefs] at issued
      rw [hhist] at found
      rcases Table.find?_set_eq_some found with ⟨rfl, rfl⟩ | found
      · -- a state more leaves the root alone
        exact (numbered ref issued address tag _ htarget before :)
      · exact numbered ref issued address tag history htarget found

/-- One action that names no root. -/
theorem after_action (numbered : heap.Numbered) (refines : heap.Refines cells)
    (indexed : heap.Indexed events) (unnamed : action.isUnnamed)
    (h : (perform action).run heap = (answer, after)) : after.Numbered := by
  cases action with
  | allocate ty tag name =>
      cases seated : seat? tag ty with
      | some seat =>
          obtain ⟨t, place⟩ := seat
          rw [numbered.allocate_run refines indexed unnamed seated] at h
          cases h
          exact numbered.rooting refines seated
      | none =>
          -- a slot has no address, and what has no place leaves the heap alone
          rw [perform, run_map, Heap.allocate_run, seated] at h
          dsimp only at h
          split at h
          next =>
            cases h
            intro ref issued address other history htarget found
            rcases List.mem_cons.1 issued with rfl | issued
            · cases htarget
            · exact numbered ref issued address other history htarget found
          next =>
            cases h
            exact numbered
  | _ => exact numbered.access rfl h

end Numbered

-- ============================================================== the result

/-- What holds along a run that names no root: roots are numbered, and no
value that has a place on the heap is refused. -/
theorem afterActions_numbered (id : Nat) (actions : List Action)
    (unnamed : ∀ event ∈ Heap.events { id } actions, event.1.isUnnamed) :
    (afterActions { id } actions).Numbered ∧
      ∀ ty tag name answer, (.allocate ty tag name, answer) ∈ Heap.events { id } actions →
        (seat? tag ty).isSome → ∃ ref, answer = .ok (.handle ref) := by
  refine (afterActions_induction
    (motive := fun heap past => (∃ cells, heap.Refines cells) ∧ heap.Indexed past ∧
      ((∀ event ∈ past, Action.isUnnamed event.1) → heap.Numbered ∧
        ∀ ty tag name answer, (.allocate ty tag name, answer) ∈ past →
          (seat? tag ty).isSome → ∃ ref, answer = .ok (.handle ref))) id actions
    ⟨⟨_, Refines.start id⟩, .start id, fun _ => ⟨.start id, fun _ _ _ _ h =>
      absurd h List.not_mem_nil⟩⟩ ?_).2.2 unnamed
  rintro heap after past action answer ⟨⟨cells, refines⟩, indexed, before⟩ h
  refine ⟨⟨_, refines.change (perform_change h)⟩, indexed.after_action refines h, ?_⟩
  intro unnamed
  obtain ⟨old, new⟩ := List.forall_mem_append.1 unnamed
  obtain ⟨numbered, through⟩ := before old
  have unnamed : action.isUnnamed := new _ (List.mem_singleton_self _)
  refine ⟨numbered.after_action refines indexed unnamed h, ?_⟩
  intro ty tag name answer' hmem seats
  rcases List.mem_append.1 hmem with hmem | hmem
  · exact through ty tag name answer' hmem seats
  · cases List.mem_singleton.1 hmem
    obtain ⟨⟨t, place⟩, seated⟩ := Option.isSome_iff_exists.1 seats
    rw [numbered.allocate_run refines indexed unnamed seated] at h
    cases h
    exact ⟨_, rfl⟩

end Heap

/-- The identity of an object is lowered to the constant of its name. -/
theorem Lowering.lowered_object {μ : Type} [Memo μ] (calls : List Call) {name : String}
    {found : Lowered} {lowering : With μ}
    (h : (lowered (.var name .object)).run (afterAll ({} : With μ) calls)
      = (.ok found, lowering)) :
    found = .term (.call (Label.symbol ⟨name ++ "!id", [], .int⟩) []) := by
  obtain ⟨houtcome, -, -⟩ := (lowered_runsAs _).eq_ok (faithful_afterAll calls) h
  rw [Plan.lowered_term fun _ => Expr.noConfusion] at houtcome
  obtain ⟨term, hterm, hfound⟩ := Plan.outcome_bind_eq_ok.1 houtcome
  obtain ⟨label, hlabel, -, rfl⟩ := Request.label_of_constant hterm
  cases hlabel
  injection hfound with hfound
  exact hfound.symm

namespace Heap

/-- In a run that gives no root a name, with whatever tags and types: no
object and no array is refused; every root has the name of its tag and its
address; roots of different addresses have different names; and if no
null character stands in their tags, their identities are different
constants for every lowering. -/
theorem generated_roots_apart {actions : List Action}
    (unnamed : ∀ action ∈ actions, action.isUnnamed) (id : Nat) :
    let heap := afterActions { id } actions
    (∀ ty tag name answer, (.allocate ty tag name, answer) ∈ Heap.events { id } actions →
      (ty = .object ∨ ∃ element, ty = .array element) → ∃ ref, answer = .ok (.handle ref)) ∧
    (∀ ref ∈ heap.refs, ∀ address tag, ref.target? = some (address, tag) →
      ∃ history, heap.histories.find? address = some history ∧
        history.root = generatedName tag address) ∧
    (∀ a b history history', heap.histories.find? a = some history →
      heap.histories.find? b = some history' → a ≠ b → history.root ≠ history'.root) ∧
    ∀ p ∈ heap.refs, ∀ q ∈ heap.refs, ∀ a b tag tag' history history',
      p.target? = some (a, tag) → q.target? = some (b, tag') → a ≠ b →
      heap.histories.find? a = some history → heap.histories.find? b = some history' →
      '\x00' ∉ tag.toList → '\x00' ∉ tag'.toList →
      ∀ (μ : Type) [Memo μ] (calls calls' : List Call) identity identity',
        ((lowered history.rootState).run (afterAll ({} : With μ) calls)).1 = .ok identity →
        ((lowered history'.rootState).run (afterAll ({} : With μ) calls')).1 = .ok identity' →
        identity ≠ identity' := by
  intro heap
  obtain ⟨numbered, through⟩ := afterActions_numbered id actions
    fun event hevent => unnamed _ (action_mem_of_mem_events hevent)
  obtain ⟨shaped, -⟩ := afterActions_wellShaped id actions
  refine ⟨?_, ?_, shaped.roots, ?_⟩
  · rintro ty tag name answer hmem (rfl | ⟨element, rfl⟩)
    · exact through _ tag name answer hmem rfl
    · exact through _ tag name answer hmem rfl
  · intro ref issued address tag htarget
    obtain ⟨history, found, -⟩ := shaped.shared ref issued address (address?_of_target? htarget)
    exact ⟨history, found, numbered ref issued address tag history htarget found⟩
  · intro p hp q hq a b tag tag' history history' htarget htarget' apart found found' whole whole'
      μ _ calls calls' identity identity' h h' same
    have name := numbered p hp a tag history htarget found
    have name' := numbered q hq b tag' history' htarget' found'
    rw [lowered_object calls (Prod.ext h rfl), lowered_object calls' (Prod.ext h' rfl), name,
      name'] at same
    injection same with same
    injection same with same
    injection same with same
    have labels := Label.eq_of_symbol (whole_generatedName whole a)
      (whole_generatedName whole' b) same
    injection labels with labels
    exact apart (generatedName_inj.1 ((String.append_left_inj _).1 labels)).2

/-- A tag that looks like the name made up for another object: the objects
get different names, and different identities. -/
theorem generated_roots_apart_lookalike :
    let heap := afterActions { id := 1 } [.allocate .object (some "T") none,
      .allocate .object (some "T#1") (some ""), .allocate (.array .int) none none]
    ∃ history history' identity identity',
      heap.histories.find? 1 = some history ∧ heap.histories.find? 2 = some history' ∧
      history.root ≠ history'.root ∧
      ((lowered history.rootState).run ({} : Lowering)).1 = .ok identity ∧
      ((lowered history'.rootState).run ({} : Lowering)).1 = .ok identity' ∧
      identity ≠ identity' := by
  intro heap
  have unnamed : ∀ action ∈ [Action.allocate .object (some "T") none,
      .allocate .object (some "T#1") (some ""), .allocate (.array .int) none none],
      action.isUnnamed := by
    simp only [List.forall_mem_cons]
    exact ⟨rfl, rfl, rfl, List.forall_mem_nil _⟩
  obtain ⟨-, -, names, identities⟩ := generated_roots_apart unnamed 1
  refine ⟨⟨"T#1", []⟩, ⟨"T#1#2", []⟩, .term (.call ⟨"T#1!id", [], .int⟩ []),
    .term (.call ⟨"T#1#2!id", [], .int⟩ []), rfl, rfl, ?_, rfl, rfl, ?_⟩
  · exact names 1 2 _ _ rfl rfl (by decide)
  · exact identities ⟨1, 0, .object 1 "T"⟩ (by decide +kernel) ⟨1, 1, .object 2 "T#1"⟩
      (by decide +kernel) 1 2 "T" "T#1" _ _ rfl rfl (by decide) rfl rfl (by decide) (by decide)
      Chains [] [] _ _ rfl rfl

/-- Behind a null character, names are all the same to a solver: two
objects of such a tag have different names and one identity. -/
theorem generated_identities_shared_behind_null :
    let heap := afterActions { id := 1 } [.allocate .object (some "a\x00") none,
      .allocate .object (some "a\x00") none]
    ∃ history history' identity,
      heap.histories.find? 1 = some history ∧ heap.histories.find? 2 = some history' ∧
      history.root ≠ history'.root ∧
      ((lowered history.rootState).run ({} : Lowering)).1 = .ok identity ∧
      ((lowered history'.rootState).run ({} : Lowering)).1 = .ok identity :=
  ⟨⟨"a\x00#1", []⟩, ⟨"a\x00#2", []⟩, .term (.call ⟨"a", [], .int⟩ []), rfl, rfl, by decide, rfl,
    rfl⟩

end Heap

end SymbolicHeap
