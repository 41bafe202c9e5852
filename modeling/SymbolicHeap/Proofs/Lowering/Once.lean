/-
Every write is lowered once.

What a look-up finds is not worked out again, so it is to be shown that a
value that begins to be lowered was never begun before.  The log of a
watched lowering is in step with its memo (`Watched.Settled`): the contents
of the field of a write are known exactly where the value of the write has
been lowered.  So a value that is not known has not ended; it remains to
see that it has not begun either and is still under way.

For this the writes are told apart by their size.  To work out the contents
of a state, only parts of it are looked up (`Builder.Relates`), which are
smaller.  So while the contents of one state are worked out, all that
begins is smaller than it, and all that is under way is at least as large
(`Adds.once`).  A failure leaves values under way for good, and these may
begin again; what has ended is known, failures or not.
-/
import SymbolicHeap.Proofs.Lowering.Watched

namespace SymbolicHeap.Lowering

-- =============================================================== the log

section

variable {ν : Type} {log : List (Event ν)} {write other : Write ν}

/-- Where a value has been lowered, it does not begin again. -/
def Orderly (log : List (Event ν)) : Prop :=
  log.Pairwise fun later earlier => ∀ write, later = .begun write → earlier ≠ .ended write

/-- A value began to be lowered and has not been. -/
def IsOpen (log : List (Event ν)) (write : Write ν) : Prop :=
  .begun write ∈ log ∧ .ended write ∉ log

theorem mem_begun : write ∈ begun log ↔ .begun write ∈ log := by
  unfold begun
  rw [List.mem_filterMap]
  constructor
  · rintro ⟨_ | _, among, same⟩
    · injection same with same
      exact same ▸ among
    · cases same
  · exact fun among => ⟨_, among, rfl⟩

theorem isOpen_cons_begun (h : IsOpen (.begun write :: log) other) :
    other = write ∨ IsOpen log other := by
  obtain ⟨among, unended⟩ := h
  rcases List.mem_cons.1 among with same | among
  · injection same with same
    exact .inl same
  · exact .inr ⟨among, fun ended => unended (List.mem_cons_of_mem _ ended)⟩

theorem isOpen_cons_ended (h : IsOpen (.ended write :: log) other) :
    other ≠ write ∧ IsOpen log other := by
  obtain ⟨among, unended⟩ := h
  rw [List.mem_cons, not_or] at unended
  refine ⟨fun same => unended.1 (same ▸ rfl), ?_, unended.2⟩
  rcases List.mem_cons.1 among with same | among
  · cases same
  · exact among

end

-- ======================================================== log and memo

/-- The contents that a write leaves in the field that it writes to. -/
def Write.key? {ν : Type} (write : Write ν) : Option ChainKey :=
  match write.state with
  | .assign _ index value tag => some (.of ⟨tag, index, value.typeOf⟩ write.state)
  | _ => none

theorem Write.key?_assign {ν : Type} {node : ν} {base value : Expr} {index : Nat} {tag : String}
    {field : Field} (here : field.isAt index tag = true) (fits : value.typeOf = field.ty) :
    (⟨node, .assign base index value tag⟩ : Write ν).key? =
      some (.of field (.assign base index value tag)) := by
  obtain ⟨rfl, rfl⟩ : index = field.index ∧ tag = field.tag := by simpa [Field.isAt] using here
  show some (ChainKey.of ⟨field.tag, field.index, value.typeOf⟩ _) = _
  rw [fits]

theorem Write.state_of_key? {ν : Type} {write : Write ν} {key : ChainKey}
    (own : write.key? = some key) : key.state = write.state := by
  unfold key? at own
  split at own
  · injection own with own
    exact own ▸ rfl
  · cases own

variable {μ : Type} [Memo μ] [Memo.Lasting μ] {α β : Type}

open Memo.Lasting (Knows)

/-- The log is in step with the memo. -/
structure Watched.Settled (watched : Watched μ) : Prop where
  knows_iff : ∀ write key, write.key? = some key →
    (Knows watched.lowering.chains write.node key ↔ .ended write ∈ watched.log)
  orderly : Orderly watched.log

theorem Watched.Settled.fresh : Watched.Settled ({} : Watched μ) where
  knows_iff _ _ _ :=
    ⟨fun knows => absurd knows (Memo.Lasting.not_knows_empty _ _),
      fun ended => absurd ended List.not_mem_nil⟩
  orderly := .nil

/-- What a computation adds to a log, where all that it looks up is smaller
than a bound. -/
structure Adds (bound : Nat) (ok : Bool) (before after : Watched μ) : Prop where
  smaller : ∃ gained, after.log = gained ++ before.log ∧
    ∀ event ∈ gained, sizeOf event.write.state < bound
  settled : before.Settled → after.Settled
  /-- Only a failure leaves something under way. -/
  closed : ok = true → ∀ write, IsOpen after.log write → IsOpen before.log write
  /-- What is under way is out of reach, so nothing begins twice. -/
  once : before.Settled → (∀ write, IsOpen before.log write → bound ≤ sizeOf write.state) →
    (begun before.log).Nodup → (begun after.log).Nodup

namespace Adds

variable {bound : Nat} {ok : Bool} {before middle after : Watched μ}

/-- Where nothing is written down, and no more is known of what is, nothing
is added. -/
theorem of_log (bound : Nat) (ok : Bool) (log : after.log = before.log)
    (knows : ∀ (write : Write (Memo.Node μ)) key, write.key? = some key →
      (Knows after.lowering.chains write.node key ↔
        Knows before.lowering.chains write.node key)) :
    Adds bound ok before after where
  smaller := ⟨[], log, fun _ among => absurd among List.not_mem_nil⟩
  settled settled := ⟨fun write key own => by
    rw [knows write key own, settled.knows_iff write key own, log], log ▸ settled.orderly⟩
  closed _ _ := log ▸ id
  once _ _ := log ▸ id

theorem refl (bound : Nat) (ok : Bool) (watched : Watched μ) : Adds bound ok watched watched :=
  .of_log bound ok rfl fun _ _ _ => Iff.rfl

theorem trans (first : Adds bound true before middle) (second : Adds bound ok middle after) :
    Adds bound ok before after where
  smaller := by
    obtain ⟨gained, hfirst, small⟩ := first.smaller
    obtain ⟨further, hsecond, small'⟩ := second.smaller
    refine ⟨further ++ gained, ?_, List.forall_mem_append.2 ⟨small', small⟩⟩
    rw [hsecond, hfirst, List.append_assoc]
  settled := second.settled ∘ first.settled
  closed fine write := first.closed rfl write ∘ second.closed fine write
  once settled large := second.once (first.settled settled)
    (fun write lasts => large write (first.closed rfl write lasts)) ∘ first.once settled large

theorem fails (adds : Adds bound true before after) : Adds bound false before after :=
  ⟨adds.smaller, adds.settled, nofun, adds.once⟩

theorem mono {larger : Nat} (adds : Adds bound ok before after) (h : bound ≤ larger) :
    Adds larger ok before after where
  smaller := by
    obtain ⟨gained, same, small⟩ := adds.smaller
    exact ⟨gained, same, fun event among => Nat.lt_of_lt_of_le (small event among) h⟩
  settled := adds.settled
  closed := adds.closed
  once settled large :=
    adds.once settled fun write lasts => Nat.le_trans h (large write lasts)

-- -------------------------------------------------------- one value

section

variable {write : Write (Memo.Node μ)} {key : ChainKey}

/-- What is not known has not ended, and what is smaller does not change
that. -/
theorem not_ended (first : Adds (sizeOf write.state) true before middle)
    (own : write.key? = some key) (missing : ¬ Knows before.lowering.chains write.node key)
    (settled : before.Settled) : .ended write ∉ middle.log := by
  obtain ⟨gained, hlog, small⟩ := first.smaller
  rw [hlog, List.mem_append, not_or]
  exact ⟨fun among => absurd (small _ among) (Nat.lt_irrefl _),
    fun ended => missing ((settled.knows_iff _ _ own).2 ended)⟩

/-- A value that is not known begins to be lowered. -/
theorem begins (first : Adds (sizeOf write.state) true before middle)
    (own : write.key? = some key) (missing : ¬ Knows before.lowering.chains write.node key) :
    Adds (sizeOf write.state + 1) false before (middle.noting (.begun write)) where
  smaller := by
    obtain ⟨gained, hlog, small⟩ := first.smaller
    refine ⟨.begun write :: gained, congrArg (_ :: ·) hlog, List.forall_mem_cons.2 ⟨?_, ?_⟩⟩
    · exact Nat.lt_succ_self _
    · exact fun event among => Nat.lt_succ_of_lt (small event among)
  settled settled := by
    have unended := first.not_ended own missing settled
    obtain ⟨knows, orderly⟩ := first.settled settled
    refine ⟨fun other key' own' => (knows other key' own').trans ?_,
      List.pairwise_cons.2 ⟨?_, orderly⟩⟩
    · refine ⟨List.mem_cons_of_mem _, fun among => ?_⟩
      rcases List.mem_cons.1 among with same | among
      · cases same
      · exact among
    · rintro _ among other same rfl
      injection same with same
      exact unended (same ▸ among)
  closed := nofun
  once settled large nodup := by
    refine List.nodup_cons.2 ⟨fun among => ?_,
      first.once settled (fun write lasts => Nat.le_of_succ_le (large write lasts)) nodup⟩
    -- it would be under way already, and too small for that
    have unended := first.not_ended own missing settled
    have lasts := first.closed rfl _ ⟨mem_begun.1 among, unended⟩
    exact absurd (large _ lasts) (Nat.not_succ_le_self _)

/-- The value is lowered, up to its end or a failure. -/
theorem within (first : Adds (sizeOf write.state) true before middle)
    (own : write.key? = some key) (missing : ¬ Knows before.lowering.chains write.node key)
    (value : Adds (sizeOf write.state) ok (middle.noting (.begun write)) after) :
    Adds (sizeOf write.state + 1) false before after := by
  have begins := first.begins own missing
  refine ⟨?_, value.settled ∘ begins.settled, nofun, fun settled large nodup => ?_⟩
  · obtain ⟨gained, hlog, small⟩ := begins.smaller
    obtain ⟨further, hlog', small'⟩ := value.smaller
    refine ⟨further ++ gained, by rw [hlog', hlog, List.append_assoc],
      List.forall_mem_append.2 ⟨fun event among => ?_, small⟩⟩
    exact Nat.lt_succ_of_lt (small' event among)
  · refine value.once (begins.settled settled) (fun other lasts => ?_)
      (begins.once settled large nodup)
    rcases isOpen_cons_begun lasts with rfl | lasts
    · exact Nat.le_refl _
    · exact Nat.le_of_succ_le (large other (first.closed rfl other lasts))

/-- The value has been lowered, and the contents are kept. -/
theorem finish (first : Adds (sizeOf write.state) true before middle)
    (own : write.key? = some key) (missing : ¬ Knows before.lowering.chains write.node key)
    (value : Adds (sizeOf write.state) true (middle.noting (.begun write)) after)
    {last : Watched μ} (log : last.log = .ended write :: after.log)
    (knows : ∀ place other, Knows last.lowering.chains place other ↔
      (place = write.node ∧ other = key) ∨ Knows after.lowering.chains place other) :
    Adds (sizeOf write.state + 1) true before last := by
  have within := first.within own missing value
  refine ⟨?_, fun settled => ?_, fun _ other lasts => ?_, fun settled large nodup => ?_⟩
  · obtain ⟨gained, hlog, small⟩ := within.smaller
    exact ⟨.ended write :: gained, by rw [log, hlog]; rfl,
      List.forall_mem_cons.2 ⟨Nat.lt_succ_self _, small⟩⟩
  · obtain ⟨known, orderly⟩ := within.settled settled
    refine ⟨fun other key' own' => ?_, ?_⟩
    · rw [knows, known other key' own', log, List.mem_cons]
      refine or_congr ⟨?_, ?_⟩ Iff.rfl
      · rintro ⟨here, rfl⟩
        have there : other.state = write.state :=
          (Write.state_of_key? own').symm.trans (Write.state_of_key? own)
        cases other
        cases write
        cases here
        cases there
        rfl
      · intro same
        injection same with same
        subst same
        exact ⟨rfl, Option.some.inj (own'.symm.trans own)⟩
    · rw [log]
      exact List.pairwise_cons.2 ⟨fun _ _ _ same => (nomatch same), orderly⟩
  · obtain ⟨different, lasts⟩ := isOpen_cons_ended (log ▸ lasts)
    exact first.closed rfl other
      ((isOpen_cons_begun (value.closed rfl other lasts)).resolve_left different)
  · rw [log]
    exact within.once settled large nodup

end

end Adds

-- ====================================================== what is looked up

/-- A computation looks up states below a bound only, and what it begins it
ends or fails. -/
def Tidy (bound : Nat) (x : WatchedRun μ α) : Prop :=
  ∀ watched, Adds bound (x.run watched).1.isOk watched (x.run watched).2

namespace Tidy

/-- A step that leaves the memo alone. -/
theorem plain (bound : Nat) {step : RunWith μ α}
    (h : ∀ lowering, (step.run lowering).2.chains = lowering.chains) :
    Tidy bound (Watched.plain step) := by
  intro watched
  refine .of_log _ _ rfl fun write key _ => ?_
  show Knows (step.run watched.lowering).2.chains _ _ ↔ _
  rw [h]

theorem intern (bound : Nat) (step : SymbolTable → Except Fault α × SymbolTable) :
    Tidy bound (Watched.plain (intern step : RunWith μ α)) :=
  plain bound fun _ => rfl

theorem pure (bound : Nat) (a : α) : Tidy bound (pure a : WatchedRun μ α) :=
  fun _ => .refl ..

theorem throw (bound : Nat) (fault : Fault) : Tidy bound (throw fault : WatchedRun μ α) :=
  fun _ => .refl ..

theorem bind {bound : Nat} {x : WatchedRun μ α} {f : α → WatchedRun μ β} (hx : Tidy bound x)
    (hf : ∀ a, Tidy bound (f a)) : Tidy bound (x >>= f) := by
  intro watched
  have first := hx watched
  rw [run_bind]
  rcases hrun : x.run watched with ⟨fault | a, middle⟩ <;> rw [hrun] at first
  · exact first
  · exact first.trans (hf a middle)

theorem mono {bound larger : Nat} {x : WatchedRun μ α} (hx : Tidy bound x) (h : bound ≤ larger) :
    Tidy larger x :=
  fun watched => (hx watched).mono h

end Tidy

section

variable {base value : Expr} {index : Nat} {tag : String} {field : Field}

/-- To look contents up adds nothing. -/
theorem lookUp_adds (bound : Nat) (ok : Bool) (key : ChainKey) (watched : Watched μ) :
    Adds bound ok watched ((Watched.plain (lookUp key)).run watched).2 :=
  .of_log bound ok rfl fun _ _ _ => Memo.Lasting.knows_find

/-- To keep what a state holds in a field that it does not write to adds
nothing. -/
theorem remember_adds (bound : Nat) (ok : Bool) (node : Memo.Node μ) (t : Term)
    (elsewhere : field.isAt index tag = false) (watched : Watched μ) :
    Adds bound ok watched ((Watched.plain (remember node
      (.of field (.assign base index value tag)) t)).run watched).2 := by
  refine .of_log bound ok rfl fun write key own => ?_
  refine Memo.Lasting.knows_keep.trans (or_iff_right ?_)
  rintro ⟨-, rfl⟩
  -- the contents would be those of the field written to
  have here := Write.state_of_key? own
  rcases write with ⟨place, state⟩
  obtain rfl : Expr.assign base index value tag = state := here
  injection own with own
  injection own with own
  rw [← own] at elsewhere
  simp [Field.isAt] at elsewhere

/-- The contents that are missing at a node are worked out and kept there. -/
theorem missing_adds {node : Memo.Node μ} {before : WatchedRun μ (Term × Term)}
    {lowerValue : WatchedRun μ Term}
    (hbefore : Tidy (sizeOf (Expr.assign base index value tag)) before)
    (hvalue : Tidy (sizeOf (Expr.assign base index value tag)) lowerValue)
    {watched : Watched μ} (missing : ¬ Knows watched.lowering.chains node
      (.of field (.assign base index value tag))) :
    let work : WatchedRun μ (Term × Term) := do
      let found ← Builder.written field (field.isAt index tag) value.typeOf before
        (Watched.storing node (.assign base index value tag) lowerValue)
      Watched.plain (remember node (.of field (.assign base index value tag)) found.1)
      return found
    Adds (sizeOf (Expr.assign base index value tag) + 1) (work.run watched).1.isOk watched
      (work.run watched).2 := by
  intro work
  have first := hbefore watched
  simp only [work, Builder.written, bind_assoc]
  rw [run_bind]
  rcases hrun : before.run watched with ⟨fault | ⟨contents, identity⟩, middle⟩ <;>
    rw [hrun] at first
  · exact first.mono (Nat.le_succ _)
  cases here : field.isAt index tag with
  | false =>
      simp only [Bool.false_eq_true, if_false]
      exact (first.mono (Nat.le_succ _)).trans (remember_adds _ true node contents here middle)
  | true =>
      by_cases fits : value.typeOf = field.ty
      · simp only [fits, if_true]
        let write : Write (Memo.Node μ) := ⟨node, .assign base index value tag⟩
        have own : write.key? = some (.of field (.assign base index value tag)) :=
          Write.key?_assign here fits
        have began := hvalue (middle.noting (.begun write))
        rw [bind_assoc, run_bind, Watched.storing_run]
        rcases hrun : lowerValue.run (middle.noting (.begun write)) with ⟨fault | stored, last⟩ <;>
          rw [hrun] at began
        · exact first.within own missing began
        · exact first.finish own missing began rfl fun _ _ => Memo.Lasting.knows_keep
      · simp only [fits, if_true, if_false]
        exact (first.mono (Nat.le_succ _)).fails

/-- The contents that a state sees after a write. -/
theorem contents_assign_tidy (field : Field)
    (hidentity : Tidy (sizeOf (Expr.assign base index value tag))
      (Builder.identity base : WatchedRun μ Term))
    (hbase : Tidy (sizeOf (Expr.assign base index value tag))
      (Builder.contents base field : WatchedRun μ (Term × Term)))
    (hvalue : Tidy (sizeOf (Expr.assign base index value tag))
      (Builder.lower value : WatchedRun μ Term)) :
    Tidy (sizeOf (Expr.assign base index value tag) + 1)
      (Builder.contents (.assign base index value tag) field : WatchedRun μ (Term × Term)) := by
  intro watched
  have looked := lookUp_adds (sizeOf (Expr.assign base index value tag) + 1) true
    (.of field (.assign base index value tag)) watched
  rw [Builder.contents_assign]
  rcases found : (Memo.find (.of field (.assign base index value tag)) watched.lowering.chains).1
    with ⟨node, _ | contents⟩
  · rw [Watched.known_run_of_not_found found]
    refine looked.trans (missing_adds hbase hvalue fun knows => ?_)
    exact Memo.Lasting.not_knows_of_find found (Memo.Lasting.knows_find.1 knows)
  · rw [Watched.known_run_of_found found]
    exact looked.trans (((hidentity.mono (Nat.le_succ _)).bind fun _ => .pure _ _) _)

end

-- ====================================================== whole expressions

theorem relates_tidy :
    Builder.Relates fun bound {α} (x _ : WatchedRun μ α) => Tidy bound x where
  mono le tidy := tidy.mono le
  pure := .pure _
  bind := .bind
  fault := .throw _
  var _ _ := .intern _ _
  function _ := .intern _ _
  initial _ := .intern _ _
  build := .pure _
  bare symbol := .pure _ (Term.call symbol [])
  align := id
  assign field hbase hvalue :=
    contents_assign_tidy field hbase.identity (hbase.contents field) hvalue.lower

theorem perform_tidy {call : Call} (keeps : call ≠ .reset) :
    ∃ bound, Tidy bound (Builder.perform call : WatchedRun μ Answer) :=
  (relates_tidy (μ := μ)).perform (.plain _ fun _ => rfl) keeps

-- ============================================================== all calls

namespace Watched

/-- Whatever calls there were, the log is in step with the memo. -/
theorem Settled.afterAll {watched : Watched μ} (settled : watched.Settled) (calls : List Call) :
    (watched.afterAll calls).Settled := by
  induction calls generalizing watched with
  | nil => exact settled
  | cons call rest ih =>
      refine ih ?_
      by_cases forgets : call = .reset
      · subst forgets
        exact .fresh
      · obtain ⟨_, tidy⟩ := perform_tidy (μ := μ) forgets
        exact (tidy watched).settled settled

/-- Where no call failed, nothing is under way. -/
structure Clean (watched : Watched μ) : Prop where
  settled : watched.Settled
  ended : ∀ write, ¬ IsOpen watched.log write
  once : (begun watched.log).Nodup

theorem Clean.fresh : Clean ({} : Watched μ) where
  settled := .fresh
  ended _ lasts := absurd lasts.1 List.not_mem_nil
  once := .nil

theorem Clean.after {watched : Watched μ} (clean : watched.Clean) {call : Call}
    (fine : ((perform call).run watched.lowering).1.isOk = true) : (watched.after call).Clean := by
  by_cases forgets : call = .reset
  · subst forgets
    exact .fresh
  · obtain ⟨_, tidy⟩ := perform_tidy (μ := μ) forgets
    have adds := tidy watched
    rw [(perform_projects call watched).1, fine] at adds
    exact ⟨adds.settled clean.settled, fun write lasts => clean.ended _ (adds.closed rfl _ lasts),
      adds.once clean.settled (fun write lasts => absurd lasts (clean.ended write)) clean.once⟩

theorem Clean.afterAll {watched : Watched μ} (clean : watched.Clean) {calls : List Call}
    (fine : ∀ entry ∈ transcript watched.lowering calls, entry.1.isOk = true) :
    (watched.afterAll calls).Clean := by
  induction calls generalizing watched with
  | nil => exact clean
  | cons call rest ih =>
      rw [transcript_cons, List.forall_mem_cons] at fine
      refine ih (clean.after fine.1) ?_
      rw [show (watched.after call).lowering = Lowering.after watched.lowering call from
        (perform_projects call watched).2]
      exact fine.2

/-- After a state was lowered, the value that its write stores has been. -/
theorem Settled.ended_of_lower {watched after : Watched μ} (settled : watched.Settled)
    {base value : Expr} {index : Nat} {tag : String} {term : Term}
    (lowers : (Builder.lower (.assign base index value tag) : WatchedRun μ Term).run watched
      = (.ok term, after)) :
    ∃ node, .ended ⟨node, .assign base index value tag⟩ ∈ after.log := by
  let field : Field := ⟨tag, index, value.typeOf⟩
  let key : ChainKey := .of field (.assign base index value tag)
  have settled' : after.Settled := by
    have tidy := (relates_tidy (μ := μ)).relatedAt (.assign base index value tag)
    have adds := tidy.lower watched
    rw [lowers] at adds
    exact adds.settled settled
  rw [Builder.lower_assign, Builder.contents_assign, run_bind_eq_ok] at lowers
  obtain ⟨found, middle, hfound, hterm⟩ := lowers
  cases hterm
  rcases hfind : (Memo.find key watched.lowering.chains).1 with ⟨node, _ | contents⟩
  · rw [known_run_of_not_found hfind, run_bind_eq_ok] at hfound
    obtain ⟨worked, last, -, hkept⟩ := hfound
    cases hkept
    exact ⟨node, (settled'.knows_iff _ key rfl).1 (Memo.Lasting.knows_keep.2 (.inl ⟨rfl, rfl⟩))⟩
  · rw [known_run_of_found hfind, run_bind_eq_ok] at hfound
    obtain ⟨identity, last, hidentity, hkept⟩ := hfound
    cases hkept
    have ended := (settled.knows_iff ⟨node, .assign base index value tag⟩ key rfl).1
      (Memo.Lasting.knows_of_find hfind)
    have adds := ((relates_tidy (μ := μ)).relatedAt base).identity
      ((Watched.plain (lookUp key)).run watched).2
    rw [hidentity] at adds
    obtain ⟨gained, hlog, -⟩ := adds.smaller
    exact ⟨node, hlog ▸ List.mem_append_right gained ended⟩

end Watched

/-- What the log shows of the lowering of writes. -/
structure LoweredOnce (μ : Type) [Memo μ] (calls : List Call) : Prop where
  /-- To watch changes neither what the calls lead to .. -/
  state : (Watched.afterAll ({} : Watched μ) calls).lowering = afterAll ({} : With μ) calls
  /-- .. nor what a next call answers. -/
  answer : ∀ call : Call,
    ((Builder.perform call : WatchedRun μ Answer).run (Watched.afterAll {} calls)).1 =
      ((perform call).run (afterAll ({} : With μ) calls)).1
  /-- A state that is lowered has the value of its write lowered, then or
  before. -/
  lowered : ∀ {base value : Expr} {index : Nat} {tag : String} {term : Term} {after : Watched μ},
    (Builder.lower (.assign base index value tag) : WatchedRun μ Term).run
      (Watched.afterAll {} calls) = (.ok term, after) →
    ∃ node, .ended ⟨node, .assign base index value tag⟩ ∈ after.log
  /-- What has been lowered is not lowered again, also after failures. -/
  again : ∀ {write : Write (Memo.Node μ)} {later earlier : List (Event (Memo.Node μ))},
    (Watched.afterAll ({} : Watched μ) calls).log = later ++ .ended write :: earlier →
    .begun write ∉ later
  /-- As long as no call fails, no value begins to be lowered twice. -/
  once : (∀ entry ∈ transcript ({} : With μ) calls, entry.1.isOk = true) →
    (begun (Watched.afterAll ({} : Watched μ) calls).log).Nodup

/-- Every write is lowered once, by a memo that finds what it kept. -/
theorem loweredOnce (calls : List Call) : LoweredOnce μ calls where
  state := Watched.lowering_afterAll ({} : Watched μ) calls
  answer call := by
    rw [(perform_projects call _).1, Watched.lowering_afterAll]
  lowered := (Watched.Settled.fresh.afterAll calls).ended_of_lower
  again {write later earlier} split among := by
    have orderly := (Watched.Settled.fresh (μ := μ).afterAll calls).orderly
    rw [split] at orderly
    exact (List.pairwise_append.1 orderly).2.2 _ among _ List.mem_cons_self write rfl rfl
  once fine := (Watched.Clean.fresh.afterAll fine).once

/-- Every write is lowered once: by node, whatever nodes the look-ups are
at, and also where equal states are one. -/
theorem writes_lowered_once (node : Nat → Nat) (calls : List Call) :
    LoweredOnce (NodeChains node) calls ∧ LoweredOnce Chains calls :=
  ⟨loweredOnce calls, loweredOnce calls⟩

/-- A read over two writes, the second of which stores one more than the
field held after the first. -/
def incremented : Expr :=
  let field : Field := ⟨"T", 0, .int⟩
  let object := Expr.var "p" .object
  let stored := Expr.assign object 0 (.int 5) "T"
  let sum := Expr.binary .add (.access stored (some object) field) (.int 1)
  .access (.assign stored 0 sum "T") (some stored) field

/-- The first write stands at one node, and is looked up there from the
second write and from the value of that; the second is looked up twice. -/
theorem writes_lowered_once_incremented :
    let node := fun lookUp => if lookUp = 1 ∨ lookUp = 2 then 1 else 2
    let calls := [Call.lower incremented, .lower incremented]
    let log := (Watched.afterAll ({} : Watched (NodeChains node)) calls).log
    let nodes : List Nat := (begun log).map Write.node
    (∀ entry ∈ transcript ({} : With (NodeChains node)) calls, entry.1.isOk = true) ∧
      nodes = [2, 1] ∧ (begun log).Nodup := by
  intro node calls log nodes
  have fine : ∀ entry ∈ transcript ({} : With (NodeChains node)) calls,
      entry.1.isOk = true := by
    decide +kernel
  exact ⟨fine, by decide +kernel, (writes_lowered_once node calls).1.once fine⟩

end SymbolicHeap.Lowering
