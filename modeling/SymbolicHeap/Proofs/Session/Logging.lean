/-
Logging takes no part.

The level of a logger decides which entries are written out, and whether
traces are made at all.  It decides nothing else: two runs of one program
at two levels come to the same answers and the same session, and record
the same entries but for traces (`level_takes_no_part`).  A run at a
higher level records what one at a lower level does and perhaps more, and
either has written out what it recorded up to its own level, entry by
entry.

Two runs are made at two times, and a question need not take as long in
one as in the other.  That shows in when an entry was made and in the
figure that a timer puts into its message, and nowhere else; if the times
are the same, so are the entries.

A line of the log begins with the time of day, so this is about clocks
that the calendar has a place for, also after every wait.
-/
import SymbolicHeap.Proofs.Session.Beside
import SymbolicHeap.Proofs.Session.Stack

namespace SymbolicHeap

-- ============================================================== one entry

/-- An entry with a text and a time in the calendar can be written out. -/
theorem Entry.format_ok {entry : Entry} {text : String} (message : entry.message = .text text)
    (timely : entry.time.timeOfDay.isOk = true) (color : Bool) :
    ∃ line, entry.format color true = .ok line := by
  unfold Entry.format
  rw [message]
  cases htime : entry.time.timeOfDay with
  | error fault =>
      rw [htime] at timely
      cases timely
  | ok time => exact ⟨_, rfl⟩

/-- The text of entries, a line each. -/
def rendering (color : Bool) (entries : List Entry) : Except Entry.Fault String :=
  entries.foldlM (fun text entry => do return text ++ ((← entry.format color true) ++ "\n")) ""

theorem rendering_append {color : Bool} {entries : List Entry} {entry : Entry}
    {text line : String} (h : rendering color entries = .ok text)
    (formatted : entry.format color true = .ok line) :
    rendering color (entries ++ [entry]) = .ok (text ++ (line ++ "\n")) := by
  unfold rendering at h ⊢
  rw [List.foldlM_append, h]
  show List.foldlM (fun (text : String) (entry : Entry) => do
    return text ++ ((← entry.format color true) ++ "\n")) text [entry] = _
  rw [List.foldlM_cons, formatted]
  rfl

/-- Entries that differ at most in their times: in when they were made,
and in the figure of a timer. -/
structure Entry.SameButTime (entry other : Entry) : Prop where
  level : other.level = entry.level
  category : other.category = entry.category
  context : other.context = entry.context
  message : other.message = entry.message ∨
    entry.level = .verbose ∧ ∃ name elapsed elapsed',
      entry.message = .text (Logger.elapsedText name elapsed) ∧
        other.message = .text (Logger.elapsedText name elapsed')

/-- The same, and no difference at all if the times are the same. -/
def Entry.Alike (sameTimes : Prop) (entry other : Entry) : Prop :=
  entry.SameButTime other ∧ (sameTimes → other = entry)

theorem Entry.Alike.filter_untraced {sameTimes : Prop} {entries others : List Entry}
    (h : List.Forall₂ (Entry.Alike sameTimes) entries others) :
    List.Forall₂ (Entry.Alike sameTimes) (entries.filter (·.level ≠ .trace))
      (others.filter (·.level ≠ .trace)) := by
  refine List.rel_filter (fun entry other alike => ?_) h
  show decide (entry.level ≠ .trace) = true ↔ decide (other.level ≠ .trace) = true
  rw [alike.1.level]

/-- Two lists, each with one more entry at its end. -/
theorem forall₂_concat {α β : Type} {R : α → β → Prop} {as : List α} {bs : List β} {a : α} {b : β}
    (h : List.Forall₂ R as bs) (last : R a b) : List.Forall₂ R (as ++ [a]) (bs ++ [b]) :=
  List.rel_append h (.cons last .nil)

namespace Logger

variable {log : Logger}

-- --------------------------------------------------------------- emission

section

variable {entry : Entry} {line : String}

theorem emit_of_le (enabled : entry.level ≤ log.level)
    (formatted : entry.format log.color true = .ok line) :
    log.emit entry = (none, { log with
      entries := log.entries ++ [entry]
      written := log.written ++ (line ++ "\n") }) := by
  unfold emit
  rw [if_pos (show log.isEnabled entry.level = true from decide_eq_true enabled), formatted]
  rfl

theorem emit_of_not_le (disabled : ¬entry.level ≤ log.level) :
    log.emit entry = (none, { log with entries := log.entries ++ [entry] }) := by
  unfold emit
  rw [if_neg (show ¬log.isEnabled entry.level = true from
    fun enabled => disabled (of_decide_eq_true enabled))]

/-- A logger has written out what it recorded up to its level. -/
def Rendered (log : Logger) : Prop :=
  rendering log.color (log.entries.filter fun entry => entry.level ≤ log.level) = .ok log.written

theorem Rendered.emit (rendered : log.Rendered)
    (formatted : entry.format log.color true = .ok line) : (log.emit entry).2.Rendered := by
  by_cases enabled : entry.level ≤ log.level
  · rw [emit_of_le enabled formatted]
    show rendering log.color ((log.entries ++ [entry]).filter fun entry => entry.level ≤ log.level)
      = .ok (log.written ++ (line ++ "\n"))
    rw [List.filter_append, List.filter_cons_of_pos (by simpa using enabled)]
    exact rendering_append rendered formatted
  · rw [emit_of_not_le enabled]
    show rendering log.color ((log.entries ++ [entry]).filter fun entry => entry.level ≤ log.level)
      = .ok log.written
    rw [List.filter_append, List.filter_cons_of_neg (by simpa using enabled), List.filter_nil,
      List.append_nil]
    exact rendered

end

-- ------------------------------------------------------------------ notes

/-- Whether a clock stands at a time of the calendar, now and after each
of the waits to come. -/
def isTimely : Float → List Float → Bool
  | clock, [] => (Instant.fractional clock).timeOfDay.isOk
  | clock, delay :: rest =>
      (Instant.fractional clock).timeOfDay.isOk && isTimely (clock + delay) rest

theorem timeOfDay_isOk {clock : Float} {delays : List Float}
    (timely : isTimely clock delays = true) :
    (Instant.fractional clock).timeOfDay.isOk = true := by
  cases delays with
  | nil => exact timely
  | cons delay rest =>
      rw [isTimely, Bool.and_eq_true] at timely
      exact timely.1

theorem isTimely_wait (timely : isTimely log.clock log.delays = true) :
    isTimely log.wait.clock log.wait.delays = true := by
  unfold wait
  cases hdelays : log.delays with
  | nil =>
      rw [hdelays] at timely
      dsimp only
      rw [hdelays]
      exact timely
  | cons delay rest =>
      rw [hdelays, isTimely, Bool.and_eq_true] at timely
      unfold tick
      dsimp only
      exact timely.2

/-- What a note records. -/
def entryOf (log : Logger) (level : Level) (message : String) (category : Datum)
    (context : List (String × Datum)) : Entry :=
  { level, message, category, time := .fractional log.clock, context }

/-- Notes of one timer, whatever it measured. -/
theorem timed_sameButTime {log other : Logger} (name : String) (category : Datum)
    {elapsed elapsed' : Float} {text text' : String} (htext : text = elapsedText name elapsed)
    (htext' : text' = elapsedText name elapsed') :
    (log.entryOf .verbose text category []).SameButTime
      (other.entryOf .verbose text' category []) :=
  ⟨rfl, rfl, rfl,
    .inr ⟨rfl, name, elapsed, elapsed', congrArg Datum.text htext, congrArg Datum.text htext'⟩⟩

section

variable (level : Level) (message : String) (category : Datum) (context : List (String × Datum))

/-- A note is recorded in any case; all else that it may change is what
has been written. -/
theorem note_eq : ∃ written, log.note level message category context =
    { log with
      entries := log.entries ++ [log.entryOf level message category context]
      written } := by
  show ∃ written, (log.emit (log.entryOf level message category context)).2 = _
  unfold emit
  dsimp only
  split
  next =>
    split
    next => exact ⟨_, rfl⟩
    next => exact ⟨_, rfl⟩
  next => exact ⟨_, rfl⟩

theorem Rendered.note (rendered : log.Rendered) (timely : isTimely log.clock log.delays = true) :
    (log.note level message category context).Rendered := by
  obtain ⟨line, formatted⟩ := Entry.format_ok
    (show (log.entryOf level message category context).message = .text message from rfl)
    (timeOfDay_isOk timely) log.color
  exact rendered.emit formatted

/-- A timer leaves a note of what it measured. -/
theorem stopTimer_eq (name : String) (started : Float) :
    (log.stopTimer name category started).2
      = log.note .verbose (elapsedText name (log.clock - started)) category := rfl

theorem Rendered.wait (rendered : log.Rendered) : log.wait.Rendered := by
  unfold Logger.wait
  cases log.delays with
  | nil => exact rendered
  | cons delay rest => exact rendered

end

-- =============================================================== two logs

/-- The logs of one program at two levels, each with times of its own. -/
structure Parallel (sameTimes : Prop) (color : Bool) (low high : Level) (a b : Logger) : Prop where
  lower : a.level = low
  higher : b.level = high
  leftColor : a.color = color
  rightColor : b.color = color
  clock : sameTimes → b.clock = a.clock
  delays : sameTimes → b.delays = a.delays
  leftTimely : isTimely a.clock a.delays = true
  rightTimely : isTimely b.clock b.delays = true
  counters : b.counters = a.counters
  untraced : List.Forall₂ (Entry.Alike sameTimes) (a.entries.filter (·.level ≠ .trace))
    (b.entries.filter (·.level ≠ .trace))
  more : low ≤ high → ∃ entries, List.Forall₂ (Entry.Alike sameTimes) a.entries entries ∧
    entries.Sublist b.entries
  left : a.Rendered
  right : b.Rendered

namespace Parallel

variable {sameTimes : Prop} {color : Bool} {low high : Level} {a b : Logger}

/-- Notes on both sides that are alike. -/
theorem note_alike (h : Parallel sameTimes color low high a b) {level : Level}
    {message message' : String} {category : Datum} {context : List (String × Datum)}
    (alike : (a.entryOf level message category context).Alike sameTimes
      (b.entryOf level message' category context)) :
    Parallel sameTimes color low high (a.note level message category context)
      (b.note level message' category context) := by
  have left := h.left.note level message category context h.leftTimely
  have right := h.right.note level message' category context h.rightTimely
  obtain ⟨written, hnote⟩ := a.note_eq level message category context
  obtain ⟨written', hnote'⟩ := b.note_eq level message' category context
  rw [hnote] at left ⊢
  rw [hnote'] at right ⊢
  refine { h with untraced := ?_, more := fun le => ?_, left, right }
  · show List.Forall₂ _ (List.filter _ (a.entries ++ [_])) (List.filter _ (b.entries ++ [_]))
    rw [List.filter_append, List.filter_append]
    exact List.rel_append h.untraced (Entry.Alike.filter_untraced (.cons alike .nil))
  · obtain ⟨entries, matched, found⟩ := h.more le
    exact ⟨_, forall₂_concat matched alike, found.append (.refl _)⟩

/-- The same note on both sides. -/
theorem note (h : Parallel sameTimes color low high a b) (level : Level) (message : String)
    (category : Datum) (context : List (String × Datum)) :
    Parallel sameTimes color low high (a.note level message category context)
      (b.note level message category context) := by
  refine h.note_alike ⟨⟨rfl, rfl, rfl, .inl rfl⟩, fun same => ?_⟩
  unfold entryOf
  rw [h.clock same]

/-- A trace that is made on one side only. -/
theorem trace_left (h : Parallel sameTimes color low high a b) (above : ¬low ≤ high)
    (message : String) (category : Datum) (context : List (String × Datum)) :
    Parallel sameTimes color low high (a.note .trace message category context) b := by
  have left := h.left.note .trace message category context h.leftTimely
  obtain ⟨written, hnote⟩ := a.note_eq .trace message category context
  rw [hnote] at left ⊢
  refine { h with untraced := ?_, more := ?_, left, right := h.right }
  · show List.Forall₂ _ (List.filter _ (a.entries ++ [_])) _
    rw [List.filter_append, List.filter_cons_of_neg (by simp [entryOf]), List.filter_nil,
      List.append_nil]
    exact h.untraced
  · exact fun le => absurd le above

theorem trace_right (h : Parallel sameTimes color low high a b) (message : String)
    (category : Datum) (context : List (String × Datum)) :
    Parallel sameTimes color low high a (b.note .trace message category context) := by
  have right := h.right.note .trace message category context h.rightTimely
  obtain ⟨written, hnote⟩ := b.note_eq .trace message category context
  rw [hnote] at right ⊢
  refine { h with untraced := ?_, more := fun le => ?_, left := h.left, right }
  · show List.Forall₂ _ _ (List.filter _ (b.entries ++ [_]))
    rw [List.filter_append, List.filter_cons_of_neg (by simp [entryOf]), List.filter_nil,
      List.append_nil]
    exact h.untraced
  · obtain ⟨entries, matched, found⟩ := h.more le
    exact ⟨entries, matched, found.trans (List.sublist_append_left _ _)⟩

theorem traceIfEnabled (h : Parallel sameTimes color low high a b) (message : Unit → String)
    (category : Datum) (context : List (String × Datum)) :
    Parallel sameTimes color low high (a.traceIfEnabled message category context)
      (b.traceIfEnabled message category context) := by
  unfold Logger.traceIfEnabled
  split
  next traced =>
    split
    next => exact h.note _ _ _ _
    next untraced =>
      refine h.trace_left (fun le => untraced ?_) _ _ _
      rw [isEnabled, decide_eq_true_iff, h.lower] at traced
      rw [isEnabled, decide_eq_true_iff, h.higher]
      exact Int.le_trans traced le
  next =>
    split
    next => exact h.trace_right _ _ _
    next => exact h

theorem count (h : Parallel sameTimes color low high a b) (key : Datum) :
    Parallel sameTimes color low high (a.count key).2 (b.count key).2 := by
  have same : b.counter key = a.counter key := by
    unfold counter
    rw [h.counters]
  unfold Logger.count
  dsimp only
  rw [same, h.counters]
  split
  next => exact { h with counters := rfl, left := h.left, right := h.right }
  next => exact h

/-- A wait need not take the same time on both sides. -/
theorem wait (h : Parallel sameTimes color low high a b) :
    Parallel sameTimes color low high a.wait b.wait := by
  have aside (log : Logger) : log.wait = { log with clock := log.wait.clock, delays := log.wait.delays } := by
    unfold Logger.wait
    cases log.delays with
    | nil => rfl
    | cons delay rest => rfl
  have same (together : sameTimes) : b.wait.clock = a.wait.clock ∧ b.wait.delays = a.wait.delays := by
    unfold Logger.wait
    rw [h.delays together]
    cases a.delays with
    | nil => exact ⟨h.clock together, h.delays together⟩
    | cons delay rest =>
        unfold tick
        dsimp only
        rw [h.clock together]
        exact ⟨rfl, rfl⟩
  have left := h.left.wait
  have right := h.right.wait
  have leftTimely := isTimely_wait h.leftTimely
  have rightTimely := isTimely_wait h.rightTimely
  rw [aside a] at left ⊢
  rw [aside b] at right ⊢
  exact { h with
    clock := fun together => (same together).1
    delays := fun together => (same together).2
    leftTimely, rightTimely, left, right }

/-- Timers that were started at corresponding times. -/
theorem stopTimer {start start' : Logger} (h : Parallel sameTimes color low high a b)
    (started : Parallel sameTimes color low high start start') (name : String) (category : Datum) :
    Parallel sameTimes color low high (a.stopTimer name category start.clock).2
      (b.stopTimer name category start'.clock).2 := by
  rw [stopTimer_eq, stopTimer_eq]
  refine h.note_alike ⟨timed_sameButTime name category rfl rfl, fun same => ?_⟩
  unfold entryOf
  rw [h.clock same, started.clock same]

end Parallel

end Logger

namespace Workspace

-- ================================================================= two runs

/-- Two workspaces that differ in their logs, which are kept at two
levels. -/
def twoLevels (sameTimes : Prop) (color : Bool) (low high : Level) : Bond where
  numbering := .same
  earlier := {}
  outside other dropped other' dropped' := other' = other ∧ dropped' = dropped
  drop heap same := ⟨same.1, by rw [heap.renumber_same, same.2]⟩
  logs := Logger.Parallel sameTimes color low high
  note level message category _ h := h.note level message category []
  trace message category context h := h.traceIfEnabled message category context
  count key h := h.count key
  wait h := h.wait
  stopTimer name category started h := h.stopTimer started name category

variable {engine : Engine} {sameTimes : Prop} {color : Bool} {low high : Level}

theorem onOther_twoLevels (action : Heap.Action) :
    Lockstep (Beside (twoLevels sameTimes color low high)) (Fault.renumber Numbering.same.number)
      (Heap.Answer.renumber Numbering.same.number) (onOther action)
      (onOther (action.renumber Numbering.same.number)) := by
  intro a b h
  obtain ⟨same, dropped⟩ := h.outside
  rw [action.renumber_same]
  refine ⟨?_, { h with outside := ⟨?_, dropped⟩, log := ?_ }⟩
  · show ((Heap.perform action).run b.other).1.mapError Fault.heap
      = renamed _ _ (((Heap.perform action).run a.other).1.mapError Fault.heap)
    rw [same, renamed_self Fault.renumber_same Heap.Answer.renumber_same]
  · show ((Heap.perform action).run b.other).2 = ((Heap.perform action).run a.other).2
    rw [same]
  · show Logger.Parallel sameTimes color low high
      (noteAction ((Heap.perform action).run a.other).2 action
        ((Heap.perform action).run a.other).1 a.log)
      (noteAction ((Heap.perform action).run b.other).2 action
        ((Heap.perform action).run b.other).1 b.log)
    rw [same]
    have parallel : (twoLevels sameTimes color low high).logs a.log b.log := h.log
    exact noteAction_logs _ _ _ parallel

theorem outside_twoLevels (command : Command) : Outside (twoLevels sameTimes color low high) command :=
  fun action _ => onOther_twoLevels action

/-- Sessions that stand side by side under the same numbers, and with
nothing counted before, are the same. -/
theorem Beside.session_eq {a b : Workspace} (h : Beside (twoLevels sameTimes color low high) a b) :
    b.session = a.session := by
  have heap : b.session.heap = a.session.heap := h.heap.eq.trans (Heap.renumber_same _)
  have solver : a.session.solver = b.session.solver := by
    rw [h.solver]
    show Solver.countedFrom {} b.session.solver = b.session.solver
    simp only [Solver.countedFrom, Nat.zero_add]
  show Session.mk b.session.heap b.session.lowering b.session.solver b.session.timeout
    b.session.assumeDistinct = a.session
  rw [heap, h.lowering, ← solver, h.timeout, h.assumeDistinct]

/-- Run at two levels of the log, each in its own time, a program gives
the same answers and refusals and leaves the same workspace but for the
log.  Both logs count the same, and hold the same entries in the same order
except for traces; the one at the higher level holds all entries of the
other.  Of an entry, the times may differ, and what a timer measured; they
do not if the clocks are the same and the waits take as long.  What each
log has written out is what it holds up to its own level. -/
theorem level_takes_no_part (engine : Engine) (timeout : Int) (assumeDistinct color : Bool)
    {clock clock' : Float} {delays delays' : List Float}
    (timely : Logger.isTimely clock delays = true)
    (timely' : Logger.isTimely clock' delays' = true) (low high : Level)
    (commands : List Command) :
    let runAt := fun level clock delays =>
      run engine (fresh timeout assumeDistinct { level, color, clock, delays }) commands
    let lower := (runAt low clock delays).2
    let higher := (runAt high clock' delays').2
    let untraced := fun space : Workspace => space.log.entries.filter (·.level ≠ .trace)
    (runAt high clock' delays').1 = (runAt low clock delays).1 ∧
    higher.session = lower.session ∧ higher.other = lower.other ∧
    higher.dropped = lower.dropped ∧ higher.log.counters = lower.log.counters ∧
    List.Forall₂ Entry.SameButTime (untraced lower) (untraced higher) ∧
    (low ≤ high →
      List.SublistForall₂ Entry.SameButTime lower.log.entries higher.log.entries) ∧
    (clock' = clock → delays' = delays → untraced higher = untraced lower ∧
      (low ≤ high → lower.log.entries.Sublist higher.log.entries)) ∧
    rendering color (lower.log.entries.filter (·.level ≤ low)) = .ok lower.log.written ∧
    rendering color (higher.log.entries.filter (·.level ≤ high)) = .ok higher.log.written := by
  intro runAt lower higher untraced
  have logs : Logger.Parallel (clock' = clock ∧ delays' = delays) color low high
      { level := low, color, clock, delays }
      { level := high, color, clock := clock', delays := delays' } :=
    ⟨rfl, rfl, rfl, rfl, And.left, And.right, timely, timely', rfl, .nil,
      fun _ => ⟨[], .nil, .slnil⟩, rfl, rfl⟩
  have start : Beside (twoLevels (clock' = clock ∧ delays' = delays) color low high)
      (fresh timeout assumeDistinct { level := low, color, clock, delays })
      (fresh timeout assumeDistinct { level := high, color, clock := clock', delays := delays' }) :=
    ⟨.start (Nat.zero_le _), rfl, rfl, rfl, rfl, ⟨rfl, rfl⟩, logs⟩
  obtain ⟨answers, kept⟩ :=
    run_beside engine start commands fun command _ => outside_twoLevels command
  have same : commands.map (Command.renumber Numbering.same.number) = commands :=
    (List.map_congr_left fun command _ => command.renumber_same).trans (List.map_id' _)
  change commands.map (Command.renumber
    (twoLevels (clock' = clock ∧ delays' = delays) color low high).numbering.number)
      = commands at same
  rw [same] at answers kept
  have parallel := kept.log
  refine ⟨?_, kept.session_eq, kept.outside.1, kept.outside.2, parallel.counters,
    parallel.untraced.imp fun _ _ => And.left, fun le => ?_, fun sameClock sameDelays => ?_, ?_, ?_⟩
  · exact answers.trans ((List.map_congr_left fun answer _ =>
      renamed_self Fault.renumber_same Answer.renumber_same answer).trans (List.map_id' _))
  · obtain ⟨entries, matched, found⟩ := parallel.more le
    exact List.sublistForall₂_iff.2 ⟨entries, matched.imp fun _ _ => And.left, found⟩
  · have equal {entries others : List Entry}
        (h : List.Forall₂ (Entry.Alike (clock' = clock ∧ delays' = delays)) entries others) :
        others = entries := by
      have eqs : List.Forall₂ Eq entries others :=
        h.imp fun _ _ alike => (alike.2 ⟨sameClock, sameDelays⟩).symm
      rw [List.forall₂_eq_eq_eq] at eqs
      exact eqs.symm
    refine ⟨equal parallel.untraced, fun le => ?_⟩
    obtain ⟨entries, matched, found⟩ := parallel.more le
    rw [equal matched] at found
    exact found
  · have rendered := parallel.left
    rw [Logger.Rendered, parallel.leftColor, parallel.lower] at rendered
    exact rendered
  · have rendered := parallel.right
    rw [Logger.Rendered, parallel.rightColor, parallel.higher] at rendered
    exact rendered

/-- An allocation, which is traced, and a question without an answer, which
is noted and takes its time. -/
def tracedProgram : List Command :=
  [.heap (.allocate .object (some "T") (some "o")), .check [.var "x" .bool]]

theorem level_takes_no_part_traced :
    let runAt := fun level clock delays =>
      run undecided (fresh 0 false { level, color := false, clock, delays }) tracedProgram
    Logger.isTimely 0 [0.25] = true ∧ Logger.isTimely 60 [1.5] = true ∧
    (runAt .trace 60 [1.5]).1 = (runAt .quiet 0 [0.25]).1 ∧
    List.SublistForall₂ Entry.SameButTime (runAt .quiet 0 [0.25]).2.log.entries
      (runAt .trace 60 [1.5]).2.log.entries ∧
    rendering false ((runAt .trace 60 [1.5]).2.log.entries.filter (·.level ≤ .trace))
      = .ok (runAt .trace 60 [1.5]).2.log.written := by
  have timely : Logger.isTimely 0 [0.25] = true := by decide +kernel
  have timely' : Logger.isTimely 60 [1.5] = true := by decide +kernel
  obtain ⟨answers, -, -, -, -, -, more, -, -, written⟩ :=
    level_takes_no_part undecided 0 false false timely timely' .quiet .trace tracedProgram
  exact ⟨timely, timely', answers, more (by decide), written⟩

end Workspace

end SymbolicHeap
