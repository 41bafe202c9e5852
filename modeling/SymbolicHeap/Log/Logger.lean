/-
Loggers.

A logger records every entry and writes out those up to its level, one
line each; warnings and errors are written always and recorded never.
What it has written is part of its value, as is its clock.

The clock counts seconds in floating point, and what its rounding loses
shows in all later times: ten tenths of a second are less than a second.
How much time passes while someone else works is not up to the logger; it
is given beforehand, in the order in which it passes.
An entry whose time has no place in the calendar, or whose message is not
a text, is recorded, but cannot be written out.

Counters have keys and values of loose types: what is counted by halves
goes on as a float.
-/
import SymbolicHeap.Log.Entry

namespace SymbolicHeap

/-- What a logger writes to: something that tells whether it is a
terminal, or something that does not. -/
inductive Sink
  | answering (terminal : Bool)
  | silent
deriving DecidableEq

/-- Whether colours may be used. -/
def Sink.supportsColor : Sink → Bool
  | answering terminal => terminal
  | silent => false

structure Logger where
  level : Level := .normal
  color : Bool := false
  clock : Float := 0
  /-- How long the next waits take, in seconds; all others take no time. -/
  delays : List Float := []
  /-- The recorded entries, oldest first. -/
  entries : List Entry := []
  /-- The counters, each with its value, latest change first. -/
  counters : List (Datum × Datum) := []
  /-- All that has been written out. -/
  written : String := ""

instance : Inhabited Logger := ⟨{}⟩

namespace Logger

/-- A logger of a level on a sink; colours are used if they are wanted and
the sink supports them. -/
def on (sink : Sink) (level : Level) (color : Bool) : Logger :=
  { level, color := color && sink.supportsColor }

/-- Whether entries of a level are written out. -/
def isEnabled (logger : Logger) (level : Level) : Bool :=
  level ≤ logger.level

def write (logger : Logger) (text : String) : Logger :=
  { logger with written := logger.written ++ text }

/-- Records an entry and writes it out if its level is enabled; tells
why that was not possible. -/
def emit (logger : Logger) (entry : Entry) : Option Entry.Fault × Logger :=
  let recorded := { logger with entries := logger.entries ++ [entry] }
  if logger.isEnabled entry.level then
    match entry.format logger.color true with
    | .ok line => (none, recorded.write (line ++ "\n"))
    | .error fault => (some fault, recorded)
  else (none, recorded)

/-- Emits an entry with the time of the clock. -/
def log (logger : Logger) (level : Level) (message : Datum) (category : Datum := "general")
    (context : List (String × Datum) := []) : Option Entry.Fault × Logger :=
  logger.emit { level, message, category, time := .fractional logger.clock, context }

/-- Logs for someone who goes on whether it can be written out or not. -/
def note (logger : Logger) (level : Level) (message : Datum) (category : Datum := "general")
    (context : List (String × Datum) := []) : Logger :=
  (logger.log level message category context).2

/-- Notes a trace, but only if traces are written out. -/
def traceIfEnabled (logger : Logger) (message : Unit → String) (category : Datum)
    (context : List (String × Datum) := []) : Logger :=
  if logger.isEnabled .trace then logger.note .trace (message ()) category context else logger

def warning (logger : Logger) (message : String) : Logger :=
  logger.write (Paint.paint logger.color .yellow "⚠" ++ " " ++ message ++ "\n")

def error (logger : Logger) (message : String) : Logger :=
  logger.write (Paint.paint logger.color .red "✗" ++ " " ++ message ++ "\n")

def tick (logger : Logger) (seconds : Float) : Logger :=
  { logger with clock := logger.clock + seconds }

/-- Lets the time pass that the next wait takes. -/
def wait (logger : Logger) : Logger :=
  match logger.delays with
  | [] => logger
  | delay :: rest => { logger.tick delay with delays := rest }

/-- The text of how many seconds something took. -/
def elapsedText (name : String) (elapsed : Float) : String :=
  name ++ ": " ++ Decimal.fixedText elapsed ++ "s"

/-- Logs how long it has been since a timer was started. -/
def stopTimer (logger : Logger) (name : String) (category : Datum) (started : Float) :
    Option Entry.Fault × Logger :=
  logger.log .verbose (elapsedText name (logger.clock - started)) category

/-- Runs a block and logs how long it took, whether it fails or not.  If
that cannot be written out, the block's own failure is forgotten. -/
def timed {ε : Type} (logger : Logger) (name : String) (category : Datum)
    (unwritten : Entry.Fault → ε) (block : Logger → Except ε Unit × Logger) :
    Except ε Unit × Logger :=
  let (outcome, after) := block logger
  match after.stopTimer name category logger.clock with
  | (none, after) => (outcome, after)
  | (some fault, after) => (.error (unwritten fault), after)

/-- Why something cannot be counted. -/
inductive CountFault
  /-- What is to be counted is no key. -/
  | notAKey
  /-- It is to be counted by something that cannot be added. -/
  | notANumber (cause : Datum.NoFloat)
deriving DecidableEq, Repr

/-- The value of a counter; one never counted stands at zero. -/
def counter (logger : Logger) (key : Datum) : Except CountFault Datum :=
  if key.isCompound then .error .notAKey
  else .ok (((logger.counters.find? (·.1.same key)).map (·.2)).getD (.int 0))

/-- Adds to a counter; its new value. -/
def count (logger : Logger) (key : Datum) (increment : Datum := .int 1) :
    Except CountFault Datum × Logger :=
  let counted := do ((← logger.counter key).sum increment).mapError CountFault.notANumber
  match counted with
  | .ok value =>
      let others := logger.counters.filter (!·.1.same key)
      (.ok value, { logger with counters := (key, value) :: others })
  | .error fault => (.error fault, logger)

/-- The recorded entries of a level's rank and of a category, where such
are given. -/
def select (logger : Logger) (level : Option Level) (category : Option Datum) : List Entry :=
  logger.entries.filter fun entry =>
    level.all (entry.level.rank = ·.rank) && category.all entry.category.same

/-- Forgets entries and counters. -/
def clear (logger : Logger) : Logger :=
  { logger with entries := [], counters := [] }

end Logger

/-- Splits the details given with a message into its category and its
context.  The names of an entry's other parts cannot be given as details. -/
def Entry.details? (given : List (String × Datum)) : Option (Datum × List (String × Datum)) :=
  if given.any fun (name, _) => name ∈ ["self", "level", "message"] then none
  else
    some ((Datum.field? "category" given).getD "general",
      given.filter (·.1 ≠ "category"))

end SymbolicHeap
