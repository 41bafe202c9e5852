/-
Settings and how they are written and changed.

Settings are taken as they come: whatever is set is kept, and only its
use may fail.  Data that is applied to them goes section by section, and
what was set before a failure stays set.
-/
import SymbolicHeap.Log.Level
import SymbolicHeap.Datum

namespace SymbolicHeap

structure Settings where
  /-- Time limit of a question, in milliseconds. -/
  timeout : Datum := .int 10000
  /-- Whether all objects seen count as different. -/
  assumeDistinct : Datum := .bool false
  color : Datum := .bool true
  verbose : Datum := .bool false
  logLevel : Datum := .text "normal"

instance : Inhabited Settings := ⟨{}⟩

namespace Settings

/-- Why settings cannot be applied or used. -/
inductive Fault
  /-- A value is of a type that does not do here. -/
  | wrongType
  /-- Something that is not a table is asked for a field. -/
  | noFields
  /-- A text or a float does not stand for a whole number. -/
  | notANumber
  /-- An infinite float does not stand for a whole number. -/
  | unbounded
  /-- A level name that is no text. -/
  | levelNotText
  | unknownLevel (name : String)
  /-- A file is not encoded as text. -/
  | notText

namespace Fault

def message : Fault → String
  | wrongType => "a value is of the wrong type"
  | noFields => "a value has no fields"
  | notANumber => "a value is not a number"
  | unbounded => "a number has no bound"
  | levelNotText => "a log level is no text"
  | unknownLevel name => s!"Unknown log level: {Text.quoted name}"
  | notText => "a file is not encoded as text"

end Fault

-- ================================================================ writing

/-- The sections of the settings with their fields, in order. -/
def sections (settings : Settings) : List (String × List (String × Datum)) :=
  [("solver", [("timeout_ms", settings.timeout)]),
   ("translation", [("assume_distinct_objects", settings.assumeDistinct)]),
   ("output",
     [("color", settings.color), ("verbose", settings.verbose),
      ("log_level", settings.logLevel)])]

/-- A value on a line of its own; a text stands between quotes as it is. -/
def valueText : Datum → String
  | .bool value => if value then "true" else "false"
  | .text value => "\"" ++ value ++ "\""
  | other => other.literal

/-- The lines of a section, an empty one at the end. -/
def sectionLines (name : String) (fields : List (String × Datum)) : List String :=
  ("[tool.symir." ++ name ++ "]")
    :: fields.map (fun (key, value) => key ++ " = " ++ valueText value) ++ [""]

/-- The settings as a file. -/
def toToml (settings : Settings) : String :=
  "\n".intercalate
    (["[tool.symir]", ""]
      ++ settings.sections.flatMap fun (name, fields) => sectionLines name fields)

-- =============================================================== applying

/-- A change of settings; what was changed before a failure stays. -/
abbrev Run := ExceptT Fault (StateM Settings)

/-- Whether a text occurs in another. -/
def occursIn (pattern : List Char) : List Char → Bool
  | [] => pattern.isEmpty
  | c :: rest => pattern.isPrefixOf (c :: rest) || occursIn pattern rest

/-- Whether something has a field, an item or a part of a name. -/
def has (name : String) : Datum → Except Fault Bool
  | .record fields => .ok (Datum.field? name fields).isSome
  | .list items => .ok (items.any (Datum.isText name))
  | .text value => .ok (occursIn name.toList value.toList)
  | .null | .bool _ | .int _ | .float _ | .moment _ => .error .wrongType

/-- The value of a field that is there; only tables have such. -/
def get (name : String) : Datum → Except Fault Datum
  | .record fields =>
      match Datum.field? name fields with
      | some value => .ok value
      | none => .error .wrongType
  | _ => .error .wrongType

/-- Goes on with a field if something has it. -/
def withField (name : String) (data : Datum) (use : Datum → Run Unit) : Run Unit := do
  if ← liftM (has name data) then use (← liftM (get name data))

/-- The whole number that a datum stands for. -/
def wholeNumber (value : Datum) : Except Fault Int :=
  match value.integer with
  | .ok n => .ok n
  | .error .wrongType => .error .wrongType
  | .error .notANumber => .error .notANumber
  | .error .unbounded => .error .unbounded

/-- Applies data to the settings, section by section in their order. -/
def apply (data : Datum) : Run Unit := do
  withField "solver" data fun solver =>
    withField "timeout_ms" solver fun value => do
      let n ← liftM (wholeNumber value)
      modify fun settings => { settings with timeout := .int n }
  withField "translation" data fun lowering =>
    withField "assume_distinct_objects" lowering fun value =>
      modify fun settings => { settings with assumeDistinct := .bool value.truth }
  withField "output" data fun output => do
    withField "color" output fun value => modify fun settings => { settings with color := value }
    withField "verbose" output fun value =>
      modify fun settings => { settings with verbose := value }
    withField "log_level" output fun value =>
      modify fun settings => { settings with logLevel := value }

-- ================================================================== using

/-- The level that the settings ask for: verbose output is at least that. -/
def level (settings : Settings) : Except Fault Level :=
  match settings.logLevel with
  | .text name =>
      match Level.ofName? name with
      | some level =>
          .ok (if settings.verbose.truth ∧ level ≤ .normal then .verbose else level)
      | none => .error (.unknownLevel name)
  | _ => .error .levelNotText

end Settings

end SymbolicHeap
