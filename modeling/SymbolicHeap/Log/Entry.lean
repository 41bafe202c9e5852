/-
Log entries and how they are written out.
-/
import SymbolicHeap.Datum
import SymbolicHeap.Log.Instant
import SymbolicHeap.Log.Level

namespace SymbolicHeap

namespace Paint

/-- The colours that a terminal switches between. -/
inductive Colour
  | red
  | yellow
  | blue
  | magenta
  | cyan
  | white
  | gray
  /-- The colour of the terminal itself. -/
  | plain

/-- The sequence that switches a terminal to a colour. -/
def Colour.code : Colour → String
  | red => "\x1b[31m"
  | yellow => "\x1b[33m"
  | blue => "\x1b[34m"
  | magenta => "\x1b[35m"
  | cyan => "\x1b[36m"
  | white => "\x1b[37m"
  | gray => "\x1b[90m"
  | plain => ""

/-- The sequence that switches back. -/
def reset : String := "\x1b[0m"

/-- A text in a colour, where colours are in use. -/
def paint (color : Bool) (colour : Colour) (text : String) : String :=
  if color then colour.code ++ text ++ reset else text

end Paint

open Paint (Colour paint)

/-- One entry of a log. -/
structure Entry where
  level : Level
  /-- What is said; only a text can be written out. -/
  message : Datum
  /-- What the entry is about; a text where nothing else was asked for. -/
  category : Datum := "general"
  time : Instant := .whole 0
  /-- Named details, in the order in which they were given. -/
  context : List (String × Datum) := []

namespace Entry

/-- The mark of a rank and its colour; most ranks have none. -/
def mark (rank : Int) : String × Colour :=
  match rank with
  | 1 => ("•", .white)
  | 2 => ("→", .blue)
  | 3 => ("⚙", .magenta)
  | 4 => ("⋯", .gray)
  | _ => ("", .plain)

/-- The mark as written; the quiet level has no mark at all. -/
def markText (color : Bool) (level : Level) : String :=
  if level.rank = 0 then "" else paint color (mark level.rank).2 (mark level.rank).1

/-- The details as written, `name=value` with blanks between. -/
def contextText (context : List (String × Datum)) : String :=
  " ".intercalate (context.map fun (name, value) => name ++ "=" ++ value.display)

/-- Why an entry cannot be written out. -/
inductive Fault
  /-- Its time has no place in the calendar. -/
  | untimely (fault : Instant.Fault)
  /-- Its message is not a text. -/
  | notAText
deriving DecidableEq, Repr

/-- The line of an entry: time, mark, category, message and details, as
far as there are any; the general category is not written. -/
def format (entry : Entry) (color showTime : Bool) : Except Fault String := do
  let time ←
    if showTime then do
      pure [paint color .gray (← entry.time.timeOfDay.mapError .untimely)]
    else pure []
  let mark := markText color entry.level
  let marks := if mark = "" then [] else [mark]
  let category :=
    if entry.category.isText "general" then []
    else [paint color .cyan ("[" ++ entry.category.display ++ "]")]
  let details :=
    if entry.context.isEmpty then [] else [paint color .gray (contextText entry.context)]
  match entry.message with
  | .text message => return " ".intercalate (time ++ marks ++ category ++ [message] ++ details)
  | _ => throw .notAText

end Entry

end SymbolicHeap
