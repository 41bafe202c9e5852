/-
TOML documents.

A document is a sequence of lines: key and value, table header, header of
an array of tables, comment, or nothing.  Values may be nested; tables
grow line by line.  What may still be added where is told by marks on
paths: a table is declared by a header once, a path that dotted keys lead
through is closed for headers once the next header comes, and a value
written in full is closed for good.
-/
import SymbolicHeap.Text.LineEnd
import SymbolicHeap.Toml.Lexeme

namespace SymbolicHeap.Toml

abbrev Fields := List (String × Datum)

-- ================================================================= tables

/-- The value of a field, if there is one. -/
def valueOf? (name : String) (fields : Fields) : Option Datum :=
  (fields.find? (·.1 = name)).map (·.2)

/-- Replaces the value of a field, or adds the field at the end. -/
def setField (name : String) (value : Datum) : Fields → Fields
  | [] => [(name, value)]
  | (n, v) :: rest =>
      if n = name then (name, value) :: rest else (n, v) :: setField name value rest

/-- Changes the table at a path, making the tables on the way.  Where
arrays of tables may be entered, it is their last table that the path
leads through. -/
def changeAt (enterArrays : Bool) (change : Fields → Except Fault Fields) :
    List String → Fields → Except Fault Fields
  | [], fields => change fields
  | name :: path, fields =>
      match valueOf? name fields with
      | none => do
          let inner ← changeAt enterArrays change path []
          return setField name (.record inner) fields
      | some (.record inner) => do
          let inner ← changeAt enterArrays change path inner
          return setField name (.record inner) fields
      | some (.list items) =>
          match enterArrays, items.reverse with
          | true, .record inner :: before => do
              let inner ← changeAt enterArrays change path inner
              return setField name (.list (before.reverse ++ [.record inner])) fields
          | _, _ => throw (.notATable [name])
      | some _ => throw (.notATable [name])

/-- Adds a field that is not there yet. -/
def addField (name : String) (value : Datum) (fields : Fields) : Except Fault Fields :=
  match valueOf? name fields with
  | some _ => .error (.repeated [name])
  | none => .ok (setField name value fields)

/-- Adds an empty table to an array of tables, which is made if need be. -/
def addTable (name : String) (fields : Fields) : Except Fault Fields :=
  match valueOf? name fields with
  | none => .ok (setField name (.list [.record []]) fields)
  | some (.list items) => .ok (setField name (.list (items ++ [.record []])) fields)
  | some _ => .error (.notATable [name])

/-- A key without its last part, and that part. -/
def splitKey (key : List String) : List String × String :=
  (key.dropLast, key.getLastD "")

/-- Whether a value is written with parts of its own, and so closed. -/
def isCompound : Datum → Bool
  | .list _ | .record _ => true
  | _ => false

/-- Whether a path leads to or into one of some closed values. -/
def isClosed (closed : List (List String)) (path : List String) : Bool :=
  closed.any (·.isPrefixOf path)

-- ================================================================= values

mutual

/-- A value; values nest at most `fuel` deep. -/
def value : (fuel : Nat) → List Char → Except Fault (Datum × List Char)
  | 0, _ => .error .unexpectedEnd
  | fuel + 1, chars =>
      match string? chars with
      | some read => read.map fun (text, rest) => (.text (String.ofList text), rest)
      | none =>
          match chars with
          | 't' :: 'r' :: 'u' :: 'e' :: rest => .ok (.bool true, rest)
          | 'f' :: 'a' :: 'l' :: 's' :: 'e' :: rest => .ok (.bool false, rest)
          | '[' :: rest => array fuel rest
          | '\x7b' :: rest =>
              match skipBlanks rest with
              | '\x7d' :: rest => .ok (.record [], rest)
              | rest => inlineTable fuel [] [] rest
          | chars =>
              match (moment? chars).orElse fun _ => number? chars with
              | some read => read
              | none => .error .noValue

/-- The items of an array behind the opening bracket or a comma. -/
def array : (fuel : Nat) → List Char → Except Fault (Datum × List Char)
  | 0, _ => .error .unexpectedEnd
  | fuel + 1, chars => do
      match ← skipLayout chars.length chars with
      | ']' :: rest => return (.list [], rest)
      | chars =>
          let (item, rest) ← value fuel chars
          match ← skipLayout rest.length rest with
          | ']' :: rest => return (.list [item], rest)
          | ',' :: rest =>
              match ← array fuel rest with
              | (.list items, rest) => return (.list (item :: items), rest)
              | (_, _) => throw .unexpectedEnd
          | c :: _ => throw (.unexpectedCharacter c)
          | [] => throw .unexpectedEnd

/-- The fields of an inline table that come after those read so far, of
which some are closed. -/
def inlineTable : (fuel : Nat) → Fields → List (List String) → List Char →
    Except Fault (Datum × List Char)
  | 0, _, _, _ => .error .unexpectedEnd
  | fuel + 1, fields, closed, chars => do
      let (path, rest) ← key chars
      match rest with
      | '=' :: rest =>
          let (item, rest) ← value fuel (skipBlanks rest)
          if isClosed closed path then throw (.closed path)
          let (table, name) := splitKey path
          let fields ← changeAt false (addField name item) table fields
          match skipBlanks rest with
          | '\x7d' :: rest => return (.record fields, rest)
          | ',' :: rest =>
              inlineTable fuel fields (if isCompound item then path :: closed else closed)
                (skipBlanks rest)
          | c :: _ => throw (.unexpectedCharacter c)
          | [] => throw .unexpectedEnd
      | c :: _ => throw (.unexpectedCharacter c)
      | [] => throw .unexpectedEnd

end

-- ============================================================== documents

/-- A document as far as it has been read. -/
structure Document where
  fields : Fields := []
  /-- The table that lines of key and value go into. -/
  header : List String := []
  /-- The tables that have had their header. -/
  declared : List (List String) := []
  /-- The tables that dotted keys have led through since the last header. -/
  passed : List (List String) := []
  /-- The values that nothing can be added to. -/
  closed : List (List String) := []

namespace Document

/-- The tables that a dotted key leads through, behind a header. -/
def tablesOnTheWay (header path : List String) : List (List String) :=
  (List.range (path.length - 1)).map fun n => header ++ path.take (n + 1)

/-- Takes a line of key and value in. -/
def addValue (document : Document) (path : List String) (item : Datum) :
    Except Fault Document := do
  let passed := tablesOnTheWay document.header path
  match passed.find? (· ∈ document.declared) with
  | some table => throw (.repeated table)
  | none => pure ()
  let full := document.header ++ path
  let (table, name) := splitKey full
  if isClosed document.closed table then throw (.closed table)
  let fields ← changeAt true (addField name item) table document.fields
  return { document with
    fields
    passed := passed ++ document.passed
    closed := if isCompound item then full :: document.closed else document.closed }

/-- What dotted keys have led through counts as declared from the next
header on. -/
def settle (document : Document) : Document :=
  { document with declared := document.passed ++ document.declared, passed := [] }

/-- Takes the header of a table in. -/
def addHeader (document : Document) (path : List String) : Except Fault Document := do
  let document := document.settle
  if path ∈ document.declared then throw (.repeated path)
  if isClosed document.closed path then throw (.closed path)
  let fields ← changeAt true .ok path document.fields
  return { document with fields, header := path, declared := path :: document.declared }

/-- Takes the header of the next table of an array in; what was marked
within the table before it is marked no longer. -/
def addArrayHeader (document : Document) (path : List String) : Except Fault Document := do
  let document := document.settle
  if isClosed document.closed path then throw (.closed path)
  let (table, name) := splitKey path
  let fields ← changeAt true (addTable name) table document.fields
  let outside (marked : List (List String)) := marked.filter fun other => !path.isPrefixOf other
  return { document with
    fields
    header := path
    declared := path :: outside document.declared
    closed := outside document.closed }

/-- One line, and what is left behind it; the line end is not part of
the line. -/
def statement (document : Document) (chars : List Char) :
    Except Fault (Document × List Char) :=
  match skipBlanks chars with
  | [] => .ok (document, [])
  | '\n' :: rest => .ok (document, '\n' :: rest)
  | '#' :: rest => .ok (document, '#' :: rest)
  | '[' :: '[' :: rest => do
      let (path, rest) ← key (skipBlanks rest)
      let document ← document.addArrayHeader path
      match rest with
      | ']' :: ']' :: rest => return (document, rest)
      | c :: _ => throw (.unexpectedCharacter c)
      | [] => throw .unexpectedEnd
  | '[' :: rest => do
      let (path, rest) ← key (skipBlanks rest)
      let document ← document.addHeader path
      match rest with
      | ']' :: rest => return (document, rest)
      | c :: _ => throw (.unexpectedCharacter c)
      | [] => throw .unexpectedEnd
  | chars => do
      let (path, rest) ← key chars
      match rest with
      | '=' :: rest =>
          let (item, rest) ← value (2 * rest.length + 2) (skipBlanks rest)
          return (← document.addValue path item, rest)
      | c :: _ => throw (.unexpectedCharacter c)
      | [] => throw .unexpectedEnd

/-- The lines of a document, at most `fuel` of them. -/
def read : (fuel : Nat) → Document → List Char → Except Fault Document
  | 0, document, _ => .ok document
  | fuel + 1, document, chars => do
      let (document, rest) ← statement document chars
      match ← skipComment (skipBlanks rest) with
      | [] => return document
      | '\n' :: rest => read fuel document rest
      | c :: _ => throw (.unexpectedCharacter c)

end Document

/-- The table that a document spells out. -/
def parse (text : String) : Except Fault Fields :=
  let chars := Text.joinLineEnds text.toList
  (Document.read (chars.length + 1) {} chars).map Document.fields

end SymbolicHeap.Toml
