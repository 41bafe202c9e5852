/-
Settings files: where they are looked for, how they are read and made.

The nearest directory that holds a settings file wins, from the start
upward but not as far as the root; after that the home directory is
asked.  A file that is not well formed leaves the settings as they are
and a warning; a number in it that is too long to be read is a failure.
-/
import SymbolicHeap.FileTree
import SymbolicHeap.Log.Logger
import SymbolicHeap.Settings.Basic
import SymbolicHeap.Toml.Document

namespace SymbolicHeap.Settings

/-- The names of settings files in a project, first choice first. -/
def fileNames : List String := ["symir.toml", ".symir.toml", "pyproject.toml"]

/-- The names of settings files in the home directory. -/
def homeFileNames : List String := [".symir.toml", "symir.toml"]

/-- A file system with the directories that a program starts from. -/
structure Place where
  tree : FileTree
  home : Path
  workingDirectory : Path

-- ================================================================ finding

/-- The first of some names that a directory holds. -/
def firstIn (tree : FileTree) (directory : Path) :
    (names : List String) → Except FileTree.Fault (Option Path)
  | [] => .ok none
  | name :: rest => do
      let file := directory ++ [name]
      if ← tree.contains file then return some file else firstIn tree directory rest

/-- The nearest settings file of a directory or of those it lies in; the
directory is given by its names from the innermost outward. -/
def nearest (tree : FileTree) : List String → Except FileTree.Fault (Option Path)
  | [] => .ok none
  | name :: outer => do
      match ← firstIn tree (name :: outer).reverse fileNames with
      | some file => return some file
      | none => nearest tree outer

/-- The settings file for a start directory, which is resolved by its
names alone. -/
def find (place : Place) (start : Option Path) : Except FileTree.Fault (Option Path) := do
  let start := start.getD place.workingDirectory
  if start.isCut then throw .cut
  match ← nearest place.tree start.resolve.reverse with
  | some file => return some file
  | none => firstIn place.tree place.home homeFileNames

-- ================================================================ loading

/-- Settings with the file that they come from and its directory. -/
structure Loaded where
  settings : Settings := {}
  file : Option Path := none
  root : Option Path := none

/-- The value of a field, or something else where there is none. -/
def fieldOr (name : String) (other : Datum) : Datum → Except Fault Datum
  | .record fields => .ok ((Datum.field? name fields).getD other)
  | _ => .error .noFields

/-- The part of a file's data that settings are taken from: the table of
the program, or all of it in a file that belongs to the program alone. -/
def relevant (file : Path) (data : Datum) : Except Fault Datum := do
  let tools ← fieldOr "tool" (.record []) data
  fieldOr "symir" (if file.name = "pyproject.toml" then .record [] else data) tools

/-- What is wrong with a settings file, if it can be read at all. -/
inductive Unusable
  | unreadable (fault : FileTree.Fault)
  | malformed (fault : Toml.Fault)

def Unusable.message : Unusable → String
  | unreadable .cut => "null character in name"
  | unreadable .tooLong => "name too long"
  | unreadable .missing => "no such file"
  | unreadable .passesThroughFile => "not a directory"
  | unreadable .isDirectory => "is a directory"
  | malformed fault => fault.message

/-- The data of a file.  A number that is too long to be read is no fault
of the form, and so not passed over. -/
def readData (tree : FileTree) (file : Path) : Except Fault (Except Unusable Datum) :=
  match tree.read file with
  | .error fault => .ok (.error (.unreadable fault))
  | .ok content =>
      match String.fromUTF8? content with
      | none => .error .notText
      | some text =>
          match Toml.parse text with
          | .ok fields => .ok (.ok (.record fields))
          | .error .tooManyDigits => .error .notANumber
          | .error fault => .ok (.error (.malformed fault))

/-- The settings of a file that is there. -/
def loadFile (tree : FileTree) (file : Path) (log : Logger) : Except Fault Loaded × Logger :=
  let found : Loaded := { file := some file, root := some file.parent }
  match readData tree file with
  | .error fault => (.error fault, log)
  | .ok (.error unusable) =>
      (.ok found,
        log.warning s!"Failed to parse config file {file.render}: {unusable.message}")
  | .ok (.ok data) =>
      match relevant file data with
      | .error fault => (.error fault, log)
      | .ok data =>
          match (apply data).run found.settings with
          | (.ok _, settings) => (.ok { found with settings }, log)
          | (.error fault, _) => (.error fault, log)

/-- Why no settings were loaded. -/
inductive LoadFault
  /-- It cannot be told whether a file is there. -/
  | unreachable (fault : FileTree.Fault)
  /-- The file is there, but not usable. -/
  | unusable (fault : Fault)

/-- The file that settings come from, if there is one: the given file, or
the one found from a start directory. -/
def source? (place : Place) (file start : Option Path) :
    Except FileTree.Fault (Option Path) := do
  match ← if file.isSome then .ok file else find place start with
  | some file => return if ← place.tree.contains file then some file else none
  | none => return none

/-- The settings of a file that is given or found; without one, the
settings that hold anyway. -/
def load (place : Place) (file start : Option Path) (log : Logger) :
    Except LoadFault Loaded × Logger :=
  match source? place file start with
  | .ok (some file) =>
      let (loaded, log) := loadFile place.tree file log
      (loaded.mapError .unusable, log)
  | .ok none => (.ok {}, log)
  | .error fault => (.error (.unreachable fault), log)

-- ================================================================= making

/-- Why no settings file was made. -/
inductive CreateFault
  | present (file : Path)
  | unwritable (fault : FileTree.Fault)

def CreateFault.message : CreateFault → String
  | present file => s!"Config file already exists: {file.render}"
  | unwritable _ => "the config file cannot be written"

/-- Makes a file with the settings that hold anyway. -/
def createFile (place : Place) (directory : Option Path) :
    Except CreateFault (Path × FileTree) := do
  let file := directory.getD place.workingDirectory ++ ["symir.toml"]
  if ← (place.tree.contains file).mapError .unwritable then throw (.present file)
  let tree ← (place.tree.write file (toToml {}).toUTF8).mapError .unwritable
  return (file, tree)

end SymbolicHeap.Settings
