/-
Trees of files and directories.

A path is the list of names from the root down; `..` leads back up.  A
path is followed name by name, and only directories can be passed
through, so a path that goes up again from something missing leads
nowhere, although its resolved form may lead somewhere.

Names are bounded, and so are whole paths.  A path is looked at as a
whole before it is followed; a name that is too long counts only when it
is reached.
-/
import SymbolicHeap.Table

namespace SymbolicHeap

/-- Names from the root down. -/
abbrev Path := List String

namespace Path

/-- The path of a text relative to a base, or from the root if the text
begins there; empty names and `.` are passed over. -/
def ofText (base : Path) (text : String) : Path :=
  let names := (text.splitOn "/").filter fun name => name ≠ "" ∧ name ≠ "."
  if text.toList.head? = some '/' then names else base ++ names

def render (path : Path) : String := "/" ++ "/".intercalate path

/-- The directory that a path lies in; the root lies in itself. -/
def parent (path : Path) : Path := path.dropLast

/-- The last name of a path. -/
def name (path : Path) : String := path.getLastD ""

/-- Whether a name in a path holds the character that ends a path. -/
def isCut (path : Path) : Bool :=
  path.any fun name => name.toList.contains '\x00'

/-- The most bytes of a name. -/
def nameBound : Nat := 255

/-- The most bytes of a path. -/
def bound : Nat := 4095

/-- The path without `..`, each taking the name before it away. -/
def resolve (path : Path) : Path :=
  path.foldl (fun above name => if name = ".." then above.dropLast else above ++ [name]) []

end Path

/-- What stands at a place of a tree. -/
inductive FileNode
  | directory
  | file (content : ByteArray)

/-- A tree, by the resolved paths of what is in it; the root is always a
directory. -/
structure FileTree where
  nodes : Table Path FileNode := {}

namespace FileTree

/-- Why a path leads nowhere, or to nothing that can be read or written. -/
inductive Fault
  /-- A null character stands in a name. -/
  | cut
  /-- The path is too long, or a name that is reached. -/
  | tooLong
  | missing
  | passesThroughFile
  | isDirectory
deriving DecidableEq, Repr

def node? (tree : FileTree) (place : Path) : Option FileNode :=
  if place = [] then some .directory else tree.nodes.find? place

-- ============================================================== following

/-- The place that names lead to from a given place. -/
def follow (tree : FileTree) : (place : Path) → Path → Except Fault Path
  | place, [] => .ok place
  | place, name :: rest =>
      match tree.node? place with
      | some .directory =>
          if name = ".." then tree.follow place.dropLast rest
          else if Path.nameBound < name.utf8ByteSize then .error .tooLong
          else tree.follow (place ++ [name]) rest
      | some (.file _) => .error .passesThroughFile
      | none => .error .missing

/-- The place that a path leads to; all but its last name are there. -/
def placeOf (tree : FileTree) (path : Path) : Except Fault Path :=
  if path.isCut then .error .cut
  else if Path.bound < path.render.utf8ByteSize then .error .tooLong
  else tree.follow [] path

/-- What a path leads to. -/
def lookUp (tree : FileTree) (path : Path) : Except Fault FileNode := do
  match tree.node? (← tree.placeOf path) with
  | some node => .ok node
  | none => .error .missing

/-- Whether a path leads to anything; a path that is too long cannot even
be asked about. -/
def contains (tree : FileTree) (path : Path) : Except Fault Bool :=
  match tree.lookUp path with
  | .ok _ => .ok true
  | .error .tooLong => .error .tooLong
  | .error _ => .ok false

/-- The place of a directory that one can go to. -/
def directory (tree : FileTree) (path : Path) : Except Fault Path := do
  let place ← tree.placeOf path
  match tree.node? place with
  | some .directory => .ok place
  | some (.file _) => .error .passesThroughFile
  | none => .error .missing

-- ==================================================== reading and writing

def read (tree : FileTree) (path : Path) : Except Fault ByteArray := do
  match ← tree.lookUp path with
  | .file content => .ok content
  | .directory => .error .isDirectory

/-- Writes a file into a directory that is there. -/
def write (tree : FileTree) (path : Path) (content : ByteArray) : Except Fault FileTree := do
  let place ← tree.placeOf path
  match tree.node? place with
  | some .directory => .error .isDirectory
  | _ => .ok ⟨tree.nodes.set place (.file content)⟩

/-- Makes the directories that names lead through from a given place, as
far as they are not there. -/
def makeFrom (tree : FileTree) : (place : Path) → Path → Except Fault FileTree
  | _, [] => .ok tree
  | place, name :: rest =>
      if name = ".." then tree.makeFrom place.dropLast rest
      else if Path.nameBound < name.utf8ByteSize then .error .tooLong
      else
        let place := place ++ [name]
        match tree.node? place with
        | some .directory => tree.makeFrom place rest
        | some (.file _) => .error .passesThroughFile
        | none => makeFrom ⟨tree.nodes.set place .directory⟩ place rest

/-- Makes a directory and all those it lies in. -/
def makeDirectories (tree : FileTree) (path : Path) : Except Fault FileTree :=
  if path.isCut then .error .cut
  else if Path.bound < path.render.utf8ByteSize then .error .tooLong
  else tree.makeFrom [] path

end FileTree

end SymbolicHeap
