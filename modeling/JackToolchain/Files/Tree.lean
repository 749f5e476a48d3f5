import JackToolchain.Files.Path
import Std.Data.HashMap

/-!
# Trees of files

Directories and files around one working directory. Names in a path are followed from there, or from
the root, one after the other, and each but the last has to be a directory.
-/

namespace JackToolchain.Files

/-- Why a path leads nowhere or cannot be used. -/
inductive Fault
  | missing
  | notDirectory
  | isDirectory
  | nameTooLong
  | nullCharacter
  | notText
  deriving DecidableEq, Repr

namespace Fault

def text : Fault → String
  | missing => "No such file or directory (os error 2)"
  | notDirectory => "Not a directory (os error 20)"
  | isDirectory => "Is a directory (os error 21)"
  | nameTooLong => "File name too long (os error 36)"
  | nullCharacter => "file name contained an unexpected NUL byte"
  | notText => "stream did not contain valid UTF-8"

end Fault

inductive Node
  | directory
  | file (content : ByteArray)
  deriving Inhabited

/-- Where a node stands: the names on the way to it from the root. -/
abbrev Place := List String

structure Tree where
  /-- The working directory. -/
  base : Place
  /-- All nodes but the working directory and the directories on the way to it. -/
  nodes : Std.HashMap Place Node := ∅

namespace Tree

/-- Bytes of a name. -/
def maxNameLength : Nat := 255

/-- Bytes of a path. -/
def maxPathLength : Nat := 4095

def node? (t : Tree) (place : Place) : Option Node :=
  if place.isPrefixOf t.base then some .directory else t.nodes[place]?

def isDirectoryAt (t : Tree) (place : Place) : Bool :=
  match t.node? place with
  | some .directory => true
  | _ => false

/-- Follows names from a place that exists. -/
def follow (t : Tree) (place : Place) : List String → Except Fault Place
  | [] => .ok place
  | name :: rest =>
    if !t.isDirectoryAt place then .error .notDirectory
    else if name = "" || name = "." then t.follow place rest
    else if name = ".." then t.follow place.dropLast rest
    else if name.utf8ByteSize > maxNameLength then .error .nameTooLong
    else
      match t.node? (place ++ [name]) with
      | some _ => t.follow (place ++ [name]) rest
      | none => .error .missing

/-- The names in a path. The empty path leads nowhere. -/
def names (path : Path) : Except Fault (List String) :=
  if path.any (· == '\x00') then .error .nullCharacter
  else if path.isEmpty then .error .missing
  else if path.utf8ByteSize > maxPathLength then .error .nameTooLong
  else .ok path.parts

/-- Where the names in a path are followed from. -/
def origin (t : Tree) (path : Path) : Place :=
  if path.isAbsolute then [] else t.base

def place (t : Tree) (path : Path) : Except Fault Place := do
  t.follow (t.origin path) (← names path)

def node (t : Tree) (path : Path) : Except Fault Node := do
  match t.node? (← t.place path) with
  | some n => return n
  | none => throw .missing

def «exists» (t : Tree) (path : Path) : Bool :=
  (t.node path).toBool

def isFile (t : Tree) (path : Path) : Bool :=
  match t.node path with
  | .ok (.file _) => true
  | _ => false

def isDirectory (t : Tree) (path : Path) : Bool :=
  match t.node path with
  | .ok .directory => true
  | _ => false

/-- The path from the root, without `.` and `..`. -/
def canonical (t : Tree) (path : Path) : Except Fault Path := do
  return "/" ++ "/".intercalate (← t.place path)

def read (t : Tree) (path : Path) : Except Fault ByteArray := do
  match ← t.node path with
  | .file content => return content
  | .directory => throw .isDirectory

def readText (t : Tree) (path : Path) : Except Fault String := do
  match String.fromUTF8? (← t.read path) with
  | some text => return text
  | none => throw .notText

/-- Writes a file, a new one unless there is one. Its directory has to exist. -/
def write (t : Tree) (path : Path) (content : ByteArray) : Except Fault Tree := do
  let names ← names path
  let front ← t.follow (t.origin path) names.dropLast
  if !t.isDirectoryAt front then throw .notDirectory
  match names.getLast? with
  | none | some "" | some "." | some ".." => throw .isDirectory
  | some name =>
    if name.utf8ByteSize > maxNameLength then throw .nameTooLong
    let place := front ++ [name]
    match t.node? place with
    | some .directory => throw .isDirectory
    | _ => return { t with nodes := t.nodes.insert place (.file content) }

/-- The names directly inside a directory, in order. -/
def list (t : Tree) (path : Path) : Except Fault (List String) := do
  let place ← t.place path
  if !t.isDirectoryAt place then throw .notDirectory
  let inside := t.nodes.fold (fun found p _ =>
    match p.getLast? with
    | some name => if p.dropLast = place then name :: found else found
    | none => found) []
  return inside.mergeSort fun a b => a ≤ b

/-- Makes a directory and those around it that are not there yet. -/
def makeDirectory (t : Tree) (place : Place) : Tree :=
  (List.range (place.length + 1)).foldl (fun t count =>
    if (t.node? (place.take count)).isSome then t
    else { t with nodes := t.nodes.insert (place.take count) .directory }) t

/-- Puts a file into a tree, with the directories around it. -/
def put (t : Tree) (place : Place) (content : ByteArray) : Tree :=
  let t := t.makeDirectory place.dropLast
  { t with nodes := t.nodes.insert place (.file content) }

/-- The shortest path to a place: from the working directory to what is below it, from the root to
all else. -/
def pathTo (t : Tree) (place : Place) : Path :=
  if t.base.isPrefixOf place then "/".intercalate (place.drop t.base.length)
  else "/" ++ "/".intercalate place

/-- All files, ordered by their paths. -/
def files (t : Tree) : List (Path × ByteArray) :=
  let found := t.nodes.fold (fun found p n =>
    match n with
    | .file content => (t.pathTo p, content) :: found
    | .directory => found) []
  found.mergeSort fun a b => a.1 ≤ b.1

end Tree

end JackToolchain.Files
