import JackToolchain.Project.Session
import JackToolchain.Text.Lines
import JackToolchain.Text.Quoted

/-!
# Source files

A source is checked before it is read: it has to be a file, not too large, and may have to have the
extension of sources. Outputs are written beside it.
-/

namespace JackToolchain

open JackToolchain.Diagnostics JackToolchain.Files

inductive FileError
  | notFound (path : Path)
  | wrongExtension (actual : Option String)
  | tooLarge (size : Nat)
  | badEncoding (path : Path)
  | unreadable (path : Path) (fault : Fault)
  | notAFile (path : Path)
  | unwritable (path : Path) (fault : Fault)
  deriving DecidableEq, Repr

namespace FileError

def message : FileError → String
  | notFound path => s!"File not found: {path}"
  | wrongExtension none => "Expected a .jack file, found extension None"
  | wrongExtension (some actual) =>
    s!"Expected a .jack file, found extension Some({Text.quoted actual})"
  | tooLarge size => s!"File too large: {size} bytes (max: {Limits.maxFileSize})"
  | badEncoding path => s!"{path} is not valid UTF-8"
  | unreadable path fault => s!"I/O error: {path}: {fault.text}"
  | notAFile path => s!"Not a file: {path}"
  | unwritable path fault => s!"Failed to write {path}: {fault.text}"

def code : FileError → Code
  | notFound _ => .fileNotFound
  | wrongExtension _ => .invalidExtension
  | tooLarge _ => .fileTooLarge
  | badEncoding _ => .invalidEncoding
  | unreadable .. => .readFailure
  | notAFile _ => .invalidPath
  | unwritable .. => .writeFailure

/-- The error of a file that could not be read. -/
def ofFault (path : Path) : Fault → FileError
  | .missing => notFound path
  | .notText => badEncoding path
  | fault => unreadable path fault

def event (e : FileError) (message : String) (path : Path) : Event :=
  .error e.code message [("path", path), ("reason", e.message)]

end FileError

/-- What is known of a source file. -/
structure SourceInfo where
  /-- In canonical form. -/
  path : Path
  size : Nat
  /-- In lower case. -/
  extension : Option String
  /-- Zero until the file was read. -/
  lines : Nat := 0
  deriving DecidableEq, Repr

namespace SourceInfo

def isJack (info : SourceInfo) : Bool := info.extension == some "jack"

def isLarge (info : SourceInfo) : Bool := info.size > Limits.largeFileThreshold

/-- The class that the name of the file calls for. -/
def className? (info : SourceInfo) : Option String := info.path.stem?

/-- A size in bytes, kilobytes or megabytes. -/
def sizeText (size : Nat) : String :=
  if size < 1024 then s!"{size} B"
  else if size < 1048576 then Text.fixed 2 size 1024 ++ " KB"
  else Text.fixed 2 size 1048576 ++ " MB"

end SourceInfo

namespace Project

open FileError

/-- Fails with a file error, reported under a message. -/
def refuseFile {α : Type} (e : FileError) (message : String) (path : Path) :
    Attempt FileError α :=
  failWith (e.event message path) e

/-- Checks a source: first that it is a file, then its size, then its extension. -/
def checkSource (settings : SourceSettings) (path : Path) : Attempt FileError SourceInfo := do
  raise (.debug "Checking source" [("file", path)])
  let tree := (← get).tree
  if tree.exists path && !tree.isFile path then
    refuseFile (notAFile path) "Path is not a file" path
  match tree.canonical path, tree.read path with
  | .ok canonical, .ok content =>
    let extension := canonical.extension?.map fun e => e.map Char.toLower
    let size := content.size
    if size > Limits.maxFileSize then
      refuseFile (tooLarge size) "Source exceeds the size limit" canonical
    if settings.requireExtension && extension != some "jack" then
      refuseFile (wrongExtension extension) "Source lacks the .jack extension" canonical
    return { path := canonical, size, extension }
  | .error fault, _ | _, .error fault => refuseFile (ofFault path fault) "Cannot open source" path

/-- Checks a source and hands out its bytes. -/
def openSource (settings : SourceSettings) (path : Path) :
    Attempt FileError (SourceInfo × ByteArray) := do
  let info ← checkSource settings path
  match (← get).tree.read info.path with
  | .ok content => return (info, content)
  | .error fault => refuseFile (ofFault info.path fault) "Cannot open source" info.path

/-- Reports a source that was read, with a warning if it is large. -/
def reportSource (settings : SourceSettings) (info : SourceInfo) : Action Unit := do
  let size := SourceInfo.sizeText info.size
  if info.isLarge then
    raise (.warning "Large source file" [("file", info.path), ("size", size)])
  if settings.reportReading then
    raise (.success .fileDone "Source read"
      [("file", info.path), ("size", size), ("lines", toString info.lines),
        ("duration_ms", untimed)])

/-- The text of a source, with what is known of it. -/
def readSource (settings : SourceSettings) (path : Path) :
    Attempt FileError (SourceInfo × String) := do
  let info ← checkSource settings path
  match (← get).tree.readText info.path with
  | .error fault => refuseFile (ofFault info.path fault) "Cannot read source" info.path
  | .ok text =>
    let info := { info with lines := (Text.lines text).length }
    reportSource settings info
    return (info, text)

/-- Writes a text beside a source, under another extension. -/
def writeOutput (source : Path) (extension text : String) : Attempt FileError Path := do
  let path := source.withExtension extension
  match ← writeText path text with
  | some fault => refuseFile (unwritable path fault) "Cannot write output" path
  | none =>
    raise (.success .outputWritten "Output written"
      [("path", path), ("bytes", toString text.utf8ByteSize)])
    return path

end Project

end JackToolchain
