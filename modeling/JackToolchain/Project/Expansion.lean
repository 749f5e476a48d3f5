import JackToolchain.Project.Session
import JackToolchain.Stack.Expansion

/-!
# Expanding files

A file of commands is expanded to a file of the same name, a directory to one file inside it: the
bootstrap and then all of its files of commands, in the order of their names.
-/

namespace JackToolchain

open JackToolchain.Diagnostics JackToolchain.Files JackToolchain.Stack

/-- Why files were not expanded. -/
inductive ProjectError
  | unreadable (path : Path) (fault : Files.Fault)
  /-- The directory itself could not be listed. -/
  | unlistable (directory : Path) (fault : Files.Fault)
  | badText (path : Path) (e : ReadError)
  | expansion (e : ExpansionError)
  | noFiles (directory : Path)
  | badInput (path : Path)
  deriving DecidableEq, Repr

namespace ProjectError

def message : ProjectError → String
  | unreadable path fault => s!"{path}: {fault.text}"
  | unlistable directory fault =>
    s!"{directory}: IO error for operation on {directory}: {fault.text}"
  | badText path e => s!"{path}: {e.message}"
  | expansion e => e.message
  | noFiles directory => s!"no .vm files in {directory}"
  | badInput path => s!"not a .vm file or directory: {path}"

def code : ProjectError → Code
  | unreadable .. | unlistable .. => .readFailure
  | badText _ e => e.code
  | expansion e => e.code
  | noFiles _ | badInput _ => .illegalOperation

def event (e : ProjectError) : Event := .error e.code e.message

end ProjectError

/-- A file of commands. Its name marks its static variables and labels. -/
structure CommandFile where
  path : Path
  name : String
  commands : List Command
  deriving DecidableEq, Repr

namespace Project

def isCommandFile (tree : Tree) (path : Path) : Bool :=
  tree.isFile path && path.hasExtension "vm"

/-- The files of commands directly inside a directory, by name. -/
def discoverCommands (directory : Path) : Attempt ProjectError (List Path) := do
  let tree := (← get).tree
  match tree.node directory with
  | .error fault => throw (.unlistable directory fault)
  | .ok _ =>
    let names := (tree.list directory).toOption.getD []
    let files := (names.map directory.child).filter (isCommandFile tree)
    if files.isEmpty then throw (.noFiles directory) else return files

def loadFile (path : Path) : Attempt ProjectError CommandFile :=
  inFile path do
    match (← get).tree.readText path with
    | .error fault => throw (.unreadable path fault)
    | .ok text =>
      match Stack.read text with
      | .error e => failWith e.event (.badText path e)
      | .ok commands => return { path, name := path.stem, commands }

/-- The file that a path names, or all files of a directory. -/
def loadFiles (path : Path) : Attempt ProjectError (List CommandFile) := do
  let tree := (← get).tree
  let paths ←
    if tree.isDirectory path then discoverCommands path
    else if isCommandFile tree path then pure [path]
    else throw (.badInput path)
  paths.mapM loadFile

/-- Where the assembly of a path goes. -/
def assemblyPath (tree : Tree) (path : Path) : Path :=
  if tree.isDirectory path then path.child (path.stem ++ ".asm") else path.withExtension "asm"

def expandedEvent (file : CommandFile) : Event :=
  let calls := file.commands.countP fun command =>
    match command with
    | .call .. => true
    | _ => false
  .debug "File translated"
    [("file", file.name), ("commands", toString file.commands.length), ("calls", toString calls)]

def expandLoaded (file : CommandFile) : Attempt ProjectError String :=
  inFile file.path do
    match expandFile file.name file.commands with
    | .error e => failWith e.event (.expansion e)
    | .ok text =>
      raise (expandedEvent file)
      return text

/-- The assembly of a path; that of a directory may start with the bootstrap. -/
def expandPath (path : Path) (withBootstrap : Bool) : Attempt ProjectError String := do
  let files ← loadFiles path
  let front :=
    if withBootstrap && (← get).tree.isDirectory path then bootstrap else ""
  return front ++ String.join (← files.mapM expandLoaded)

/-- Expands a path and writes the assembly. -/
def expandAndWrite (path : Path) (withBootstrap : Bool) : Attempt ProjectError Path :=
  let work : Attempt ProjectError Path := do
    let text ← expandPath path withBootstrap
    let output := assemblyPath (← get).tree path
    match ← writeText output text with
    | some fault => throw (.unreadable output fault)
    | none => return output
  ExceptT.mk do
    let result ← work.run
    match result with
    | .ok output => raise (.info "Assembly written" [("input", path), ("output", output)])
    | .error e => raise e.event
    return result

end Project

end JackToolchain
