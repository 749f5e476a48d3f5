import JackToolchain.Assembly.Program
import JackToolchain.Project.Batch
import JackToolchain.Project.Expansion

/-!
# Builds

From sources to binary words in one go: compile, expand, assemble. The first failure ends a
build.
-/

namespace JackToolchain

open JackToolchain.Diagnostics JackToolchain.Files

/-- Why a file was not assembled. -/
inductive AssembleError
  | io (path : Path) (fault : Files.Fault)
  | assembly (e : AssemblyError)
  deriving DecidableEq, Repr

namespace AssembleError

def message : AssembleError → String
  | io path fault => s!"{path}: {fault.text}"
  | assembly e => e.message

def code : AssembleError → Code
  | io .. => .readFailure
  | assembly e => e.code

end AssembleError

inductive BuildError
  | compile (e : ClassError)
  | batch (e : BatchError)
  | classesFailed (failed total : Nat)
  | expand (e : ProjectError)
  | assemble (e : AssembleError)
  | badInput (path : Path)
  deriving DecidableEq, Repr

namespace BuildError

def message : BuildError → String
  | compile e => s!"compile: {e.message}"
  | batch e => s!"compile: {e.message}"
  | classesFailed failed total => s!"{failed} of {total} classes failed to compile"
  | expand e => s!"translate: {e.message}"
  | assemble e => s!"assemble: {e.message}"
  | badInput path => s!"not a .jack file or directory: {path}"

end BuildError

/-- The files that a build wrote. -/
structure BuildOutcome where
  commands : List Path
  assembly : Path
  binary : Path
  deriving DecidableEq, Repr

namespace Project

/-- Assembles a file and writes its words beside it. -/
def assembleFile (path : Path) : Attempt AssembleError Path := do
  match (← get).tree.readText path with
  | .error fault => throw (.io path fault)
  | .ok text =>
    match Assembly.assemble text with
    | .error e => failWith e.event (.assembly e)
    | .ok program =>
      let output := path.withExtension "hack"
      match ← writeText output program.binaryText with
      | some fault => throw (.io output fault)
      | none => return output

/-- Compiles every class of a directory; none may fail. -/
def buildClasses (directory : Path) (threads : Nat) : Attempt BuildError (List Path) := do
  let settings := (← get).settings
  let options := { BatchOptions.ofSettings settings.batch settings.source with threads }
  raise (.info "Compiling directory" [("path", directory), ("threads", toString threads)])
  let outcome ← (compileDirectory directory options).adapt BuildError.batch
  if !outcome.failed.isEmpty then
    throw (.classesFailed outcome.failed.length outcome.discovered)
  return outcome.succeeded.map fun (_, file) => file.output

/-- Builds a source, or all sources of a directory. -/
def build (path : Path) (threads : Nat) : Attempt BuildError BuildOutcome := do
  let whole := (← get).tree.isDirectory path
  let commands ←
    if whole then buildClasses path threads
    else if path.isJackSource then do
      let source := (← get).settings.source
      pure [(← (compileFile source path).adapt BuildError.compile).output]
    else throw (.badInput path)
  let input := if whole then path else path.withExtension "vm"
  let assembly ← (expandAndWrite input true).adapt BuildError.expand
  let binary ← (assembleFile assembly).adapt BuildError.assemble
  raise (.success .outputWritten "Build complete"
    [("input", path), ("output", binary), ("duration_ms", untimed)])
  return { commands, assembly, binary }

end Project

end JackToolchain
