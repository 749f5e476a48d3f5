import JackToolchain.CommandLine.Assembler
import JackToolchain.CommandLine.Compiler

/-!
# The programs

The three commands as programs. The first argument names the command. Its files are those under the
working directory: they are read before the command runs, and what it changed is written afterwards.
-/

namespace JackToolchain.CommandLine

open JackToolchain.Files

/-- The variables that the commands look at. -/
def variableNames : List String :=
  ["JACK_REQUIRE_JACK_EXTENSION", "JACK_ENABLE_PERFORMANCE_LOGGING",
    "JACK_LEXICAL_DETAILED_METRICS", "JACK_BATCH_MAX_THREADS", "JACK_BATCH_FAIL_FAST",
    "JACK_BATCH_PROGRESS", "JACK_LOGGING_USE_STRUCTURED", "JACK_LOGGING_ENABLE_CONSOLE",
    "JACK_LOGGING_MIN_LEVEL", "JACK_LOGGING_CARGO_STYLE"]

def readEnvironment : IO Environment :=
  variableNames.filterMapM fun name => do
    return (← IO.getEnv name).map (name, ·)

/-- Directories below this depth are not looked into. -/
def greatestDepth : Nat := 16

/-- Adds what is in a directory. Entries that cannot be read are left out. -/
def readDirectory (depth : Nat) (place : Place) (entries : Array IO.FS.DirEntry) (tree : Tree) :
    IO Tree :=
  match depth with
  | 0 => return tree
  | depth + 1 =>
    entries.foldlM (fun tree entry => do
      let place := place ++ [entry.fileName]
      if ← entry.path.isDir then
        match ← entry.path.readDir.toBaseIO with
        | .ok inner => readDirectory depth place inner (tree.makeDirectory place)
        | .error _ => return tree
      else
        match ← (IO.FS.readBinFile entry.path).toBaseIO with
        | .ok content => return tree.put place content
        | .error _ => return tree) tree

def readTree : IO Tree := do
  let directory ← IO.currentDir
  let base := Path.pieces directory.toString
  readDirectory greatestDepth base (← directory.readDir) { base }

/-- Writes the files that differ from those before. -/
def writeChanges (before after : Tree) : IO Unit := do
  for (path, content) in after.files do
    if (before.read path).toOption != some content then
      IO.FS.writeBinFile path content

/-- The command of a name. -/
def command? : String → Option (Environment → List String → Tree → Exit × Tree)
  | "jackc" => some runCompiler
  | "vmtranslator" => some runTranslator
  | "hackasm" => some runAssembler
  | _ => none

def usage : String := "Usage: <jackc|vmtranslator|hackasm> [arguments]\n"

/-- Runs a command and answers with its exit code. -/
def serve (name : String) (arguments : List String) : IO UInt32 := do
  match command? name with
  | none =>
    (← IO.getStderr).putStr usage
    return 2
  | some run =>
    let tree ← readTree
    let (exit, after) := run (← readEnvironment) arguments tree
    writeChanges tree after
    (← IO.getStdout).putStr exit.console.output
    (← IO.getStderr).putStr exit.console.errors
    return exit.code.toUInt32

end JackToolchain.CommandLine

def main : List String → IO UInt32
  | name :: arguments => JackToolchain.CommandLine.serve name arguments
  | [] => JackToolchain.CommandLine.serve "" []
