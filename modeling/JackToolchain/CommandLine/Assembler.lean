import JackToolchain.CommandLine.Translator
import JackToolchain.Project.Build

/-!
# The assembler command

`hackasm` assembles or expands files, or builds sources all the way to binary words.
-/

namespace JackToolchain.CommandLine

open JackToolchain.Files JackToolchain.Project

namespace Assembler

/-- What the command is asked to do. -/
inductive Request
  | assemble (path : Path)
  | expand (path : Path) (withBootstrap : Bool)
  | build (path : Path) (threads : Option Nat)
  deriving DecidableEq, Repr

def aboutAssemble : String :=
  "Assemble a .asm file into .hack\n" ++
  "\n" ++
  "Usage: hackasm assemble <FILE>\n" ++
  "\n" ++
  "Arguments:\n" ++
  "  <FILE>  \n" ++
  "\n" ++
  "Options:\n" ++
  "  -h, --help  Print help\n"

def aboutTranslate : String :=
  "Translate a .vm file or a directory of them into .asm\n" ++
  "\n" ++
  "Usage: hackasm translate [OPTIONS] <PATH>\n" ++
  "\n" ++
  "Arguments:\n" ++
  "  <PATH>  \n" ++
  "\n" ++
  "Options:\n" ++
  "      --no-bootstrap  Leave out the bootstrap for directories\n" ++
  "  -h, --help          Print help\n"

def aboutBuild : String :=
  "Compile, translate and assemble a .jack file or directory\n" ++
  "\n" ++
  "Usage: hackasm build [OPTIONS] <PATH>\n" ++
  "\n" ++
  "Arguments:\n" ++
  "  <PATH>  \n" ++
  "\n" ++
  "Options:\n" ++
  "  -t, --threads <THREADS>  Compiler worker threads (defaults to the CPU count)\n" ++
  "  -h, --help               Print help\n"

def aboutHelp : String :=
  "Print this message or the help of the given subcommand(s)\n" ++
  "\n" ++
  "Usage: hackasm help [COMMAND]...\n" ++
  "\n" ++
  "Arguments:\n" ++
  "  [COMMAND]...  Print help for the subcommand(s)\n"

def aboutAll : String :=
  "Hack assembler and Jack toolchain driver\n" ++
  "\n" ++
  "Usage: hackasm <COMMAND>\n" ++
  "\n" ++
  "Commands:\n" ++
  "  assemble   Assemble a .asm file into .hack\n" ++
  "  translate  Translate a .vm file or a directory of them into .asm\n" ++
  "  build      Compile, translate and assemble a .jack file or directory\n" ++
  "  help       Print this message or the help of the given subcommand(s)\n" ++
  "\n" ++
  "Options:\n" ++
  "  -h, --help     Print help\n" ++
  "  -V, --version  Print version\n"

/-- What a subcommand says about itself, or the command if none is named. -/
def about : String → String
  | "assemble" => aboutAssemble
  | "translate" => aboutTranslate
  | "build" => aboutBuild
  | "help" => aboutHelp
  | _ => aboutAll

def version : String := "hackasm 0.1.0\n"

def subcommands : List String := ["assemble", "translate", "build", "help"]

def readAssemble (arguments : List String) : Except Stop Request := do
  let a ← ({ topic := "assemble" } : Interface).read arguments
  return .assemble (a.operands.headD "")

def readExpand (arguments : List String) : Except Stop Request := do
  let bootstrap : Flag := { name := "no-bootstrap" }
  let a ← ({ topic := "translate", flags := [bootstrap] } : Interface).read arguments
  return .expand (a.operands.headD "") !(a.has "no-bootstrap")

def readBuild (arguments : List String) : Except Stop Request := do
  let threads : Flag := { name := "threads", short := 't', takesValue := true, accepts := isCount }
  let a ← ({ topic := "build", flags := [threads] } : Interface).read arguments
  return .build (a.operands.headD "") ((a.value? "threads").bind readCount?)

def readRequest : List String → Except Stop Request
  | "assemble" :: arguments => readAssemble arguments
  | "translate" :: arguments => readExpand arguments
  | "build" :: arguments => readBuild arguments
  | ["help"] => .error (.help "")
  | ["help", name] => .error (if subcommands.contains name then .help name else .refused)
  | first :: _ => do
    let _ ← readArguments { operands := 0, hasVersion := true } {} none [first]
    throw .refused
  | [] => .error .refused

/-- The threads of a build that is not told how many to take. -/
def defaultThreads : Nat := Limits.maxWorkerThreads

def serve : Request → Attempt String Unit
  | .assemble path => do
    let output ← (assembleFile path).adapt AssembleError.message
    say s!"Wrote {output}"
  | .expand path withBootstrap => expandInput path withBootstrap
  | .build path threads => do
    let outcome ← (build path (threads.getD defaultThreads)).adapt BuildError.message
    for output in outcome.commands do
      say s!"Compiled {output}"
    say s!"Wrote {outcome.assembly}"
    say s!"Wrote {outcome.binary} in {untimed}s"

end Assembler

open Assembler

/-- Logging starts before the arguments are read, and the summary stands in front of the error that
ends a run. -/
def runAssembler (env : Environment) (arguments : List String) (tree : Tree) : Exit × Tree :=
  let logging := (Settings.ofEnvironment env).logging
  let sink := Sink.ofSettings logging
  match readRequest arguments with
  | .error stop =>
    let exit := stop.exit about version
    let started := Console.showEvent sink logging.least {} startedEvent
    ({ exit with console :=
        { exit.console with output := started.output ++ exit.console.output } }, tree)
  | .ok request =>
    runAction (sessionOf env logging tree) sink logging.least do
      raise startedEvent
      let result ← (serve request).run
      showSummary logging
      finish result

end JackToolchain.CommandLine
