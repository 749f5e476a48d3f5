import JackToolchain.CommandLine.Arguments
import JackToolchain.CommandLine.Console
import JackToolchain.Machine.Run
import JackToolchain.Project.Expansion

/-!
# The translator command

`vmtranslator` expands files of commands to assembly, or runs them.
-/

namespace JackToolchain.CommandLine

open JackToolchain.Files JackToolchain.Project JackToolchain.Settings

/-- The end of a command that refuses its arguments or was asked about itself. -/
def Stop.exit (stop : Stop) (about : String → String) (version : String) : Exit :=
  match stop with
  | .help topic => { code := 0, console := { output := about topic } }
  | .version => { code := 0, console := { output := version } }
  | .refused => .usage

/-- The number of an argument, if it is one. -/
def readCount? (text : String) : Option Nat := Environment.readCount? text

def isCount (text : String) : Bool := (readCount? text).isSome

/-- Prints the message of a failure, if there is one. -/
def finish (result : Except String Unit) : Action Bool := do
  match result with
  | .ok () => return true
  | .error message =>
    complain s!"error: {message}\n"
    return false

/-- Expands a path and says where the assembly went. -/
def expandInput (path : Path) (withBootstrap : Bool) : Attempt String Unit := do
  let output ← (expandAndWrite path withBootstrap).adapt ProjectError.message
  say s!"Wrote {output}"

namespace Translator

def interface : Interface :=
  { flags :=
      [{ name := "no-bootstrap" }, { name := "run" }, { name := "entry", takesValue := true },
        { name := "max-steps", takesValue := true, accepts := isCount }, { name := "json" }]
    hasVersion := true }

def about : String :=
  "Translate stack-machine code to Hack assembly\n" ++
  "\n" ++
  "Usage: vmtranslator [OPTIONS] <PATH>\n" ++
  "\n" ++
  "Arguments:\n" ++
  "  <PATH>  A .vm file, or a directory of .vm files\n" ++
  "\n" ++
  "Options:\n" ++
  "      --no-bootstrap           Leave out the SP=256 / Sys.init bootstrap for directories\n" ++
  "      --run                    Execute on the reference interpreter instead of translating\n" ++
  "      --entry <ENTRY>          Function to start from with --run [default: " ++
  s!"{Machine.defaultEntry}]\n" ++
  s!"      --max-steps <MAX_STEPS>  Step limit for --run [default: {Machine.defaultStepLimit}]\n" ++
  "      --json                   Print the --run result as JSON\n" ++
  "  -h, --help                   Print help\n" ++
  "  -V, --version                Print version\n"

def version : String := "vmtranslator 0.1.0\n"

/-- What a run shows, as JSON or as it was printed, with a line feed behind it. -/
def executionText (json : Bool) (x : Machine.Execution) : String :=
  if json then
    Text.jsonIndented
      [("return_value", toString x.returnValue.toInt), ("output", Text.jsonString x.output),
        ("steps", toString x.steps)] ++ "\n"
  else if x.output.isEmpty || x.output.endsWith "\n" then x.output
  else x.output ++ "\n"

/-- Runs the commands of a path. -/
def runInput (path : Path) (entry : String) (limit : Nat) (json : Bool) : Attempt String Unit := do
  let files ← (loadFiles path).adapt ProjectError.message
  let linked := Machine.Program.link (files.map fun file => (file.name, file.commands))
  match linked with
  | .error e => throw e.message
  | .ok program =>
    match (Machine.run program limit {} entry).1 with
    | .error e => throw e.message
    | .ok x =>
      modify fun s => { s with journal := s.journal.push (.output (executionText json x)) }

end Translator

open Translator in
def runTranslator (env : Environment) (arguments : List String) (tree : Tree) : Exit × Tree :=
  match interface.read arguments with
  | .error stop => (stop.exit (fun _ => about) version, tree)
  | .ok a =>
    let input := a.operands.headD ""
    if a.has "json" && !a.has "run" then (.usage, tree)
    else
      let work :=
        if a.has "run" then
          runInput input ((a.value? "entry").getD Machine.defaultEntry)
            (((a.value? "max-steps").bind readCount?).getD Machine.defaultStepLimit) (a.has "json")
        else expandInput input !(a.has "no-bootstrap")
      let logging := (Settings.ofEnvironment env).logging
      runAction (sessionOf env logging tree) .silent logging.least do finish (← work.run)

end JackToolchain.CommandLine
