import JackToolchain.CommandLine.Console
import JackToolchain.Project.Batch
import JackToolchain.Settings.Document
import JackToolchain.Source.Excerpt

/-!
# The compiler command

`jackc` compiles one class, or every class of a directory.
-/

namespace JackToolchain.CommandLine

open JackToolchain.Diagnostics JackToolchain.Files JackToolchain.Project JackToolchain.Source

namespace Compiler

def usage : String :=
  "Usage: jackc <input.jack|directory> [options]\n       jackc --help\n"

def help : String :=
  "jackc v0.1.0\n" ++
  "Compile Jack classes to stack-machine (.vm) files\n" ++
  "\n" ++
  "USAGE:\n" ++
  "    jackc <File.jack>               # Compile one class to File.vm\n" ++
  "    jackc <directory> [options]     # Compile every .jack file in a directory\n" ++
  "\n" ++
  "OPTIONS:\n" ++
  "    --help              Show this help message\n" ++
  "    --sequential        Compile on the calling thread only\n" ++
  "    --threads N         Maximum worker threads\n" ++
  "    --max-files N       Compile at most N files (sorted by name)\n" ++
  "    --fail-fast         Stop scheduling files after the first failure\n" ++
  "    --quiet             Suppress per-file progress lines\n" ++
  "    --config FILE       Read preferences from a TOML file\n" ++
  "\n" ++
  "ENVIRONMENT:\n" ++
  "    JACK_LOGGING_MIN_LEVEL      error | warn | info | debug\n" ++
  "    JACK_LOGGING_USE_STRUCTURED true for JSON log lines\n" ++
  "    JACK_BATCH_MAX_THREADS      default worker thread cap\n" ++
  "\n" ++
  s!"Build profile: {Limits.profile}\n"

/-- The settings file that the options name, if they name one. -/
def settingsFile? : List String → Except String (Option Path)
  | [] => .ok none
  | "--config" :: path :: _ => .ok (some path)
  | ["--config"] => .error "--config requires a file"
  | _ :: rest => settingsFile? rest

/-- The settings of a file. -/
def loadSettings (env : Environment) (tree : Tree) (path : Path) : Except String Settings :=
  match tree.readText path with
  | .error fault => .error s!"{path}: {fault.text}"
  | .ok document =>
    (Settings.ofDocument env document).mapError fun e => s!"{path}: {e.text document}"

def warnOption (text : String) : Action Unit := complain s!"Warning: {text}\n"

/-- Goes through the options of a batch. What cannot be read is warned of and changes nothing. -/
def readOptions (o : BatchOptions) : List String → Action BatchOptions
  | [] => return o
  | "--sequential" :: rest => readOptions { o with threads := 1 } rest
  | "--fail-fast" :: rest => readOptions { o with failFast := true } rest
  | "--quiet" :: rest => readOptions { o with progress := false } rest
  | ["--config"] => return o
  | "--config" :: _ :: rest => readOptions o rest
  | ["--threads"] => do
    warnOption "--threads requires a number"
    return o
  | "--threads" :: count :: rest => do
    match Environment.readCount? count with
    | some threads => readOptions { o with threads := max threads 1 } rest
    | none =>
      warnOption s!"invalid thread count '{count}', using default"
      readOptions o rest
  | ["--max-files"] => do
    warnOption "--max-files requires a number"
    return o
  | "--max-files" :: count :: rest => do
    match Environment.readCount? count with
    | some maxFiles => readOptions { o with maxFiles := some maxFiles } rest
    | none =>
      warnOption s!"invalid max files '{count}', ignoring"
      readOptions o rest
  | other :: rest => do
    warnOption s!"unknown option '{other}'"
    readOptions o rest

/-- An error with the source line it is about, its stage, its code and an advice. -/
def explain (tree : Tree) (path : Path) (e : ClassError) : String :=
  let excerpt :=
    match e.span?, tree.readText path with
    | some span, .ok text => (Listing.ofText path text.toList).excerpt span e.message
    | _, _ => ""
  excerpt ++ s!"  {e.stage} stage: {e.message}\n" ++
    s!"  [{e.code.text}] {e.code.severity.text}: {e.code.advice}\n"

def compileOne (path : Path) : Action Bool := do
  let settings := (← get).settings.source
  match ← (compileFile settings path).run with
  | .ok file =>
    let c := file.compiled
    say <| s!"Compiled {path} -> {file.output} " ++
      s!"({c.tokens} tokens, {c.subroutines} functions, {c.commandCount} commands)"
    return true
  | .error e =>
    let tree := (← get).tree
    complain (s!"FAILED: {path}\n" ++ explain tree path e)
    return false

def sayOutcome (b : BatchOutcome) : Action Unit := do
  say ""
  say b.summary
  if !b.failed.isEmpty then
    say "\nFailed files:"
    for (path, e) in b.failed do
      say s!"  {path}: [{e.code.text}] {e.stage} error"

def compileAll (path : Path) (o : BatchOptions) : Action Bool := do
  say s!"Compiling {path} ({o.threads} threads, fail_fast={o.failFast})"
  match ← (compileDirectory path o).run with
  | .ok outcome =>
    sayOutcome outcome
    return outcome.failed.isEmpty
  | .error e =>
    complain s!"Batch compilation failed: {e.message}\n"
    return false

/-- Compiles an input with options. `batch` holds what the options start from. -/
def compileInput (logging : LoggingSettings) (input : Path) (batch : BatchOptions)
    (options : List String) : Action Bool := do
  raise startedEvent
  let o ← readOptions { batch with progress := true } options
  let tree := (← get).tree
  if tree.isFile input then
    let succeeded ← compileOne input
    showSummary logging
    return succeeded
  else if tree.isDirectory input then
    let succeeded ← compileAll input o
    showSummary logging
    return succeeded
  else
    complain s!"Error: input must be a .jack file or a directory\n  Path: {input}\n"
    return false

end Compiler

open Compiler

/-- The settings of a run: those of the environment, and for logging and batches those of a file if
one is named. -/
def compilerSettings (env : Environment) (tree : Tree) (options : List String) :
    Except String Settings := do
  match ← settingsFile? options with
  | none => return .ofEnvironment env
  | some path => loadSettings env tree path

def runCompiler (env : Environment) (arguments : List String) (tree : Tree) : Exit × Tree :=
  match arguments with
  | [] => ({ code := 1, console := { errors := usage } }, tree)
  | "--help" :: _ | "-h" :: _ => ({ code := 0, console := { output := help } }, tree)
  | input :: options =>
    match compilerSettings env tree options with
    | .error message => ({ code := 1, console := { errors := s!"Error: {message}\n" } }, tree)
    | .ok settings =>
      let logging := settings.logging
      runAction (sessionOf env logging tree) (.ofSettings logging) logging.least <|
        compileInput logging input (.ofSettings settings.batch settings.source) options

end JackToolchain.CommandLine
