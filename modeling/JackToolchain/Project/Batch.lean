import JackToolchain.Project.Class

/-!
# Batches

A batch compiles every source directly inside a directory, each on its own, in the order of their
names. It goes on after a failure unless it is told to stop or the failure is an internal fault.
-/

namespace JackToolchain

open JackToolchain.Diagnostics JackToolchain.Files

/-- Why a batch has nothing to compile. -/
inductive BatchError
  | directoryNotFound (path : Path)
  | noFiles (path : Path)
  | tooManyFiles (count : Nat)
  deriving DecidableEq, Repr

namespace BatchError

def message : BatchError → String
  | directoryNotFound path => s!"Directory not found: {path}"
  | noFiles path => s!"No .jack files found in directory: {path}"
  | tooManyFiles count => s!"Too many files found: {count} (max: {Limits.maxFilesPerBatch})"

def code : BatchError → Code
  | directoryNotFound _ | noFiles _ => .discoveryFailed
  | tooManyFiles _ => .tooManyFiles

def event (e : BatchError) : Event := .error e.code e.message

end BatchError

structure BatchOptions where
  /-- With one thread, files are compiled by the caller itself. -/
  threads : Nat
  /-- No more files than this are compiled, the first ones by name. -/
  maxFiles : Option Nat := none
  progress : Bool := false
  failFast : Bool := false
  source : SourceSettings := {}
  deriving DecidableEq, Repr

namespace BatchOptions

def ofSettings (batch : BatchSettings) (source : SourceSettings) : BatchOptions :=
  { threads := clampThreads batch.threads
    progress := batch.progress
    failFast := batch.failFast
    source }

/-- No file is compiled after this failure. -/
def stops (o : BatchOptions) (e : ClassError) : Bool :=
  o.failFast || e.code.halts

/-- No file is compiled after one that came to this. -/
def stopsAfter (o : BatchOptions) : Except ClassError CompiledFile → Bool
  | .error e => o.stops e
  | .ok _ => false

end BatchOptions

/-- What became of each file, in order. -/
structure BatchOutcome where
  discovered : Nat
  files : List (Path × Except ClassError CompiledFile)

namespace BatchOutcome

def processed (b : BatchOutcome) : Nat := b.files.length

def succeeded (b : BatchOutcome) : List (Path × CompiledFile) :=
  b.files.filterMap fun (path, result) => result.toOption.map (path, ·)

def failed (b : BatchOutcome) : List (Path × ClassError) :=
  b.files.filterMap fun (path, result) =>
    match result with
    | .error e => some (path, e)
    | .ok _ => none

def skipped (b : BatchOutcome) : Nat := b.discovered - b.processed

/-- The share of successes in percent. -/
def percentage (b : BatchOutcome) : Float :=
  if b.processed = 0 then 0
  else b.succeeded.length.toFloat / b.processed.toFloat * 100

def summary (b : BatchOutcome) : String :=
  s!"{b.processed} files compiled, {b.succeeded.length} succeeded " ++
    s!"({Text.fixedFloat 1 b.percentage}%), {b.failed.length} failed, {b.skipped} skipped in " ++
    s!"{Project.untimed}s"

end BatchOutcome

namespace Project

/-- The sources directly inside a directory, by name. -/
def discoverSources (directory : Path) (maxFiles : Option Nat) : Attempt BatchError (List Path) := do
  raise (.info "Starting file discovery" [("directory", directory)])
  let fails {α : Type} (e : BatchError) : Attempt BatchError α := failWith e.event e
  let tree := (← get).tree
  if !tree.isDirectory directory then
    fails (.directoryNotFound directory)
  let names := (tree.list directory).toOption.getD []
  let files := (names.map directory.child).filter fun path =>
    path.isJackSource && tree.isFile path
  if files.isEmpty then
    fails (.noFiles directory)
  if files.length > Limits.maxFilesPerBatch then
    fails (.tooManyFiles files.length)
  let limit := maxFiles.getD files.length
  if files.length > limit then
    raise (.warning "Reached maximum file limit"
      [("files_found", toString files.length), ("limit", toString limit)])
  let files := files.take limit
  raise (.debug "File discovery completed"
    [("files_found", toString files.length), ("directory", directory)])
  return files

/-- Compiles files in order, until none is left or a failure stops the batch. `each` is what happens
in front of a file. -/
def compileFiles (o : BatchOptions) (each : Path × Nat → Action Unit) :
    List (Path × Nat) → Action (List (Path × Except ClassError CompiledFile) × Bool)
  | [] => return ([], false)
  | (path, number) :: rest => do
    each (path, number)
    let result ← (compileFile o.source path).run
    if o.stopsAfter result then return ([(path, result)], true)
    else
      let (others, stopped) ← compileFiles o each rest
      return ((path, result) :: others, stopped)

def reportBatch (mode : String) (threads : Nat) (b : BatchOutcome) : Action Unit :=
  raise (.success .batchDone "Batch compilation completed"
    [("mode", mode), ("files_processed", toString b.processed),
      ("successful", toString b.succeeded.length), ("failed", toString b.failed.length),
      ("threads", toString threads), ("duration_ms", untimed)])

/-- Compiles discovered files and reports how it went. -/
def compileDiscovered (o : BatchOptions) (files : List Path) (each : Path × Nat → Action Unit)
    (mode : String) (threads : Nat) (stopMessage : String) : Action BatchOutcome := do
  let (results, stopped) ← compileFiles o each (files.zipIdx 1)
  let outcome : BatchOutcome := { discovered := files.length, files := results }
  if stopped then
    raise (.warning stopMessage
      [("fail_fast", toString o.failFast), ("skipped", toString outcome.skipped)])
  reportBatch mode threads outcome
  return outcome

/-- Compiles one file after the other. -/
def compileSequentially (directory : Path) (o : BatchOptions) :
    Attempt BatchError BatchOutcome := do
  raise (.info "Starting sequential batch compilation" [("directory", directory)])
  let files ← discoverSources directory o.maxFiles
  let each : Path × Nat → Action Unit := fun (path, number) =>
    if o.progress then say s!"Compiling file {number} of {files.length}: {path}" else return
  compileDiscovered o files each "sequential" 1 "Stopping batch compilation after a failure"

/-- Shares the files among threads. No file depends on another one, so the outcome is that of one
thread that takes them in order. -/
def compileInParallel (directory : Path) (o : BatchOptions) : Attempt BatchError BatchOutcome := do
  let files ← discoverSources directory o.maxFiles
  let threads := min (clampThreads o.threads) files.length
  raise (.info "Starting parallel batch compilation"
    [("directory", directory), ("threads", toString threads), ("files", toString files.length)])
  compileDiscovered o files (fun _ => return) "parallel" threads
    "Stopped scheduling after a failure"

def compileDirectory (directory : Path) (o : BatchOptions) : Attempt BatchError BatchOutcome :=
  if o.threads ≤ 1 then compileSequentially directory o else compileInParallel directory o

end Project

end JackToolchain
