import JackToolchain.Diagnostics.Event
import JackToolchain.Files.Path
import JackToolchain.Limits

/-!
# Reports

The warnings and errors of a run, kept per file up to a cap, and the summary that is shown in the
end.
-/

namespace JackToolchain.Diagnostics

open JackToolchain.Files

/-- The events of one file. Those past the cap are counted in `dropped`. -/
structure FileRecord where
  events : Array Event := #[]
  dropped : Nat := 0

namespace FileRecord

def add (r : FileRecord) (e : Event) : FileRecord :=
  if r.events.size < Limits.maxEventsPerFile then { r with events := r.events.push e }
  else { r with dropped := r.dropped + 1 }

def errors (r : FileRecord) : Nat :=
  r.events.toList.countP Event.isError

def warnings (r : FileRecord) : Nat :=
  r.events.toList.countP Event.isWarning

end FileRecord

structure Totals where
  files : Nat := 0
  clean : Nat := 0
  failed : Nat := 0
  errors : Nat := 0
  warnings : Nat := 0
  deriving DecidableEq, Repr

/-- Files in the order of their paths, each with its record. -/
structure Report where
  files : List (Path × FileRecord) := []

namespace Report

/-- Changes the record of a file, a new one if the file is not known yet. -/
def updateFile (path : Path) (f : FileRecord → FileRecord) :
    List (Path × FileRecord) → List (Path × FileRecord)
  | [] => [(path, f {})]
  | (p, r) :: rest =>
    match path.compare p with
    | .lt => (path, f {}) :: (p, r) :: rest
    | .eq => (p, f r) :: rest
    | .gt => (p, r) :: updateFile path f rest

/-- Counts a file even if it never reports anything. -/
def begin (report : Report) (path : Path) : Report :=
  ⟨updateFile path id report.files⟩

def record (report : Report) (path : Path) (e : Event) : Report :=
  ⟨updateFile path (·.add e) report.files⟩

def fileRecord (report : Report) (path : Path) : FileRecord :=
  ((report.files.find? fun (p, _) => path.compare p == .eq).map (·.2)).getD {}

def events (report : Report) (path : Path) : List Event :=
  (report.fileRecord path).events.toList

def hasErrors (report : Report) (path : Path) : Bool :=
  (report.events path).any Event.isError

def totals (report : Report) : Totals :=
  report.files.foldl (fun t (_, r) =>
    { files := t.files + 1
      clean := if r.errors = 0 then t.clean + 1 else t.clean
      failed := if r.errors = 0 then t.failed else t.failed + 1
      errors := t.errors + r.errors
      warnings := t.warnings + r.warnings }) {}

/-- The block of one event: label, code and message, then place, values and advice. -/
def eventBlock (path : Path) (e : Event) : String :=
  let label := if e.isError then "error" else "warning"
  let place := e.span.elim path fun span => s!"{path}:{span.start.text}"
  let values := e.context.map fun (key, value) => s!"   = {key}: {value}\n"
  let help :=
    if e.isError && e.code.category != "Unknown" then s!"   = help: {e.code.advice}\n" else ""
  s!"{label}[{e.code.text}]: {e.message}\n  --> {place}\n" ++ String.join values ++ help ++ "\n"

def fileBlock (path : Path) (r : FileRecord) : String :=
  let shown := r.events.toList.filter fun e => e.isError || e.isWarning
  String.join (shown.map (eventBlock path)) ++
    if r.dropped = 0 then ""
    else s!"note: {r.dropped} more event(s) for {path} not shown\n\n"

/-- A block for each warning and error, then the totals. -/
def text (report : Report) : String :=
  let t := report.totals
  String.join (report.files.map fun (path, r) => fileBlock path r) ++
    s!"{t.files} file(s) processed: {t.clean} compiled, {t.failed} failed" ++
    (if t.errors = 0 then "" else s!"; {t.errors} error(s)") ++
    if t.warnings = 0 then "" else s!"; {t.warnings} warning(s)"

end Report

end JackToolchain.Diagnostics
