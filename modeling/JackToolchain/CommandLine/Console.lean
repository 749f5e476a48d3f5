import JackToolchain.Project.Session

/-!
# The console

What a command shows of its session: lines that were printed, and events as the logging settings
want them.
-/

namespace JackToolchain.CommandLine

open JackToolchain.Diagnostics JackToolchain.Files JackToolchain.Project

/-- How events are shown. -/
inductive Sink
  /-- Not at all. -/
  | silent
  /-- Errors alone. -/
  | quiet
  /-- As lines of text; warnings and errors go where errors go. -/
  | console
  /-- As JSON lines. -/
  | structured
  deriving DecidableEq, Repr

def Sink.ofSettings (s : LoggingSettings) : Sink :=
  if s.structured then .structured else if s.console then .console else .quiet

/-- What a command has written to its two outputs. -/
structure Console where
  output : String := ""
  errors : String := ""
  deriving DecidableEq, Repr

namespace Console

def print (c : Console) (text : String) : Console := { c with output := c.output ++ text }

def complain (c : Console) (text : String) : Console := { c with errors := c.errors ++ text }

/-- Shows an event whose level is within the least one shown. -/
def showEvent (sink : Sink) (least : Level) (c : Console) (e : Event) : Console :=
  if !e.level.within least then c
  else
    match sink with
    | .silent => c
    | .quiet => if e.isError then c.complain (e.text ++ "\n") else c
    | .console =>
      if e.isError || e.isWarning then c.complain (e.text ++ "\n") else c.print (e.text ++ "\n")
    | .structured =>
      let line := e.json untimed ++ "\n"
      if e.isError then c.complain line else c.print line

def showNote (sink : Sink) (least : Level) (c : Console) : Note → Console
  | .event e => c.showEvent sink least e
  | .output text => c.print text
  | .errors text => c.complain text

end Console

/-- How a command ended. -/
structure Exit where
  code : Nat
  console : Console := {}
  deriving DecidableEq, Repr

/-- Refused arguments: nothing was done. -/
def Exit.usage : Exit := { code := 2 }

/-- Runs an action and shows what it left in the journal. The action says whether it succeeded. -/
def runAction (session : Session) (sink : Sink) (least : Level) (act : Action Bool) :
    Exit × Tree :=
  let (succeeded, session) := act.run session
  let console := session.journal.foldl (Console.showNote sink least) {}
  ({ code := if succeeded then 0 else 1, console }, session.tree)

/-- The session of a command, whose settings come from its environment. -/
def sessionOf (env : Environment) (logging : LoggingSettings) (tree : Tree) : Session :=
  { tree, settings := .ofEnvironment env, traced := logging.least == .debug }

/-- Ends a logged run with the summary of its report. -/
def showSummary (logging : LoggingSettings) : Action Unit := do
  if logging.summary then
    let report := (← get).report
    complain (report.text ++ "\n")

/-- The first event of a logged run. -/
def startedEvent : Event := .success .started "Logging initialized"

end JackToolchain.CommandLine
