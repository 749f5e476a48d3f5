import JackToolchain.Diagnostics.Report
import JackToolchain.Files.Tree
import JackToolchain.Settings.Basic

/-!
# Sessions

A session works on a tree of files. It keeps a journal of what happened and was printed, and the
report of warnings and errors by file. While a file is being worked on, events carry its path.
-/

namespace JackToolchain.Project

open JackToolchain.Diagnostics JackToolchain.Files

/-- Something that a session leaves in its journal. -/
inductive Note
  | event (e : Event)
  | output (text : String)
  | errors (text : String)

structure Session where
  tree : Tree
  /-- What holds unless a caller says otherwise. -/
  settings : Settings := {}
  /-- The tokens of a source are reported too. -/
  traced : Bool := false
  /-- The file that is being worked on. -/
  file : Option Path := none
  report : Report := {}
  journal : Array Note := #[]

abbrev Action := StateM Session

/-- An action that may fail; what it has done until then stays. -/
abbrev Attempt (ε : Type) := ExceptT ε Action

namespace Session

def raise (s : Session) (e : Event) : Session :=
  match s.file with
  | none => { s with journal := s.journal.push (.event e) }
  | some file =>
    let e := { e with file := some file }
    { s with
      journal := s.journal.push (.event e)
      report := if e.isError || e.isWarning then s.report.record file e else s.report }

def events (s : Session) : Array Event :=
  s.journal.filterMap fun note =>
    match note with
    | .event e => some e
    | _ => none

end Session

/-- Stands in reports for a time that was not taken. -/
def untimed : String := "#"

variable {ε α : Type}

def raise (e : Event) : Action Unit :=
  modify (·.raise e)

def raiseAll (events : Array Event) : Action Unit :=
  modify fun s => events.foldl Session.raise s

/-- Prints a line. -/
def say (line : String) : Action Unit :=
  modify fun s => { s with journal := s.journal.push (.output (line ++ "\n")) }

/-- Prints a text where errors go. -/
def complain (text : String) : Action Unit :=
  modify fun s => { s with journal := s.journal.push (.errors text) }

/-- Reports a failure and fails. -/
def failWith (event : Event) (e : ε) : Attempt ε α := do
  raise event
  throw e

/-- Works on a file. The file counts in the report even if nothing happens to it. -/
def inFile (path : Path) (act : Attempt ε α) : Attempt ε α := ExceptT.mk do
  let outer := (← get).file
  modify fun s => { s with file := some path, report := s.report.begin path }
  let result ← act.run
  modify fun s => { s with file := outer }
  return result

/-- Writes a text and says whether that failed. -/
def writeText (path : Path) (text : String) : Action (Option Fault) := do
  match (← get).tree.write path text.toUTF8 with
  | .error fault => return some fault
  | .ok tree =>
    modify fun s => { s with tree }
    return none

end JackToolchain.Project
