import JackToolchain.Diagnostics.Code
import JackToolchain.Source.Position
import JackToolchain.Text.Blank
import JackToolchain.Text.Json

/-!
# Events

What the toolchain reports while it works: a level, a code, a message, and optionally a span, the
file that was being compiled and named values.
-/

namespace JackToolchain.Diagnostics

open JackToolchain.Source
open JackToolchain.Text

inductive Level
  | error
  | warning
  | info
  | debug
  deriving DecidableEq, Repr

namespace Level

/-- Zero is the most severe level. -/
def rank : Level → Nat
  | error => 0
  | warning => 1
  | info => 2
  | debug => 3

/-- The level is at least as severe as another one. -/
def within (level least : Level) : Bool := level.rank ≤ least.rank

def text : Level → String
  | error => "ERROR"
  | warning => "WARN"
  | info => "INFO"
  | debug => "DEBUG"

/-- The spelling in settings and JSON lines. -/
def word : Level → String
  | error => "error"
  | warning => "warning"
  | info => "info"
  | debug => "debug"

def ofWord? : String → Option Level
  | "error" => some error
  | "warning" => some warning
  | "info" => some info
  | "debug" => some debug
  | _ => none

/-- Reads a level by name or number, blanks around it and case aside; a text that is no level is
given back in lower case. -/
def read (text : String) : Except String Level :=
  match (trim text).map Char.toLower with
  | "error" | "0" => .ok error
  | "warn" | "warning" | "1" => .ok warning
  | "info" | "2" => .ok info
  | "debug" | "3" => .ok debug
  | other => .error other

/-- The message for a text that is no level. -/
def unknownMessage (text : String) : String := s!"unknown log level '{text}'"

end Level

/-- Sets the value of a key in a list sorted by key. -/
def insertField (key value : String) : List (String × String) → List (String × String)
  | [] => [(key, value)]
  | (k, v) :: rest =>
    if key < k then (key, value) :: (k, v) :: rest
    else if key = k then (key, value) :: rest
    else (k, v) :: insertField key value rest

structure Event where
  level : Level
  code : Code
  message : String
  span : Option Span := none
  file : Option String := none
  /-- Sorted by key, each key once. -/
  context : List (String × String) := []
  deriving DecidableEq, Repr

namespace Event

def withField (e : Event) (key value : String) : Event :=
  { e with context := insertField key value e.context }

def withFields (e : Event) (fields : List (String × String)) : Event :=
  fields.foldl (fun e (key, value) => e.withField key value) e

def error (code : Code) (message : String) (fields : List (String × String) := []) : Event :=
  withFields { level := .error, code, message } fields

def success (code : Code) (message : String) (fields : List (String × String) := []) : Event :=
  withFields { level := .info, code, message } fields

def warning (message : String) (fields : List (String × String) := []) : Event :=
  withFields { level := .warning, code := .plain "W000", message } fields

def info (message : String) (fields : List (String × String) := []) : Event :=
  withFields { level := .info, code := .plain "I000", message } fields

def debug (message : String) (fields : List (String × String) := []) : Event :=
  withFields { level := .debug, code := .plain "D000", message } fields

def withSpan (e : Event) (span : Option Span) : Event := { e with span := span }

def withoutFields (e : Event) (keys : List String) : Event :=
  { e with context := e.context.filter fun (key, _) => !keys.contains key }

def isError (e : Event) : Bool := e.level == .error

def isWarning (e : Event) : Bool := e.level == .warning

/-- `[LEVEL] CODE - message at line:column in file (key=value, ...)`. -/
def text (e : Event) : String :=
  let place := e.span.elim "" fun span => s!" at {span.start.text}"
  let file := e.file.elim "" fun file => s!" in {file}"
  let context :=
    if e.context.isEmpty then ""
    else " (" ++ ", ".intercalate (e.context.map fun (key, value) => key ++ "=" ++ value) ++ ")"
  s!"[{e.level.text}] {e.code.text} - {e.message}{place}{file}{context}"

def jsonPosition (p : Position) : String :=
  jsonObject [("offset", toString p.offset), ("line", toString p.line),
    ("column", toString p.column)]

def jsonSpan (s : Span) : String :=
  jsonObject [("start", jsonPosition s.start), ("end", jsonPosition s.stop)]

/-- The event as one JSON line. `time` is the text of the time stamp. -/
def json (e : Event) (time : String) : String :=
  jsonObject <|
    [("timestamp", jsonString time), ("level", jsonString e.level.word),
      ("code", jsonString e.code.text), ("category", jsonString e.code.category),
      ("message", jsonString e.message)] ++
    (e.file.map fun file => ("file", jsonString file)).toList ++
    (e.span.map fun span => ("span", jsonSpan span)).toList ++
    (if e.context.isEmpty then []
      else [("context", jsonObject (e.context.map fun (key, value) => (key, jsonString value)))])

end Event

/-- The latest events, up to a capacity. -/
structure Buffer where
  capacity : Nat
  events : List Event := []
  deriving Repr

namespace Buffer

/-- A buffer for at least one event. -/
def ofCapacity (n : Nat) : Buffer := { capacity := max n 1 }

/-- A full buffer loses its oldest event to a new one. -/
def push (b : Buffer) (e : Event) : Buffer :=
  { b with events := (if b.events.length = b.capacity then b.events.drop 1 else b.events) ++ [e] }

/-- Takes the event if its level is within the least severe one admitted. -/
def offer (b : Buffer) (least : Level) (e : Event) : Buffer :=
  if e.level.within least then b.push e else b

def holds (b : Buffer) (code : Code) : Bool :=
  b.events.any fun e => e.code == code

end Buffer

end JackToolchain.Diagnostics
