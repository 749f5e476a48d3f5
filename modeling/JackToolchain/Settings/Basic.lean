import JackToolchain.Diagnostics.Event
import JackToolchain.Limits
import JackToolchain.Text.Decimal

/-!
# Settings

What may change from run to run. Variables of the environment set the values, and a document may
override them.
-/

namespace JackToolchain

open JackToolchain.Diagnostics JackToolchain.Text

/-- How source files are taken. -/
structure SourceSettings where
  /-- Files without the extension of sources are refused. -/
  requireExtension : Bool := true
  /-- Every file that was read is reported. -/
  reportReading : Bool := true
  deriving DecidableEq, Repr

structure LexicalSettings where
  /-- Tokens are counted by kind. -/
  detailed : Bool := true
  deriving DecidableEq, Repr

structure BatchSettings where
  threads : Nat := Limits.maxWorkerThreads
  failFast : Bool := false
  progress : Bool := false
  deriving DecidableEq, Repr

structure LoggingSettings where
  /-- Events are JSON lines. -/
  structured : Bool := false
  /-- Events of every level are shown, and not errors alone. -/
  console : Bool := false
  least : Level := .info
  /-- A run ends with a summary. -/
  summary : Bool := true
  deriving DecidableEq, Repr

structure Settings where
  source : SourceSettings := {}
  lexical : LexicalSettings := {}
  batch : BatchSettings := {}
  logging : LoggingSettings := {}
  deriving DecidableEq, Repr

/-- At least one thread, and no more than the limit. -/
def clampThreads (n : Nat) : Nat :=
  max 1 (min n Limits.maxWorkerThreads)

/-- Variables and their values. -/
abbrev Environment := List (String × String)

namespace Environment

def readBool? : String → Option Bool
  | "true" => some true
  | "false" => some false
  | _ => none

def readCount? (text : String) : Option Nat :=
  readUnsigned? Limits.maxWord64 text.toList

def readLevel? (text : String) : Option Level :=
  (Level.read text).toOption

/-- The value of a variable, blanks around it aside. A variable that is absent or cannot be read
leaves the default. -/
def value {α : Type} (env : Environment) (name : String) (read? : String → Option α)
    (default : α) : α :=
  ((env.lookup name).bind fun text => read? (trim text)).getD default

end Environment

namespace Settings

open Environment

/-- The settings that an environment asks for. -/
def ofEnvironment (env : Environment) : Settings :=
  { source :=
      { requireExtension := env.value "JACK_REQUIRE_JACK_EXTENSION" readBool? true
        reportReading := env.value "JACK_ENABLE_PERFORMANCE_LOGGING" readBool? true }
    lexical := { detailed := env.value "JACK_LEXICAL_DETAILED_METRICS" readBool? true }
    batch :=
      { threads := clampThreads <|
          env.value "JACK_BATCH_MAX_THREADS" readCount? Limits.maxWorkerThreads
        failFast := env.value "JACK_BATCH_FAIL_FAST" readBool? false
        progress := env.value "JACK_BATCH_PROGRESS" readBool? false }
    logging :=
      { structured := env.value "JACK_LOGGING_USE_STRUCTURED" readBool? false
        console := env.value "JACK_LOGGING_ENABLE_CONSOLE" readBool? false
        least := env.value "JACK_LOGGING_MIN_LEVEL" readLevel? .info
        summary := env.value "JACK_LOGGING_CARGO_STYLE" readBool? true } }

end Settings

end JackToolchain
