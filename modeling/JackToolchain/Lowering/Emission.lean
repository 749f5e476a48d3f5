import JackToolchain.Diagnostics.Event
import JackToolchain.Stack.Command

/-!
# Emissions

The commands that a piece of a tree is lowered to, up to the first thing that cannot be lowered.
-/

namespace JackToolchain

open JackToolchain.Source JackToolchain.Diagnostics JackToolchain.Stack

namespace Lowering

/-- What is counted in a command by a number of 16 bits. -/
inductive Counted
  | locals
  | fields
  | characters
  | arguments
  deriving DecidableEq, Repr

namespace Counted

def text : Counted → String
  | locals => "local count"
  | fields => "field count"
  | characters => "string length"
  | arguments => "argument count"

end Counted

/-- A part of a tree for which there are no commands. -/
inductive Unsupported
  /-- A string with a character that no constant can hold. -/
  | wideCharacter
  | tooMany (what : Counted) (count : Nat)
  deriving DecidableEq, Repr

namespace Unsupported

def text : Unsupported → String
  | wideCharacter => "string literal with characters outside the 15-bit range"
  | tooMany what count => s!"{what.text} {count}"

end Unsupported

end Lowering

open JackToolchain.Lowering

/-- Why a class cannot be lowered. -/
inductive LoweringError
  | unresolved (name subroutine : String) (span : Span)
  | unsupported (part : Unsupported) (span : Span)
  | tooManyCommands (className : String)
  deriving DecidableEq, Repr

namespace LoweringError

def message : LoweringError → String
  | unresolved name subroutine span =>
    s!"Unresolved identifier '{name}' in {subroutine} at {span.text}"
  | unsupported part span => s!"Cannot lower {part.text} at {span.text}"
  | tooManyCommands className =>
    s!"Class {className} exceeds {Limits.maxCommandsPerClass} commands"

def code : LoweringError → Code
  | unresolved .. => .unresolvedIdentifier
  | unsupported .. => .unsupportedNode
  | tooManyCommands _ => .commandLimitExceeded

def span? : LoweringError → Option Span
  | unresolved _ _ span | unsupported _ span => some span
  | tooManyCommands _ => none

/-- The report of an error in a class. -/
def event (e : LoweringError) (className : String) : Event :=
  (Event.error e.code e.message [("class", className)]).withSpan e.span?

end LoweringError

namespace Lowering

structure Emission where
  code : Array Command := #[]
  stop : Option LoweringError := none

namespace Emission

def ofList (commands : List Command) : Emission := { code := commands.toArray }

def failed (e : LoweringError) : Emission := { stop := some e }

/-- What follows a failure is lost. -/
def append (a b : Emission) : Emission :=
  match a with
  | ⟨code, some e⟩ => ⟨code, some e⟩
  | ⟨code, none⟩ => ⟨code ++ b.code, b.stop⟩

instance : Append Emission := ⟨append⟩

@[simp] theorem append_ok (code : Array Command) (b : Emission) :
    (⟨code, none⟩ : Emission) ++ b = ⟨code ++ b.code, b.stop⟩ := rfl

@[simp] theorem append_failed (code : Array Command) (e : LoweringError) (b : Emission) :
    (⟨code, some e⟩ : Emission) ++ b = ⟨code, some e⟩ := rfl

@[simp] theorem empty_append (a : Emission) : ({} : Emission) ++ a = a := by
  cases a
  simp

@[simp] theorem append_empty (a : Emission) : a ++ ({} : Emission) = a := by
  rcases a with ⟨code, _ | e⟩ <;> simp

theorem append_assoc (a b c : Emission) : a ++ b ++ c = a ++ (b ++ c) := by
  rcases a with ⟨code, _ | e⟩
  · rcases b with ⟨code', _ | e'⟩ <;> simp
  · simp

/-- The commands, if nothing failed and there are at most `room` of them. Too many commands are an
error that comes before a failure behind them. -/
def settle (a : Emission) (room : Nat) (className : String) : Except LoweringError (List Command) :=
  if room < a.code.size then .error (.tooManyCommands className)
  else
    match a.stop with
    | some e => .error e
    | none => .ok a.code.toList

end Emission

end Lowering

end JackToolchain
