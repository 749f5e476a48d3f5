import JackToolchain.Stack.Text

/-!
# Errors of the machine
-/

namespace JackToolchain

open JackToolchain.Diagnostics JackToolchain.Stack

/-- Why files do not link to a program. -/
inductive LinkError
  | badText (file : String) (e : ReadError)
  | duplicateFunction (name : String)
  | unknownLabel (function label : String)
  | staticOverflow (file : String)
  deriving DecidableEq, Repr

namespace LinkError

def message : LinkError → String
  | badText file e => s!"{file}: {e.message}"
  | duplicateFunction name => s!"function '{name}' is defined twice"
  | unknownLabel function label => s!"label '{label}' is not defined in '{function}'"
  | staticOverflow file => s!"{file}: static segment exceeds RAM 16..256"

def code : LinkError → Code
  | badText _ e => e.code
  | duplicateFunction _ | staticOverflow _ => .illegalOperation
  | unknownLabel .. => .unknownLabel

/-- A bad text is reported as what it is. -/
def event : LinkError → Event
  | badText _ e => e.event
  | e => .error e.code e.message

end LinkError

namespace Machine

/-- What a routine refuses. -/
inductive Fault
  | capacityExceeded
  | indexOutOfBounds
  | negativeSize
  | ranPastEnd
  deriving DecidableEq, Repr

namespace Fault

def text : Fault → String
  | capacityExceeded => "string capacity exceeded"
  | indexOutOfBounds => "index out of bounds"
  | negativeSize => "negative size"
  | ranPastEnd => "ran past the last command"

end Fault

end Machine

/-- Why a run does not end with a value. -/
inductive RunError
  | missingEntry (name : String)
  | unknownFunction (function name : String)
  | arityMismatch (name : String) (expected actual : Nat)
  | stepLimitExceeded (limit : Nat)
  | divisionByZero (function : String)
  | heapExhausted (requested : Int16)
  | invalidAddress (function : String) (address : Int)
  | fault (routine function : String) (cause : Machine.Fault)
  deriving DecidableEq, Repr

namespace RunError

def message : RunError → String
  | missingEntry name => s!"entry function '{name}' not found"
  | unknownFunction function name => s!"call to undefined function '{name}' in '{function}'"
  | arityMismatch name expected actual =>
    s!"'{name}' expects {expected} arguments, called with {actual}"
  | stepLimitExceeded limit => s!"execution exceeded {limit} steps"
  | divisionByZero function => s!"division by zero in '{function}'"
  | heapExhausted requested => s!"heap exhausted allocating {requested.toInt} words"
  | invalidAddress function address => s!"address {address} out of range in '{function}'"
  | fault routine function cause => s!"{routine}: {cause.text} (in '{function}')"

def code : RunError → Code
  | missingEntry _ | unknownFunction .. => .unknownFunction
  | stepLimitExceeded _ => .stepLimitExceeded
  | arityMismatch .. | divisionByZero _ | heapExhausted _ | invalidAddress .. | fault .. =>
    .runtimeFault

def event (e : RunError) : Event := .error e.code e.message

end RunError

end JackToolchain
