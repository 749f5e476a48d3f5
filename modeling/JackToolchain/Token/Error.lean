import JackToolchain.Diagnostics.Event
import JackToolchain.Limits

/-!
# Lexical errors
-/

namespace JackToolchain

open JackToolchain.Source JackToolchain.Diagnostics

/-- Why no further token can be read. -/
inductive LexError
  /-- No rule matches. `text` starts where no rule matches and ends at a blank. -/
  | unrecognized (text : String) (line column : Nat)
  | unterminatedString (line column : Nat)
  | unterminatedComment (line column : Nat)
  | integerOutOfRange (text : String) (line column : Nat)
  | identifierTooLong (length line : Nat)
  | stringTooLarge (size line : Nat)
  | tooManyTokens (count : Nat)
  | invalidEncoding (line : Nat)
  | readFailed (message : String) (line : Nat)
  /-- Text was fed after the end of input. -/
  | inputClosed
  /-- The lexer has nothing to pull from. -/
  | noInputSource
  deriving DecidableEq, Repr

namespace LexError

def message : LexError → String
  | unrecognized text line column =>
    s!"Unexpected token: '{text}' at line {line}, column {column}"
  | unterminatedString line column =>
    s!"Unterminated string literal starting at line {line}, column {column}"
  | unterminatedComment line column =>
    s!"Unterminated block comment starting at line {line}, column {column}"
  | integerOutOfRange text line column =>
    s!"Integer literal '{text}' at line {line}, column {column} exceeds {Limits.maxIntegerLiteral}"
  | identifierTooLong length line =>
    s!"Identifier too long: {length} characters (max {Limits.maxIdentifierLength}) at line {line}"
  | stringTooLarge size line =>
    s!"String literal too large: {size} bytes (max {Limits.maxStringSize}) at line {line}"
  | tooManyTokens count => s!"Too many tokens: {count} (max {Limits.maxTokenCount})"
  | invalidEncoding line => s!"Source is not valid UTF-8 at line {line}"
  | readFailed message line => s!"Failed to read source at line {line}: {message}"
  | inputClosed => "Input fed after end-of-input was signalled"
  | noInputSource => "Lexer has neither a chunk source nor finished input to pull from"

def code : LexError → Code
  | unrecognized .. => .unrecognizedInput
  | unterminatedString .. => .unterminatedString
  | unterminatedComment .. => .unterminatedComment
  | integerOutOfRange .. => .integerOutOfRange
  | identifierTooLong .. => .identifierTooLong
  | stringTooLarge .. => .stringTooLarge
  | tooManyTokens _ => .tooManyTokens
  | invalidEncoding _ => .invalidEncoding
  | readFailed .. => .readFailure
  | inputClosed | noInputSource => .internalError

/-- The line that the error points at, if it points at one. -/
def line? : LexError → Option Nat
  | unrecognized _ line _ | unterminatedString line _ | unterminatedComment line _
  | integerOutOfRange _ line _ | identifierTooLong _ line | stringTooLarge _ line
  | invalidEncoding line | readFailed _ line => some line
  | tooManyTokens _ | inputClosed | noInputSource => none

def column? : LexError → Option Nat
  | unrecognized _ _ column | unterminatedString _ column | unterminatedComment _ column
  | integerOutOfRange _ _ column => some column
  | _ => none

/-- Misuse of a lexer is answered but not reported. -/
def isMisuse : LexError → Bool
  | inputClosed | noInputSource => true
  | _ => false

/-- The report of an error met with the lexer at a position. -/
def events (e : LexError) (at' : Position) : List Event :=
  if e.isMisuse then []
  else
    [(Event.error e.code e.message [("offset", toString at'.offset)]).withSpan
      (some (.point at'))]

end LexError

end JackToolchain
