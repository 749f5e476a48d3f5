import JackToolchain.Token.Basic
import JackToolchain.Token.Error

/-!
# Syntax errors
-/

namespace JackToolchain

namespace Syntax

open JackToolchain.Source JackToolchain.Diagnostics JackToolchain.Token

/-- What the grammar admits at a point. -/
inductive Expected
  | keyword (word : Keyword)
  | symbol (symbol : Symbol)
  | identifier
  | type
  | statement
  | expression
  /-- A subroutine or the end of the class. -/
  | member
  | token
  deriving DecidableEq, Repr

namespace Expected

def text : Expected → String
  | keyword word => s!"keyword '{word.text}'"
  | symbol s => s!"symbol '{s.text}'"
  | identifier => "identifier"
  | type => "type"
  | statement => "statement"
  | expression => "expression"
  | member => "'constructor', 'function', 'method' or '\x7d'"
  | token => "token"

end Expected

end Syntax

open JackToolchain.Source JackToolchain.Diagnostics JackToolchain.Syntax

inductive SyntaxError
  | unexpectedToken (expected : Expected) (found : String) (span : Span)
  | unexpectedEnd (expected : Expected) (at' : Position)
  | trailingInput (found : String) (span : Span)
  | tooDeep (span : Span)
  | lexical (e : LexError)
  deriving DecidableEq, Repr

namespace SyntaxError

def message : SyntaxError → String
  | unexpectedToken expected found span =>
    s!"Unexpected token: expected {expected.text}, found '{found}' at {span.text}"
  | unexpectedEnd expected place =>
    s!"Unexpected end of input at {place.text}: expected {expected.text}"
  | trailingInput found span =>
    s!"Unexpected input after class body: '{found}' at {span.text}"
  | tooDeep span => s!"Maximum nesting depth exceeded at {span.text}"
  | lexical e => e.message

def code : SyntaxError → Code
  | unexpectedToken .. => .unexpectedToken
  | unexpectedEnd .. => .unexpectedEndOfInput
  | trailingInput .. => .trailingInput
  | tooDeep _ => .maxRecursionDepth
  | lexical e => e.code

def span? : SyntaxError → Option Span
  | unexpectedToken _ _ span | trailingInput _ span | tooDeep span => some span
  | unexpectedEnd _ at' => some (.point at')
  | lexical _ => none

/-- The report of an error met with the lexer at a position. -/
def events (e : SyntaxError) (at' : Position) : List Event :=
  match e with
  | lexical e => e.events at'
  | e => [(Event.error e.code e.message).withSpan e.span?]

end SyntaxError

end JackToolchain
