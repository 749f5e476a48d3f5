import JackToolchain.Lowering.Class
import JackToolchain.Stack.Text
import JackToolchain.Syntax.Parser

/-!
# Compilation

From the tokens of one class to its commands. The first failure ends it; everything that is worth a
report is kept in the order in which it happened.
-/

namespace JackToolchain

open JackToolchain.Source JackToolchain.Diagnostics JackToolchain.Syntax JackToolchain.Stack

inductive CompileError
  | lexing (e : LexError)
  | parsing (e : SyntaxError)
  | lowering (e : LoweringError)
  deriving DecidableEq, Repr

namespace CompileError

/-- A lexical error that a parser meets stays a lexical error. -/
def ofSyntax : SyntaxError → CompileError
  | .lexical e => lexing e
  | e => parsing e

def message : CompileError → String
  | lexing e => s!"Lexical analysis failed: {e.message}"
  | parsing e => s!"Syntax analysis failed: {e.message}"
  | lowering e => s!"Code generation failed: {e.message}"

def code : CompileError → Code
  | lexing e => e.code
  | parsing e => e.code
  | lowering e => e.code

/-- Where in the source the error points. -/
def span? : CompileError → Option Span
  | lexing e => e.line?.map fun line => .point ⟨0, line, e.column?.getD 1⟩
  | parsing e => e.span?
  | lowering e => e.span?

/-- The name of the stage that failed. -/
def stage : CompileError → String
  | lexing _ => "lexical"
  | parsing _ => "syntax"
  | lowering _ => "codegen"

end CompileError

structure CompiledClass where
  className : String
  commands : List Command
  text : String
  tokens : Nat
  lines : Nat
  subroutines : Nat

namespace CompiledClass

def functionCount (c : CompiledClass) : Nat := c.commands.countP Command.isFunction

def commandCount (c : CompiledClass) : Nat := c.commands.length

end CompiledClass

/-- The outcome of compiling a class, with what was reported. -/
structure Compilation where
  result : Except CompileError CompiledClass
  events : Array Event

namespace Compilation

variable {σ : Type} [TokenSource σ]

/-- Reports the end of lexing. -/
def tokenizedEvent (name : String) (m : Metrics) : Event :=
  .success .tokenized "Source tokenized"
    [("source", name), ("tokens", toString m.total), ("identifiers", toString m.identifiers),
      ("comments", toString m.comments)]

/-- Lowers a parsed class. `events` holds what was reported before. -/
def lower (tree : ClassTree) (consumed : Nat) (lexer : Lexer) (events : Array Event) :
    Compilation :=
  let outcome := Lowering.lowerClass tree
  let events := events ++ outcome.events
  match outcome.result with
  | .error e => ⟨.error (.lowering e), events⟩
  | .ok commands =>
    { result := .ok
        { className := tree.name
          commands
          text := render commands
          tokens := consumed
          lines := lexer.linesRead
          subroutines := tree.subroutines.length }
      events }

/-- Compiles the class that a source delivers. The name only labels the report. -/
def ofSource (name : String) (source : σ) : Compilation :=
  match TokenStream.ofSource source with
  | .error (e, s) =>
    ⟨.error (.lexing e), TokenSource.trace s ++ e.events (TokenSource.lexer s).position⟩
  | .ok stream =>
    match ClassTree.ofStream stream with
    | (.error e, s) =>
      ⟨.error (.ofSyntax e), TokenSource.trace s.source ++ e.events s.endPosition⟩
    | (.ok tree, s) =>
      lower tree s.consumed s.lexer <|
        TokenSource.trace s.source ++
          [tree.event s.consumed, tokenizedEvent name s.lexer.metrics]

/-- Compiles the class that a lexer delivers. -/
def ofLexer (name : String) (lexer : Lexer) : Compilation :=
  ofSource name lexer

/-- As `ofLexer`, with every token in the report. -/
def traced (name : String) (lexer : Lexer) : Compilation :=
  ofSource name ({ lexer } : TracedLexer)

end Compilation

end JackToolchain
