import JackToolchain.Token.Basic

/-!
# Syntax trees

A class owns its variables and subroutines, a subroutine its parameters, locals and statements, and
a statement its expressions. Every node but a type carries the span from its first to its last
token; parentheses leave no node behind.
-/

namespace JackToolchain.Syntax

open JackToolchain.Source JackToolchain.Token

inductive TypeName
  | int
  | char
  | boolean
  | named (className : String)
  deriving DecidableEq, Repr

namespace TypeName

def text : TypeName → String
  | int => "int"
  | char => "char"
  | boolean => "boolean"
  | named className => className

def ofKeyword? : Keyword → Option TypeName
  | .intWord => some int
  | .charWord => some char
  | .booleanWord => some boolean
  | _ => none

def ofKind? : Kind → Option TypeName
  | .keyword word => ofKeyword? word
  | .identifier name => some (named name)
  | _ => none

def ofToken? (t : Token) : Option TypeName := ofKind? t.kind

end TypeName

inductive ClassVarKind
  | static
  | field
  deriving DecidableEq, Repr

inductive SubroutineKind
  | constructor
  | function
  | method
  deriving DecidableEq, Repr

namespace SubroutineKind

def text : SubroutineKind → String
  | constructor => "constructor"
  | function => "function"
  | method => "method"

def ofKeyword? : Keyword → Option SubroutineKind
  | .constructorWord => some constructor
  | .functionWord => some function
  | .methodWord => some method
  | _ => none

end SubroutineKind

inductive BinaryOp
  | or
  | and
  | equal
  | less
  | greater
  | lessEqual
  | greaterEqual
  | add
  | subtract
  | multiply
  | divide
  deriving DecidableEq, Repr

namespace BinaryOp

def ofSymbol? : Symbol → Option BinaryOp
  | .bar => some or
  | .ampersand => some and
  | .equal => some equal
  | .less => some less
  | .greater => some greater
  | .lessEqual => some lessEqual
  | .greaterEqual => some greaterEqual
  | .plus => some add
  | .minus => some subtract
  | .star => some multiply
  | .slash => some divide
  | _ => none

def symbol : BinaryOp → Symbol
  | or => .bar
  | and => .ampersand
  | equal => .equal
  | less => .less
  | greater => .greater
  | lessEqual => .lessEqual
  | greaterEqual => .greaterEqual
  | add => .plus
  | subtract => .minus
  | multiply => .star
  | divide => .slash

/-- The loosest operators have precedence one. -/
def precedence : BinaryOp → Nat
  | or => 1
  | and => 2
  | equal => 3
  | less | greater | lessEqual | greaterEqual => 4
  | add | subtract => 5
  | multiply | divide => 6

@[simp] theorem ofSymbol?_symbol (op : BinaryOp) : ofSymbol? op.symbol = some op := by
  cases op <;> rfl

/-- How many precedences there are. -/
def levels : Nat := 6

theorem precedence_le_levels (op : BinaryOp) : op.precedence ≤ levels := by
  cases op <;> decide

end BinaryOp

inductive UnaryOp
  | negate
  | not
  deriving DecidableEq, Repr

namespace UnaryOp

def ofSymbol? : Symbol → Option UnaryOp
  | .minus => some negate
  | .tilde => some not
  | _ => none

end UnaryOp

inductive Expression
  | integer (value : Nat) (span : Span)
  | string (value : String) (span : Span)
  | boolean (value : Bool) (span : Span)
  | null (span : Span)
  | this (span : Span)
  | var (name : String) (span : Span)
  /-- `array[index]` -/
  | element (array : String) (index : Expression) (span : Span)
  /-- `receiver.name(arguments)`, or `name(arguments)` without a receiver -/
  | call (receiver : Option String) (name : String) (arguments : List Expression) (span : Span)
  | unary (op : UnaryOp) (operand : Expression) (span : Span)
  | binary (op : BinaryOp) (left right : Expression) (span : Span)
  deriving Repr

namespace Expression

def span : Expression → Span
  | integer _ s | string _ s | boolean _ s | null s | this s | var _ s | element _ _ s
  | call _ _ _ s | unary _ _ s | binary _ _ _ s => s

/-- Two operands around an operator; the span covers both. -/
def join (op : BinaryOp) (left right : Expression) : Expression :=
  binary op left right (left.span.merge right.span)

end Expression

/-- A call that stands by itself in a statement. -/
structure Call where
  receiver : Option String
  name : String
  arguments : List Expression
  span : Span
  deriving Repr

namespace Call

def toExpression (c : Call) : Expression :=
  .call c.receiver c.name c.arguments c.span

end Call

inductive Statement
  /-- `let target = value;` -/
  | letVariable (target : String) (value : Expression) (span : Span)
  /-- `let target[index] = value;` -/
  | letElement (target : String) (index value : Expression) (span : Span)
  | ifThen (condition : Expression) (consequent : List Statement) (span : Span)
  | ifElse (condition : Expression) (consequent alternate : List Statement) (span : Span)
  | whileLoop (condition : Expression) (body : List Statement) (span : Span)
  | doCall (call : Call) (span : Span)
  | return (value : Option Expression) (span : Span)
  deriving Repr

namespace Statement

def span : Statement → Span
  | letVariable _ _ s | letElement _ _ _ s | ifThen _ _ s | ifElse _ _ _ s | whileLoop _ _ s
  | doCall _ s | «return» _ s => s

end Statement

/-- `static` or `field` variables of one type. -/
structure ClassVars where
  kind : ClassVarKind
  type : TypeName
  names : List String
  span : Span
  deriving Repr

structure Parameter where
  type : TypeName
  name : String
  span : Span
  deriving Repr

/-- `var` variables of one type. -/
structure Locals where
  type : TypeName
  names : List String
  span : Span
  deriving Repr

structure Subroutine where
  kind : SubroutineKind
  /-- Absent for `void`. -/
  returnType : Option TypeName
  name : String
  parameters : List Parameter
  locals : List Locals
  body : List Statement
  span : Span
  deriving Repr

namespace Subroutine

def localCount (s : Subroutine) : Nat :=
  (s.locals.flatMap (·.names)).length

end Subroutine

structure ClassTree where
  name : String
  classVars : List ClassVars
  subroutines : List Subroutine
  span : Span
  deriving Repr

namespace ClassTree

def countOf (c : ClassTree) (kind : ClassVarKind) : Nat :=
  ((c.classVars.filter (·.kind == kind)).flatMap (·.names)).length

/-- How many words an object of the class takes. -/
def fieldCount (c : ClassTree) : Nat := c.countOf .field

def staticCount (c : ClassTree) : Nat := c.countOf .static

end ClassTree

end JackToolchain.Syntax
