import JackToolchain.Source.Position

/-!
# Tokens

Reserved words, symbols and literals, each token with its text as written and its span.
-/

namespace JackToolchain

namespace Token

open JackToolchain.Source

inductive Keyword
  | classWord
  | constructorWord
  | functionWord
  | methodWord
  | fieldWord
  | staticWord
  | varWord
  | intWord
  | charWord
  | booleanWord
  | voidWord
  | trueWord
  | falseWord
  | nullWord
  | thisWord
  | letWord
  | doWord
  | ifWord
  | elseWord
  | whileWord
  | returnWord
  deriving DecidableEq, Repr

namespace Keyword

def text : Keyword → String
  | classWord => "class"
  | constructorWord => "constructor"
  | functionWord => "function"
  | methodWord => "method"
  | fieldWord => "field"
  | staticWord => "static"
  | varWord => "var"
  | intWord => "int"
  | charWord => "char"
  | booleanWord => "boolean"
  | voidWord => "void"
  | trueWord => "true"
  | falseWord => "false"
  | nullWord => "null"
  | thisWord => "this"
  | letWord => "let"
  | doWord => "do"
  | ifWord => "if"
  | elseWord => "else"
  | whileWord => "while"
  | returnWord => "return"

def all : List Keyword :=
  [.classWord, .constructorWord, .functionWord, .methodWord, .fieldWord, .staticWord, .varWord,
    .intWord, .charWord, .booleanWord, .voidWord, .trueWord, .falseWord, .nullWord, .thisWord,
    .letWord, .doWord, .ifWord, .elseWord, .whileWord, .returnWord]

def ofText? (text : String) : Option Keyword :=
  all.find? fun k => k.text == text

/-- The word names a type. -/
def isType : Keyword → Bool
  | intWord | charWord | booleanWord => true
  | _ => false

def startsStatement : Keyword → Bool
  | letWord | doWord | ifWord | whileWord | returnWord => true
  | _ => false

/-- The word is an expression by itself. -/
def isConstant : Keyword → Bool
  | trueWord | falseWord | nullWord | thisWord => true
  | _ => false

@[simp] theorem ofText?_text (k : Keyword) : ofText? k.text = some k := by
  cases k <;> decide

end Keyword

inductive Symbol
  | leftBrace
  | rightBrace
  | leftParen
  | rightParen
  | leftBracket
  | rightBracket
  | dot
  | comma
  | semicolon
  | plus
  | minus
  | star
  | slash
  | ampersand
  | bar
  | less
  | greater
  | lessEqual
  | greaterEqual
  | equal
  | tilde
  deriving DecidableEq, Repr

namespace Symbol

def text : Symbol → String
  | leftBrace => "\x7b"
  | rightBrace => "\x7d"
  | leftParen => "("
  | rightParen => ")"
  | leftBracket => "["
  | rightBracket => "]"
  | dot => "."
  | comma => ","
  | semicolon => ";"
  | plus => "+"
  | minus => "-"
  | star => "*"
  | slash => "/"
  | ampersand => "&"
  | bar => "|"
  | less => "<"
  | greater => ">"
  | lessEqual => "<="
  | greaterEqual => ">="
  | equal => "="
  | tilde => "~"

def all : List Symbol :=
  [.leftBrace, .rightBrace, .leftParen, .rightParen, .leftBracket, .rightBracket, .dot, .comma,
    .semicolon, .plus, .minus, .star, .slash, .ampersand, .bar, .less, .greater, .lessEqual,
    .greaterEqual, .equal, .tilde]

def ofText? (text : String) : Option Symbol :=
  all.find? fun s => s.text == text

@[simp] theorem ofText?_text (s : Symbol) : ofText? s.text = some s := by
  cases s <;> decide

end Symbol

/-- A token's class, with its value where it has one. -/
inductive Kind
  | keyword (word : Keyword)
  | symbol (spelling : Symbol)
  | identifier (name : String)
  /-- The text between the quotes. -/
  | stringLiteral (value : String)
  | integerLiteral (value : Nat)
  deriving DecidableEq, Repr

namespace Kind

/-- What a message calls a token of this kind. -/
def describe : Kind → String
  | keyword word => s!"keyword '{word.text}'"
  | symbol s => s!"symbol '{s.text}'"
  | identifier _ => "identifier"
  | stringLiteral _ => "string literal"
  | integerLiteral _ => "integer literal"

end Kind

end Token

structure Token where
  kind : Token.Kind
  /-- The text as written, quotes included. -/
  raw : String
  span : Source.Span
  deriving DecidableEq, Repr

namespace Token

def keyword? (t : Token) : Option Keyword :=
  match t.kind with
  | .keyword word => some word
  | _ => none

def symbol? (t : Token) : Option Symbol :=
  match t.kind with
  | .symbol s => some s
  | _ => none

def identifier? (t : Token) : Option String :=
  match t.kind with
  | .identifier name => some name
  | _ => none

end Token

end JackToolchain
