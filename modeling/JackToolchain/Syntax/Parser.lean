import JackToolchain.Syntax.Error
import JackToolchain.Syntax.Tree
import JackToolchain.Token.Stream

/-!
# Parsing

The grammar, one class to a source:

```text
class        := 'class' Ident '{' classVars* subroutine* '}'
classVars    := ('static' | 'field') type Ident (',' Ident)* ';'
subroutine   := ('constructor' | 'function' | 'method') ('void' | type) Ident
                '(' parameters? ')' '{' locals* statement* '}'
parameters   := type Ident (',' type Ident)*
locals       := 'var' type Ident (',' Ident)* ';'
statement    := let | if | while | do | return
expression   := six levels of operators, each grouping to the left, the loosest first:
                '|'  '&'  '='  '<' '>' '<=' '>='  '+' '-'  '*' '/'
term         := literal | 'this' | '(' expression ')' | ('-' | '~') term
              | Ident | Ident '[' expression ']' | call
call         := Ident '(' arguments? ')' | Ident '.' Ident '(' arguments? ')'
```

One token of lookahead decides everywhere. Statement lists, expressions and operands of unary
operators may be open inside each other only so often: a parser counts the ones that are open. The
rules for them recurse on `room`, which is never less than the number of further ones.
-/

namespace JackToolchain.Syntax

open JackToolchain.Source JackToolchain.Diagnostics JackToolchain.Token

/-- A stream of tokens and the number of levels of nesting that are open. -/
structure Parser.State (σ : Type) extends TokenStream σ where
  depth : Nat := 0

/-- A parser reads from a stream of tokens and keeps its state also on failure. -/
abbrev Parser (σ α : Type) := ExceptT SyntaxError (StateM (Parser.State σ)) α

namespace Parser

section Steps

variable {σ α β : Type}

@[simp] theorem pure_apply (a : α) (s : State σ) : (pure a : Parser σ α) s = (.ok a, s) := rfl

@[simp] theorem throw_apply (e : SyntaxError) (s : State σ) :
    (throw e : Parser σ α) s = (.error e, s) := rfl

@[simp] theorem get_apply (s : State σ) : (get : Parser σ (State σ)) s = (.ok s, s) := rfl

@[simp] theorem set_apply (s s' : State σ) : (set s' : Parser σ Unit) s = (.ok (), s') := rfl

@[simp] theorem modify_apply (f : State σ → State σ) (s : State σ) :
    (modify f : Parser σ Unit) s = (.ok (), f s) := rfl

theorem bind_apply (p : Parser σ α) (f : α → Parser σ β) (s : State σ) :
    (p >>= f) s =
      match p s with
      | (.ok a, s') => f a s'
      | (.error e, s') => (.error e, s') := by
  change ExceptT.bindCont f (p s).1 (p s).2 = _
  split
  · simp_all [ExceptT.bindCont]
  · simp_all [ExceptT.bindCont]
    rfl

def isKeyword (word : Keyword) : Parser σ Bool := do
  return (← get).isKeyword word

def isSymbol (symbol : Symbol) : Parser σ Bool := do
  return (← get).isSymbol symbol

@[simp] theorem isKeyword_apply (word : Keyword) (s : State σ) :
    isKeyword word s = (.ok (s.isKeyword word), s) := rfl

@[simp] theorem isSymbol_apply (symbol : Symbol) (s : State σ) :
    isSymbol symbol s = (.ok (s.isSymbol symbol), s) := rfl

end Steps

variable {σ : Type} [TokenSource σ] {α : Type}

/-- Fails at the lookahead. -/
def unexpected (expected : Expected) : Parser σ α := do
  let s ← get
  match s.lookahead with
  | some t => throw (.unexpectedToken expected t.raw t.span)
  | none => throw (.unexpectedEnd expected s.endPosition)

/-- Takes the lookahead. -/
def advance : Parser σ Token := do
  let s ← get
  let (answer, toTokenStream) := s.advance
  set { s with toTokenStream }
  match answer with
  | .ok (some t) => pure t
  | .ok none => unexpected .token
  | .error e => throw (.lexical e)

def note (e : Event) : Parser σ Unit :=
  modify fun s => { s with source := TokenSource.note e s.source }

/-- Takes the symbol if it is the lookahead. -/
def eatSymbol (symbol : Symbol) : Parser σ Bool := do
  if ← isSymbol symbol then
    let _ ← advance
    return true
  else return false

def expectKeyword (word : Keyword) : Parser σ Span := do
  if ← isKeyword word then return (← advance).span
  else unexpected (.keyword word)

def expectSymbol (symbol : Symbol) : Parser σ Span := do
  if ← isSymbol symbol then return (← advance).span
  else unexpected (.symbol symbol)

def expectIdentifier : Parser σ (String × Span) := do
  match (← get).lookahead.bind Token.identifier? with
  | some name => return (name, (← advance).span)
  | none => unexpected .identifier

/-- Repeats a step that hands on a value, until it declines. A step that takes no token is the
last one. -/
def iterate (step : α → Parser σ (Option α)) (a : α) : Parser σ α := fun s =>
  match step a s with
  | (.error e, s') => (.error e, s')
  | (.ok none, s') => (.ok a, s')
  | (.ok (some a'), s') => if s'.room < s.room then iterate step a' s' else (.ok a', s')
termination_by s => s.room

/-- An item in front of the items before it, if the stream shows the start of one. -/
def oneMore (starts : State σ → Bool) (item : Parser σ α) (items : List α) :
    Parser σ (Option (List α)) := do
  if starts (← get) then return some ((← item) :: items) else return none

/-- All items from here on, as long as the stream shows the start of one. -/
def many (starts : State σ → Bool) (item : Parser σ α) : Parser σ (List α) := do
  let items ← iterate (oneMore starts item) []
  return items.reverse

/-- An item after a comma, in front of the items before it. -/
def afterComma (item : Parser σ α) (items : List α) : Parser σ (Option (List α)) := do
  if ← eatSymbol .comma then return some ((← item) :: items) else return none

/-- One or more items with commas between them. -/
def separated (item : Parser σ α) : Parser σ (List α) := do
  let items ← iterate (afterComma item) [← item]
  return items.reverse

/-- Items with commas between them, up to a closing parenthesis that is left in place. -/
def listed (item : Parser σ α) : Parser σ (List α) := do
  if ← isSymbol .rightParen then return [] else separated item

/-- Fails because no further level of nesting may be opened at the lookahead. -/
def tooDeep : Parser σ α := do
  throw (.tooDeep (← get).currentSpan)

/-- Runs a rule one level deeper. The count keeps the level that could not be opened. -/
def nested (rule : Parser σ α) : Parser σ α := fun s =>
  let opened := { s with depth := s.depth + 1 }
  if opened.depth > Limits.maxParseDepth then tooDeep opened
  else
    let (result, s') := rule opened
    (result, { s' with depth := s'.depth - 1 })

section Expressions

/-- The operator of a precedence that is the lookahead. -/
def operator? (precedence : Nat) (s : State σ) : Option BinaryOp :=
  (s.lookahead.bind Token.symbol?).bind fun symbol =>
    (BinaryOp.ofSymbol? symbol).filter fun op => op.precedence == precedence

/-- An operator of a precedence and its right operand, joined to the left one. -/
def operation (precedence : Nat) (operand : Parser σ Expression) (left : Expression) :
    Parser σ (Option Expression) := do
  match operator? precedence (← get) with
  | some op => do
    let _ ← advance
    return some (.join op left (← operand))
  | none => return none

/-- Operands with operators of one precedence between them, grouped to the left. -/
def level (precedence : Nat) (operand : Parser σ Expression) : Parser σ Expression := do
  iterate (operation precedence operand) (← operand)

/-- The `count` tightest levels of operators over terms. -/
def levels (term : Parser σ Expression) : Nat → Parser σ Expression
  | 0 => term
  | count + 1 => level (BinaryOp.levels - count) (levels term count)

/-- The rest of a call after its first name. -/
def callRest (expression : Parser σ Expression) (first : String) (start : Span) :
    Parser σ Call := do
  let (receiver, name) ←
    if ← eatSymbol .dot then pure (some first, (← expectIdentifier).1) else pure (none, first)
  let _ ← expectSymbol .leftParen
  let arguments ← listed expression
  let stop ← expectSymbol .rightParen
  return { receiver, name, arguments, span := start.merge stop }

/-- A variable, an element of an array or a call: the token after the name decides. -/
def nameTerm (expression : Parser σ Expression) (name : String) (start : Span) :
    Parser σ Expression := do
  if ← eatSymbol .leftBracket then
    let index ← expression
    let stop ← expectSymbol .rightBracket
    return .element name index (start.merge stop)
  else
    let s ← get
    if s.isSymbol .leftParen || s.isSymbol .dot then
      return (← callRest expression name start).toExpression
    else return .var name start

/-- The expression that a reserved word stands for. -/
def constant? (word : Keyword) : Option (Span → Expression) :=
  match word with
  | .trueWord => some (.boolean true)
  | .falseWord => some (.boolean false)
  | .nullWord => some .null
  | .thisWord => some .this
  | _ => none

/-- A term, given the rules for an expression and for a term inside of it. -/
def termOf (expression term : Parser σ Expression) : Parser σ Expression := do
  match (← get).lookahead.map Token.kind with
  | some (.integerLiteral value) => return .integer value (← advance).span
  | some (.stringLiteral value) => return .string value (← advance).span
  | some (.keyword word) =>
    match constant? word with
    | some constant => return constant (← advance).span
    | none => unexpected .expression
  | some (.symbol symbol) =>
    if symbol = .leftParen then
      let _ ← advance
      let inner ← expression
      let _ ← expectSymbol .rightParen
      return inner
    else
      match UnaryOp.ofSymbol? symbol with
      | some op =>
        let start := (← advance).span
        let inner ← nested term
        return .unary op inner (start.merge inner.span)
      | none => unexpected .expression
  | some (.identifier name) => nameTerm expression name (← advance).span
  | none => unexpected .expression

/-- A term inside of which at most `room` levels can be opened. -/
def term : Nat → Parser σ Expression
  | 0, s => termOf (nested tooDeep) tooDeep s
  | room + 1, s => termOf (nested (levels (term room) BinaryOp.levels)) (term room) s

/-- An expression. It opens a level, and at most `room` levels can be opened for it. -/
def expression : Nat → Parser σ Expression
  | 0 => nested tooDeep
  | room + 1 => nested (levels (term room) BinaryOp.levels)

end Expressions

section Statements

/-- An expression in parentheses. -/
def condition (expression : Parser σ Expression) : Parser σ Expression := do
  let _ ← expectSymbol .leftParen
  let e ← expression
  let _ ← expectSymbol .rightParen
  return e

/-- Statements in braces, and the span of the closing one. -/
def block (statements : Parser σ (List Statement)) : Parser σ (List Statement × Span) := do
  let _ ← expectSymbol .leftBrace
  let body ← statements
  return (body, ← expectSymbol .rightBrace)

def letStatement (expression : Parser σ Expression) : Parser σ Statement := do
  let start ← expectKeyword .letWord
  let (target, _) ← expectIdentifier
  let index ←
    if ← eatSymbol .leftBracket then
      let index ← expression
      let _ ← expectSymbol .rightBracket
      pure (some index)
    else pure none
  let _ ← expectSymbol .equal
  let value ← expression
  let span := start.merge (← expectSymbol .semicolon)
  match index with
  | some index => return .letElement target index value span
  | none => return .letVariable target value span

def ifStatement (expression : Parser σ Expression) (statements : Parser σ (List Statement)) :
    Parser σ Statement := do
  let start ← expectKeyword .ifWord
  let test ← condition expression
  let (consequent, stop) ← block statements
  if ← isKeyword .elseWord then
    let _ ← advance
    let (alternate, stop) ← block statements
    return .ifElse test consequent alternate (start.merge stop)
  else return .ifThen test consequent (start.merge stop)

def whileStatement (expression : Parser σ Expression) (statements : Parser σ (List Statement)) :
    Parser σ Statement := do
  let start ← expectKeyword .whileWord
  let test ← condition expression
  let (body, stop) ← block statements
  return .whileLoop test body (start.merge stop)

def doStatement (expression : Parser σ Expression) : Parser σ Statement := do
  let start ← expectKeyword .doWord
  let (name, nameSpan) ← expectIdentifier
  let call ← callRest expression name nameSpan
  return .doCall call (start.merge (← expectSymbol .semicolon))

def returnStatement (expression : Parser σ Expression) : Parser σ Statement := do
  let start ← expectKeyword .returnWord
  let value ← if ← isSymbol .semicolon then pure none else some <$> expression
  return .return value (start.merge (← expectSymbol .semicolon))

/-- A statement, given the rules for an expression and for a statement list inside of it. -/
def statementOf (expression : Parser σ Expression) (statements : Parser σ (List Statement)) :
    Parser σ Statement := do
  match (← get).lookahead.bind Token.keyword? with
  | some .letWord => letStatement expression
  | some .ifWord => ifStatement expression statements
  | some .whileWord => whileStatement expression statements
  | some .doWord => doStatement expression
  | some .returnWord => returnStatement expression
  | _ => unexpected .statement

/-- The lookahead starts a statement. -/
def atStatement (s : State σ) : Bool :=
  (s.lookahead.bind Token.keyword?).any Keyword.startsStatement

/-- A statement list. It opens a level, and at most `room` levels can be opened for it. -/
def statements : Nat → Parser σ (List Statement)
  | 0, s => nested tooDeep s
  | room + 1, s => nested (many atStatement (statementOf (expression room) (statements room))) s

end Statements

section Declarations

def typeName : Parser σ TypeName := do
  match (← get).lookahead.bind TypeName.ofToken? with
  | some type => do
    let _ ← advance
    return type
  | none => unexpected .type

def nameList : Parser σ (List String) :=
  separated (Prod.fst <$> expectIdentifier)

def atClassVars (s : State σ) : Bool :=
  s.isKeyword .staticWord || s.isKeyword .fieldWord

def classVars : Parser σ ClassVars := do
  let word ← advance
  let kind : ClassVarKind := if word.keyword? = some .staticWord then .static else .field
  let type ← typeName
  let names ← nameList
  return { kind, type, names, span := word.span.merge (← expectSymbol .semicolon) }

def parameter : Parser σ Parameter := do
  let start := (← get).currentSpan
  let type ← typeName
  let (name, stop) ← expectIdentifier
  return { type, name, span := start.merge stop }

def localVars : Parser σ Locals := do
  let start ← expectKeyword .varWord
  let type ← typeName
  let names ← nameList
  return { type, names, span := start.merge (← expectSymbol .semicolon) }

/-- `void` is no type. -/
def returnType : Parser σ (Option TypeName) := do
  if ← isKeyword .voidWord then
    let _ ← advance
    return none
  else some <$> typeName

def subroutineKind? (s : State σ) : Option SubroutineKind :=
  (s.lookahead.bind Token.keyword?).bind SubroutineKind.ofKeyword?

/-- Locals and statements in braces, and the span of the closing one. -/
def subroutineBody : Parser σ (List Locals × List Statement × Span) := do
  let _ ← expectSymbol .leftBrace
  let locals ← many (·.isKeyword .varWord) localVars
  let body ← statements Limits.maxParseDepth
  return (locals, body, ← expectSymbol .rightBrace)

/-- A subroutine after its first token. -/
def subroutineRest (kind : SubroutineKind) (start : Span) : Parser σ Subroutine := do
  let returnType ← returnType
  let (name, _) ← expectIdentifier
  let _ ← expectSymbol .leftParen
  let parameters ← listed parameter
  let _ ← expectSymbol .rightParen
  let (locals, body, stop) ← subroutineBody
  note (.debug "Parsed subroutine"
    [("name", name), ("kind", kind.text), ("statements", toString body.length)])
  return { kind, returnType, name, parameters, locals, body, span := start.merge stop }

def subroutine : Parser σ Subroutine := do
  let kind := (subroutineKind? (← get)).getD .function
  subroutineRest kind (← advance).span

def classTree : Parser σ ClassTree := do
  let start ← expectKeyword .classWord
  let (name, _) ← expectIdentifier
  let _ ← expectSymbol .leftBrace
  let vars ← many atClassVars classVars
  let subroutines ← many (fun s => (subroutineKind? s).isSome) subroutine
  if !(← isSymbol .rightBrace) then unexpected .member
  let stop ← expectSymbol .rightBrace
  note (.debug "Parsed class"
    [("class", name), ("class_vars", toString vars.length),
      ("subroutines", toString subroutines.length)])
  return { name, classVars := vars, subroutines, span := start.merge stop }

end Declarations

/-- One class and nothing after it. -/
def program : Parser σ ClassTree := do
  let tree ← classTree
  match (← get).lookahead with
  | some t => throw (.trailingInput t.raw t.span)
  | none => return tree

/-- Runs a rule at the front of a stream, with no level open. -/
def run (rule : Parser σ α) (s : TokenStream σ) : Except SyntaxError α × TokenStream σ :=
  let (result, s') := rule { s with }
  (result, s'.toTokenStream)

/-- The expression at the front of the stream. -/
def wholeExpression (s : TokenStream σ) : Except SyntaxError Expression × TokenStream σ :=
  run (expression Limits.maxParseDepth) s

end Parser

namespace ClassTree

variable {σ : Type} [TokenSource σ]

/-- Parses the one class of a stream. -/
def ofStream (s : TokenStream σ) : Except SyntaxError ClassTree × TokenStream σ :=
  Parser.run Parser.program s

/-- Reports a parsed class with the count of its tokens. -/
def event (tree : ClassTree) (consumed : Nat) : Event :=
  .success .parsed "Class AST built"
    [("class", tree.name), ("subroutines", toString tree.subroutines.length),
      ("tokens", toString consumed)]

end ClassTree

end JackToolchain.Syntax
