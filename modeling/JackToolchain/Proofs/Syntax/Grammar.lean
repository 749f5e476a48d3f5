import JackToolchain.Syntax.Parser

/-!
# The grammar

Which words of token kinds are derived by which rule, with which tree. Trees carry no spans here,
and `n` bounds how many statement lists, expressions and operands of unary operators are open
inside each other.
-/

namespace JackToolchain

/-- The token without its span. -/
def Token.bare (t : Token) : Token := { t with span := .zero }

namespace Syntax

open JackToolchain.Source JackToolchain.Token

/-! ## Trees without spans -/

namespace Expression

mutual

/-- The expression without its spans. -/
def bare : Expression → Expression
  | integer value _ => .integer value .zero
  | string value _ => .string value .zero
  | boolean value _ => .boolean value .zero
  | null _ => .null .zero
  | this _ => .this .zero
  | var name _ => .var name .zero
  | element array index _ => .element array index.bare .zero
  | call receiver name arguments _ => .call receiver name (bareAll arguments) .zero
  | unary op operand _ => .unary op operand.bare .zero
  | binary op left right _ => .binary op left.bare right.bare .zero

def bareAll : List Expression → List Expression
  | [] => []
  | e :: es => e.bare :: bareAll es

end

theorem bareAll_eq_map (es : List Expression) : bareAll es = es.map bare := by
  induction es with
  | nil => rfl
  | cons e es ih => rw [bareAll, ih, List.map_cons]

end Expression

def Call.bare (c : Call) : Call :=
  { c with arguments := c.arguments.map Expression.bare, span := .zero }

theorem Call.bare_toExpression (c : Call) : c.toExpression.bare = c.bare.toExpression := by
  rw [toExpression, Expression.bare, Expression.bareAll_eq_map]
  rfl

namespace Statement

mutual

/-- The statement without its spans. -/
def bare : Statement → Statement
  | letVariable target value _ => .letVariable target value.bare .zero
  | letElement target index value _ => .letElement target index.bare value.bare .zero
  | ifThen condition consequent _ => .ifThen condition.bare (bareAll consequent) .zero
  | ifElse condition consequent alternate _ =>
    .ifElse condition.bare (bareAll consequent) (bareAll alternate) .zero
  | whileLoop condition body _ => .whileLoop condition.bare (bareAll body) .zero
  | doCall call _ => .doCall call.bare .zero
  | «return» value _ => .return (value.map Expression.bare) .zero

def bareAll : List Statement → List Statement
  | [] => []
  | s :: ss => s.bare :: bareAll ss

end

theorem bareAll_eq_map (ss : List Statement) : bareAll ss = ss.map bare := by
  induction ss with
  | nil => rfl
  | cons s ss ih => rw [bareAll, ih, List.map_cons]

end Statement

def ClassVars.bare (v : ClassVars) : ClassVars := { v with span := .zero }

def Parameter.bare (p : Parameter) : Parameter := { p with span := .zero }

def Locals.bare (l : Locals) : Locals := { l with span := .zero }

def Subroutine.bare (s : Subroutine) : Subroutine :=
  { s with
    parameters := s.parameters.map Parameter.bare
    locals := s.locals.map Locals.bare
    body := s.body.map Statement.bare
    span := .zero }

def ClassTree.bare (c : ClassTree) : ClassTree :=
  { c with
    classVars := c.classVars.map ClassVars.bare
    subroutines := c.subroutines.map Subroutine.bare
    span := .zero }

/-! ## Words -/

abbrev Word := List Kind

/-- A word between two symbols. -/
def Word.between (opening closing : Symbol) (w : Word) : Word :=
  .symbol opening :: w ++ [.symbol closing]

abbrev Word.inParens (w : Word) : Word := w.between .leftParen .rightParen

abbrev Word.inBrackets (w : Word) : Word := w.between .leftBracket .rightBracket

abbrev Word.inBraces (w : Word) : Word := w.between .leftBrace .rightBrace

mutual

/-- An expression opens a level for its operators. -/
inductive IsExpression : Nat → Word → Expression → Prop
  | intro {n : Nat} {w : Word} {e : Expression} (h : IsLevel n 1 w e) : IsExpression (n + 1) w e

/-- Operands with operators of a precedence between them, grouped to the left, or what binds
tighter. -/
inductive IsLevel : Nat → Nat → Word → Expression → Prop
  | term {n : Nat} {w : Word} {e : Expression} (h : IsTerm n w e) :
      IsLevel n (BinaryOp.levels + 1) w e
  | operand {n precedence : Nat} {w : Word} {e : Expression} (hp : precedence ≤ BinaryOp.levels)
      (h : IsLevel n (precedence + 1) w e) : IsLevel n precedence w e
  | join {n : Nat} {op : BinaryOp} {v w : Word} {left right : Expression}
      (hl : IsLevel n op.precedence v left) (hr : IsLevel n (op.precedence + 1) w right) :
      IsLevel n op.precedence (v ++ .symbol op.symbol :: w) (.binary op left right .zero)

inductive IsTerm : Nat → Word → Expression → Prop
  | integer {n value : Nat} : IsTerm n [.integerLiteral value] (.integer value .zero)
  | string {n : Nat} {value : String} : IsTerm n [.stringLiteral value] (.string value .zero)
  | true {n : Nat} : IsTerm n [.keyword .trueWord] (.boolean .true .zero)
  | false {n : Nat} : IsTerm n [.keyword .falseWord] (.boolean .false .zero)
  | null {n : Nat} : IsTerm n [.keyword .nullWord] (.null .zero)
  | this {n : Nat} : IsTerm n [.keyword .thisWord] (.this .zero)
  | parenthesized {n : Nat} {w : Word} {e : Expression} (h : IsExpression n w e) :
      IsTerm n w.inParens e
  | negate {n : Nat} {w : Word} {e : Expression} (h : IsTerm n w e) :
      IsTerm (n + 1) (.symbol .minus :: w) (.unary .negate e .zero)
  | not {n : Nat} {w : Word} {e : Expression} (h : IsTerm n w e) :
      IsTerm (n + 1) (.symbol .tilde :: w) (.unary .not e .zero)
  | var {n : Nat} {name : String} : IsTerm n [.identifier name] (.var name .zero)
  | element {n : Nat} {name : String} {w : Word} {e : Expression} (h : IsExpression n w e) :
      IsTerm n (.identifier name :: w.inBrackets) (.element name e .zero)
  | call {n : Nat} {w : Word} {c : Call} (h : IsCall n w c) : IsTerm n w c.toExpression

inductive IsCall : Nat → Word → Call → Prop
  | bare {n : Nat} {name : String} {w : Word} {arguments : List Expression}
      (h : IsArguments n w arguments) :
      IsCall n (.identifier name :: w.inParens) ⟨none, name, arguments, .zero⟩
  | dotted {n : Nat} {receiver name : String} {w : Word} {arguments : List Expression}
      (h : IsArguments n w arguments) :
      IsCall n (.identifier receiver :: .symbol .dot :: .identifier name :: w.inParens)
        ⟨some receiver, name, arguments, .zero⟩

/-- No expression, or some with commas between them. -/
inductive IsArguments : Nat → Word → List Expression → Prop
  | none {n : Nat} : IsArguments n [] []
  | some {n : Nat} {w : Word} {es : List Expression} (h : IsExpressions n w es) :
      IsArguments n w es

inductive IsExpressions : Nat → Word → List Expression → Prop
  | one {n : Nat} {w : Word} {e : Expression} (h : IsExpression n w e) : IsExpressions n w [e]
  | more {n : Nat} {v w : Word} {e : Expression} {es : List Expression} (h : IsExpression n v e)
      (hs : IsExpressions n w es) : IsExpressions n (v ++ .symbol .comma :: w) (e :: es)

end

mutual

/-- A statement list opens a level for its statements. -/
inductive IsStatements : Nat → Word → List Statement → Prop
  | intro {n : Nat} {w : Word} {ss : List Statement} (h : IsSequence n w ss) :
      IsStatements (n + 1) w ss

inductive IsSequence : Nat → Word → List Statement → Prop
  | nil {n : Nat} : IsSequence n [] []
  | cons {n : Nat} {v w : Word} {s : Statement} {ss : List Statement} (h : IsStatement n v s)
      (hs : IsSequence n w ss) : IsSequence n (v ++ w) (s :: ss)

inductive IsStatement : Nat → Word → Statement → Prop
  | letVariable {n : Nat} {target : String} {w : Word} {value : Expression}
      (h : IsExpression n w value) :
      IsStatement n
        (.keyword .letWord :: .identifier target :: w.between .equal .semicolon)
        (.letVariable target value .zero)
  | letElement {n : Nat} {target : String} {v w : Word} {index value : Expression}
      (hi : IsExpression n v index) (h : IsExpression n w value) :
      IsStatement n
        (.keyword .letWord :: .identifier target :: v.inBrackets ++ w.between .equal .semicolon)
        (.letElement target index value .zero)
  | ifThen {n : Nat} {u v : Word} {condition : Expression} {consequent : List Statement}
      (h : IsExpression n u condition) (hc : IsStatements n v consequent) :
      IsStatement n (.keyword .ifWord :: u.inParens ++ v.inBraces)
        (.ifThen condition consequent .zero)
  | ifElse {n : Nat} {u v w : Word} {condition : Expression}
      {consequent alternate : List Statement} (h : IsExpression n u condition)
      (hc : IsStatements n v consequent) (ha : IsStatements n w alternate) :
      IsStatement n
        (.keyword .ifWord :: u.inParens ++ v.inBraces ++ .keyword .elseWord :: w.inBraces)
        (.ifElse condition consequent alternate .zero)
  | whileLoop {n : Nat} {v w : Word} {condition : Expression} {body : List Statement}
      (h : IsExpression n v condition) (hb : IsStatements n w body) :
      IsStatement n (.keyword .whileWord :: v.inParens ++ w.inBraces)
        (.whileLoop condition body .zero)
  | doCall {n : Nat} {w : Word} {c : Call} (h : IsCall n w c) :
      IsStatement n (.keyword .doWord :: w ++ [.symbol .semicolon]) (.doCall c .zero)
  | return {n : Nat} :
      IsStatement n [.keyword .returnWord, .symbol .semicolon] (.return none .zero)
  | returnValue {n : Nat} {w : Word} {value : Expression} (h : IsExpression n w value) :
      IsStatement n (.keyword .returnWord :: w ++ [.symbol .semicolon])
        (.return (some value) .zero)

end

/-! ## Declarations -/

section Lists

variable {α : Type}

/-- Items one after the other. -/
inductive Sequence (L : Word → α → Prop) : Word → List α → Prop
  | nil : Sequence L [] []
  | cons {v w : Word} {a : α} {as : List α} (h : L v a) (hs : Sequence L w as) :
      Sequence L (v ++ w) (a :: as)

/-- One or more items with commas between them. -/
inductive Separated (L : Word → α → Prop) : Word → List α → Prop
  | one {w : Word} {a : α} (h : L w a) : Separated L w [a]
  | more {v w : Word} {a : α} {as : List α} (h : L v a) (hs : Separated L w as) :
      Separated L (v ++ .symbol .comma :: w) (a :: as)

/-- Any number of items with commas between them. -/
inductive Listed (L : Word → α → Prop) : Word → List α → Prop
  | none : Listed L [] []
  | some {w : Word} {as : List α} (h : Separated L w as) : Listed L w as

end Lists

inductive IsType : Word → TypeName → Prop
  | int : IsType [.keyword .intWord] .int
  | char : IsType [.keyword .charWord] .char
  | boolean : IsType [.keyword .booleanWord] .boolean
  | named {name : String} : IsType [.identifier name] (.named name)

inductive IsName : Word → String → Prop
  | intro {name : String} : IsName [.identifier name] name

inductive IsClassVars : Word → ClassVars → Prop
  | static {v w : Word} {type : TypeName} {names : List String} (ht : IsType v type)
      (hn : Separated IsName w names) :
      IsClassVars (.keyword .staticWord :: v ++ w ++ [.symbol .semicolon])
        ⟨.static, type, names, .zero⟩
  | field {v w : Word} {type : TypeName} {names : List String} (ht : IsType v type)
      (hn : Separated IsName w names) :
      IsClassVars (.keyword .fieldWord :: v ++ w ++ [.symbol .semicolon])
        ⟨.field, type, names, .zero⟩

inductive IsParameter : Word → Parameter → Prop
  | intro {v : Word} {type : TypeName} {name : String} (ht : IsType v type) :
      IsParameter (v ++ [.identifier name]) ⟨type, name, .zero⟩

inductive IsLocals : Word → Locals → Prop
  | intro {v w : Word} {type : TypeName} {names : List String} (ht : IsType v type)
      (hn : Separated IsName w names) :
      IsLocals (.keyword .varWord :: v ++ w ++ [.symbol .semicolon]) ⟨type, names, .zero⟩

inductive IsReturnType : Word → Option TypeName → Prop
  | void : IsReturnType [.keyword .voidWord] none
  | type {w : Word} {type : TypeName} (h : IsType w type) : IsReturnType w (some type)

inductive IsSubroutineKind : Keyword → SubroutineKind → Prop
  | constructor : IsSubroutineKind .constructorWord .constructor
  | function : IsSubroutineKind .functionWord .function
  | method : IsSubroutineKind .methodWord .method

inductive IsSubroutine : Nat → Word → Subroutine → Prop
  | intro {n : Nat} {word : Keyword} {kind : SubroutineKind} {t ps ls b : Word}
      {returnType : Option TypeName} {name : String} {parameters : List Parameter}
      {locals : List Locals} {body : List Statement} (hk : IsSubroutineKind word kind)
      (ht : IsReturnType t returnType) (hp : Listed IsParameter ps parameters)
      (hl : Sequence IsLocals ls locals) (hb : IsStatements n b body) :
      IsSubroutine n
        (.keyword word :: t ++ .identifier name :: ps.inParens ++ Word.inBraces (ls ++ b))
        ⟨kind, returnType, name, parameters, locals, body, .zero⟩

inductive IsClass : Nat → Word → ClassTree → Prop
  | intro {n : Nat} {name : String} {vs ss : Word} {classVars : List ClassVars}
      {subroutines : List Subroutine} (hv : Sequence IsClassVars vs classVars)
      (hs : Sequence (IsSubroutine n) ss subroutines) :
      IsClass n (.keyword .classWord :: .identifier name :: Word.inBraces (vs ++ ss))
        ⟨name, classVars, subroutines, .zero⟩

end Syntax

end JackToolchain
