import JackToolchain.Lowering.Emission
import JackToolchain.Scope.Table

/-!
# Lowering expressions

Every expression becomes commands that leave its value on the stack: operands from left to right,
then the command or call that joins them.
-/

namespace JackToolchain.Lowering

open JackToolchain.Source JackToolchain.Stack JackToolchain.Syntax JackToolchain.Scope

/-- Where an expression stands. -/
structure Context where
  className : String
  /-- The full name of the subroutine. -/
  subroutine : String
  classTable : Table
  subroutineTable : Table

namespace Context

def resolve? (ctx : Context) (name : String) : Option Entry :=
  Scope.resolve? ctx.classTable ctx.subroutineTable name

end Context

def pushEntry (e : Entry) : Command := .push e.segment e.index

def popEntry (e : Entry) : Command := .pop e.segment e.index

/-- What is emitted for a declared name. -/
def withEntry (ctx : Context) (name : String) (span : Span) (emit : Entry → Emission) : Emission :=
  match ctx.resolve? name with
  | some entry => emit entry
  | none => .failed (.unresolved name ctx.subroutine span)

/-- What is emitted for a count, if 16 bits hold it. -/
def withCount (what : Counted) (count : Nat) (span : Span) (emit : UInt16 → Emission) : Emission :=
  if count ≤ 65535 then emit count.toUInt16
  else .failed (.unsupported (.tooMany what count) span)

/-- A new string, filled one character at a time. -/
def stringCommands (length : UInt16) (value : List Char) : List Command :=
  [.push .constant length, .call "String.new" 1] ++
    value.flatMap fun c => [.push .constant c.toNat.toUInt16, .call "String.appendChar" 2]

def lowerString (value : String) (span : Span) : Emission :=
  let cs := value.toList
  if cs.all fun c => c.toNat ≤ 0x7FFF then
    withCount .characters cs.length span fun length => .ofList (stringCommands length cs)
  else .failed (.unsupported .wideCharacter span)

def unaryCommand : UnaryOp → Command
  | .negate => .arithmetic .neg
  | .not => .arithmetic .not

/-- Products and quotients are calls, and an order that admits equality is the opposite order
denied. -/
def binaryCommands : BinaryOp → List Command
  | .multiply => [.call "Math.multiply" 2]
  | .divide => [.call "Math.divide" 2]
  | .add => [.arithmetic .add]
  | .subtract => [.arithmetic .sub]
  | .equal => [.arithmetic .eq]
  | .less => [.arithmetic .lt]
  | .greater => [.arithmetic .gt]
  | .and => [.arithmetic .and]
  | .or => [.arithmetic .or]
  | .lessEqual => [.arithmetic .gt, .arithmetic .not]
  | .greaterEqual => [.arithmetic .lt, .arithmetic .not]

/-- Who is called: the full name of the function, and the receiver that is pushed if there is one.
A declared variable receives through its type, any other name is a class, and a call without
receiver goes to the object at hand. -/
def callTarget (ctx : Context) (receiver : Option String) (name : String) :
    String × Option Command :=
  match receiver with
  | none => (s!"{ctx.className}.{name}", some (.push .pointer 0))
  | some receiver =>
    match ctx.resolve? receiver with
    | some entry => (s!"{entry.type.text}.{name}", some (pushEntry entry))
    | none => (s!"{receiver}.{name}", none)

mutual

def lowerExpression (ctx : Context) : Expression → Emission
  | .integer value _ => .ofList [.push .constant value.toUInt16]
  | .string value span => lowerString value span
  | .boolean true _ => .ofList [.push .constant 1, .arithmetic .neg]
  | .boolean false _ | .null _ => .ofList [.push .constant 0]
  | .this _ => .ofList [.push .pointer 0]
  | .var name span => withEntry ctx name span fun entry => .ofList [pushEntry entry]
  | .element array index span =>
    withEntry ctx array span (fun entry => .ofList [pushEntry entry]) ++
      lowerExpression ctx index ++
      .ofList [.arithmetic .add, .pop .pointer 1, .push .that 0]
  | .call receiver name arguments span =>
    let (target, implicit) := callTarget ctx receiver name
    lowerArguments ctx (.ofList implicit.toList) arguments ++
      withCount .arguments (arguments.length + implicit.toList.length) span fun count =>
        .ofList [.call target count]
  | .unary op operand _ => lowerExpression ctx operand ++ .ofList [unaryCommand op]
  | .binary op left right _ =>
    lowerExpression ctx left ++ lowerExpression ctx right ++ .ofList (binaryCommands op)

/-- Arguments one after the other, behind what is emitted already. -/
def lowerArguments (ctx : Context) (front : Emission) : List Expression → Emission
  | [] => front
  | e :: rest => lowerArguments ctx (front ++ lowerExpression ctx e) rest

end

end JackToolchain.Lowering
