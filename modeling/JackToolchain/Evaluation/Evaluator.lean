import JackToolchain.Evaluation.Store
import JackToolchain.Machine.Run

/-!
# Evaluating classes

The value of an expression and the effect of a statement, read off the tree: operands from left to
right, both of them always, the base of an element before its index and both before the value that
is stored. Every step into a tree, a call or another turn of a loop takes fuel.
-/

namespace JackToolchain.Evaluation

open JackToolchain.Machine JackToolchain.Syntax

/-- What a subroutine sees while it runs. -/
structure Frame where
  tree : ClassTree
  kind : SubroutineKind
  this : Int16
  /-- The latest value of a variable comes first. -/
  vars : List (String × TypeName × Int16)

/-- The type of a member of a class and its position among those of its kind. -/
def member? (tree : ClassTree) (kind : ClassVarKind) (name : String) : Option (TypeName × Nat) :=
  let members := (tree.classVars.filter (·.kind == kind)).flatMap fun vars =>
    vars.names.map fun name => (name, vars.type)
  (members.zipIdx.find? fun m => m.1.1 == name).map fun m => (m.1.2, m.2)

/-- The variables of a subroutine when it starts. -/
def openingVars (s : Subroutine) (values : List Int16) : List (String × TypeName × Int16) :=
  (s.parameters.zipWith (fun (p : Parameter) value => (p.name, p.type, value)) values ++
    s.locals.flatMap fun (vars : Locals) => vars.names.map fun name => (name, vars.type, 0)).reverse

namespace Frame

def isVariable (f : Frame) (name : String) : Bool :=
  (f.vars.lookup name).isSome || (member? f.tree .field name).isSome ||
    (member? f.tree .static name).isSome

end Frame

variable (w : World)

def demandObject (f : Frame) : Eval Unit :=
  demand w .object (f.kind != .function)

/-- The type and the value of a variable. -/
def readVar (f : Frame) (name : String) : Eval (TypeName × Int16) :=
  match f.vars.lookup name with
  | some found => return found
  | none =>
    match member? f.tree .field name, member? f.tree .static name with
    | some (type, index), _ => do
      demandObject w f
      return (type, ← read w (f.this.toInt + index))
    | none, some (type, _) =>
      modifyGet fun s => ((type, (s.statics.lookup (f.tree.name, name)).getD 0), s)
    | none, none => throw (.unresolved name)

def assign (f : Frame) (name : String) (value : Int16) : Eval Frame :=
  match f.vars.lookup name with
  | some (type, _) => return { f with vars := (name, type, value) :: f.vars }
  | none =>
    match member? f.tree .field name with
    | some (_, index) => do
      demandObject w f
      write w (f.this.toInt + index) value
      return f
    | none => do
      modify fun s => { s with statics := ((f.tree.name, name), value) :: s.statics }
      return f

/-- The class that a call goes to, and the object that comes before its arguments. -/
def receive (f : Frame) : Option String → Eval (String × List Int16)
  | none => do
    demandObject w f
    return (f.tree.name, [f.this])
  | some receiver =>
    if f.isVariable receiver then do
      let (type, object) ← readVar w f receiver
      return (type.text, [object])
    else return (receiver, [])

/-- The object of a subroutine, and the values of its parameters. -/
def enter (tree : ClassTree) (s : Subroutine) (values : List Int16) :
    Eval (Int16 × List Int16) :=
  match s.kind, values with
  | .constructor, _ => do return (← alloc w (Int16.ofNat tree.fieldCount), values)
  | .method, this :: rest => return (this, rest)
  | .method, [] => throw .missingReceiver
  | .function, _ => return (0, values)

/-- How many values a subroutine is called with. -/
def valueCount (s : Subroutine) : Nat :=
  s.parameters.length + if s.kind = .method then 1 else 0

def unaryValue : UnaryOp → Int16 → Int16
  | .negate, x => -x
  | .not, x => ~~~x

def binaryValue : BinaryOp → Int16 → Int16 → Eval Int16
  | .add, x, y => return x + y
  | .subtract, x, y => return x - y
  | .multiply, x, y => return x * y
  | .divide, x, y => divide x y
  | .and, x, y => return x &&& y
  | .or, x, y => return x ||| y
  | .equal, x, y => return truth (x == y)
  | .less, x, y => return truth (x < y)
  | .greater, x, y => return truth (y < x)
  | .lessEqual, x, y => return truth (x ≤ y)
  | .greaterEqual, x, y => return truth (y ≤ x)

mutual

def eval : Nat → Frame → Expression → Eval Int16
  | 0, _, _ => throw .outOfFuel
  | fuel + 1, f, e =>
    match e with
    | .integer value _ => return Int16.ofNat value
    | .string text _ => stringValue w text
    | .boolean value _ => return truth value
    | .null _ => return 0
    | .this _ => do
      demandObject w f
      return f.this
    | .var name _ => return (← readVar w f name).2
    | .element array index _ => do
      let (_, base) ← readVar w f array
      let offset ← eval fuel f index
      read w (base.toInt + offset.toInt)
    | .call receiver name arguments _ => do
      let (className, object) ← receive w f receiver
      let values ← evalAll fuel f arguments
      invoke fuel className name (object ++ values)
    | .unary op operand _ => return unaryValue op (← eval fuel f operand)
    | .binary op left right _ => do
      let x ← eval fuel f left
      let y ← eval fuel f right
      binaryValue op x y

def evalAll : Nat → Frame → List Expression → Eval (List Int16)
  | 0, _, _ => throw .outOfFuel
  | _ + 1, _, [] => return []
  | fuel + 1, f, e :: rest => do
    let value ← eval fuel f e
    return value :: (← evalAll fuel f rest)

/-- The value of a call. What the classes do not have is a routine of the machine. -/
def invoke : Nat → String → String → List Int16 → Eval Int16
  | 0, _, _, _ => throw .outOfFuel
  | fuel + 1, className, name, values =>
    match w.subroutine? className name with
    | none => builtin w s!"{className}.{name}" values
    | some (tree, s) => do
      demand w .arguments (values.length == valueCount s)
      let (this, explicit) ← enter w tree s values
      let frame : Frame := { tree, kind := s.kind, this, vars := openingVars s explicit }
      match ← runAll fuel frame s.body with
      | (_, some value) => return value
      | (_, none) => do
        demand w .leaving false
        return 0

/-- The frame after a statement, and the value of the return that ended it. -/
def run : Nat → Frame → Statement → Eval (Frame × Option Int16)
  | 0, _, _ => throw .outOfFuel
  | fuel + 1, f, s =>
    match s with
    | .letVariable target value _ => do
      let value ← eval fuel f value
      return (← assign w f target value, none)
    | .letElement target index value _ => do
      let (_, base) ← readVar w f target
      let offset ← eval fuel f index
      let value ← eval fuel f value
      write w (base.toInt + offset.toInt) value
      return (f, none)
    | .ifThen condition consequent _ => do
      if ← holds fuel f condition then runAll fuel f consequent else return (f, none)
    | .ifElse condition consequent alternate _ => do
      if ← holds fuel f condition then runAll fuel f consequent else runAll fuel f alternate
    | .whileLoop condition body span => do
      if ← holds fuel f condition then
        match ← runAll fuel f body with
        | (f, some value) => return (f, some value)
        | (f, none) => run fuel f (.whileLoop condition body span)
      else return (f, none)
    | .doCall call _ => do
      let _ ← eval fuel f call.toExpression
      return (f, none)
    | .return (some value) _ => return (f, some (← eval fuel f value))
    | .return none _ => return (f, some 0)

def runAll : Nat → Frame → List Statement → Eval (Frame × Option Int16)
  | 0, _, _ => throw .outOfFuel
  | _ + 1, f, [] => return (f, none)
  | fuel + 1, f, s :: rest => do
    match ← run fuel f s with
    | (f, some value) => return (f, some value)
    | (f, none) => runAll fuel f rest

/-- Whether a condition is not zero. -/
def holds : Nat → Frame → Expression → Eval Bool
  | 0, _, _ => throw .outOfFuel
  | fuel + 1, f, condition => do
    let value ← eval fuel f condition
    demand w .condition (value == 0 || value == -1)
    return value != 0

end

/-- The value of a function without arguments, and the store it leaves. -/
def evaluate (fuel : Nat) (className name : String) : Except Fault (Int16 × Store) :=
  match invoke w fuel className name [] {} with
  | .ok value s => .ok (value, s)
  | .error e _ => .error e

end JackToolchain.Evaluation
