import JackToolchain.Limits

/-!
# Commands of the stack machine

A program moves words between the stack and eight memory segments, works on the top of the stack,
jumps to labels and calls functions.
-/

namespace JackToolchain.Stack

inductive Segment
  | argument
  | locals
  | static
  | constant
  | this
  | that
  | pointer
  | temp
  deriving DecidableEq, Repr

namespace Segment

def text : Segment → String
  | argument => "argument"
  | locals => "local"
  | static => "static"
  | constant => "constant"
  | this => "this"
  | that => "that"
  | pointer => "pointer"
  | temp => "temp"

def all : List Segment :=
  [.argument, .locals, .static, .constant, .this, .that, .pointer, .temp]

def ofText? (text : String) : Option Segment :=
  all.find? fun s => s.text == text

@[simp] theorem ofText?_text (s : Segment) : ofText? s.text = some s := by
  cases s <;> decide

/-- The greatest index of a segment that has one. -/
def limit? : Segment → Option Nat
  | pointer => some 1
  | temp => some 7
  | constant => some 32767
  | _ => none

end Segment

inductive Arithmetic
  | add
  | sub
  | neg
  | eq
  | gt
  | lt
  | and
  | or
  | not
  deriving DecidableEq, Repr

namespace Arithmetic

def text : Arithmetic → String
  | add => "add"
  | sub => "sub"
  | neg => "neg"
  | eq => "eq"
  | gt => "gt"
  | lt => "lt"
  | and => "and"
  | or => "or"
  | not => "not"

def all : List Arithmetic :=
  [.add, .sub, .neg, .eq, .gt, .lt, .and, .or, .not]

def ofText? (text : String) : Option Arithmetic :=
  all.find? fun op => op.text == text

/-- How many operands are popped. -/
def arity : Arithmetic → Nat
  | neg | not => 1
  | _ => 2

end Arithmetic

inductive Command
  | push (segment : Segment) (index : UInt16)
  | pop (segment : Segment) (index : UInt16)
  | arithmetic (op : Arithmetic)
  | label (name : String)
  | goto (name : String)
  | ifGoto (name : String)
  | function (name : String) (locals : UInt16)
  | call (name : String) (arguments : UInt16)
  | return
  deriving DecidableEq, Repr

namespace Command

def isFunction : Command → Bool
  | function .. => true
  | _ => false

end Command

/-- Why a push or pop has no meaning. -/
inductive Violation
  | popConstant
  | indexOutOfRange (segment : Segment) (index limit : Nat)
  deriving DecidableEq, Repr

namespace Violation

def text : Violation → String
  | popConstant => "cannot pop into the constant segment"
  | indexOutOfRange segment index limit => s!"{segment.text} index {index} exceeds {limit}"

end Violation

/-- What is wrong with an access to a segment. -/
def Segment.violation? (segment : Segment) (index : UInt16) (pops : Bool) : Option Violation :=
  if pops && segment == .constant then some .popConstant
  else
    match segment.limit? with
    | some limit =>
      if limit < index.toNat then some (.indexOutOfRange segment index.toNat limit) else none
    | none => none

/-- Only pushes and pops can be wrong. -/
def Command.violation? : Command → Option Violation
  | .push segment index => segment.violation? index false
  | .pop segment index => segment.violation? index true
  | _ => none

end JackToolchain.Stack
