/-!
# Host routines

The routines of the runtime library that the machine provides by itself.
-/

namespace JackToolchain.Machine

inductive Routine
  | multiply
  | divide
  | abs
  | alloc
  | deAlloc
  | newArray
  | disposeArray
  | newString
  | appendChar
  | stringLength
  | charAt
  | printInt
  | printString
  | printChar
  | printLine
  deriving DecidableEq, Repr

namespace Routine

def name : Routine → String
  | multiply => "Math.multiply"
  | divide => "Math.divide"
  | abs => "Math.abs"
  | alloc => "Memory.alloc"
  | deAlloc => "Memory.deAlloc"
  | newArray => "Array.new"
  | disposeArray => "Array.dispose"
  | newString => "String.new"
  | appendChar => "String.appendChar"
  | stringLength => "String.length"
  | charAt => "String.charAt"
  | printInt => "Output.printInt"
  | printString => "Output.printString"
  | printChar => "Output.printChar"
  | printLine => "Output.println"

def all : List Routine :=
  [.multiply, .divide, .abs, .alloc, .deAlloc, .newArray, .disposeArray, .newString, .appendChar,
    .stringLength, .charAt, .printInt, .printString, .printChar, .printLine]

def ofName? (text : String) : Option Routine :=
  all.find? fun r => r.name == text

/-- How many arguments a routine takes. -/
def arity : Routine → Nat
  | printLine => 0
  | abs | alloc | deAlloc | newArray | disposeArray | newString | stringLength | printInt
  | printString | printChar => 1
  | multiply | divide | appendChar | charAt => 2

@[simp] theorem ofName?_name (r : Routine) : ofName? r.name = some r := by
  cases r <;> decide

end Routine

end JackToolchain.Machine
