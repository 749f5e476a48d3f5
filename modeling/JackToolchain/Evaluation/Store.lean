import JackToolchain.Machine.State
import JackToolchain.Syntax.Tree

/-!
# Stores

What an evaluation of classes works on: static variables by their names, a memory with the heap of
the machine, and what was printed. A strict evaluation also fails where a program breaks a rule that
its commands rely on.
-/

namespace JackToolchain.Evaluation

open JackToolchain.Machine JackToolchain.Syntax

/-- What commands rely on without a check of their own. -/
inductive Rule
  /-- A subroutine gets as many values as it declares, and its receiver. -/
  | arguments
  /-- Conditions are zero or the word of ones. -/
  | condition
  /-- Subroutines are left by a return. -/
  | leaving
  /-- Functions have no object. -/
  | object
  /-- All words that are read and written have been allocated. -/
  | allocated
  /-- The heap ends where that of the machine does. -/
  | heap
  /-- Strings have room for their characters. -/
  | capacity
  /-- Characters are counted from zero to the length of their string. -/
  | index
  deriving DecidableEq, Repr

inductive Fault
  | outOfFuel
  | unresolved (name : String)
  | noRoutine (name : String) (arguments : Nat)
  | missingReceiver
  | divisionByZero
  | negativeSize (size : Int16)
  | badAddress (address : Int)
  | noCharacter (word : Int16)
  | broken (rule : Rule)
  deriving DecidableEq, Repr

structure World where
  classes : List ClassTree
  /-- Broken rules are faults. -/
  strict : Bool := false

namespace World

def subroutine? (w : World) (className name : String) : Option (ClassTree × Subroutine) := do
  let tree ← w.classes.find? fun tree => tree.name == className
  let s ← tree.subroutines.find? fun s => s.name == name
  return (tree, s)

end World

structure Store where
  /-- The latest value of a static variable comes first. -/
  statics : List ((String × String) × Int16) := []
  memory : Vector Int16 ramSize := .replicate ramSize 0
  heapNext : Nat := heapBase
  output : String := ""

/-- An evaluation may fail. -/
abbrev Eval := EStateM Fault Store

variable (w : World)

def demand (rule : Rule) (holds : Bool) : Eval Unit :=
  if w.strict && !holds then throw (.broken rule) else return

/-- Takes words off the heap. -/
def alloc (size : Int16) : Eval Int16 := do
  if size < 0 then throw (.negativeSize size)
  let object ← modifyGet fun s => (s.heapNext, s)
  let next := object + size.toInt.toNat
  demand w .heap (next ≤ heapEnd)
  modify fun s => { s with heapNext := next }
  return Int16.ofNat object

def demandAllocated (address : Int) : Eval Unit := do
  let next ← modifyGet fun s => (s.heapNext, s)
  demand w .allocated (heapBase ≤ address && address < next)

def read (address : Int) : Eval Int16 := do
  demandAllocated w address
  let memory ← modifyGet fun s => (s.memory, s)
  if h : address.toNat < ramSize ∧ 0 ≤ address then
    have := h.1
    return memory[address.toNat]
  else throw (.badAddress address)

def write (address : Int) (value : Int16) : Eval Unit := do
  demandAllocated w address
  if h : address.toNat < ramSize ∧ 0 ≤ address then
    modify fun s => { s with memory := s.memory.set address.toNat value h.1 }
  else throw (.badAddress address)

def print (text : String) : Eval Unit :=
  modify fun s => { s with output := s.output ++ text }

/-! ## Routines -/

def divide (x y : Int16) : Eval Int16 :=
  if y = 0 then throw .divisionByZero else return x / y

def newString (capacity : Int16) : Eval Int16 := do
  let object ← alloc w (capacity + 2)
  write w (object.toInt + 1) capacity
  return object

def appendChar (object c : Int16) : Eval Unit := do
  let length ← read w object.toInt
  if w.strict then
    let capacity ← read w (object.toInt + 1)
    demand w .capacity (length < capacity)
  write w (object.toInt + 2 + length.toInt) c
  write w object.toInt (length + 1)

def charAt (object index : Int16) : Eval Int16 := do
  if w.strict then
    let length ← read w object.toInt
    demand w .index (0 ≤ index && index < length)
  read w (object.toInt + 2 + index.toInt)

def charOf (word : Int16) : Eval Char :=
  let n := word.toInt.toNat
  if 0 ≤ word ∧ n.isValidChar then return Char.ofNat n else throw (.noCharacter word)

/-- The characters of a string object from an index on. -/
def readChars (object : Int16) (index : Nat) : Nat → Eval (List Char)
  | 0 => return []
  | count + 1 => do
    let c ← charOf (← read w (object.toInt + 2 + index))
    return c :: (← readChars object (index + 1) count)

def printString (object : Int16) : Eval Unit := do
  let length ← read w object.toInt
  if length < 0 then throw (.badAddress length.toInt)
  print (String.ofList (← readChars w object 0 length.toInt.toNat))

/-- The value of a routine of the machine. -/
def builtin (name : String) (values : List Int16) : Eval Int16 :=
  match Routine.ofName? name, values with
  | some .multiply, [x, y] => return x * y
  | some .divide, [x, y] => divide x y
  | some .abs, [x] => return if x < 0 then -x else x
  | some .alloc, [size] | some .newArray, [size] => alloc w size
  | some .deAlloc, [_] | some .disposeArray, [_] => return 0
  | some .newString, [capacity] => newString w capacity
  | some .appendChar, [object, c] => do
    appendChar w object c
    return object
  | some .stringLength, [object] => read w object.toInt
  | some .charAt, [object, index] => charAt w object index
  | some .printInt, [x] => do
    print (toString x.toInt)
    return 0
  | some .printString, [object] => do
    printString w object
    return 0
  | some .printChar, [c] => do
    print (String.singleton (← charOf c))
    return 0
  | some .printLine, [] => do
    print "\n"
    return 0
  | _, _ => throw (.noRoutine name values.length)

/-- A new string, filled one character at a time. -/
def stringValue (text : String) : Eval Int16 := do
  let cs := text.toList
  let object ← newString w (Int16.ofNat cs.length)
  cs.forM fun c => appendChar w object (Int16.ofNat c.toNat)
  return object

end JackToolchain.Evaluation
