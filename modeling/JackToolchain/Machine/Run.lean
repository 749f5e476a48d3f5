import JackToolchain.Machine.State

/-!
# Running programs

A step executes one instruction. A run starts at a function, steps until its frame is left, and
counts its steps against a limit. A machine can run again: memory, heap, output and steps carry
over, and so do the calls that an earlier failure left open.
-/

namespace JackToolchain

namespace Machine

open JackToolchain.Stack

def addressOf (location : Location) : Action Int :=
  match location with
  | .constant _ => pure (-1)
  | .fixed address => pure address
  | .based register offset => do return (← getRegister register).toInt + offset.toNat

def load (owner : String) (location : Location) : Action Int16 :=
  match location with
  | .constant value => pure value.toInt16
  | location => do readWord owner (← addressOf location)

def store (owner : String) (location : Location) (value : Int16) : Action Unit := do
  writeWord owner (← addressOf location) value

/-- True is the word of ones. -/
def truth (b : Bool) : Int16 := if b then -1 else 0

/-- The value of an operator with two operands. -/
def combine (op : Arithmetic) (x y : Int16) : Int16 :=
  match op with
  | .add => x + y
  | .sub => x - y
  | .and => x &&& y
  | .or => x ||| y
  | .eq => truth (x == y)
  | .gt => truth (y < x)
  | .lt => truth (x < y)
  | .neg | .not => y

def arithmetic (owner : String) (op : Arithmetic) : Action Unit := do
  let y ← pop owner
  match op with
  | .neg => push owner (-y)
  | .not => push owner (~~~y)
  | op => push owner (combine op (← pop owner) y)

/-- Pushes a frame: a word for the return address and the registers of the caller. -/
def pushFrame (owner : String) (arguments : UInt16) : Action Unit := do
  push owner 0
  push owner (← getRegister .locals)
  push owner (← getRegister .arguments)
  push owner (← getRegister .this)
  push owner (← getRegister .that)
  let sp ← getRegister .stack
  setRegister .arguments (sp - 5 - arguments.toInt16)
  setRegister .locals sp

/-- Hands the top of the stack to the caller and restores its registers. -/
def popFrame (owner : String) : Action Int16 := do
  let frame := (← getRegister .locals).toInt
  let value ← pop owner
  let slot := (← getRegister .arguments)
  writeWord owner slot.toInt value
  setRegister .stack (slot + 1)
  setRegister .that (← readWord owner (frame - 1))
  setRegister .this (← readWord owner (frame - 2))
  setRegister .arguments (← readWord owner (frame - 3))
  setRegister .locals (← readWord owner (frame - 4))
  return value

/-- The character of a word; words that are none show as the replacement character. -/
def charOf (word : Int16) : Char :=
  let n := word.toInt.toNat
  if 0 ≤ word ∧ n.isValidChar then Char.ofNat n else '\ufffd'

def print (text : String) : Action Unit :=
  modify fun s => { s with output := s.output ++ text }

/-- Takes words off the heap. -/
def alloc (owner : String) (routine : Routine) (size : Int16) : Action Int16 := do
  if size < 0 then throw (.fault routine.name owner .negativeSize)
  let object ← modifyGet fun s => (s.heapNext, s)
  let next := object + size.toInt.toNat
  if next > heapEnd then throw (.heapExhausted size)
  modify fun s => { s with heapNext := next }
  return Int16.ofNat object

/-- The characters of a string object, from an index on; `done` holds those before, reversed. -/
def readChars (owner : String) (object : Int16) (index : Nat) (done : List Char) :
    Nat → Action (List Char)
  | 0 => pure done.reverse
  | count + 1 => do
    let word ← readWord owner (object.toInt + 2 + index)
    readChars owner object (index + 1) (charOf word :: done) count

/-- Appends a character to a string object: its length, its capacity, then its characters. -/
def appendChar (owner : String) (object c : Int16) : Action Unit := do
  let length ← readWord owner object.toInt
  let capacity ← readWord owner (object.toInt + 1)
  if capacity ≤ length then
    throw (.fault (Routine.name .appendChar) owner .capacityExceeded)
  writeWord owner (object.toInt + 2 + length.toInt) c
  writeWord owner object.toInt (length + 1)

def newString (owner : String) (capacity : Int16) : Action Int16 := do
  let object ← alloc owner .newString (capacity + 2)
  writeWord owner object.toInt 0
  writeWord owner (object.toInt + 1) capacity
  return object

def charAt (owner : String) (object index : Int16) : Action Int16 := do
  let length ← readWord owner object.toInt
  if index < 0 ∨ length ≤ index then
    throw (.fault (Routine.name .charAt) owner .indexOutOfBounds)
  readWord owner (object.toInt + 2 + index.toInt)

/-- The value of a routine, whose arguments are popped, the last one first. -/
def callRoutine (owner : String) (routine : Routine) : Action Int16 :=
  match routine with
  | .multiply => do
    let y ← pop owner
    return (← pop owner) * y
  | .divide => do
    let y ← pop owner
    let x ← pop owner
    if y = 0 then throw (.divisionByZero owner)
    return x / y
  | .abs => do
    let x ← pop owner
    return if x < 0 then -x else x
  | .alloc | .newArray => do alloc owner routine (← pop owner)
  | .deAlloc | .disposeArray => do
    let _ ← pop owner
    return 0
  | .newString => do newString owner (← pop owner)
  | .appendChar => do
    let c ← pop owner
    let object ← pop owner
    appendChar owner object c
    return object
  | .stringLength => do readWord owner (← pop owner).toInt
  | .charAt => do
    let index ← pop owner
    charAt owner (← pop owner) index
  | .printInt => do
    let x ← pop owner
    print (toString x.toInt)
    return 0
  | .printString => do
    let object ← pop owner
    let length ← readWord owner object.toInt
    print (String.ofList (← readChars owner object 0 [] length.toInt.toNat))
    return 0
  | .printChar => do
    let c ← pop owner
    print (String.singleton (charOf c))
    return 0
  | .printLine => do
    print "\n"
    return 0

/-- A routine is called with as many arguments as it takes. -/
def callHost (owner : String) (routine : Routine) (arguments : UInt16) : Action Unit := do
  if arguments.toNat ≠ routine.arity then
    throw (.arityMismatch routine.name routine.arity arguments.toNat)
  push owner (← callRoutine owner routine)

def pushZeros (owner : String) : Nat → Action Unit
  | 0 => pure ()
  | count + 1 => do
    push owner 0
    pushZeros owner count

def goto (address : Nat) : Action Unit :=
  modify fun s => { s with pc := address }

/-- Executes an operation that stands at an address, and goes on to the next one. The value is that
of the run if this ends it. -/
def execute (address : Nat) (owner : String) (op : Op) : Action (Option Int16) := do
  match op with
  | .push location =>
    push owner (← load owner location)
    goto (address + 1)
    return none
  | .pop location =>
    store owner location (← pop owner)
    goto (address + 1)
    return none
  | .arithmetic op =>
    arithmetic owner op
    goto (address + 1)
    return none
  | .skip =>
    goto (address + 1)
    return none
  | .jump target =>
    goto target
    return none
  | .jumpIf target =>
    let word ← pop owner
    goto (if word = 0 then address + 1 else target)
    return none
  | .enter locals =>
    pushZeros owner locals.toNat
    goto (address + 1)
    return none
  | .call (.function entry) arguments =>
    pushFrame owner arguments
    modify fun s => { s with returns := (address + 1) :: s.returns, pc := entry }
    return none
  | .call (.host routine) arguments =>
    callHost owner routine arguments
    goto (address + 1)
    return none
  | .call (.undefined name) _ => throw (.unknownFunction owner name)
  | .return =>
    let value ← popFrame owner
    modifyGet fun s =>
      match s.returns with
      | [] => (some value, s)
      | target :: returns => (none, { s with returns, pc := target })

def step (p : Program) : Action (Option Int16) := do
  let address ← modifyGet fun s => (s.pc, s)
  match p.instructions[address]? with
  | some i => execute address i.owner i.op
  | none => throw (.fault "execution" topLevel .ranPastEnd)

/-- How a run comes to rest. -/
inductive Halt
  | returned (value : Int16)
  | failed (e : RunError)
  | outOfSteps
  deriving DecidableEq, Repr

/-- Steps until a halt, but at most `fuel` times. `steps` counts the steps before. -/
def iterate (p : Program) : Nat → Nat → State → Halt × Nat × State
  | 0, count, s => (.outOfSteps, count, s)
  | fuel + 1, count, s =>
    match step p s with
    | .ok none s => iterate p fuel (count + 1) s
    | .ok (some value) s => (.returned value, count + 1, s)
    | .error e s => (.failed e, count + 1, s)

/-- Sets the stack up and opens the frame of a function without arguments. -/
def prepare (entry : Nat) : Action Unit := do
  setRegister .stack stackBase
  pushFrame topLevel 0
  goto entry

end Machine

/-- A machine between runs. -/
structure Machine where
  state : Machine.State := {}
  /-- The steps of all runs so far. -/
  steps : Nat := 0

namespace Machine

/-- What a run that ends with a value shows. -/
structure Execution where
  returnValue : Int16
  /-- Everything that was printed, also by earlier runs. -/
  output : String
  steps : Nat
  deriving DecidableEq, Repr

def defaultStepLimit : Nat := 10000000

def defaultEntry : String := "Main.main"

/-- Runs a function without arguments. -/
def run (p : Program) (limit : Nat) (m : Machine) (entry : String) :
    Except RunError Execution × Machine :=
  match p.functions[entry]? with
  | none => (.error (.missingEntry entry), m)
  | some start =>
    match prepare start m.state with
    | .error e s => (.error e, { m with state := s })
    | .ok () s =>
      match iterate p (limit - m.steps) m.steps s with
      | (.returned value, count, s) =>
        (.ok ⟨value, s.output, count⟩, { state := s, steps := count })
      | (.failed e, count, s) => (.error e, { state := s, steps := count })
      | (.outOfSteps, count, s) =>
        (.error (.stepLimitExceeded limit), { state := s, steps := count })

end Machine

end JackToolchain
