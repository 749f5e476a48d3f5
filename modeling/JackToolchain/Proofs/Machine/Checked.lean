import JackToolchain.Machine.Run

/-!
# The checked machine

The machine once more, with what the running one takes for granted: functions are numbers in a table
of names, memory is a sequence of any length, and numbers have a width. A place outside of its
sequence, a sum outside of its width and a routine with arguments for which it has no case breach
the machine. That is none of the errors it declares.
-/

namespace JackToolchain.Machine

open JackToolchain.Stack

inductive Breach
  /-- A place outside of a sequence. -/
  | index
  /-- A sum outside of its width. -/
  | overflow
  /-- Arguments that a routine has no case for. -/
  | arguments
  deriving DecidableEq, Repr

namespace Checked

inductive Target
  | function (entry : Nat)
  | host (routine : Routine)
  /-- The place of a name. -/
  | undefined (name : Nat)
  deriving DecidableEq, Repr

inductive Op
  | push (location : Location)
  | pop (location : Location)
  | arithmetic (op : Arithmetic)
  | skip
  | jump (target : Nat)
  | jumpIf (target : Nat)
  | enter (locals : UInt16)
  | call (target : Target) (arguments : UInt16)
  | return
  deriving DecidableEq, Repr

structure Instruction where
  op : Op
  /-- The place of the name of the function around it. -/
  owner : Nat
  deriving DecidableEq, Repr

structure Program where
  instructions : Array Instruction
  functions : Std.HashMap String Nat
  names : Array String

/-! ## Linking -/

abbrev Linking := Except (Breach ⊕ LinkError)

def item {α : Type} (xs : Array α) (i : Nat) : Linking α :=
  match xs[i]? with
  | some x => .ok x
  | none => .error (.inl .index)

def sum (x y : UInt16) : Linking UInt16 :=
  if x.toNat + y.toNat < 65536 then .ok (x + y) else .error (.inl .overflow)

/-- A sum that stops at the largest number. -/
def saturatingSum (x y : UInt16) : UInt16 := (min (x.toNat + y.toNat) 65535).toUInt16

/-- What a first pass notes. -/
structure Index where
  names : Array String := #[topLevel]
  /-- For each command, the place of the name of its function. -/
  owners : Array Nat := #[]
  functions : Std.HashMap String Nat := {}
  labels : Std.HashMap (Nat × String) Nat := {}

namespace Index

/-- Notes a command, and says in which function the next one is. -/
def add (x : Index) (owner : Nat) (command : Command) : Linking (Nat × Index) :=
  match command with
  | .function name _ =>
    if x.functions.contains name then .error (.inr (.duplicateFunction name))
    else
      let owner := x.names.size
      .ok (owner, { x with
        names := x.names.push name
        owners := x.owners.push owner
        functions := x.functions.insert name x.owners.size })
  | .label name =>
    .ok (owner, { x with
      owners := x.owners.push owner
      labels := x.labels.insert (owner, name) x.owners.size })
  | _ => .ok (owner, { x with owners := x.owners.push owner })

def addCommands (x : Index) (owner : Nat) : List Command → Linking Index
  | [] => .ok x
  | command :: rest => do
    let (owner, x) ← x.add owner command
    x.addCommands owner rest

def addFiles (x : Index) : List SourceFile → Linking Index
  | [] => .ok x
  | (_, commands) :: rest => do
    let x ← x.addCommands 0 commands
    x.addFiles rest

def label (x : Index) (names : Array String) (owner : Nat) (name : String) : Linking Nat :=
  match x.labels[(owner, name)]? with
  | some address => .ok address
  | none => do throw (.inr (.unknownLabel (← item names owner) name))

end Index

def locate (staticBase : UInt16) (segment : Segment) (index : UInt16) : Linking Location :=
  match segment with
  | .constant => .ok (.constant index)
  | .static => do return .fixed (← sum staticBase index).toNat
  | .temp => do return .fixed (← sum 5 index).toNat
  | .pointer => .ok (.fixed (3 + index.toNat))
  | .locals => .ok (.based .locals index)
  | .argument => .ok (.based .arguments index)
  | .this => .ok (.based .this index)
  | .that => .ok (.based .that index)

/-- The operation of a command, and the names with that of an undefined function behind them. -/
def resolve (x : Index) (names : Array String) (staticBase : UInt16) (owner : Nat) :
    Command → Linking (Op × Array String)
  | .push segment index => do return (.push (← locate staticBase segment index), names)
  | .pop segment index => do return (.pop (← locate staticBase segment index), names)
  | .arithmetic op => .ok (.arithmetic op, names)
  | .label _ => .ok (.skip, names)
  | .goto name => do return (.jump (← x.label names owner name), names)
  | .ifGoto name => do return (.jumpIf (← x.label names owner name), names)
  | .function _ locals => .ok (.enter locals, names)
  | .return => .ok (.return, names)
  | .call name arguments =>
    match x.functions[name]?, Routine.ofName? name with
    | some entry, _ => .ok (.call (.function entry) arguments, names)
    | none, some routine => .ok (.call (.host routine) arguments, names)
    | none, none => .ok (.call (.undefined names.size) arguments, names.push name)

def staticsOf : Command → UInt16
  | .push .static index | .pop .static index => saturatingSum index 1
  | _ => 0

def staticCount (commands : List Command) : UInt16 :=
  commands.foldl (fun n command => max n (staticsOf command)) 0

/-- What a second pass has linked. -/
structure Linked where
  instructions : Array Instruction
  names : Array String

def linkCommands (x : Index) (base : UInt16) (done : Linked) : List Command → Linking Linked
  | [] => .ok done
  | command :: rest => do
    let owner ← item x.owners done.instructions.size
    let (op, names) ← resolve x done.names base owner command
    linkCommands x base ⟨done.instructions.push ⟨op, owner⟩, names⟩ rest

def linkFiles (x : Index) (base : UInt16) (done : Linked) : List SourceFile → Linking Linked
  | [] => .ok done
  | (file, commands) :: rest => do
    let next := saturatingSum base (staticCount commands)
    if 256 < next then throw (.inr (.staticOverflow file))
    let done ← linkCommands x base done commands
    linkFiles x next done rest

def Program.link (files : List SourceFile) : Linking Program := do
  let x ← ({} : Index).addFiles files
  let linked ← linkFiles x 16 ⟨#[], x.names⟩ files
  return { linked with functions := x.functions }

/-! ## Execution -/

structure State where
  ram : Array Int16 := .replicate ramSize 0
  pc : Nat := 0
  returns : List Nat := []
  heapNext : Int := heapBase
  output : String := ""

abbrev Action := EStateM (Breach ⊕ RunError) State

def breach {α : Type} (b : Breach) : Action α := throw (.inl b)

def fail {α : Type} (e : RunError) : Action α := throw (.inr e)

def getWord (address : Nat) : Action Int16 := fun s =>
  match s.ram[address]? with
  | some word => .ok word s
  | none => breach .index s

def setWord (address : Nat) (word : Int16) : Action Unit := fun s =>
  if h : address < s.ram.size then .ok () { s with ram := s.ram.set address word h }
  else breach .index s

/-- A sum of 32 bits. -/
def sum32 (x y : Int) : Action Int :=
  if -2147483648 ≤ x + y ∧ x + y ≤ 2147483647 then pure (x + y) else breach .overflow

/-- A sum of 16 bits. -/
def sum16 (x y : Int16) : Action Int16 :=
  if -32768 ≤ x.toInt + y.toInt ∧ x.toInt + y.toInt ≤ 32767 then pure (x + y)
  else breach .overflow

/-- The place behind one, which has to be a place of the program or its end. -/
def following (P : Program) (address : Nat) : Action Nat :=
  if address + 1 ≤ P.instructions.size then pure (address + 1) else breach .overflow

def nameAt (P : Program) (i : Nat) : Action String :=
  match P.names[i]? with
  | some name => pure name
  | none => breach .index

def currentFunction (P : Program) : Action String := do
  match P.instructions[(← get).pc]? with
  | some i => nameAt P i.owner
  | none => return topLevel

def invalidAddress {α : Type} (P : Program) (address : Int) : Action α := do
  fail (.invalidAddress (← currentFunction P) address)

def readWord (P : Program) (address : Int) : Action Int16 := do
  let ram := (← get).ram
  match if 0 ≤ address then ram[address.toNat]? else none with
  | some word => return word
  | none => invalidAddress P address

def writeWord (P : Program) (address : Int) (value : Int16) : Action Unit :=
  if 0 ≤ address ∧ address.toNat < ramSize then setWord address.toNat value
  else invalidAddress P address

def addressOf : Location → Action Int
  | .constant _ => pure (-1)
  | .fixed address => pure address
  | .based register offset => do sum32 (← getWord register.address).toInt offset.toNat

def load (P : Program) : Location → Action Int16
  | .constant value => pure value.toInt16
  | location => do readWord P (← addressOf location)

def store (P : Program) (location : Location) (value : Int16) : Action Unit := do
  writeWord P (← addressOf location) value

def push (P : Program) (value : Int16) : Action Unit := do
  let sp ← getWord 0
  writeWord P sp.toInt value
  setWord 0 ((← getWord 0) + 1)

def pop (P : Program) : Action Int16 := do
  setWord 0 ((← getWord 0) - 1)
  readWord P (← getWord 0).toInt

def arithmetic (P : Program) (op : Arithmetic) : Action Unit := do
  let y ← pop P
  match op with
  | .neg => push P (-y)
  | .not => push P (~~~y)
  | op => push P (combine op (← pop P) y)

def pushFrame (P : Program) (arguments : UInt16) : Action Unit := do
  push P 0
  push P (← getWord 1)
  push P (← getWord 2)
  push P (← getWord 3)
  push P (← getWord 4)
  let sp ← getWord 0
  setWord 2 (sp - 5 - arguments.toInt16)
  setWord 1 sp

def popFrame (P : Program) : Action Int16 := do
  let frame := (← getWord 1).toInt
  let value ← pop P
  let slot := (← getWord 2).toInt
  writeWord P slot value
  setWord 0 (Int16.ofInt (← sum32 slot 1))
  setWord 4 (← readWord P (← sum32 frame (-1)))
  setWord 3 (← readWord P (← sum32 frame (-2)))
  setWord 2 (← readWord P (← sum32 frame (-3)))
  setWord 1 (← readWord P (← sum32 frame (-4)))
  return value

def print (text : String) : Action Unit :=
  modify fun s => { s with output := s.output ++ text }

def fault {α : Type} (P : Program) (routine : Routine) (cause : Fault) : Action α := do
  fail (.fault routine.name (← currentFunction P) cause)

def alloc (P : Program) (routine : Routine) (size : Int16) : Action Int16 := do
  if size < 0 then fault P routine .negativeSize
  let object := (← get).heapNext
  let next ← sum32 object size.toInt
  if heapEnd < next then fail (.heapExhausted size)
  modify fun s => { s with heapNext := next }
  return Int16.ofInt object

def readChars (P : Program) (object : Int16) (index : Nat) (done : List Char) :
    Nat → Action (List Char)
  | 0 => pure done.reverse
  | count + 1 => do
    let word ← readWord P (← sum32 (← sum32 object.toInt 2) index)
    readChars P object (index + 1) (charOf word :: done) count

/-- Pops arguments in front of others, the last one first. -/
def popArguments (P : Program) (done : List Int16) : Nat → Action (List Int16)
  | 0 => pure done
  | count + 1 => do popArguments P ((← pop P) :: done) count

def newString (P : Program) (capacity : Int16) : Action Int16 := do
  let object ← alloc P .newString (capacity + 2)
  writeWord P object.toInt 0
  writeWord P (← sum32 object.toInt 1) capacity
  return object

def appendChar (P : Program) (object c : Int16) : Action Int16 := do
  let length ← readWord P object.toInt
  let capacity ← readWord P (← sum32 object.toInt 1)
  if capacity ≤ length then fault P .appendChar .capacityExceeded
  writeWord P (← sum32 (← sum32 object.toInt 2) length.toInt) c
  writeWord P object.toInt (← sum16 length 1)
  return object

def charAt (P : Program) (object index : Int16) : Action Int16 := do
  let length ← readWord P object.toInt
  if index < 0 ∨ length ≤ index then fault P .charAt .indexOutOfBounds
  readWord P (← sum32 (← sum32 object.toInt 2) index.toInt)

def printString (P : Program) (object : Int16) : Action Int16 := do
  let length ← readWord P object.toInt
  print (String.ofList (← readChars P object 0 [] length.toInt.toNat))
  return 0

def callRoutine (P : Program) : Routine → List Int16 → Action Int16
  | .multiply, [x, y] => pure (x * y)
  | .divide, [x, y] => do
    if y = 0 then fail (.divisionByZero (← currentFunction P))
    return x / y
  | .abs, [x] => pure (if x < 0 then -x else x)
  | .alloc, [size] => alloc P .alloc size
  | .newArray, [size] => alloc P .newArray size
  | .newString, [capacity] => newString P capacity
  | .appendChar, [object, c] => appendChar P object c
  | .stringLength, [object] => readWord P object.toInt
  | .charAt, [object, index] => charAt P object index
  | .printInt, [x] => do
    print (toString x.toInt)
    return 0
  | .printString, [object] => printString P object
  | .printChar, [c] => do
    print (String.singleton (charOf c))
    return 0
  | .printLine, [] => do
    print "\n"
    return 0
  | .deAlloc, [_] => pure 0
  | .disposeArray, [_] => pure 0
  | _, _ => breach .arguments

def callHost (P : Program) (routine : Routine) (arguments : UInt16) : Action Unit := do
  if arguments.toNat ≠ routine.arity then
    fail (.arityMismatch routine.name routine.arity arguments.toNat)
  let values ← popArguments P [] arguments.toNat
  push P (← callRoutine P routine values)

def pushZeros (P : Program) : Nat → Action Unit
  | 0 => pure ()
  | count + 1 => do
    push P 0
    pushZeros P count

/-- What a step leads to. -/
inductive Outcome
  | goOn (address : Nat)
  | finish (value : Int16)

/-- Executes an instruction with another one behind it. -/
def execute (P : Program) (next : Nat) (i : Instruction) : Action Outcome := do
  match i.op with
  | .push location =>
    push P (← load P location)
    return .goOn next
  | .pop location =>
    store P location (← pop P)
    return .goOn next
  | .arithmetic op =>
    arithmetic P op
    return .goOn next
  | .skip => return .goOn next
  | .jump target => return .goOn target
  | .jumpIf target => return .goOn (if (← pop P) = 0 then next else target)
  | .enter locals =>
    pushZeros P locals.toNat
    return .goOn next
  | .call (.function entry) arguments =>
    pushFrame P arguments
    modify fun s => { s with returns := next :: s.returns }
    return .goOn entry
  | .call (.host routine) arguments =>
    callHost P routine arguments
    return .goOn next
  | .call (.undefined name) _ => do
    fail (.unknownFunction (← nameAt P i.owner) (← nameAt P name))
  | .return =>
    let value ← popFrame P
    match (← get).returns with
    | [] => return .finish value
    | target :: returns =>
      modify fun s => { s with returns }
      return .goOn target

def settle : Outcome → Action (Option Int16)
  | .finish value => pure (some value)
  | .goOn next => do
    modify fun s => { s with pc := next }
    return none

def step (P : Program) : Action (Option Int16) := do
  let address := (← get).pc
  match P.instructions[address]? with
  | none => fail (.fault "execution" (← currentFunction P) .ranPastEnd)
  | some i => settle (← execute P (← following P address) i)

/-- The machine between runs. -/
structure Session where
  state : State := {}
  steps : Nat := 0

/-- Steps until a halt. The counter of steps has 64 bits. -/
def loop (P : Program) (limit : Nat) (m : Session) :
    Except (Breach ⊕ RunError) Execution × Session :=
  if limit ≤ m.steps then (.error (.inr (.stepLimitExceeded limit)), m)
  else if 18446744073709551616 ≤ m.steps + 1 then (.error (.inl .overflow), m)
  else
    match step P m.state with
    | .ok (some value) s => (.ok ⟨value, s.output, m.steps + 1⟩, ⟨s, m.steps + 1⟩)
    | .ok none s => loop P limit ⟨s, m.steps + 1⟩
    | .error e s => (.error e, ⟨s, m.steps + 1⟩)
termination_by limit - m.steps

def prepare (P : Program) (entry : Nat) : Action Unit := do
  setWord 0 stackBase
  pushFrame P 0
  modify fun s => { s with pc := entry }

def run (P : Program) (limit : UInt64) (m : Session) (entry : String) :
    Except (Breach ⊕ RunError) Execution × Session :=
  match P.functions[entry]? with
  | none => (.error (.inr (.missingEntry entry)), m)
  | some start =>
    match prepare P start m.state with
    | .error e s => (.error e, { m with state := s })
    | .ok () s => loop P limit.toNat { m with state := s }

end Checked

end JackToolchain.Machine
