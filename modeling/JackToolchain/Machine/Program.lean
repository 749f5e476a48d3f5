import JackToolchain.Machine.Error
import JackToolchain.Machine.Routine
import Std.Data.HashMap

/-!
# Linked programs

The commands of all files in a row, with labels, calls and segments resolved. A label belongs to the
function around it, each file has its own static variables, and a function of the program hides the
host routine of its name. Calls of unknown functions stay, and fail when they are reached.
-/

namespace JackToolchain.Machine

open JackToolchain.Stack

/-- The words of memory with a role of their own. -/
inductive Register
  | stack
  | locals
  | arguments
  | this
  | that
  deriving DecidableEq, Repr

/-- Where a segment and index point. -/
inductive Location
  | constant (value : UInt16)
  | fixed (address : Nat)
  | based (register : Register) (offset : UInt16)
  deriving DecidableEq, Repr

inductive Target
  | function (entry : Nat)
  | host (routine : Routine)
  | undefined (name : String)
  deriving DecidableEq, Repr

inductive Op
  | push (location : Location)
  | pop (location : Location)
  | arithmetic (op : Arithmetic)
  | skip
  | jump (target : Nat)
  | jumpIf (target : Nat)
  | enter (locals : UInt16)
  | call (target : Target) (arguments : UInt16)
  | return
  deriving DecidableEq, Repr

structure Instruction where
  op : Op
  /-- The function around it. -/
  owner : String
  deriving DecidableEq, Repr

/-- What surrounds commands outside of all functions. -/
def topLevel : String := "<top level>"

structure Program where
  instructions : Array Instruction
  functions : Std.HashMap String Nat

/-- The commands of a file, each with the function around it. -/
def owned (commands : List Command) : Array (String × Command) :=
  (commands.foldl (fun (owner, done) command =>
    let owner := match command with
      | .function name _ => name
      | _ => owner
    (owner, done.push (owner, command))) (topLevel, #[])).2

/-- Where functions and labels are. -/
structure Directory where
  functions : Std.HashMap String Nat := {}
  labels : Std.HashMap (String × String) Nat := {}
  /-- The number of commands so far. -/
  size : Nat := 0

namespace Directory

/-- Notes the next command. A label that is defined again moves. -/
def add (d : Directory) (owner : String) (command : Command) : Except LinkError Directory :=
  match command with
  | .function name _ =>
    if d.functions.contains name then .error (.duplicateFunction name)
    else .ok { d with functions := d.functions.insert name d.size, size := d.size + 1 }
  | .label name => .ok { d with labels := d.labels.insert (owner, name) d.size, size := d.size + 1 }
  | _ => .ok { d with size := d.size + 1 }

def label (d : Directory) (owner name : String) : Except LinkError Nat :=
  match d.labels[(owner, name)]? with
  | some address => .ok address
  | none => .error (.unknownLabel owner name)

def target (d : Directory) (name : String) : Target :=
  match d.functions[name]?, Routine.ofName? name with
  | some entry, _ => .function entry
  | none, some routine => .host routine
  | none, none => .undefined name

end Directory

/-- The first word of a segment that starts at a fixed address is found here. -/
def locate (staticBase : Nat) (segment : Segment) (index : UInt16) : Location :=
  match segment with
  | .constant => .constant index
  | .static => .fixed (staticBase + index.toNat)
  | .temp => .fixed (5 + index.toNat)
  | .pointer => .fixed (3 + index.toNat)
  | .locals => .based .locals index
  | .argument => .based .arguments index
  | .this => .based .this index
  | .that => .based .that index

def resolve (d : Directory) (staticBase : Nat) (owner : String) :
    Command → Except LinkError Op
  | .push segment index => .ok (.push (locate staticBase segment index))
  | .pop segment index => .ok (.pop (locate staticBase segment index))
  | .arithmetic op => .ok (.arithmetic op)
  | .label _ => .ok .skip
  | .goto name => .jump <$> d.label owner name
  | .ifGoto name => .jumpIf <$> d.label owner name
  | .function _ locals => .ok (.enter locals)
  | .return => .ok .return
  | .call name arguments => .ok (.call (d.target name) arguments)

/-- How many static variables a command needs, counted to 65535. -/
def staticsOf : Command → Nat
  | .push .static index | .pop .static index => min (index.toNat + 1) 65535
  | _ => 0

def staticCount (commands : List Command) : Nat :=
  commands.foldl (fun n command => max n (staticsOf command)) 0

/-- The first address of static variables, and the first one behind them. -/
def staticBase : Nat := 16

def staticEnd : Nat := 256

/-- A file: its name and its commands. -/
abbrev SourceFile := String × List Command

def linkCommands (d : Directory) (base : Nat) (done : Array Instruction) :
    List (String × Command) → Except LinkError (Array Instruction)
  | [] => .ok done
  | (owner, command) :: rest =>
    match resolve d base owner command with
    | .error e => .error e
    | .ok op => linkCommands d base (done.push ⟨op, owner⟩) rest

/-- Links files one after the other. `base` is the next address for static variables. -/
def linkFiles (d : Directory) (base : Nat) (done : Array Instruction) :
    List SourceFile → Except LinkError (Array Instruction)
  | [] => .ok done
  | (file, commands) :: rest =>
    let next := base + staticCount commands
    if next > staticEnd then .error (.staticOverflow file)
    else
      match linkCommands d base done (owned commands).toList with
      | .error e => .error e
      | .ok done => linkFiles d next done rest

namespace Program

def link (files : List SourceFile) : Except LinkError Program := do
  let directory ← files.foldlM (fun d (_, commands) =>
    (owned commands).foldlM (fun d (owner, command) => d.add owner command) d) ({} : Directory)
  let instructions ← linkFiles directory staticBase #[] files
  return { instructions, functions := directory.functions }

/-- Reads and links named texts. -/
def ofTexts (texts : List (String × String)) : Except LinkError Program := do
  link (← texts.mapM fun (file, text) =>
    match read text with
    | .ok commands => .ok (file, commands)
    | .error e => .error (.badText file e))

def hasFunction (p : Program) (name : String) : Bool := p.functions.contains name

def size (p : Program) : Nat := p.instructions.size

end Program

end JackToolchain.Machine
