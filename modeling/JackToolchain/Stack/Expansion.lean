import JackToolchain.Assembly.Instruction
import JackToolchain.Stack.Text

/-!
# Expansion to assembly

Each command becomes a fixed sequence of instructions. Static variables and labels of comparisons
carry the name of the file, labels of branches that of the function around them. The registers R13
and R14 are scratch.
-/

namespace JackToolchain

open JackToolchain.Diagnostics JackToolchain.Stack

/-- A command that has no expansion. -/
inductive ExpansionError
  | illegalAccess (file : String) (command : Command) (violation : Violation)
  | outsideFunction (file : String) (command : Command)
  deriving DecidableEq, Repr

namespace ExpansionError

def file : ExpansionError → String
  | illegalAccess file .. | outsideFunction file _ => file

def message : ExpansionError → String
  | illegalAccess file command violation => s!"{file}: {command.text}: {violation.text}"
  | outsideFunction file command => s!"{file}: '{command.text}' outside of any function"

def code : ExpansionError → Code
  | illegalAccess .. => .invalidIndex
  | outsideFunction .. => .illegalOperation

def event (e : ExpansionError) : Event := .error e.code e.message [("file", e.file)]

end ExpansionError

namespace Stack

open JackToolchain.Assembly JackToolchain.Assembly.Instruction

/-- The expansion of a file up to some command. -/
structure Expander where
  file : String
  /-- The function around the next command. -/
  function : Option String := none
  calls : Nat := 0
  comparisons : Nat := 0
  deriving DecidableEq, Repr

namespace Expander

/-- Pushes the register D. -/
def pushD : List Instruction :=
  [.symbol "SP", assign "A" "M", assign "M" "D", .symbol "SP", assign "M" "M+1"]

/-- Pops into the register D. -/
def popD : List Instruction :=
  [.symbol "SP", assign "AM" "M-1", assign "D" "M"]

/-- Computes on the top of the stack. -/
def unary (comp : String) : List Instruction :=
  [.symbol "SP", assign "AM" "M-1", assign "D" comp] ++ pushD

/-- Pops the second operand into D and finds the first one in memory. -/
def combine (comp : String) : List Instruction :=
  popD ++ [.symbol "SP", assign "AM" "M-1", assign "D" comp]

def binary (comp : String) : List Instruction :=
  combine comp ++ pushD

def baseRegister : Segment → String
  | .argument => "ARG"
  | .locals => "LCL"
  | .this => "THIS"
  | _ => "THAT"

def pointerRegister (index : UInt16) : String :=
  if index = 0 then "THIS" else "THAT"

/-- The word of a segment that has a fixed address. -/
def fixedWord? (file : String) (segment : Segment) (index : UInt16) : Option Instruction :=
  match segment with
  | .static => some (.symbol s!"{file}.{index.toNat}")
  | .temp => some (.constant (5 + index))
  | .pointer => some (.symbol (pointerRegister index))
  | _ => none

def pushFrom (file : String) (segment : Segment) (index : UInt16) : List Instruction :=
  let load :=
    match segment, fixedWord? file segment index with
    | .constant, _ => [.constant index, assign "D" "A"]
    | _, some word => [word, assign "D" "M"]
    | _, none =>
      [.constant index, assign "D" "A", .symbol (baseRegister segment), assign "A" "D+M",
        assign "D" "M"]
  load ++ pushD

def popInto (file : String) (segment : Segment) (index : UInt16) : List Instruction :=
  match fixedWord? file segment index with
  | some word => popD ++ [word, assign "M" "D"]
  | none =>
    [.constant index, assign "D" "A", .symbol (baseRegister segment), assign "D" "D+M",
      .symbol "R13", assign "M" "D"] ++ popD ++ [.symbol "R13", assign "A" "M", assign "M" "D"]

/-- True is the word of ones, false is zero. The number keeps the labels of a file apart. -/
def compare (file : String) (op : Arithmetic) (condition : String) (number : Nat) :
    List Instruction :=
  let ifTrue := s!"{file}.if_{op.text}${number}"
  let after := s!"{file}.after_{op.text}${number}"
  combine "M-D" ++
    [.symbol ifTrue, jump "D" condition, assign "D" "0", .symbol after, jump "0" "JMP",
      .label ifTrue, assign "D" "-1", .label after] ++ pushD

/-- The registers that a frame saves, in the order in which they are pushed. -/
def frameRegisters : List String := ["LCL", "ARG", "THIS", "THAT"]

/-- Pushes a frame with a return address and jumps. -/
def callFunction (name : String) (arguments : UInt16) (returnLabel : String) : List Instruction :=
  [.symbol returnLabel, assign "D" "A"] ++ pushD ++
    frameRegisters.flatMap (fun r => [.symbol r, assign "D" "M"] ++ pushD) ++
    [.constant 5, assign "D" "A", .constant arguments, assign "D" "D+A", .symbol "SP",
      assign "D" "M-D", .symbol "ARG", assign "M" "D", .symbol "SP", assign "D" "M", .symbol "LCL",
      assign "M" "D", .symbol name, jump "0" "JMP", .label returnLabel]

/-- Names the function and clears its local variables. -/
def enterFunction (name : String) (locals : UInt16) : List Instruction :=
  [.label name, .symbol "SP", assign "A" "M"] ++
    (List.replicate locals.toNat [assign "M" "0", assign "A" "A+1"]).flatten ++
    [assign "D" "A", .symbol "SP", assign "M" "D"]

/-- Restores a register from a word of the frame, counted down from its end. -/
def restore (offset : Nat) (register : String) : List Instruction :=
  [.symbol "R13", assign "A" "M"] ++ List.replicate offset (assign "A" "A-1") ++
    [assign "D" "M", .symbol register, assign "M" "D"]

/-- Hands the top of the stack to the caller, restores its registers and jumps back. -/
def leaveFunction : List Instruction :=
  [.symbol "LCL", assign "D" "M", .symbol "R13", assign "M" "D", .constant 5, assign "D" "A",
    .symbol "R13", assign "A" "M-D", assign "D" "M", .symbol "R14", assign "M" "D"] ++ popD ++
    [.symbol "ARG", assign "A" "M", assign "M" "D", assign "D" "A", .symbol "SP",
      assign "M" "D+1"] ++
    (frameRegisters.reverse.zipIdx 1).flatMap (fun (register, offset) => restore offset register) ++
    [.symbol "R14", assign "A" "M", jump "0" "JMP"]

/-- A branch label inside the function around it. -/
def branchLabel (t : Expander) (label : String) (command : Command) :
    Except ExpansionError String :=
  match t.function with
  | some function => .ok s!"{function}${label}"
  | none => .error (.outsideFunction t.file command)

def compareWith (t : Expander) (op : Arithmetic) (condition : String) :
    List Instruction × Expander :=
  (compare t.file op condition t.comparisons, { t with comparisons := t.comparisons + 1 })

def arithmetic (t : Expander) (op : Arithmetic) : List Instruction × Expander :=
  match op with
  | .neg => (unary "-M", t)
  | .not => (unary "!M", t)
  | .add => (binary "D+M", t)
  | .sub => (binary "M-D", t)
  | .and => (binary "D&M", t)
  | .or => (binary "D|M", t)
  | .eq => t.compareWith op "JEQ"
  | .gt => t.compareWith op "JGT"
  | .lt => t.compareWith op "JLT"

def call (t : Expander) (name : String) (arguments : UInt16) : List Instruction × Expander :=
  let caller := t.function.getD "bootstrap"
  (callFunction name arguments s!"{t.file}.{caller}$ret.{t.calls}", { t with calls := t.calls + 1 })

def expand (t : Expander) (command : Command) :
    Except ExpansionError (List Instruction × Expander) :=
  match command.violation? with
  | some violation => .error (.illegalAccess t.file command violation)
  | none =>
    match command with
    | .push segment index => .ok (pushFrom t.file segment index, t)
    | .pop segment index => .ok (popInto t.file segment index, t)
    | .arithmetic op => .ok (t.arithmetic op)
    | .label name => do return ([.label (← t.branchLabel name command)], t)
    | .goto name => do return ([.symbol (← t.branchLabel name command), jump "0" "JMP"], t)
    | .ifGoto name => do
      return (popD ++ [.symbol (← t.branchLabel name command), jump "D" "JNE"], t)
    | .function name locals => .ok (enterFunction name locals, { t with function := some name })
    | .call name arguments => .ok (t.call name arguments)
    | .return => .ok (leaveFunction, t)

/-- Expands commands one after the other, each behind its own text as a comment. -/
def expandFrom (t : Expander) (text : String) : List Command → Except ExpansionError String
  | [] => .ok text
  | command :: rest =>
    match t.expand command with
    | .error e => .error e
    | .ok (instructions, t) =>
      expandFrom t (instructions.foldl (fun text i => text ++ i.text ++ "\n")
        (text ++ "// " ++ command.text ++ "\n")) rest

end Expander

/-- The assembly of a file, under a comment with its name. -/
def expandFile (file : String) (commands : List Command) : Except ExpansionError String :=
  ({ file } : Expander).expandFrom s!"// File: {file}.vm\n" commands

/-- What runs before all files: the stack is set up and `Sys.init` called. -/
def bootstrap : String :=
  "// Bootstrap\n" ++ Assembly.render
    ([.constant 256, assign "D" "A", .symbol "SP", assign "M" "D"] ++
      (({ file := "Sys" } : Expander).call "Sys.init" 0).1)

end Stack

end JackToolchain
