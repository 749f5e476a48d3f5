import JackToolchain.Diagnostics.Event
import JackToolchain.Stack.Command
import JackToolchain.Text.Lines
import JackToolchain.Text.Name

/-!
# Command text

A command is written on a line of its own, its fields parted by one space. When read, any blanks may
part the fields, a line may be empty, and two slashes start a comment.
-/

namespace JackToolchain.Stack

open JackToolchain.Diagnostics JackToolchain.Text

namespace Command

def text : Command → String
  | push segment index => s!"push {segment.text} {index.toNat}"
  | pop segment index => s!"pop {segment.text} {index.toNat}"
  | arithmetic op => op.text
  | label name => s!"label {name}"
  | goto name => s!"goto {name}"
  | ifGoto name => s!"if-goto {name}"
  | function name locals => s!"function {name} {locals.toNat}"
  | call name arguments => s!"call {name} {arguments.toNat}"
  | «return» => "return"

end Command

/-- Every command on a line. -/
def render (commands : List Command) : String :=
  commands.foldl (fun text command => text ++ command.text ++ "\n") ""

/-- What is wrong with a line. -/
inductive Fault
  | unknownCommand (text : String)
  | unknownSegment (segment : String)
  | invalidNumber (text : String)
  | illegalAccess (violation : Violation)
  | invalidName (name : String)
  deriving DecidableEq, Repr

namespace Fault

def text : Fault → String
  | unknownCommand text => s!"unknown command '{text}'"
  | unknownSegment segment => s!"unknown segment '{segment}'"
  | invalidNumber text => s!"invalid number '{text}'"
  | illegalAccess violation => violation.text
  | invalidName name => s!"invalid symbol '{name}'"

def code : Fault → Code
  | unknownCommand _ => .unknownCommand
  | unknownSegment _ => .invalidSegment
  | invalidNumber _ | illegalAccess _ => .invalidIndex
  | invalidName _ => .invalidName

end Fault

/-- A line that is no command. -/
structure ReadError where
  line : Nat
  /-- The line without comment and outer blanks. -/
  text : String
  fault : Fault
  deriving DecidableEq, Repr

namespace ReadError

def message (e : ReadError) : String := s!"line {e.line}: {e.fault.text}"

def code (e : ReadError) : Code := e.fault.code

def event (e : ReadError) : Event := .error e.code e.message [("text", e.text)]

end ReadError

/-- A number of a command: digits only, and at most 65535. -/
def readNumber (text : List Char) : Except Fault UInt16 :=
  match readDigits? 65535 text with
  | some n => .ok n.toUInt16
  | none => .error (.invalidNumber (String.ofList text))

def readName (text : List Char) : Except Fault String :=
  if isName text then .ok (String.ofList text) else .error (.invalidName (String.ofList text))

def readSegment (text : List Char) : Except Fault Segment :=
  match Segment.ofText? (String.ofList text) with
  | some segment => .ok segment
  | none => .error (.unknownSegment (String.ofList text))

/-- The segment is looked at first, then the number, then whether they go together. -/
def readAccess (pops : Bool) (segment index : List Char) : Except Fault Command := do
  let segment ← readSegment segment
  let index ← readNumber index
  match segment.violation? index pops with
  | some violation => throw (.illegalAccess violation)
  | none => return if pops then .pop segment index else .push segment index

/-- The command of a line that is neither blank nor all comment. -/
def readCommand (text : List Char) : Except Fault Command :=
  let unknown := Fault.unknownCommand (String.ofList text)
  match words text with
  | [head, second, third] =>
    match String.ofList head with
    | "push" => readAccess false second third
    | "pop" => readAccess true second third
    | "function" => do return .function (← readName second) (← readNumber third)
    | "call" => do return .call (← readName second) (← readNumber third)
    | _ => .error unknown
  | [head, second] =>
    match String.ofList head with
    | "label" => .label <$> readName second
    | "goto" => .goto <$> readName second
    | "if-goto" => .ifGoto <$> readName second
    | _ => .error unknown
  | [head] =>
    match String.ofList head with
    | "return" => .ok .return
    | word =>
      match Arithmetic.ofText? word with
      | some op => .ok (.arithmetic op)
      | none => .error unknown
  | _ => .error unknown

/-- The command of a line, if there is one on it. -/
def readLine (raw : String) (line : Nat) : Except ReadError (Option Command) :=
  let text := trimChars (beforeSlashes raw.toList)
  if text.isEmpty then .ok none
  else
    match readCommand text with
    | .ok command => .ok (some command)
    | .error fault => .error ⟨line, String.ofList text, fault⟩

/-- The commands of some lines; `line` numbers the first one, `done` holds the commands before it,
reversed. -/
def readLines (done : List Command) (line : Nat) : List String → Except ReadError (List Command)
  | [] => .ok done.reverse
  | raw :: rest =>
    match readLine raw line with
    | .error e => .error e
    | .ok none => readLines done (line + 1) rest
    | .ok (some command) => readLines (command :: done) (line + 1) rest

/-- The commands of a text, up to the first bad line. -/
def read (text : String) : Except ReadError (List Command) :=
  readLines [] 1 (lines text)

end JackToolchain.Stack
