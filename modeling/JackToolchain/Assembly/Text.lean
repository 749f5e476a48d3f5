import JackToolchain.Assembly.Error
import JackToolchain.Assembly.Instruction
import JackToolchain.Limits
import JackToolchain.Text.Blank
import JackToolchain.Text.Lines
import JackToolchain.Text.Name

/-!
# Assembly text

One instruction or label on a line. Blanks mean nothing anywhere, and two slashes start a comment.
-/

namespace JackToolchain.Assembly

open JackToolchain.Text

/-- An instruction with the number of its line. -/
structure SourceLine where
  line : Nat
  instruction : Instruction
  deriving DecidableEq, Repr

/-- The greatest constant of an instruction. -/
def maxAddress : Nat := 32767

/-- The operand of an address instruction. Digits in front make it a number. -/
def readAddress (value : List Char) : Except Fault Instruction :=
  let malformed := Fault.malformedInstruction (String.ofList ('@' :: value))
  match value with
  | c :: _ =>
    if isDigit c then
      match readDigits? Limits.maxWord32 value with
      | none => .error malformed
      | some n =>
        if n ≤ maxAddress then .ok (.constant n.toUInt16)
        else .error (.constantOutOfRange (String.ofList value))
    else if isName value then .ok (.symbol (String.ofList value))
    else .error malformed
  | [] => .error malformed

/-- The text in front of a character and the text behind it, if the character occurs. -/
def splitAt? (c : Char) (text : List Char) : Option (List Char × List Char) :=
  match text.dropWhile (· != c) with
  | _ :: rest => some (text.takeWhile (· != c), rest)
  | [] => none

/-- `dest=comp;jump`, where dest and jump may be absent but no part may be empty. -/
def readCompute (text : List Char) : Except Fault Instruction :=
  let (dest, rest) := match splitAt? '=' text with
    | some (dest, rest) => (some dest, rest)
    | none => (none, text)
  let (comp, jump) := match splitAt? ';' rest with
    | some (comp, jump) => (comp, some jump)
    | none => (rest, none)
  if comp.isEmpty || dest == some [] || jump == some [] then
    .error (.malformedInstruction (String.ofList text))
  else .ok (.compute (dest.map String.ofList) (String.ofList comp) (jump.map String.ofList))

/-- The name between parentheses; the opening one is taken already. -/
def readLabel (rest : List Char) : Except Fault Instruction :=
  let name := rest.dropLast
  if rest.getLast? = some ')' && isName name then .ok (.label (String.ofList name))
  else .error (.malformedLabel (String.ofList ('(' :: rest)))

/-- The instruction of a text without blanks. -/
def readInstruction (text : List Char) : Except Fault Instruction :=
  match text with
  | '(' :: rest => readLabel rest
  | '@' :: value => readAddress value
  | _ => readCompute text

/-- The instruction of a line, if there is one on it. -/
def readLine (raw : String) (line : Nat) : Except AssemblyError (Option Instruction) :=
  let text := (beforeSlashes raw.toList).filter fun c => !isBlank c
  if text.isEmpty then .ok none
  else
    match readInstruction text with
    | .ok i => .ok (some i)
    | .error fault => .error (.badLine line fault)

/-- The instructions of some lines; `line` numbers the first one, `done` holds the instructions
before it, reversed. -/
def readLines (done : List SourceLine) (line : Nat) :
    List String → Except AssemblyError (List SourceLine)
  | [] => .ok done.reverse
  | raw :: rest =>
    match readLine raw line with
    | .error e => .error e
    | .ok none => readLines done (line + 1) rest
    | .ok (some i) => readLines (⟨line, i⟩ :: done) (line + 1) rest

def read (text : String) : Except AssemblyError (List SourceLine) :=
  readLines [] 1 (lines text)

end JackToolchain.Assembly
