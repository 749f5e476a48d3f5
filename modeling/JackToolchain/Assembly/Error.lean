import JackToolchain.Diagnostics.Event

/-!
# Assembly errors
-/

namespace JackToolchain

open JackToolchain.Diagnostics

namespace Assembly

/-- What is wrong with a line. -/
inductive Fault
  | unknownComp (mnemonic : String)
  | unknownDest (mnemonic : String)
  | unknownJump (mnemonic : String)
  | malformedLabel (text : String)
  | malformedInstruction (text : String)
  | constantOutOfRange (value : String)
  | duplicateLabel (label : String)
  deriving DecidableEq, Repr

namespace Fault

def text : Fault → String
  | unknownComp mnemonic => s!"unknown comp '{mnemonic}'"
  | unknownDest mnemonic => s!"unknown dest '{mnemonic}'"
  | unknownJump mnemonic => s!"unknown jump '{mnemonic}'"
  | malformedLabel text => s!"malformed label '{text}'"
  | malformedInstruction text => s!"malformed instruction '{text}'"
  | constantOutOfRange value => s!"constant {value} does not fit in 15 bits"
  | duplicateLabel label => s!"label '{label}' already defined"

def code : Fault → Code
  | unknownComp _ | unknownDest _ | unknownJump _ => .unknownMnemonic
  | malformedLabel _ | malformedInstruction _ => .malformedInstruction
  | constantOutOfRange _ => .constantOutOfRange
  | duplicateLabel _ => .duplicateLabel

end Fault

end Assembly

open Assembly in
/-- Why a text cannot be assembled. -/
inductive AssemblyError
  | badLine (line : Nat) (fault : Fault)
  | programTooLarge (count : Nat)
  deriving DecidableEq, Repr

namespace AssemblyError

def message : AssemblyError → String
  | badLine line fault => s!"line {line}: {fault.text}"
  | programTooLarge count => s!"program has {count} instructions, ROM holds 32768"

def code : AssemblyError → Code
  | badLine _ fault => fault.code
  | programTooLarge _ => .programTooLarge

def line? : AssemblyError → Option Nat
  | badLine line _ => some line
  | programTooLarge _ => none

def event (e : AssemblyError) : Event :=
  .error e.code e.message [("line", toString (e.line?.getD 0))]

end AssemblyError

end JackToolchain
