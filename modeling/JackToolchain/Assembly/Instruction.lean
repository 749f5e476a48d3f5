/-!
# Assembly instructions

An instruction loads an address, or computes a word from the registers, stores it and jumps. A label
names the address of the instruction after it.
-/

namespace JackToolchain.Assembly

inductive Instruction
  | constant (value : UInt16)
  | symbol (name : String)
  | compute (dest : Option String) (comp : String) (jump : Option String)
  | label (name : String)
  deriving DecidableEq, Repr

namespace Instruction

/-- An instruction on its line, in the fewest characters. -/
def text : Instruction → String
  | constant value => s!"@{value.toNat}"
  | symbol name => s!"@{name}"
  | compute dest comp jump =>
    dest.elim "" (· ++ "=") ++ comp ++ jump.elim "" (";" ++ ·)
  | label name => s!"({name})"

/-- Computes and stores. -/
def assign (dest comp : String) : Instruction := compute (some dest) comp none

/-- Computes and jumps. -/
def jump (comp condition : String) : Instruction := compute none comp (some condition)

/-- Labels take no room in a program. -/
def isLabel : Instruction → Bool
  | label _ => true
  | _ => false

@[simp] theorem isLabel_label (name : String) : (label name).isLabel = true := rfl

end Instruction

/-- Every instruction on a line. -/
def render (instructions : List Instruction) : String :=
  instructions.foldl (fun text i => text ++ i.text ++ "\n") ""

end JackToolchain.Assembly
