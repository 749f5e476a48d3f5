import JackToolchain.Assembly.Encoding
import JackToolchain.Assembly.Symbols
import JackToolchain.Assembly.Text

/-!
# Assembled programs

First every label is bound to the address of the instruction after it, then every instruction is
encoded, and symbols that are no labels become variables in the order of their use.
-/

namespace JackToolchain.Assembly

/-- How many words the read-only memory holds. -/
def romSize : Nat := 32768

structure Program where
  words : List UInt16
  symbols : Symbols
  labels : Nat

/-- Binds the labels of some lines. `address` is the address of the next instruction and `labels`
counts the labels before. -/
def bindLabels (symbols : Symbols) (address labels : Nat) :
    List SourceLine → Except AssemblyError (Symbols × Nat)
  | [] => if address > romSize then .error (.programTooLarge address) else .ok (symbols, labels)
  | ⟨line, .label name⟩ :: rest =>
    if address > 65535 then .error (.programTooLarge address)
    else
      match symbols.define? name address.toUInt16 with
      | none => .error (.badLine line (.duplicateLabel name))
      | some symbols => bindLabels symbols address (labels + 1) rest
  | _ :: rest => bindLabels symbols (address + 1) labels rest

/-- The bits of a part that may be absent. -/
def optionalBits (bits? : String → Option UInt16) (fault : String → Fault) :
    Option String → Except Fault UInt16
  | none => .ok 0
  | some mnemonic =>
    match bits? mnemonic with
    | some bits => .ok bits
    | none => .error (fault mnemonic)

/-- The word of a computation; an unknown comp is found first, then dest, then jump. -/
def encodeParts (dest : Option String) (comp : String) (jump : Option String) :
    Except Fault UInt16 := do
  let comp ← optionalBits compBits? .unknownComp (some comp)
  let dest ← optionalBits destBits? .unknownDest dest
  let jump ← optionalBits jumpBits? .unknownJump jump
  return encodeCompute comp dest jump

/-- The word of an instruction, if it has one. -/
def encode (symbols : Symbols) : Instruction → Except Fault (Option UInt16 × Symbols)
  | .constant value => .ok (some (encodeAddress value), symbols)
  | .symbol name =>
    let (address, symbols) := symbols.resolve name
    .ok (some (encodeAddress address), symbols)
  | .compute dest comp jump => (encodeParts dest comp jump).map fun word => (some word, symbols)
  | .label _ => .ok (none, symbols)

/-- Encodes some lines; `words` holds the words before, reversed. -/
def encodeLines (words : List UInt16) (symbols : Symbols) :
    List SourceLine → Except AssemblyError (List UInt16 × Symbols)
  | [] => .ok (words.reverse, symbols)
  | ⟨line, i⟩ :: rest =>
    match encode symbols i with
    | .error fault => .error (.badLine line fault)
    | .ok (none, symbols) => encodeLines words symbols rest
    | .ok (some word, symbols) => encodeLines (word :: words) symbols rest

/-- Assembles parsed lines. -/
def ofLines (source : List SourceLine) : Except AssemblyError Program := do
  let (symbols, labels) ← bindLabels {} 0 0 source
  let (words, symbols) ← encodeLines [] symbols source
  return { words, symbols, labels }

def assemble (text : String) : Except AssemblyError Program := do
  ofLines (← read text)

namespace Program

/-- A line of binary digits for each word. -/
def binaryText (p : Program) : String :=
  p.words.foldl (fun text word => text ++ toBinary word ++ "\n") ""

end Program

end JackToolchain.Assembly
