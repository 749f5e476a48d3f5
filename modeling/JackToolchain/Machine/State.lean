import JackToolchain.Machine.Error
import JackToolchain.Machine.Program

/-!
# The state of the machine

Memory holds the registers in its first words, then scratch words, static variables from 16, the
stack from 256 and the heap from 2048. An action on the state may fail; what it changed before stays
changed.
-/

namespace JackToolchain.Machine

/-- How many words memory has. -/
def ramSize : Nat := 32768

def stackBase : Int16 := 256

/-- The heap starts here. -/
def heapBase : Nat := 2048

/-- The first address behind the heap. -/
def heapEnd : Nat := 16384

structure State where
  ram : Vector Int16 ramSize := .replicate ramSize 0
  /-- The instruction that runs next. -/
  pc : Nat := 0
  /-- Where the open calls return to, the latest first. -/
  returns : List Nat := []
  /-- The first free address of the heap. -/
  heapNext : Nat := heapBase
  output : String := ""

/-- An action keeps the state also when it fails. -/
abbrev Action := EStateM RunError State

def Register.address : Register → Fin ramSize
  | .stack => ⟨0, by decide⟩
  | .locals => ⟨1, by decide⟩
  | .arguments => ⟨2, by decide⟩
  | .this => ⟨3, by decide⟩
  | .that => ⟨4, by decide⟩

namespace State

def register (s : State) (r : Register) : Int16 := s.ram[r.address]

def setRegister (s : State) (r : Register) (value : Int16) : State :=
  { s with ram := s.ram.set r.address value r.address.isLt }

end State

def getRegister (r : Register) : Action Int16 := modifyGet fun s => (s.register r, s)

def setRegister (r : Register) (value : Int16) : Action Unit := modify (·.setRegister r value)

/-- Reads the word at an address, on behalf of a function. -/
def readWord (owner : String) (address : Int) : Action Int16 := fun s =>
  if h : 0 ≤ address ∧ address.toNat < ramSize then
    have := h.2
    .ok s.ram[address.toNat] s
  else .error (.invalidAddress owner address) s

def writeWord (owner : String) (address : Int) (value : Int16) : Action Unit := fun s =>
  if h : 0 ≤ address ∧ address.toNat < ramSize then
    .ok () { s with ram := s.ram.set address.toNat value h.2 }
  else .error (.invalidAddress owner address) s

/-- A word that does not fit below the end of memory is not pushed. -/
def push (owner : String) (value : Int16) : Action Unit := do
  let sp ← getRegister .stack
  writeWord owner sp.toInt value
  setRegister .stack ((← getRegister .stack) + 1)

/-- The stack shrinks before the word is read. -/
def pop (owner : String) : Action Int16 := do
  let sp := (← getRegister .stack) - 1
  setRegister .stack sp
  readWord owner sp.toInt

end JackToolchain.Machine
