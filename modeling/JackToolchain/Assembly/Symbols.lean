import Std.Data.HashMap

/-!
# Assembly symbols

Names bound to addresses: the registers and devices that every program knows, its labels, and
variables, which take the next free address from 16 on when they are first used.
-/

namespace JackToolchain.Assembly

def registerNames : List (String × UInt16) :=
  (List.range 16).map fun n => (s!"R{n}", n.toUInt16)

/-- The symbols that every program knows. -/
def predefined : List (String × UInt16) :=
  [("SP", 0), ("LCL", 1), ("ARG", 2), ("THIS", 3), ("THAT", 4), ("SCREEN", 16384),
    ("KBD", 24576)] ++ registerNames

/-- The address of the first variable. -/
def variableBase : Nat := 16

structure Symbols where
  map : Std.HashMap String UInt16 := .ofList predefined
  /-- How many variables there are. -/
  variableCount : Nat := 0

namespace Symbols

def get? (s : Symbols) (name : String) : Option UInt16 := s.map[name]?

def contains (s : Symbols) (name : String) : Bool := s.map.contains name

def bind (s : Symbols) (name : String) (address : UInt16) : Symbols :=
  { s with map := s.map.insert name address }

theorem get?_bind (s : Symbols) (name : String) (address : UInt16) (other : String) :
    (s.bind name address).get? other = if name = other then some address else s.get? other := by
  simp [bind, get?, Std.HashMap.getElem?_insert]

/-- Binds a name that is not bound. -/
def define? (s : Symbols) (name : String) (address : UInt16) : Option Symbols :=
  if s.contains name then none else some (s.bind name address)

/-- Variables stop at the last address. -/
def nextVariable (s : Symbols) : Symbols :=
  { s with variableCount := min (s.variableCount + 1) (65535 - variableBase) }

/-- The address of a name, which becomes a variable if it has none. -/
def resolve (s : Symbols) (name : String) : UInt16 × Symbols :=
  match s.get? name with
  | some address => (address, s)
  | none =>
    let address := (variableBase + s.variableCount).toUInt16
    (address, (s.bind name address).nextVariable)

end Symbols

end JackToolchain.Assembly
