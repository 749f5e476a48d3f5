/-!
# The processor

Two registers, a program counter and a memory of words. A word with its highest bit clear is an
address to load; any other computes from `D` and either `A` or the memory word at `A`, stores the
result and may jump to `A`. An access behind the end of memory has no outcome.
-/

namespace JackToolchain.Assembly

structure Cpu where
  a : Int16 := 0
  d : Int16 := 0
  pc : Nat := 0
  ram : Vector Int16 32768 := .replicate 32768 0

namespace Cpu

/-- A bit of a word. -/
def flag (word : UInt16) (n : Nat) : Bool := word.toNat.testBit n

/-- The computation that the bits `c` of a word choose. -/
def alu (word : UInt16) (x y : Int16) : Int16 :=
  let x := if flag word 11 then 0 else x
  let x := if flag word 10 then ~~~x else x
  let y := if flag word 9 then 0 else y
  let y := if flag word 8 then ~~~y else y
  let out := if flag word 7 then x + y else x &&& y
  if flag word 6 then ~~~out else out

/-- Whether the bits `j` of a word let a result jump. -/
def jumps (word : UInt16) (out : Int16) : Bool :=
  (flag word 2 && decide (out < 0)) || (flag word 1 && out == 0) || (flag word 0 && decide (0 < out))

/-- The memory address in the register `A`. -/
def address (c : Cpu) : Nat := c.a.toUInt16.toNat

/-- The second operand of a computation. -/
def operand? (word : UInt16) (c : Cpu) : Option Int16 :=
  if flag word 12 then c.ram[c.address]? else some c.a

/-- The memory after a result is stored there, if the word asks for it. -/
def store? (word : UInt16) (out : Int16) (c : Cpu) : Option (Vector Int16 32768) :=
  if flag word 3 then
    if h : c.address < 32768 then some (c.ram.set c.address out h) else none
  else some c.ram

/-- Executes a word. -/
def execute (word : UInt16) (c : Cpu) : Option Cpu :=
  if flag word 15 then do
    let out := alu word c.d (← c.operand? word)
    let ram ← c.store? word out
    return {
      a := if flag word 5 then out else c.a
      d := if flag word 4 then out else c.d
      pc := if jumps word out then c.address else c.pc + 1
      ram }
  else some { c with a := word.toInt16, pc := c.pc + 1 }

/-- One cycle; there is none where the program has no word. -/
def step (words : List UInt16) (c : Cpu) : Option Cpu := do
  execute (← words[c.pc]?) c

/-- Some cycles. -/
def run (words : List UInt16) : Nat → Cpu → Option Cpu
  | 0, c => some c
  | cycles + 1, c => do run words cycles (← step words c)

end Cpu

end JackToolchain.Assembly
