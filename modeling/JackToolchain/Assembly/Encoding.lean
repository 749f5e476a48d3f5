/-!
# Machine words

An address is a word of its own. A computation is the word `111a cccc ccdd djjj`: the bit `a`
chooses between the address register and memory, `c` is the computation, `d` says where the result
goes, and `j` when to jump.
-/

namespace JackToolchain.Assembly

/-- The bits `c` of each computation, written with `A` for the second operand. -/
def compTable : List (String × UInt16) :=
  [("0", 0b101010), ("1", 0b111111), ("-1", 0b111010), ("D", 0b001100), ("A", 0b110000),
    ("!D", 0b001101), ("!A", 0b110001), ("-D", 0b001111), ("-A", 0b110011), ("D+1", 0b011111),
    ("1+D", 0b011111), ("A+1", 0b110111), ("1+A", 0b110111), ("D-1", 0b001110), ("A-1", 0b110010),
    ("D+A", 0b000010), ("A+D", 0b000010), ("D-A", 0b010011), ("A-D", 0b000111), ("D&A", 0b000000),
    ("A&D", 0b000000), ("D|A", 0b010101), ("A|D", 0b010101)]

def jumpTable : List (String × UInt16) :=
  [("JGT", 0b001), ("JEQ", 0b010), ("JGE", 0b011), ("JLT", 0b100), ("JNE", 0b101), ("JLE", 0b110),
    ("JMP", 0b111)]

/-- The bits `a` and `c`. A computation over memory is the one over the address register with the
bit `a` set. -/
def compBits? (comp : String) : Option UInt16 :=
  let cs := comp.toList
  let memory := cs.contains 'M'
  if memory && cs.contains 'A' then none
  else
    let row := String.ofList (cs.map fun c => if c = 'M' then 'A' else c)
    (compTable.lookup row).map fun bits => (if memory then 0b1000000 else 0) ||| bits

def destBit? : Char → Option UInt16
  | 'A' => some 0b100
  | 'D' => some 0b010
  | 'M' => some 0b001
  | _ => none

/-- Adds the bits of some registers to those seen before; none may come twice. -/
def destBitsFrom (seen : UInt16) : List Char → Option UInt16
  | [] => some seen
  | c :: rest =>
    match destBit? c with
    | none => none
    | some bit => if seen &&& bit != 0 then none else destBitsFrom (seen ||| bit) rest

/-- The bits `d` of registers in any order. -/
def destBits? (dest : String) : Option UInt16 :=
  destBitsFrom 0 dest.toList

def jumpBits? (jump : String) : Option UInt16 :=
  jumpTable.lookup jump

/-- Fifteen bits of an address. -/
def encodeAddress (value : UInt16) : UInt16 := value &&& 0x7FFF

def encodeCompute (comp dest jump : UInt16) : UInt16 :=
  (0xE000 : UInt16) ||| (comp <<< 6) ||| (dest <<< 3) ||| jump

/-- Sixteen binary digits, the highest first. -/
def toBinary (word : UInt16) : String :=
  String.ofList <| (List.range 16).map fun i =>
    if word.toNat.testBit (15 - i) then '1' else '0'

end JackToolchain.Assembly
