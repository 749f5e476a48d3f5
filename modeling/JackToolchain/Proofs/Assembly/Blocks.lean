import JackToolchain.Assembly.Cpu
import JackToolchain.Assembly.Program
import JackToolchain.Proofs.Memory

/-!
# Blocks of instructions in a program

Instructions whose symbols are addresses, loaded somewhere in a program of words. What a straight
block does to the processor is computed on the instructions.
-/

namespace JackToolchain.Assembly

open JackToolchain.Memory

/-- The value of a computation over `D` and its second operand. -/
def valueOf (comp : String) (d y : Int16) : Int16 :=
  match comp with
  | "0" => 0
  | "-1" => -1
  | "D" => d
  | "A" | "M" => y
  | "!M" => ~~~y
  | "-M" => -y
  | "D+1" => d + 1
  | "A+1" | "M+1" => y + 1
  | "A-1" | "M-1" => y - 1
  | "D+A" | "D+M" => d + y
  | "M-D" => y - d
  | "D&M" => d &&& y
  | "D|M" => d ||| y
  | _ => 0

/-- The assignments of expanded commands. -/
def assignments : List (String × String) :=
  [("A", "M"), ("M", "D"), ("M", "M+1"), ("AM", "M-1"), ("D", "M"), ("D", "-M"), ("D", "!M"),
    ("D", "D+M"), ("D", "M-D"), ("D", "D&M"), ("D", "D|M"), ("D", "A"), ("D", "0"), ("D", "-1"),
    ("D", "D+A"), ("A", "D+M"), ("M", "0"), ("A", "A+1"), ("A", "A-1"), ("A", "M-D"), ("M", "D+1")]

/-- The jumps of expanded commands. -/
def branches : List (String × String) :=
  [("0", "JMP"), ("D", "JNE"), ("D", "JEQ"), ("D", "JGT"), ("D", "JLT")]

/-- Whether a result jumps. -/
def taken (condition : String) (out : Int16) : Bool :=
  match condition with
  | "JGT" => decide (0 < out)
  | "JEQ" => out == 0
  | "JLT" => decide (out < 0)
  | "JNE" => !(out == 0)
  | "JMP" => true
  | _ => false

namespace Cpu

/-- The second operand of a computation. -/
def operand (comp : String) (c : Cpu) : Int16 :=
  if comp.toList.contains 'M' then word c.ram c.address else c.a

/-- Computes and stores. -/
def stored (dest comp : String) (c : Cpu) : Cpu :=
  let out := valueOf comp c.d (c.operand comp)
  { a := if dest.toList.contains 'A' then out else c.a
    d := if dest.toList.contains 'D' then out else c.d
    pc := c.pc + 1
    ram := if dest.toList.contains 'M' then put c.ram c.address out else c.ram }

theorem execute_eq {word : UInt16} {c : Cpu} (hcompute : flag word 15 = true)
    (hc : c.address < 32768) :
    execute word c =
      let y := if flag word 12 then Memory.word c.ram c.address else c.a
      let out := alu word c.d y
      some {
        a := if flag word 5 then out else c.a
        d := if flag word 4 then out else c.d
        pc := if jumps word out then c.address else c.pc + 1
        ram := if flag word 3 then put c.ram c.address out else c.ram } := by
  have hread : c.operand? word =
      some (if flag word 12 then Memory.word c.ram c.address else c.a) := by
    unfold operand?
    split
    · exact getElem?_eq_word _ hc
    · rfl
  have hwrite (out : Int16) :
      c.store? word out = some (if flag word 3 then put c.ram c.address out else c.ram) := by
    unfold store?
    split
    · simp only [set_eq_put]
    · rfl
  simp only [execute, hcompute, if_true, hread, hwrite, bind, Option.bind, pure]

theorem not_eq (x : Int16) : ~~~x = -x - 1 := by
  rw [Int16.neg_eq_not_add]
  grind

theorem not_sub_one (y : Int16) : ~~~(y - 1) = -y := by
  rw [not_eq]
  grind

theorem neg_not (y : Int16) : -~~~y = y + 1 := by
  rw [not_eq]
  grind

theorem not_add_not (x y : Int16) : ~~~(x + ~~~y) = y - x := by
  rw [not_eq (x + ~~~y), not_eq y]
  grind

theorem neg_one_add (y : Int16) : -1 + y = y - 1 := by
  grind

theorem add_neg_one (y : Int16) : y + -1 = y - 1 := by
  grind

theorem neg_or_pos_iff (x : Int16) : x < 0 ∨ 0 < x ↔ x ≠ 0 := by
  grind

theorem not_and_not (x y : Int16) : ~~~(~~~x &&& ~~~y) = x ||| y := by
  apply Int16.toBitVec_inj.mp
  ext i hi
  simp

/-- The bits of a word do what its mnemonics say. -/
theorem execute_assign {dest comp : String} {word : UInt16} {c : Cpu}
    (hmem : (dest, comp) ∈ assignments) (hword : encodeParts (some dest) comp none = .ok word)
    (hc : c.address < 32768) : execute word c = some (c.stored dest comp) := by
  simp only [assignments, List.mem_cons, Prod.mk.injEq, List.not_mem_nil, or_false] at hmem
  rcases hmem with ⟨rfl, rfl⟩ | ⟨rfl, rfl⟩ | ⟨rfl, rfl⟩ | ⟨rfl, rfl⟩ | ⟨rfl, rfl⟩ | ⟨rfl, rfl⟩ |
    ⟨rfl, rfl⟩ | ⟨rfl, rfl⟩ | ⟨rfl, rfl⟩ | ⟨rfl, rfl⟩ | ⟨rfl, rfl⟩ | ⟨rfl, rfl⟩ | ⟨rfl, rfl⟩ |
    ⟨rfl, rfl⟩ | ⟨rfl, rfl⟩ | ⟨rfl, rfl⟩ | ⟨rfl, rfl⟩ | ⟨rfl, rfl⟩ | ⟨rfl, rfl⟩ | ⟨rfl, rfl⟩ |
    ⟨rfl, rfl⟩
  all_goals
    cases hword
    rw [execute_eq (by decide) hc]
    simp +decide [alu, jumps, stored, operand, valueOf, not_sub_one, neg_not, not_add_not,
      neg_one_add, add_neg_one, not_and_not]

theorem execute_branch {comp condition : String} {word : UInt16} {c : Cpu}
    (hmem : (comp, condition) ∈ branches)
    (hword : encodeParts none comp (some condition) = .ok word) (hc : c.address < 32768) :
    execute word c =
      some { c with pc := if taken condition (valueOf comp c.d c.a) then c.address else c.pc + 1 } := by
  simp only [branches, List.mem_cons, Prod.mk.injEq, List.not_mem_nil, or_false] at hmem
  rcases hmem with ⟨rfl, rfl⟩ | ⟨rfl, rfl⟩ | ⟨rfl, rfl⟩ | ⟨rfl, rfl⟩ | ⟨rfl, rfl⟩
  all_goals
    cases hword
    rw [execute_eq (by decide) hc]
    simp +decide [alu, jumps, taken, valueOf, neg_or_pos_iff]

/-! ## Cycles -/

/-- The processor gets from one state to another. -/
def Reaches (words : List UInt16) (c c' : Cpu) : Prop := ∃ cycles, run words cycles c = some c'

theorem Reaches.refl (words : List UInt16) (c : Cpu) : Reaches words c c := ⟨0, rfl⟩

theorem run_add (words : List UInt16) (m n : Nat) (c : Cpu) :
    run words (m + n) c = (run words m c).bind (run words n) := by
  induction m generalizing c with
  | zero => simp [run]
  | succ m ih =>
      rw [Nat.succ_add]
      cases hstep : step words c with
      | none => simp [run, hstep]
      | some next => simp [run, hstep, ih]

theorem Reaches.trans {words : List UInt16} {c c' c'' : Cpu} (h : Reaches words c c')
    (h' : Reaches words c' c'') : Reaches words c c'' := by
  obtain ⟨m, hm⟩ := h
  obtain ⟨n, hn⟩ := h'
  refine ⟨m + n, ?_⟩
  rw [run_add, hm, Option.bind_some, hn]

theorem Reaches.of_step {words : List UInt16} {c c' : Cpu} (h : step words c = some c') :
    Reaches words c c' :=
  ⟨1, by simp [run, h]⟩

end Cpu

/-! ## Instructions in a program -/

/-- How many words an instruction takes. -/
def Instruction.size : Instruction → Nat
  | .label _ => 0
  | _ => 1

@[simp] theorem Instruction.size_constant (value : UInt16) : (constant value).size = 1 := rfl
@[simp] theorem Instruction.size_symbol (name : String) : (symbol name).size = 1 := rfl
@[simp] theorem Instruction.size_label (name : String) : (label name).size = 0 := rfl
@[simp] theorem Instruction.size_assign (dest comp : String) : (assign dest comp).size = 1 := rfl
@[simp] theorem Instruction.size_jump (comp condition : String) :
    (jump comp condition).size = 1 := rfl

/-- How many words some instructions take. -/
def wordCount (instructions : List Instruction) : Nat :=
  (instructions.map Instruction.size).sum

@[simp] theorem wordCount_nil : wordCount [] = 0 := rfl

@[simp] theorem wordCount_cons (i : Instruction) (rest : List Instruction) :
    wordCount (i :: rest) = i.size + wordCount rest := by
  simp [wordCount]

@[simp] theorem wordCount_append (front back : List Instruction) :
    wordCount (front ++ back) = wordCount front + wordCount back := by
  simp [wordCount]

section Placement

variable (addresses : String → Nat) (words : List UInt16)

/-- The instruction stands at an address of a program in which symbols have these addresses. -/
def Placed (pc : Nat) : Instruction → Prop
  | .constant value => value.toNat < 32768 ∧ words[pc]? = some value
  | .symbol name => addresses name < 32768 ∧ words[pc]? = some (addresses name).toUInt16
  | .compute dest comp jump =>
    ∃ word, encodeParts dest comp jump = .ok word ∧ words[pc]? = some word
  | .label name => addresses name = pc

/-- The instructions stand one after the other from an address on. -/
def Loaded : Nat → List Instruction → Prop
  | _, [] => True
  | pc, i :: rest => Placed addresses words pc i ∧ Loaded (pc + i.size) rest

variable {addresses words}

@[simp] theorem loaded_nil (pc : Nat) : Loaded addresses words pc [] := trivial

@[simp] theorem loaded_cons (pc : Nat) (i : Instruction) (rest : List Instruction) :
    Loaded addresses words pc (i :: rest) ↔
      Placed addresses words pc i ∧ Loaded addresses words (pc + i.size) rest := Iff.rfl

theorem loaded_append {pc : Nat} {front back : List Instruction} :
    Loaded addresses words pc (front ++ back) ↔
      Loaded addresses words pc front ∧ Loaded addresses words (pc + wordCount front) back := by
  induction front generalizing pc with
  | nil => simp
  | cons i front ih => simp [ih, and_assoc, Nat.add_assoc]

end Placement

namespace Cpu

/-- What an instruction that does not jump does. -/
def perform (addresses : String → Nat) : Instruction → Cpu → Option Cpu
  | .constant value, c => some { c with a := pointer value.toNat, pc := c.pc + 1 }
  | .symbol name, c => some { c with a := pointer (addresses name), pc := c.pc + 1 }
  | .compute (some dest) comp none, c =>
    if c.address < 32768 ∧ (dest, comp) ∈ assignments then some (c.stored dest comp) else none
  | _, _ => none

/-- What some instructions that do not jump do. -/
def performAll (addresses : String → Nat) : List Instruction → Cpu → Option Cpu
  | [], c => some c
  | i :: rest, c => (perform addresses i c).bind (performAll addresses rest)

section Performing

variable {addresses : String → Nat} {words : List UInt16} {c c' c'' : Cpu}

theorem performAll_append {front back : List Instruction}
    (hfront : performAll addresses front c = some c')
    (hback : performAll addresses back c' = some c'') :
    performAll addresses (front ++ back) c = some c'' := by
  induction front generalizing c with
  | nil =>
      cases hfront
      exact hback
  | cons i front ih =>
      cases hperform : perform addresses i c with
      | none => simp [performAll, hperform] at hfront
      | some next =>
          simp only [performAll, hperform, Option.bind_some] at hfront
          simp only [List.cons_append, performAll, hperform, Option.bind_some]
          exact ih hfront

theorem step_of_load {value : UInt16} (hvalue : value.toNat < 32768)
    (hword : words[c.pc]? = some value) :
    step words c = some { c with a := pointer value.toNat, pc := c.pc + 1 } := by
  have hflag : flag value 15 = false := Nat.testBit_lt_two_pow hvalue
  simp [step, hword, execute, hflag, toInt16_eq_pointer]

theorem step_of_perform {i : Instruction} (hplaced : Placed addresses words c.pc i)
    (hperform : perform addresses i c = some c') :
    step words c = some c' ∧ c'.pc = c.pc + i.size := by
  match i, hplaced, hperform with
  | .constant value, ⟨hvalue, hword⟩, hperform =>
      cases hperform
      exact ⟨step_of_load hvalue hword, rfl⟩
  | .symbol name, ⟨hvalue, hword⟩, hperform =>
      cases hperform
      have hnat : (addresses name).toUInt16.toNat = addresses name := by
        rw [Nat.toUInt16_eq, UInt16.toNat_ofNat']
        omega
      have hstep := step_of_load (by omega) hword
      rw [hnat] at hstep
      exact ⟨hstep, rfl⟩
  | .compute (some dest) comp none, ⟨word, hencode, hword⟩, hperform =>
      simp only [perform] at hperform
      split at hperform
      · rename_i hcond
        cases hperform
        have hexecute := execute_assign hcond.2 hencode hcond.1
        exact ⟨by simp [step, hword, hexecute], rfl⟩
      · cases hperform

/-- A loaded block that does not jump runs to its end. -/
theorem reaches_of_performAll {instructions : List Instruction}
    (hloaded : Loaded addresses words c.pc instructions)
    (hperform : performAll addresses instructions c = some c') :
    Reaches words c c' ∧ c'.pc = c.pc + wordCount instructions := by
  induction instructions generalizing c with
  | nil =>
      cases hperform
      exact ⟨Reaches.refl words _, rfl⟩
  | cons i rest ih =>
      obtain ⟨hplaced, hrest⟩ := hloaded
      cases hnext : perform addresses i c with
      | none => simp [performAll, hnext] at hperform
      | some next =>
          simp only [performAll, hnext, Option.bind_some] at hperform
          obtain ⟨hstep, hpc⟩ := step_of_perform hplaced hnext
          rw [← hpc] at hrest
          obtain ⟨hreaches, hend⟩ := ih hrest hperform
          refine ⟨(Reaches.of_step hstep).trans hreaches, ?_⟩
          rw [hend, hpc, wordCount_cons, Nat.add_assoc]

theorem step_of_branch {comp condition : String} (hmem : (comp, condition) ∈ branches)
    (hplaced : Placed addresses words c.pc (.jump comp condition)) (hc : c.address < 32768) :
    step words c =
      some { c with pc := if taken condition (valueOf comp c.d c.a) then c.address else c.pc + 1 } := by
  obtain ⟨word, hencode, hword⟩ := hplaced
  simp [step, hword, execute_branch hmem hencode hc]

end Performing

end Cpu

end JackToolchain.Assembly
