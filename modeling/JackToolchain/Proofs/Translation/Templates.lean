import JackToolchain.Proofs.Assembly.Blocks
import JackToolchain.Stack.Expansion

/-!
# What expanded blocks do

The memory that each piece of an expanded command leaves, in the same terms as the steps of the
stack machine.
-/

namespace JackToolchain.Stack.Expander

open JackToolchain.Assembly JackToolchain.Assembly.Cpu JackToolchain.Assembly.Instruction
open JackToolchain.Memory

/-- The registers have their conventional addresses. -/
structure Conventional (addresses : String → Nat) : Prop where
  sp : addresses "SP" = 0
  lcl : addresses "LCL" = 1
  arg : addresses "ARG" = 2
  this : addresses "THIS" = 3
  that : addresses "THAT" = 4
  r13 : addresses "R13" = 13
  r14 : addresses "R14" = 14

theorem address_pointer {n : Nat} (hn : n < 32768) (d : Int16) (pc : Nat)
    (ram : Vector Int16 32768) : (⟨pointer n, d, pc, ram⟩ : Cpu).address = n :=
  toNat_toUInt16_pointer hn

/-- An operator on the word below the stack pointer. -/
def unaryComps : List String := ["-M", "!M"]

/-- An operator on the two words below the stack pointer. -/
def binaryComps : List String := ["D+M", "M-D", "D&M", "D|M"]

section Effects

variable {addresses : String → Nat} {c : Cpu} {sp : Nat}

theorem performAll_pushD (hnames : Conventional addresses) (hsp : word c.ram 0 = pointer sp)
    (hpos : 0 < sp) (hlt : sp < 32768) :
    performAll addresses pushD c = some ⟨pointer 0, c.d, c.pc + 5, pushed c.ram sp c.d⟩ := by
  have hkeep : word (put c.ram sp c.d) 0 = pointer sp := by
    rw [word_put_of_ne _ _ (by omega), hsp]
  simp +decide [pushD, performAll, perform, assign, hnames.sp, address_pointer, stored,
    operand, valueOf, hsp, hlt, hkeep, pointer_add_one, pushed]

theorem performAll_popD (hnames : Conventional addresses) (hsp : word c.ram 0 = pointer sp)
    (hpos : 1 < sp) (hle : sp ≤ 32768) :
    performAll addresses popD c =
      some ⟨pointer (sp - 1), word c.ram (sp - 1), c.pc + 3, popped c.ram sp⟩ := by
  have hlt : sp - 1 < 32768 := by omega
  have hkeep : word (put c.ram 0 (pointer (sp - 1))) (sp - 1) = word c.ram (sp - 1) :=
    word_put_of_ne _ _ (by omega)
  simp +decide [popD, performAll, perform, assign, hnames.sp, address_pointer, stored,
    operand, valueOf, hsp, hlt, hkeep, pointer_sub_one (show 0 < sp by omega), popped]

theorem performAll_unary {comp : String} (hcomp : comp ∈ unaryComps)
    (hnames : Conventional addresses) (hsp : word c.ram 0 = pointer sp) (hpos : 1 < sp)
    (hle : sp ≤ 32768) :
    performAll addresses (unary comp) c =
      some ⟨pointer 0, valueOf comp 0 (word c.ram (sp - 1)), c.pc + 8,
        pushed (popped c.ram sp) (sp - 1) (valueOf comp 0 (word c.ram (sp - 1)))⟩ := by
  have hlt : sp - 1 < 32768 := by omega
  have hkeep : word (put c.ram 0 (pointer (sp - 1))) (sp - 1) = word c.ram (sp - 1) :=
    word_put_of_ne _ _ (by omega)
  have hfront : performAll addresses
      [.symbol "SP", assign "AM" "M-1", assign "D" comp] c =
      some ⟨pointer (sp - 1), valueOf comp 0 (word c.ram (sp - 1)), c.pc + 3, popped c.ram sp⟩ := by
    simp only [unaryComps, List.mem_cons, List.not_mem_nil, or_false] at hcomp
    rcases hcomp with rfl | rfl <;>
      simp +decide [performAll, perform, assign, hnames.sp, address_pointer, stored,
        operand, valueOf, hsp, hlt, hkeep, pointer_sub_one (show 0 < sp by omega), popped]
  exact performAll_append hfront
    (performAll_pushD hnames (word_popped_zero _ _ (by decide)) (by omega) hlt)

/-- The second operand is popped into `D`, and the value of the operator replaces it. -/
theorem performAll_combine {comp : String} (hcomp : comp ∈ binaryComps)
    (hnames : Conventional addresses) (hsp : word c.ram 0 = pointer sp) (hpos : 2 < sp)
    (hle : sp ≤ 32768) :
    performAll addresses (combine comp) c =
      some ⟨pointer (sp - 2), valueOf comp (word c.ram (sp - 1)) (word c.ram (sp - 2)), c.pc + 6,
        popped (popped c.ram sp) (sp - 1)⟩ := by
  have hlt : sp - 2 < 32768 := by omega
  have hkeep : word (put (popped c.ram sp) 0 (pointer (sp - 2))) (sp - 2) =
      word c.ram (sp - 2) := by
    rw [word_put_of_ne _ _ (by omega), word_popped_of_ne _ _ (by omega)]
  have hpop := performAll_popD hnames hsp (by omega) hle
  have hdecrement : pointer (sp - 1) - 1 = pointer (sp - 2) := pointer_sub_one (by omega)
  have hzero : word (popped c.ram sp) 0 = pointer (sp - 1) := word_popped_zero _ _ (by decide)
  have hdouble : popped (popped c.ram sp) (sp - 1) = put (popped c.ram sp) 0 (pointer (sp - 2)) :=
    rfl
  refine performAll_append hpop ?_
  simp only [binaryComps, List.mem_cons, List.not_mem_nil, or_false] at hcomp
  rcases hcomp with rfl | rfl | rfl | rfl <;>
    simp +decide [performAll, perform, assign, hnames.sp, address_pointer, stored,
      operand, valueOf, hlt, hkeep, hzero, hdecrement, hdouble]

theorem performAll_binary {comp : String} (hcomp : comp ∈ binaryComps)
    (hnames : Conventional addresses) (hsp : word c.ram 0 = pointer sp) (hpos : 2 < sp)
    (hle : sp ≤ 32768) :
    performAll addresses (binary comp) c =
      some ⟨pointer 0, valueOf comp (word c.ram (sp - 1)) (word c.ram (sp - 2)), c.pc + 11,
        pushed (popped (popped c.ram sp) (sp - 1)) (sp - 2)
          (valueOf comp (word c.ram (sp - 1)) (word c.ram (sp - 2)))⟩ :=
  performAll_append (performAll_combine hcomp hnames hsp hpos hle)
    (performAll_pushD hnames (word_popped_zero _ _ (by decide)) (by omega) (by omega))

/-- The instruction loads an address. -/
def Loads (addresses : String → Nat) (i : Instruction) (a : Nat) : Prop :=
  ∀ c, perform addresses i c = some { c with a := pointer a, pc := c.pc + 1 }

theorem loads_constant (value : UInt16) : Loads addresses (.constant value) value.toNat :=
  fun _ => rfl

theorem loads_symbol (name : String) : Loads addresses (.symbol name) (addresses name) :=
  fun _ => rfl

theorem performAll_load {i : Instruction} {a : Nat} (hload : Loads addresses i a)
    (rest : List Instruction) (c : Cpu) :
    performAll addresses (i :: rest) c =
      performAll addresses rest { c with a := pointer a, pc := c.pc + 1 } := by
  simp only [performAll, hload c, Option.bind_some]

theorem performAll_pushAddress {i : Instruction} {a : Nat} (hload : Loads addresses i a)
    (ha : a < 32768) (hnames : Conventional addresses) (hsp : word c.ram 0 = pointer sp)
    (hpos : 0 < sp) (hlt : sp < 32768) :
    performAll addresses ([i, assign "D" "A"] ++ pushD) c =
      some ⟨pointer 0, pointer a, c.pc + 7, pushed c.ram sp (pointer a)⟩ := by
  have hfront : performAll addresses [i, assign "D" "A"] c =
      some ⟨pointer a, pointer a, c.pc + 2, c.ram⟩ := by
    rw [performAll_load hload]
    simp +decide [performAll, perform, assign, address_pointer, stored, operand, valueOf, ha]
  exact performAll_append hfront (performAll_pushD hnames hsp hpos hlt)

theorem performAll_pushFixed {i : Instruction} {a : Nat} (hload : Loads addresses i a)
    (ha : a < 32768) (hnames : Conventional addresses) (hsp : word c.ram 0 = pointer sp)
    (hpos : 0 < sp) (hlt : sp < 32768) :
    performAll addresses ([i, assign "D" "M"] ++ pushD) c =
      some ⟨pointer 0, word c.ram a, c.pc + 7, pushed c.ram sp (word c.ram a)⟩ := by
  have hfront : performAll addresses [i, assign "D" "M"] c =
      some ⟨pointer a, word c.ram a, c.pc + 2, c.ram⟩ := by
    rw [performAll_load hload]
    simp +decide [performAll, perform, assign, address_pointer, stored, operand,
      valueOf, ha]
  exact performAll_append hfront (performAll_pushD hnames hsp hpos hlt)

/-- An offset from a register. -/
theorem pointer_add_eq {w : Int16} {offset a : Nat} (hoffset : offset < 32768)
    (ha : w.toInt + offset = a) (hlt : a < 32768) : pointer offset + w = pointer a := by
  apply Int16.toInt_inj.mp
  rw [Int16.toInt_add, toInt_pointer hoffset, toInt_pointer hlt, Int.add_comm, ha]
  rw [Int.bmod_eq_of_le (by omega) (by omega)]

theorem performAll_pushBased {index : UInt16} {base : String} {a : Nat}
    (hindex : index.toNat < 32768) (hbase : addresses base < 32768)
    (ha : (word c.ram (addresses base)).toInt + index.toNat = a) (halt : a < 32768)
    (hnames : Conventional addresses) (hsp : word c.ram 0 = pointer sp) (hpos : 0 < sp)
    (hlt : sp < 32768) :
    performAll addresses ([.constant index, assign "D" "A", .symbol base,
      assign "A" "D+M", assign "D" "M"] ++ pushD) c =
      some ⟨pointer 0, word c.ram a, c.pc + 10, pushed c.ram sp (word c.ram a)⟩ := by
  have hsum := pointer_add_eq hindex ha halt
  have hfront : performAll addresses [.constant index, assign "D" "A", .symbol base,
      assign "A" "D+M", assign "D" "M"] c =
      some ⟨pointer a, word c.ram a, c.pc + 5, c.ram⟩ := by
    simp +decide [performAll, perform, assign, address_pointer, stored, operand,
      valueOf, hindex, hbase, hsum, halt]
  exact performAll_append hfront (performAll_pushD hnames hsp hpos hlt)

theorem performAll_popFixed {i : Instruction} {a : Nat} (hload : Loads addresses i a)
    (ha : a < 32768) (hnames : Conventional addresses) (hsp : word c.ram 0 = pointer sp)
    (hpos : 1 < sp) (hle : sp ≤ 32768) :
    performAll addresses (popD ++ [i, assign "M" "D"]) c =
      some ⟨pointer a, word c.ram (sp - 1), c.pc + 5,
        put (popped c.ram sp) a (word c.ram (sp - 1))⟩ := by
  refine performAll_append (performAll_popD hnames hsp hpos hle) ?_
  rw [performAll_load hload]
  simp +decide [performAll, perform, assign, address_pointer, stored, valueOf, ha]

/-- The target is computed before the word is popped, and kept in a scratch word. -/
theorem performAll_popBased {index : UInt16} {base : String} {a : Nat}
    (hindex : index.toNat < 32768) (hbase : addresses base < 32768)
    (ha : (word c.ram (addresses base)).toInt + index.toNat = a) (halt : a < 32768)
    (hnames : Conventional addresses) (hsp : word c.ram 0 = pointer sp) (hpos : 14 < sp)
    (hle : sp ≤ 32768) :
    performAll addresses ([.constant index, assign "D" "A", .symbol base,
      assign "D" "D+M", .symbol "R13", assign "M" "D"] ++ popD ++
      [.symbol "R13", assign "A" "M", assign "M" "D"]) c =
      some ⟨pointer a, word c.ram (sp - 1), c.pc + 12,
        put (popped (put c.ram 13 (pointer a)) sp) a (word c.ram (sp - 1))⟩ := by
  have hsum := pointer_add_eq hindex ha halt
  have hfront : performAll addresses [.constant index, assign "D" "A", .symbol base,
      assign "D" "D+M", .symbol "R13", assign "M" "D"] c =
      some ⟨pointer 13, pointer a, c.pc + 6, put c.ram 13 (pointer a)⟩ := by
    simp +decide [performAll, perform, assign, address_pointer, stored, operand,
      valueOf, hindex, hbase, hsum, hnames.r13]
  have hzero : word (put c.ram 13 (pointer a)) 0 = pointer sp := by
    rw [word_put_of_ne _ _ (by decide), hsp]
  have hpop := performAll_popD (c := ⟨pointer 13, pointer a, c.pc + 6, put c.ram 13 (pointer a)⟩)
    hnames hzero (by omega) hle
  have hscratch : word (popped (put c.ram 13 (pointer a)) sp) 13 = pointer a := by
    rw [word_popped_of_ne _ _ (by decide), word_put_self _ _ (by decide)]
  rw [word_put_of_ne _ _ (show 13 ≠ sp - 1 by omega)] at hpop
  refine performAll_append (performAll_append hfront hpop) ?_
  simp +decide [performAll, perform, assign, address_pointer, stored, operand,
    valueOf, hnames.r13, hscratch, halt]

/-- A jump to a symbol. -/
theorem reaches_branch {words : List UInt16} {name comp condition : String}
    (hmem : (comp, condition) ∈ branches)
    (hloaded : Loaded addresses words c.pc [.symbol name, .jump comp condition]) :
    Reaches words c { c with
      a := pointer (addresses name)
      pc := if taken condition (valueOf comp c.d (pointer (addresses name))) then addresses name
        else c.pc + 2 } := by
  obtain ⟨hsymbol, hjump, -⟩ := hloaded
  have hlt : addresses name < 32768 := hsymbol.1
  obtain ⟨hload, -⟩ := step_of_perform hsymbol rfl
  have hbranch := step_of_branch (c := { c with a := pointer (addresses name), pc := c.pc + 1 })
    hmem hjump (by rw [address_pointer hlt]; exact hlt)
  rw [address_pointer hlt] at hbranch
  exact (Reaches.of_step hload).trans (Reaches.of_step hbranch)

theorem reaches_goto {words : List UInt16} {name : String}
    (hloaded : Loaded addresses words c.pc [.symbol name, .jump "0" "JMP"]) :
    Reaches words c { c with a := pointer (addresses name), pc := addresses name } :=
  reaches_branch (by decide) hloaded

/-- What follows a comparison of two words whose difference is in `D`. -/
def choose (ifTrue after condition : String) : List Instruction :=
  [symbol ifTrue, jump "D" condition] ++ ([assign "D" "0"] ++ ([symbol after, jump "0" "JMP"] ++
    ([label ifTrue] ++ ([assign "D" "-1"] ++ [label after]))))

theorem reaches_choose {words : List UInt16} {ifTrue after condition : String}
    (hmem : ("D", condition) ∈ branches)
    (hloaded : Loaded addresses words c.pc (choose ifTrue after condition)) :
    ∃ c', Reaches words c c' ∧ c'.pc = c.pc + 6 ∧ c'.ram = c.ram ∧
      c'.d = if taken condition c.d then -1 else 0 := by
  simp only [choose, loaded_append, wordCount_cons, wordCount_nil, Instruction.size_symbol,
    Instruction.size_label, Instruction.size_assign, Instruction.size_jump, Nat.reduceAdd,
    Nat.add_assoc] at hloaded
  obtain ⟨hbranch, hzero, hskip, ⟨htrue, -⟩, hone, ⟨hafter, -⟩⟩ := hloaded
  have hreach := reaches_branch hmem hbranch
  have hvalue (y : Int16) : valueOf "D" c.d y = c.d := by simp [valueOf]
  rw [hvalue] at hreach
  simp only [Placed] at htrue hafter
  by_cases htaken : taken condition c.d = true
  · rw [if_pos htaken, htrue] at hreach
    have hload : performAll addresses [.assign "D" "-1"]
        { c with a := pointer (c.pc + 5), pc := c.pc + 5 } =
        some { c with a := pointer (c.pc + 5), d := -1, pc := c.pc + 6 } := by
      have hlt : c.pc + 5 < 32768 := htrue ▸ hbranch.1.1
      simp +decide [performAll, perform, assign, address_pointer, stored, valueOf, hlt]
    obtain ⟨hset, -⟩ := reaches_of_performAll hone hload
    exact ⟨_, hreach.trans hset, rfl, rfl, by rw [if_pos htaken]⟩
  · rw [if_neg htaken] at hreach
    have hload : performAll addresses [.assign "D" "0"]
        { c with a := pointer (addresses ifTrue), pc := c.pc + 2 } =
        some { c with a := pointer (addresses ifTrue), d := 0, pc := c.pc + 3 } := by
      simp +decide [performAll, perform, assign, address_pointer hbranch.1.1, stored,
        valueOf, hbranch.1.1]
    obtain ⟨hset, -⟩ := reaches_of_performAll hzero hload
    have hjump := reaches_goto (c := { c with
      a := pointer (addresses ifTrue), d := 0, pc := c.pc + 3 }) hskip
    rw [hafter] at hjump
    exact ⟨_, (hreach.trans hset).trans hjump, rfl, rfl, by rw [if_neg htaken]⟩

/-- A comparison with labels of any names. -/
def comparing (ifTrue after condition : String) : List Instruction :=
  combine "M-D" ++ (choose ifTrue after condition ++ pushD)

theorem compare_eq_comparing (file : String) (op : Arithmetic) (condition : String)
    (number : Nat) : compare file op condition number =
      comparing s!"{file}.if_{op.text}${number}" s!"{file}.after_{op.text}${number}" condition := by
  simp [compare, comparing, choose]

theorem reaches_comparing {words : List UInt16} {ifTrue after condition : String}
    (hmem : ("D", condition) ∈ branches)
    (hloaded : Loaded addresses words c.pc (comparing ifTrue after condition))
    (hnames : Conventional addresses) (hsp : word c.ram 0 = pointer sp) (hpos : 2 < sp)
    (hle : sp ≤ 32768) :
    ∃ c', Reaches words c c' ∧ c'.pc = c.pc + wordCount (comparing ifTrue after condition) ∧
      c'.ram = pushed (popped (popped c.ram sp) (sp - 1)) (sp - 2)
        (if taken condition (word c.ram (sp - 2) - word c.ram (sp - 1)) then -1 else 0) := by
  rw [comparing, loaded_append, loaded_append] at hloaded
  obtain ⟨hcombine, hchoose, hpush⟩ := hloaded
  obtain ⟨hfront, -⟩ := reaches_of_performAll hcombine
    (performAll_combine (by decide) hnames hsp hpos hle)
  obtain ⟨c₁, hmiddle, hpc, hram, hd⟩ := reaches_choose (c := ⟨pointer (sp - 2),
    valueOf "M-D" (word c.ram (sp - 1)) (word c.ram (sp - 2)), c.pc + 6,
    popped (popped c.ram sp) (sp - 1)⟩) hmem hchoose
  have hzero : word c₁.ram 0 = pointer (sp - 2) := by
    rw [hram, word_popped_zero _ _ (by decide)]
    rfl
  have hstart : c.pc + wordCount (combine "M-D") + wordCount (choose ifTrue after condition) =
      c₁.pc := by
    rw [hpc]
    rfl
  rw [hstart] at hpush
  obtain ⟨hback, -⟩ := reaches_of_performAll hpush
    (performAll_pushD hnames hzero (by omega) (by omega))
  refine ⟨_, (hfront.trans hmiddle).trans hback, ?_, ?_⟩
  · rw [comparing, wordCount_append, wordCount_append]
    simp only [hpc]
    rfl
  · simp only [hram, hd, valueOf]

/-! ## Calls -/

/-- Saves a frame behind a return address. -/
def saveFrame (returnLabel : String) : List Instruction :=
  ([symbol returnLabel, assign "D" "A"] ++ pushD) ++
    (([symbol "LCL", assign "D" "M"] ++ pushD) ++ (([symbol "ARG", assign "D" "M"] ++ pushD) ++
      (([symbol "THIS", assign "D" "M"] ++ pushD) ++ ([symbol "THAT", assign "D" "M"] ++ pushD))))

/-- Points the registers at a new frame. -/
def openFrame (arguments : UInt16) : List Instruction :=
  [constant 5, assign "D" "A", constant arguments, assign "D" "D+A", symbol "SP",
    assign "D" "M-D", symbol "ARG", assign "M" "D", symbol "SP", assign "D" "M", symbol "LCL",
    assign "M" "D"]

/-- The processor after a word is loaded and pushed in seven cycles. -/
def afterPush (c : Cpu) (sp : Nat) (w : Int16) : Cpu :=
  ⟨pointer 0, w, c.pc + 7, pushed c.ram sp w⟩

theorem performAll_pushRegister {name : String} {a : Nat} {w : Int16} (hname : addresses name = a)
    (ha : a < 5) (hw : word c.ram a = w) (hnames : Conventional addresses)
    (hsp : word c.ram 0 = pointer sp) (hpos : 0 < sp) (hlt : sp < 32768) :
    performAll addresses ([symbol name, assign "D" "M"] ++ pushD) c = some (afterPush c sp w) := by
  have hload : Loads addresses (symbol name) a := hname ▸ loads_symbol name
  rw [performAll_pushFixed hload (by omega) hnames hsp hpos hlt, hw]
  rfl

theorem performAll_saveFrame {returnLabel : String} (hlabel : addresses returnLabel < 32768)
    (hnames : Conventional addresses) (hsp : word c.ram 0 = pointer sp) (hpos : 4 < sp)
    (hlt : sp + 5 < 32768) :
    ∃ c', performAll addresses (saveFrame returnLabel) c = some c' ∧
      c'.ram = saved c.ram sp (pointer (addresses returnLabel)) ∧ c'.pc = c.pc + 35 := by
  have hzero (d : Cpu) (k : Nat) (w : Int16) : word (afterPush d k w).ram 0 = pointer (k + 1) :=
    word_pushed_zero _ _ _ (by decide)
  have hkeep (d : Cpu) (k : Nat) (v w : Int16) (a : Nat) (ha : 0 < a ∧ a < 5) (hk : sp ≤ k)
      (hw : word d.ram a = w) : word (afterPush d k v).ram a = w := by
    rw [← hw]
    exact word_pushed_of_ne _ _ (by omega) (by omega)
  have hfirst : performAll addresses ([symbol returnLabel, assign "D" "A"] ++ pushD) c =
      some (afterPush c sp (pointer (addresses returnLabel))) :=
    performAll_pushAddress (loads_symbol returnLabel) hlabel hnames hsp (by omega) (by omega)
  have hlocals := performAll_pushRegister hnames.lcl (by omega)
    (hkeep c sp (pointer (addresses returnLabel)) _ 1 (by omega) (by omega) rfl)
    hnames (hzero _ _ _) (by omega) (by omega)
  have hargs := performAll_pushRegister hnames.arg (by omega)
    (hkeep _ (sp + 1) (word c.ram 1) _ 2 (by omega) (by omega)
      (hkeep c sp (pointer (addresses returnLabel)) _ 2 (by omega) (by omega) rfl))
    hnames (hzero _ _ _) (by omega) (by omega)
  have hthis := performAll_pushRegister hnames.this (by omega)
    (hkeep _ (sp + 2) (word c.ram 2) _ 3 (by omega) (by omega)
      (hkeep _ (sp + 1) (word c.ram 1) _ 3 (by omega) (by omega)
        (hkeep c sp (pointer (addresses returnLabel)) _ 3 (by omega) (by omega) rfl)))
    hnames (hzero _ _ _) (by omega) (by omega)
  have hthat := performAll_pushRegister hnames.that (by omega)
    (hkeep _ (sp + 3) (word c.ram 3) _ 4 (by omega) (by omega)
      (hkeep _ (sp + 2) (word c.ram 2) _ 4 (by omega) (by omega)
        (hkeep _ (sp + 1) (word c.ram 1) _ 4 (by omega) (by omega)
          (hkeep c sp (pointer (addresses returnLabel)) _ 4 (by omega) (by omega) rfl))))
    hnames (hzero _ _ _) (by omega) (by omega)
  exact ⟨_, performAll_append hfirst (performAll_append hlocals (performAll_append hargs
    (performAll_append hthis hthat))), rfl, rfl⟩

theorem performAll_openFrame {arguments : UInt16} {k : Nat} (hargs : arguments.toNat + 5 ≤ k)
    (hlt : k < 32768) (hnames : Conventional addresses) (hsp : word c.ram 0 = pointer k) :
    performAll addresses (openFrame arguments) c = some ⟨pointer 1, pointer k, c.pc + 12,
      put (put c.ram 2 (pointer (k - 5 - arguments.toNat))) 1 (pointer k)⟩ := by
  have hsize : arguments.toNat < 32768 := by omega
  have hfive : (5 : UInt16).toNat = 5 := rfl
  have hsum : pointer 5 + pointer arguments.toNat = pointer (5 + arguments.toNat) :=
    pointer_add 5 arguments.toNat
  have hdiff : pointer k - pointer (5 + arguments.toNat) = pointer (k - 5 - arguments.toNat) := by
    rw [pointer_sub (by omega), Nat.sub_sub]
  have hkeep (w : Int16) : word (put c.ram 2 w) 0 = pointer k := by
    rw [word_put_of_ne _ _ (by decide), hsp]
  simp +decide [openFrame, performAll, perform, assign, address_pointer, stored, operand, valueOf,
    hsize, hfive, hsum, hdiff, hnames.sp, hnames.arg, hnames.lcl, hsp, hkeep]

/-- A call ends at the callee, in a frame whose first word is the address behind the call. -/
theorem reaches_call {words : List UInt16} {name returnLabel : String} {arguments : UInt16}
    (hloaded : Loaded addresses words c.pc (callFunction name arguments returnLabel))
    (hnames : Conventional addresses) (hsp : word c.ram 0 = pointer sp) (hpos : 4 < sp)
    (hlt : sp + 5 < 32768) (hargs : arguments.toNat ≤ sp) :
    addresses returnLabel = c.pc + wordCount (callFunction name arguments returnLabel) ∧
    addresses returnLabel < 32768 ∧
    ∃ c', Reaches words c c' ∧ c'.pc = addresses name ∧
      c'.ram = framed c.ram sp arguments.toNat (pointer (addresses returnLabel)) := by
  have hparts : callFunction name arguments returnLabel = saveFrame returnLabel ++
      (openFrame arguments ++ ([symbol name, jump "0" "JMP"] ++ [label returnLabel])) := by
    simp [callFunction, saveFrame, openFrame, frameRegisters]
  rw [hparts] at hloaded ⊢
  rw [loaded_append, loaded_append, loaded_append] at hloaded
  obtain ⟨hsave, hopen, hjump, hreturn, -⟩ := hloaded
  have hlabel : addresses returnLabel < 32768 := hsave.1.1
  refine ⟨?_, hlabel, ?_⟩
  · rw [show addresses returnLabel = _ from hreturn]
    simp only [wordCount_append, wordCount_cons, wordCount_nil, Instruction.size_label,
      Nat.add_assoc, Nat.add_zero]
  · obtain ⟨c₁, hperform₁, hram₁, hpc₁⟩ := performAll_saveFrame hlabel hnames hsp hpos hlt
    have hzero : word c₁.ram 0 = pointer (sp + 5) := by
      rw [hram₁]
      exact word_pushed_zero _ _ _ (by decide)
    have hroom : arguments.toNat + 5 ≤ sp + 5 := by omega
    have hperform₂ := performAll_openFrame hroom hlt hnames hzero
    obtain ⟨hreach₁, hend₁⟩ := reaches_of_performAll hsave hperform₁
    rw [← hend₁] at hopen hjump
    obtain ⟨hreach₂, hend₂⟩ := reaches_of_performAll hopen hperform₂
    rw [← hend₂] at hjump
    refine ⟨_, (hreach₁.trans hreach₂).trans (reaches_goto hjump), rfl, ?_⟩
    simp only [hram₁, framed]
    rw [show sp + 5 - 5 - arguments.toNat = sp - arguments.toNat by omega]

theorem performAll_clear {a : Nat} (count : Nat) (d : Int16) (pc : Nat) (m : Vector Int16 32768)
    (hlt : a + count < 32768) :
    performAll addresses (List.replicate count [assign "M" "0", assign "A" "A+1"]).flatten
      ⟨pointer a, d, pc, m⟩ =
      some ⟨pointer (a + count), d, pc + 2 * count, cleared m a count⟩ := by
  induction count generalizing a pc m with
  | zero => rfl
  | succ count ih =>
      have hbound : a < 32768 := by omega
      have hone : performAll addresses [assign "M" "0", assign "A" "A+1"] ⟨pointer a, d, pc, m⟩ =
          some ⟨pointer (a + 1), d, pc + 2, put m a 0⟩ := by
        simp +decide [performAll, perform, assign, address_pointer, stored, operand, valueOf,
          hbound, pointer_add_one]
      have hbound' : a + 1 + count < 32768 := by omega
      have hall := performAll_append hone (ih (pc + 2) (put m a 0) hbound')
      rw [show a + 1 + count = a + (count + 1) by omega,
        show pc + 2 + 2 * count = pc + 2 * (count + 1) by omega] at hall
      exact hall

theorem reaches_enter {words : List UInt16} {name : String} {locals : UInt16}
    (hloaded : Loaded addresses words c.pc (enterFunction name locals))
    (hnames : Conventional addresses) (hsp : word c.ram 0 = pointer sp) (hpos : 0 < sp)
    (hlt : sp + locals.toNat < 32768) :
    addresses name = c.pc ∧
    ∃ c', Reaches words c c' ∧ c'.pc = c.pc + wordCount (enterFunction name locals) ∧
      c'.ram = zeroed c.ram sp locals.toNat := by
  have hparts : enterFunction name locals = [label name] ++ ([symbol "SP", assign "A" "M"] ++
      ((List.replicate locals.toNat [assign "M" "0", assign "A" "A+1"]).flatten ++
        [assign "D" "A", symbol "SP", assign "M" "D"])) := by
    simp [enterFunction]
  rw [hparts] at hloaded ⊢
  rw [loaded_append] at hloaded
  obtain ⟨⟨hname, -⟩, hrest⟩ := hloaded
  refine ⟨hname, ?_⟩
  have hfront : performAll addresses [symbol "SP", assign "A" "M"] c =
      some ⟨pointer sp, c.d, c.pc + 2, c.ram⟩ := by
    simp +decide [performAll, perform, assign, address_pointer, stored, operand, valueOf,
      hnames.sp, hsp]
  have hback : performAll addresses [assign "D" "A", symbol "SP", assign "M" "D"]
      ⟨pointer (sp + locals.toNat), c.d, c.pc + 2 + 2 * locals.toNat,
        cleared c.ram sp locals.toNat⟩ =
      some ⟨pointer 0, pointer (sp + locals.toNat), c.pc + 2 + 2 * locals.toNat + 3,
        put (cleared c.ram sp locals.toNat) 0 (pointer (sp + locals.toNat))⟩ := by
    simp +decide [performAll, perform, assign, address_pointer, stored, operand, valueOf,
      hnames.sp, hlt]
  obtain ⟨hreach, hend⟩ := reaches_of_performAll hrest (performAll_append hfront
    (performAll_append (performAll_clear locals.toNat c.d (c.pc + 2) c.ram hlt) hback))
  refine ⟨_, hreach, ?_, ?_⟩
  · have hlabel : wordCount [label name] = 0 := rfl
    rw [wordCount_append [label name], hlabel, Nat.zero_add]
    exact hend
  · exact (zeroed_eq_put_cleared locals.toNat hsp hpos (by decide)).symm

/-! ## Returns -/

/-- Keeps the end of the frame and the return address in scratch words. -/
def keepFrame : List Instruction :=
  [symbol "LCL", assign "D" "M", symbol "R13", assign "M" "D", constant 5, assign "D" "A",
    symbol "R13", assign "A" "M-D", assign "D" "M", symbol "R14", assign "M" "D"]

/-- Hands `D` to the caller. -/
def handOver : List Instruction :=
  [symbol "ARG", assign "A" "M", assign "M" "D", assign "D" "A", symbol "SP", assign "M" "D+1"]

theorem performAll_keepFrame {frame : Nat} (hnames : Conventional addresses)
    (hframe : word c.ram 1 = pointer frame) (hlow : 19 ≤ frame) (hlt : frame < 32768) :
    ∃ a d, performAll addresses keepFrame c = some ⟨a, d, c.pc + 11,
      put (put c.ram 13 (pointer frame)) 14 (word c.ram (frame - 5))⟩ := by
  have hfive : (5 : UInt16).toNat = 5 := rfl
  have hdiff : pointer frame - pointer 5 = pointer (frame - 5) := pointer_sub (by omega)
  have hbound : frame - 5 < 32768 := by omega
  have hkept : word (put c.ram 13 (pointer frame)) 13 = pointer frame :=
    word_put_self _ _ (by decide)
  have hslot : word (put c.ram 13 (pointer frame)) (frame - 5) = word c.ram (frame - 5) :=
    word_put_of_ne _ _ (by omega)
  refine ⟨pointer 14, word c.ram (frame - 5), ?_⟩
  simp +decide [keepFrame, performAll, perform, assign, address_pointer, stored, operand, valueOf,
    hfive, hdiff, hbound, hkept, hslot, hframe, hnames.lcl, hnames.r13, hnames.r14]

theorem performAll_handOver {arguments : Nat} (hnames : Conventional addresses)
    (hargs : word c.ram 2 = pointer arguments) (hlt : arguments < 32768) :
    performAll addresses handOver c = some ⟨pointer 0, pointer arguments, c.pc + 6,
      put (put c.ram arguments c.d) 0 (pointer (arguments + 1))⟩ := by
  simp +decide [handOver, performAll, perform, assign, address_pointer, stored, operand, valueOf,
    hlt, hargs, hnames.arg, hnames.sp, pointer_add_one]

theorem performAll_descend {a : Nat} (count : Nat) (d : Int16) (pc : Nat) (m : Vector Int16 32768)
    (hle : count ≤ a) (hlt : a < 32768) :
    performAll addresses (List.replicate count (assign "A" "A-1")) ⟨pointer a, d, pc, m⟩ =
      some ⟨pointer (a - count), d, pc + count, m⟩ := by
  induction count generalizing a pc with
  | zero => rfl
  | succ count ih =>
      have hone : performAll addresses [assign "A" "A-1"] ⟨pointer a, d, pc, m⟩ =
          some ⟨pointer (a - 1), d, pc + 1, m⟩ := by
        simp +decide [performAll, perform, assign, address_pointer, stored, operand, valueOf, hlt,
          pointer_sub_one (show 0 < a by omega)]
      have hle' : count ≤ a - 1 := by omega
      have hall := performAll_append hone (ih (pc + 1) hle' (by omega))
      rw [Nat.sub_sub, Nat.add_comm 1 count, show pc + 1 + count = pc + (count + 1) by omega] at hall
      exact hall

theorem performAll_restore {register : String} {r frame : Nat} (offset : Nat)
    (hnames : Conventional addresses) (hregister : addresses register = r) (hr : r < 5)
    (hframe : word c.ram 13 = pointer frame) (hoffset : offset ≤ frame) (hlt : frame < 32768) :
    ∃ c', performAll addresses (restore offset register) c = some c' ∧
      c'.ram = put c.ram r (word c.ram (frame - offset)) := by
  have hfront : performAll addresses [symbol "R13", assign "A" "M"] c =
      some ⟨pointer frame, c.d, c.pc + 2, c.ram⟩ := by
    simp +decide [performAll, perform, assign, address_pointer, stored, operand, valueOf,
      hnames.r13, hframe]
  have hbound : frame - offset < 32768 := by omega
  have hr' : r < 32768 := by omega
  have hback : performAll addresses [assign "D" "M", symbol register, assign "M" "D"]
      ⟨pointer (frame - offset), c.d, c.pc + 2 + offset, c.ram⟩ =
      some ⟨pointer r, word c.ram (frame - offset), c.pc + 2 + offset + 3,
        put c.ram r (word c.ram (frame - offset))⟩ := by
    simp +decide [performAll, perform, assign, address_pointer, stored, operand, valueOf,
      hbound, hregister, hr']
  exact ⟨_, performAll_append (performAll_append hfront
    (performAll_descend offset c.d (c.pc + 2) c.ram hoffset hlt)) hback, rfl⟩

/-- The registers come back in the reverse order of their saving. -/
theorem performAll_restoreAll {frame : Nat} (hnames : Conventional addresses)
    (hframe : word c.ram 13 = pointer frame) (hlow : 9 ≤ frame) (hlt : frame < 32768) :
    ∃ c', performAll addresses (restore 1 "THAT" ++ (restore 2 "THIS" ++ (restore 3 "ARG" ++
        restore 4 "LCL"))) c = some c' ∧
      c'.ram = put (put (put (put c.ram 4 (word c.ram (frame - 1))) 3 (word c.ram (frame - 2))) 2
        (word c.ram (frame - 3))) 1 (word c.ram (frame - 4)) := by
  obtain ⟨c₁, hthat, hram₁⟩ := performAll_restore 1 hnames hnames.that (by omega) hframe
    (by omega) hlt
  have hkeep₁ (a : Nat) (ha : 5 ≤ a) : word c₁.ram a = word c.ram a := by
    rw [hram₁, word_put_of_ne _ _ (by omega)]
  obtain ⟨c₂, hthis, hram₂⟩ := performAll_restore 2 hnames hnames.this (by omega)
    (by rw [hkeep₁ 13 (by omega), hframe]) (by omega) hlt
  have hkeep₂ (a : Nat) (ha : 5 ≤ a) : word c₂.ram a = word c.ram a := by
    rw [hram₂, word_put_of_ne _ _ (by omega), hkeep₁ a ha]
  obtain ⟨c₃, hargs, hram₃⟩ := performAll_restore 3 hnames hnames.arg (by omega)
    (by rw [hkeep₂ 13 (by omega), hframe]) (by omega) hlt
  have hkeep₃ (a : Nat) (ha : 5 ≤ a) : word c₃.ram a = word c.ram a := by
    rw [hram₃, word_put_of_ne _ _ (by omega), hkeep₂ a ha]
  obtain ⟨c₄, hlocals, hram₄⟩ := performAll_restore 4 hnames hnames.lcl (by omega)
    (by rw [hkeep₃ 13 (by omega), hframe]) (by omega) hlt
  refine ⟨c₄, performAll_append hthat (performAll_append hthis
    (performAll_append hargs hlocals)), ?_⟩
  rw [hram₄, hkeep₃ _ (by omega), hram₃, hkeep₂ _ (by omega), hram₂, hkeep₁ _ (by omega), hram₁]

/-- A return hands the top of the stack to the caller and ends at the address in the frame. -/
theorem reaches_leave {words : List UInt16} {frame arguments target : Nat}
    (hloaded : Loaded addresses words c.pc leaveFunction) (hnames : Conventional addresses)
    (hsp : word c.ram 0 = pointer sp) (hframe : word c.ram 1 = pointer frame)
    (hargs : word c.ram 2 = pointer arguments) (htarget : word c.ram (frame - 5) = pointer target)
    (hlow : 15 ≤ arguments) (hroom : arguments + 5 ≤ frame) (hlt : frame < 32768)
    (hpos : 15 < sp) (hle : sp ≤ 32768) (htarget' : target < 32768) :
    ∃ c', Reaches words c c' ∧ c'.pc = target ∧
      c'.ram = restored (put (put c.ram 13 (pointer frame)) 14 (pointer target)) sp frame
        arguments := by
  have hparts : leaveFunction = (keepFrame ++ (popD ++ (handOver ++ ((restore 1 "THAT" ++
      (restore 2 "THIS" ++ (restore 3 "ARG" ++ restore 4 "LCL"))) ++
        [symbol "R14", assign "A" "M"])))) ++ [jump "0" "JMP"] := by
    simp [leaveFunction, keepFrame, handOver, frameRegisters]
  rw [hparts, loaded_append] at hloaded
  obtain ⟨hstraight, hjump, -⟩ := hloaded
  obtain ⟨a, d, hkeep⟩ := performAll_keepFrame hnames hframe (by omega) hlt
  rw [htarget] at hkeep
  have hkept (b : Nat) (hb : b ≠ 13 ∧ b ≠ 14) :
      word (put (put c.ram 13 (pointer frame)) 14 (pointer target)) b = word c.ram b := by
    rw [word_put_of_ne _ _ (by omega), word_put_of_ne _ _ (by omega)]
  have hscratch : word (put (put c.ram 13 (pointer frame)) 14 (pointer target)) 13 =
      pointer frame := by
    rw [word_put_of_ne _ _ (by decide), word_put_self _ _ (by decide)]
  generalize hmem : put (put c.ram 13 (pointer frame)) 14 (pointer target) = m at *
  have hpop := performAll_popD (c := ⟨a, d, c.pc + 11, m⟩) hnames
    ((hkept 0 (by omega)).trans hsp) (by omega) hle
  have hargs' : word (popped m sp) 2 = pointer arguments := by
    rw [word_popped_of_ne _ _ (by decide), hkept 2 (by omega), hargs]
  have hhand := performAll_handOver (c := ⟨pointer (sp - 1), word m (sp - 1), c.pc + 11 + 3,
    popped m sp⟩) hnames hargs' (by omega)
  have hlater (b : Nat) (hb : b ≠ 0 ∧ b ≠ arguments) :
      word (put (put (popped m sp) arguments (word m (sp - 1))) 0 (pointer (arguments + 1))) b =
        word m b := by
    rw [word_put_of_ne _ _ (by omega), word_put_of_ne _ _ (by omega),
      word_popped_of_ne _ _ (by omega)]
  obtain ⟨c₁, hrestore, hram₁⟩ := performAll_restoreAll (c := ⟨pointer 0, pointer arguments,
    c.pc + 11 + 3 + 6, put (put (popped m sp) arguments (word m (sp - 1))) 0
      (pointer (arguments + 1))⟩) hnames ((hlater 13 (by omega)).trans hscratch) (by omega) hlt
  simp only [hlater (frame - 1) (by omega), hlater (frame - 2) (by omega),
    hlater (frame - 3) (by omega), hlater (frame - 4) (by omega)] at hram₁
  have hback : word c₁.ram 14 = pointer target := by
    rw [hram₁, word_put_of_ne _ _ (by decide), word_put_of_ne _ _ (by decide),
      word_put_of_ne _ _ (by decide), word_put_of_ne _ _ (by decide), hlater 14 (by omega), ← hmem,
      word_put_self _ _ (by decide)]
  have hlast : performAll addresses [symbol "R14", assign "A" "M"] c₁ =
      some ⟨pointer target, c₁.d, c₁.pc + 2, c₁.ram⟩ := by
    simp +decide [performAll, perform, assign, address_pointer, stored, operand, valueOf,
      hnames.r14, hback]
  obtain ⟨hreach, hend⟩ := reaches_of_performAll hstraight (performAll_append hkeep
    (performAll_append hpop (performAll_append hhand (performAll_append hrestore hlast))))
  rw [← hend] at hjump
  have haddress := address_pointer htarget' c₁.d (c₁.pc + 2) c₁.ram
  have hstep := step_of_branch (by decide) hjump (by rw [haddress]; exact htarget')
  refine ⟨_, hreach.trans (Reaches.of_step hstep), ?_, hram₁⟩
  simp only [taken, if_true, haddress]

end Effects

end JackToolchain.Stack.Expander
