import JackToolchain.Proofs.Translation.Simulation

/-!
# Disciplined steps on the processor

One lemma for each operation of the stack machine, and from them the step of a whole program.
-/

namespace JackToolchain.Machine

open JackToolchain.Assembly JackToolchain.Assembly.Cpu JackToolchain.Assembly.Instruction
open JackToolchain.Memory JackToolchain.Stack JackToolchain.Stack.Expander

namespace Simulates

variable {p : Program} {words : List UInt16} {K : Layout} {f : Frame} {fs : List Frame} {sp : Nat}
  {s s' : State} {c c' : Cpu} {owner : String}

/-- The bound of a stack pointer that is below the end of memory. -/
theorem le_of_stackPointer {s : State} {n : Nat} (hword : word s.ram 0 = pointer n)
    (hlt : n < 32768) (hbound : s.stackPointer ≤ 2048) : n ≤ 2048 := by
  rw [State.stackPointer, hword, toInt_pointer hlt] at hbound
  exact_mod_cast hbound

/-- A push of a word that both sides load. -/
theorem step_push (hK : Implements p words K) (h : Simulates K f fs sp s c) {location : Location}
    {w : Int16} (hop : p.instructions[s.pc]? = some ⟨.push location, owner⟩)
    (hload : load owner location s = .ok w s) {block : List Assembly.Instruction} {a d : Int16}
    {pc : Nat} (hloaded : Loaded K.addresses words (K.codeStart s.pc) block)
    (hnext : K.codeStart (s.pc + 1) = K.codeStart s.pc + wordCount block)
    (hperform : performAll K.addresses block c = some ⟨a, d, pc, pushed c.ram sp w⟩)
    (hstep : step p s = .ok none s') (hbound : s'.stackPointer ≤ 2048) :
    ∃ c', Reaches words c c' ∧ Simulates K f fs (sp + 1) s' c' := by
  have hlow := h.low
  have hbelow := h.below
  rw [step_of_instruction hop, execute_push s.pc hload h.stack (by omega) (by omega)] at hstep
  cases hstep
  have hle := le_of_stackPointer (n := sp + 1) (word_pushed_zero _ _ _ (by decide)) (by omega)
    hbound
  exact h.push hK hle hloaded hnext hperform

theorem cpuStack (h : Simulates K f fs sp s c) : word c.ram 0 = pointer sp := by
  rw [h.agree.low 0 (by omega), h.stack]

theorem step_pushConstant (hK : Implements p words K) (h : Simulates K f fs sp s c) {value : UInt16}
    (hop : p.instructions[s.pc]? = some ⟨.push (.constant value), owner⟩)
    (hloaded : Loaded K.addresses words (K.codeStart s.pc)
      ([constant value, assign "D" "A"] ++ pushD))
    (hnext : K.codeStart (s.pc + 1) =
      K.codeStart s.pc + wordCount ([constant value, assign "D" "A"] ++ pushD))
    (hstep : step p s = .ok none s') (hbound : s'.stackPointer ≤ 2048) :
    ∃ c', Reaches words c c' ∧ Simulates K f fs (sp + 1) s' c' := by
  have hlow := h.low
  have hbelow := h.below
  have hperform := performAll_pushAddress (loads_constant value) hloaded.1.1 hK.names h.cpuStack
    (by omega) (by omega)
  rw [← toInt16_eq_pointer] at hperform
  exact h.step_push hK hop (load_constant owner value s) hloaded hnext hperform hstep hbound

theorem step_pushFixed (hK : Implements p words K) (h : Simulates K f fs sp s c)
    {i : Assembly.Instruction} {a b : Nat} (hload : Loads K.addresses i b) (hfixed : K.Fixed a b)
    (hop : p.instructions[s.pc]? = some ⟨.push (.fixed a), owner⟩)
    (hloaded : Loaded K.addresses words (K.codeStart s.pc) ([i, assign "D" "M"] ++ pushD))
    (hnext : K.codeStart (s.pc + 1) =
      K.codeStart s.pc + wordCount ([i, assign "D" "M"] ++ pushD))
    (hstep : step p s = .ok none s') (hbound : s'.stackPointer ≤ 2048) :
    ∃ c', Reaches words c c' ∧ Simulates K f fs (sp + 1) s' c' := by
  have hlow := h.low
  have hbelow := h.below
  obtain ⟨-, ha, hb, hword⟩ := h.of_fixed hK hfixed
  have hperform := performAll_pushFixed hload (by omega) hK.names h.cpuStack (by omega) (by omega)
  rw [hword] at hperform
  exact h.step_push hK hop (load_run rfl (by omega)) hloaded hnext hperform hstep hbound

/-- The address of an access that succeeds and may rely on its word. -/
theorem exists_address (h : Simulates K f fs sp s c) {register : Register} {offset : UInt16}
    {base : String} (hbase : K.addresses base = register.address)
    (hbounds : 0 ≤ (Location.based register offset).resolve s.ram ∧
      (Location.based register offset).resolve s.ram < 32768) :
    ∃ a : Nat, (Location.based register offset).resolve s.ram = a ∧ a < 32768 ∧
      (word c.ram (K.addresses base)).toInt + offset.toNat = a := by
  have hregister := register.address_lt
  obtain ⟨a, ha⟩ := Int.eq_ofNat_of_zero_le hbounds.1
  refine ⟨a, ha, by omega, ?_⟩
  rw [hbase, h.agree.low _ (by omega)]
  exact ha

theorem step_pushBased (hK : Implements p words K) (h : Simulates K f fs sp s c)
    {register : Register} {base : String} {index : UInt16}
    (hbase : K.addresses base = register.address)
    (hop : p.instructions[s.pc]? = some ⟨.push (.based register index), owner⟩)
    (hloaded : Loaded K.addresses words (K.codeStart s.pc) ([constant index, assign "D" "A",
      symbol base, assign "A" "D+M", assign "D" "M"] ++ pushD))
    (hnext : K.codeStart (s.pc + 1) = K.codeStart s.pc + wordCount ([constant index,
      assign "D" "A", symbol base, assign "A" "D+M", assign "D" "M"] ++ pushD))
    (hdisc : Disciplined .shared s (.push (.based register index)))
    (hstep : step p s = .ok none s') (hbound : s'.stackPointer ≤ 2048) :
    ∃ c', Reaches words c c' ∧ Simulates K f fs (sp + 1) s' c' := by
  have hlow := h.low
  have hbelow := h.below
  have hexecute := hstep
  rw [step_of_instruction hop] at hexecute
  obtain ⟨a, ha, hlt, hword⟩ := h.exists_address hbase (bounds_of_execute_push hexecute)
  obtain ⟨haccess, hreads⟩ := hdisc
  rw [ha] at haccess hreads
  have hsame := h.word_of_reads haccess hreads
  have hperform := performAll_pushBased hloaded.1.1 hloaded.2.2.1.1 hword hlt hK.names h.cpuStack
    (by omega) (by omega)
  rw [hsame] at hperform
  exact h.step_push hK hop (load_run ha hlt) hloaded hnext hperform hstep hbound

theorem step_popFixed (hK : Implements p words K) (h : Simulates K f fs sp s c)
    {i : Assembly.Instruction} {a b : Nat} (hload : Loads K.addresses i b) (hfixed : K.Fixed a b)
    (hop : p.instructions[s.pc]? = some ⟨.pop (.fixed a), owner⟩)
    (hloaded : Loaded K.addresses words (K.codeStart s.pc) (popD ++ [i, assign "M" "D"]))
    (hnext : K.codeStart (s.pc + 1) =
      K.codeStart s.pc + wordCount (popD ++ [i, assign "M" "D"]))
    (hdisc : Disciplined .shared s (.pop (.fixed a))) (hstep : step p s = .ok none s') :
    ∃ c', Reaches words c c' ∧ Simulates K f fs (sp - 1) s' c' := by
  have hlow := h.low
  have hbelow := h.below
  have habove := h.of_hasOperands hdisc
  obtain ⟨hge, ha, hb, -⟩ := h.of_fixed hK hfixed
  rw [step_of_instruction hop, execute_pop s.pc (by simp) rfl (by omega) h.stack (by omega)
    (by omega)] at hstep
  cases hstep
  have hperform := performAll_popFixed hload (by omega) hK.names h.cpuStack (by omega) (by omega)
  rw [h.top habove (by omega)] at hperform
  have hpinned : ¬Pinned (f :: fs) a := by
    intro hpinned
    have hbounds := h.pinned_lt hpinned
    omega
  refine h.pop habove hloaded hnext hperform hpinned (by omega) ?_
  have hpopped := h.agree.popped hK.statics h.slotsBelow
  have hslots : SlotsBelow ((f :: fs).map Frame.slot) (sp - 1) := by
    intro slot hslot
    obtain ⟨g, hg, rfl⟩ := List.mem_map.mp hslot
    have hbounds := h.chain.locals_le g hg
    simp only [Frame.slot]
    omega
  rcases hfixed with ⟨-, hhigh, rfl⟩ | hstatic
  · refine hpopped.put hK.statics (by omega) ?_ _
    intro slot hslot
    have hbounds := h.slotsBelow slot hslot
    omega
  · exact hpopped.putStatic hK.statics hslots hstatic _

theorem step_popBased (hK : Implements p words K) (h : Simulates K f fs sp s c)
    {register : Register} {base : String} {index : UInt16}
    (hbase : K.addresses base = register.address) (hne : register ≠ .stack)
    (hop : p.instructions[s.pc]? = some ⟨.pop (.based register index), owner⟩)
    (hloaded : Loaded K.addresses words (K.codeStart s.pc) ([constant index, assign "D" "A",
      symbol base, assign "D" "D+M", symbol "R13", assign "M" "D"] ++ popD ++
      [symbol "R13", assign "A" "M", assign "M" "D"]))
    (hnext : K.codeStart (s.pc + 1) = K.codeStart s.pc + wordCount ([constant index,
      assign "D" "A", symbol base, assign "D" "D+M", symbol "R13", assign "M" "D"] ++ popD ++
      [symbol "R13", assign "A" "M", assign "M" "D"]))
    (hdisc : Disciplined .shared s (.pop (.based register index)))
    (hstep : step p s = .ok none s') :
    ∃ c', Reaches words c c' ∧ Simulates K f fs (sp - 1) s' c' := by
  have hlow := h.low
  have hbelow := h.below
  obtain ⟨hoperand, haccess, hwrites⟩ := hdisc
  have habove := h.of_hasOperands hoperand
  have hbased : ∀ offset, Location.based register index ≠ .based .stack offset := by
    intro offset heq
    cases heq
    exact hne rfl
  have hexecute := hstep
  rw [step_of_instruction hop] at hexecute
  obtain ⟨a, ha, hlt, hword⟩ := h.exists_address hbase
    (bounds_of_execute_pop hbased hexecute h.stack (by omega) (by omega))
  rw [ha] at haccess hwrites
  have hpinned := h.not_pinned_of_writes haccess hwrites
  have hfree := h.slot_ne_of_accessible haccess
  simp only [Access.shared] at hwrites
  rw [execute_pop s.pc hbased ha hlt h.stack (by omega) (by omega)] at hexecute
  cases hexecute
  have hperform := performAll_popBased hloaded.1.1 hloaded.2.2.1.1 hword hlt hK.names h.cpuStack
    (by omega) (by omega)
  rw [h.top habove (by omega)] at hperform
  refine h.pop habove hloaded hnext hperform hpinned (by omega) ?_
  have hscratch := h.agree.scratch hK.statics h.slotsBelow (a := 13) (by omega) (pointer a)
  exact (hscratch.popped hK.statics h.slotsBelow).put hK.statics (by omega) hfree _

/-- An operator leaves its value in place of its operands. -/
theorem step_arithmetic (h : Simulates K f fs sp s c) {op : Arithmetic} {count : Nat}
    {w : Int16} {m : Vector Int16 ramSize} {block : List Assembly.Instruction}
    (hop : p.instructions[s.pc]? = some ⟨.arithmetic op, owner⟩) (hcount : 0 < count)
    (hroom : f.locals + count ≤ sp)
    (hnext : K.codeStart (s.pc + 1) = K.codeStart s.pc + wordCount block)
    (hm : arithmetic owner op s = .ok () { s with ram := pushed m (sp - count) w })
    (hkeep : ∀ a, a ≠ 0 → word m a = word s.ram a)
    (hreach : Reaches words c c') (hpc : c'.pc = c.pc + wordCount block)
    (hagree : Agree K.statics ((f :: fs).map Frame.slot) (sp - count + 1)
      (pushed m (sp - count) w) c'.ram)
    (hstep : step p s = .ok none s') :
    ∃ c', Reaches words c c' ∧ Simulates K f fs (sp - count + 1) s' c' := by
  have hbelow := h.below
  rw [step_of_instruction hop, execute_arithmetic s.pc hm] at hstep
  cases hstep
  refine ⟨c', hreach, h.of_agree (s.pc + 1) ?_ hagree (word_pushed_zero _ _ _ (by decide)) ?_
    (by omega) (by omega)⟩
  · rw [hpc, h.pc, hnext]
  · intro a ha
    have hlow := h.chain.room
    have hbounds : a = 1 ∨ a = 2 ∨ 256 ≤ a ∧ a < sp - count := by
      rcases ha with rfl | rfl | ⟨g, hg, hge, hlt⟩
      · exact .inl rfl
      · exact .inr (.inl rfl)
      · have hsaved := h.chain.locals_le g hg
        omega
    rw [word_pushed_of_ne _ _ (by omega) (by omega), hkeep a (by omega)]

/-- Slots stay below the operands of a frame. -/
theorem slotsBelow_sub (h : Simulates K f fs sp s c) {count : Nat} (hroom : f.locals + count ≤ sp) :
    SlotsBelow ((f :: fs).map Frame.slot) (sp - count) := by
  intro slot hslot
  obtain ⟨g, hg, rfl⟩ := List.mem_map.mp hslot
  have hbounds := h.chain.locals_le g hg
  simp only [Frame.slot]
  omega

theorem step_unary (hK : Implements p words K) (h : Simulates K f fs sp s c) {op : Arithmetic}
    {comp : String} (hcomp : (op, comp) ∈ [(Arithmetic.neg, "-M"), (.not, "!M")])
    (hop : p.instructions[s.pc]? = some ⟨.arithmetic op, owner⟩)
    (hloaded : Loaded K.addresses words (K.codeStart s.pc) (unary comp))
    (hnext : K.codeStart (s.pc + 1) = K.codeStart s.pc + wordCount (unary comp))
    (hdisc : Disciplined .shared s (.arithmetic op)) (hstep : step p s = .ok none s') :
    ∃ c', Reaches words c c' ∧ Simulates K f fs (sp - 1 + 1) s' c' := by
  have hlow := h.low
  have hbelow := h.below
  obtain ⟨harity, hmem, hvalue⟩ := value_unary hcomp (word s.ram (sp - 1))
  have hroom := h.of_hasOperands hdisc.1
  rw [harity] at hroom
  have hperform := performAll_unary hmem hK.names h.cpuStack (by omega) (by omega)
  rw [h.top hroom (by omega), hvalue] at hperform
  rw [← h.pc] at hloaded
  obtain ⟨hreach, hend⟩ := reaches_of_performAll hloaded hperform
  have hm : arithmetic owner op s = _ :=
    arithmetic_unary harity h.stack (by omega) (by omega)
  refine h.step_arithmetic hop (by omega) hroom hnext hm
    (fun a ha => word_popped_of_ne _ _ ha) hreach hend ?_ hstep
  exact (h.agree.popped hK.statics h.slotsBelow).pushed hK.statics (h.slotsBelow_sub hroom)
    (by have hframe := h.chain.room; omega) (by omega) _

theorem step_binary (hK : Implements p words K) (h : Simulates K f fs sp s c) {op : Arithmetic}
    {comp : String} (hcomp : (op, comp) ∈
      [(Arithmetic.add, "D+M"), (.sub, "M-D"), (.and, "D&M"), (.or, "D|M")])
    (hop : p.instructions[s.pc]? = some ⟨.arithmetic op, owner⟩)
    (hloaded : Loaded K.addresses words (K.codeStart s.pc) (binary comp))
    (hnext : K.codeStart (s.pc + 1) = K.codeStart s.pc + wordCount (binary comp))
    (hdisc : Disciplined .shared s (.arithmetic op)) (hstep : step p s = .ok none s') :
    ∃ c', Reaches words c c' ∧ Simulates K f fs (sp - 2 + 1) s' c' := by
  have hlow := h.low
  have hbelow := h.below
  obtain ⟨harity, hmem, hvalue⟩ :=
    value_binary hcomp (word s.ram (sp - 2)) (word s.ram (sp - 1))
  have hroom := h.of_hasOperands hdisc.1
  rw [harity] at hroom
  have hperform := performAll_binary hmem hK.names h.cpuStack (by omega) (by omega)
  rw [h.top (show f.locals + 1 ≤ sp by omega) (by omega), h.top hroom (by omega), hvalue] at hperform
  rw [← h.pc] at hloaded
  obtain ⟨hreach, hend⟩ := reaches_of_performAll hloaded hperform
  have hm : arithmetic owner op s = _ :=
    arithmetic_binary harity h.stack (by omega) (by omega)
  refine h.step_arithmetic hop (by omega) hroom hnext hm ?_ hreach hend ?_ hstep
  · intro a ha
    rw [word_popped_of_ne _ _ ha, word_popped_of_ne _ _ ha]
  · have hpopped := (h.agree.popped hK.statics h.slotsBelow).popped hK.statics
      (h.slotsBelow_sub (show f.locals + 1 ≤ sp by omega))
    exact hpopped.pushed hK.statics (h.slotsBelow_sub hroom)
      (by have hframe := h.chain.room; omega) (by omega) _

theorem step_compare (hK : Implements p words K) (h : Simulates K f fs sp s c) {op : Arithmetic}
    {condition file : String} {number : Nat}
    (hcomp : (op, condition) ∈ [(Arithmetic.eq, "JEQ"), (.gt, "JGT"), (.lt, "JLT")])
    (hop : p.instructions[s.pc]? = some ⟨.arithmetic op, owner⟩)
    (hloaded : Loaded K.addresses words (K.codeStart s.pc) (compare file op condition number))
    (hnext : K.codeStart (s.pc + 1) =
      K.codeStart s.pc + wordCount (compare file op condition number))
    (hdisc : Disciplined .shared s (.arithmetic op)) (hstep : step p s = .ok none s') :
    ∃ c', Reaches words c c' ∧ Simulates K f fs (sp - 2 + 1) s' c' := by
  have hlow := h.low
  have hbelow := h.below
  obtain ⟨harity, hmem, hbranch⟩ := arity_compare hcomp
  obtain ⟨hoperands, hrange⟩ := hdisc
  have hroom := h.of_hasOperands hoperands
  rw [harity] at hroom
  have hdiff := hrange hmem
  rw [h.operand_eq, h.operand_eq] at hdiff
  rw [← h.pc] at hloaded
  rw [compare_eq_comparing] at hloaded hnext
  obtain ⟨c', hreach, hend, hram⟩ :=
    reaches_comparing hbranch hloaded hK.names h.cpuStack (by omega) (by omega)
  rw [h.top (show f.locals + 1 ≤ sp by omega) (by omega), h.top hroom (by omega),
    value_compare hcomp _ _ hdiff] at hram
  have hm : arithmetic owner op s = _ :=
    arithmetic_binary harity h.stack (by omega) (by omega)
  refine h.step_arithmetic hop (by omega) hroom hnext hm ?_ hreach hend ?_ hstep
  · intro a ha
    rw [word_popped_of_ne _ _ ha, word_popped_of_ne _ _ ha]
  · rw [hram]
    have hpopped := (h.agree.popped hK.statics h.slotsBelow).popped hK.statics
      (h.slotsBelow_sub (show f.locals + 1 ≤ sp by omega))
    exact hpopped.pushed hK.statics (h.slotsBelow_sub hroom)
      (by have hframe := h.chain.room; omega) (by omega) _

theorem step_skip (h : Simulates K f fs sp s c) {name : String}
    (hop : p.instructions[s.pc]? = some ⟨.skip, owner⟩)
    (hnext : K.codeStart (s.pc + 1) = K.codeStart s.pc + wordCount [label name])
    (hstep : step p s = .ok none s') : Simulates K f fs sp s' c := by
  rw [step_of_instruction hop, execute_skip] at hstep
  cases hstep
  refine h.of_agree (s.pc + 1) ?_ h.agree h.stack (fun a _ => rfl) h.above h.below
  rw [h.pc, hnext]
  rfl

theorem step_jump (h : Simulates K f fs sp s c) {name : String} {target : Nat}
    (htarget : K.addresses name = K.codeStart target)
    (hop : p.instructions[s.pc]? = some ⟨.jump target, owner⟩)
    (hloaded : Loaded K.addresses words (K.codeStart s.pc) [symbol name, jump "0" "JMP"])
    (hstep : step p s = .ok none s') :
    ∃ c', Reaches words c c' ∧ Simulates K f fs sp s' c' := by
  rw [step_of_instruction hop, execute_jump] at hstep
  cases hstep
  rw [← h.pc] at hloaded
  exact ⟨_, reaches_goto hloaded,
    h.of_agree target htarget h.agree h.stack (fun a _ => rfl) h.above h.below⟩

theorem step_jumpIf (hK : Implements p words K) (h : Simulates K f fs sp s c) {name : String}
    {target : Nat} (htarget : K.addresses name = K.codeStart target)
    (hop : p.instructions[s.pc]? = some ⟨.jumpIf target, owner⟩)
    (hloaded : Loaded K.addresses words (K.codeStart s.pc) (popD ++ [symbol name, jump "D" "JNE"]))
    (hnext : K.codeStart (s.pc + 1) =
      K.codeStart s.pc + wordCount (popD ++ [symbol name, jump "D" "JNE"]))
    (hdisc : Disciplined .shared s (.jumpIf target)) (hstep : step p s = .ok none s') :
    ∃ c', Reaches words c c' ∧ Simulates K f fs (sp - 1) s' c' := by
  have hlow := h.low
  have hbelow := h.below
  have habove := h.of_hasOperands hdisc
  rw [step_of_instruction hop, execute_jumpIf _ _ h.stack (by omega) (by omega)] at hstep
  cases hstep
  rw [← h.pc, loaded_append] at hloaded
  obtain ⟨hpop, hbranch⟩ := hloaded
  have hperform := performAll_popD hK.names h.cpuStack (by omega) (by omega)
  rw [h.top habove (by omega)] at hperform
  obtain ⟨hreach, hend⟩ := reaches_of_performAll hpop hperform
  rw [← hend] at hbranch
  have hjump := reaches_branch (by decide) hbranch
  refine ⟨_, hreach.trans hjump, h.of_agree _ ?_ (h.agree.popped hK.statics h.slotsBelow)
    (word_popped_zero _ _ (by decide)) ?_ (by omega) (by omega)⟩
  · have hvalue (y : Int16) : valueOf "D" (word s.ram (sp - 1)) y = word s.ram (sp - 1) := by
      simp [valueOf]
    have htaken (w : Int16) : taken "JNE" w = !(w == 0) := by simp [taken]
    simp only [hvalue, htaken]
    by_cases hzero : word s.ram (sp - 1) = 0
    · simp only [hzero, if_true, beq_self_eq_true, Bool.not_true, Bool.false_eq_true, if_false]
      rw [hnext, ← h.pc]
      rfl
    · simp only [hzero, if_false, Bool.not_eq_true', beq_eq_false_iff_ne, ne_eq,
        not_false_eq_true, if_true, htarget]
  · intro a ha
    have hbounds := h.pinned_lt ha
    exact word_popped_of_ne _ _ (by omega)

theorem step_enter (hK : Implements p words K) (h : Simulates K f fs sp s c) {name : String}
    {count : UInt16} (hop : p.instructions[s.pc]? = some ⟨.enter count, owner⟩)
    (hloaded : Loaded K.addresses words (K.codeStart s.pc) (enterFunction name count))
    (hnext : K.codeStart (s.pc + 1) = K.codeStart s.pc + wordCount (enterFunction name count))
    (hstep : step p s = .ok none s') (hbase : 256 ≤ s'.stackPointer)
    (hbound : s'.stackPointer ≤ 2048) :
    ∃ c', Reaches words c c' ∧ Simulates K f fs (sp + count.toNat) s' c' := by
  have hlow := h.low
  have hbelow := h.below
  rw [step_of_instruction hop] at hstep
  have hroom : sp + count.toNat ≤ 32768 := by
    have hexecute := hstep
    simp only [execute] at hexecute
    obtain ⟨_, t, hzeros, -⟩ := bind_eq_ok hexecute
    exact le_of_pushZeros hzeros h.stack (by omega) (by omega)
  rw [execute_enter s.pc count h.stack (by omega) hroom] at hstep
  cases hstep
  have hstack := word_zeroed_stack s.ram count.toNat h.stack (by decide)
  have hlt : sp + count.toNat < 32768 := by
    by_contra hfull
    have hend : sp + count.toNat = 32768 := by omega
    have hneg : (pointer 32768).toInt = -32768 := by decide
    rw [State.stackPointer, hstack, hend, hneg] at hbase
    omega
  have hle := le_of_stackPointer hstack hlt hbound
  rw [← h.pc] at hloaded
  obtain ⟨-, c', hreach, hend, hram⟩ := reaches_enter hloaded hK.names h.cpuStack (by omega) hlt
  refine ⟨c', hreach, h.of_agree (s.pc + 1) ?_ ?_ hstack ?_ ?_ hle⟩
  · rw [hend, h.pc, hnext]
  · rw [hram]
    exact h.agree.zeroed hK.statics h.slotsBelow (by omega) count.toNat hle
  · intro a ha
    have hbounds := h.pinned_lt ha
    exact word_zeroed_of_lt s.ram count.toNat (by omega) (by omega)
  · have habove := h.above
    omega

/-- A call opens a frame that returns behind the call. -/
theorem step_call (hK : Implements p words K) (h : Simulates K f fs sp s c)
    {name returnLabel : String} {entry : Nat} {count : UInt16}
    (hentry : K.addresses name = K.codeStart entry)
    (hop : p.instructions[s.pc]? = some ⟨.call (.function entry) count, owner⟩)
    (hloaded : Loaded K.addresses words (K.codeStart s.pc) (callFunction name count returnLabel))
    (hnext : K.codeStart (s.pc + 1) =
      K.codeStart s.pc + wordCount (callFunction name count returnLabel))
    (hdisc : Disciplined .shared s (.call (.function entry) count)) (hstep : step p s = .ok none s')
    (hbound : s'.stackPointer ≤ 2048) :
    ∃ c' g, Reaches words c c' ∧ Simulates K g (f :: fs) (sp + 5) s' c' := by
  have hlow := h.low
  have hbelow := h.below
  have hroom := h.of_hasOperands hdisc
  have hframe := h.chain.room
  rw [step_of_instruction hop, execute_call s.pc entry count h.stack (by omega) (by omega)
    (by omega)] at hstep
  cases hstep
  have hstack : word (framed s.ram sp count.toNat 0) 0 = pointer (sp + 5) :=
    word_framed_stack s.ram count.toNat 0 (by decide)
  have hle := le_of_stackPointer hstack (by omega) hbound
  rw [← h.pc] at hloaded
  obtain ⟨hreturn, hrom, c', hreach, hpc, hram⟩ :=
    reaches_call hloaded hK.names h.cpuStack (by omega) (by omega) (by omega)
  let g : Frame := ⟨sp + 5, sp - count.toNat, K.codeStart (s.pc + 1)⟩
  have htarget : K.addresses returnLabel = g.target := by
    rw [hreturn, h.pc, ← hnext]
  have hkeep (a : Nat) (hge : 3 ≤ a) (hlt : a < sp) :
      word (framed s.ram sp count.toNat 0) a = word s.ram a :=
    word_framed_of_lt s.ram count.toNat 0 hge hlt
  refine ⟨c', g, hreach, ?_⟩
  constructor
  · rw [hpc, hentry]
  · rw [hram, htarget]
    exact h.agree.framed hK.statics h.slotsBelow (by omega) hle count.toNat g.target
  · exact hstack
  · exact word_framed_locals s.ram count.toNat 0 (by decide)
  · exact word_framed_args s.ram count.toNat 0 (by decide)
  · have hsize : ramSize = 32768 := rfl
    refine ⟨?_, ?_, ?_, ?_, ?_⟩
    · simp only [g]
      omega
    · simp only [g]
      omega
    · have hword : word (framed s.ram sp count.toNat 0) (sp + 1) = word s.ram 1 :=
        word_framed_saved s.ram count.toNat 0 (by omega) (by omega) (by omega)
      rw [← h.locals, ← hword]
      rfl
    · have hword : word (framed s.ram sp count.toNat 0) (sp + 2) = word s.ram 2 :=
        word_framed_saved s.ram count.toNat 0 (by omega) (by omega) (by omega)
      rw [← h.arguments, ← hword]
      rfl
    · refine h.chain.congr fun g' hg' a hge hlt => hkeep a ?_ ?_
      · have hsaved := h.chain.locals_le g' hg'
        omega
      · have hsaved := h.chain.locals_le g' hg'
        omega
  · exact le_refl _
  · exact hle
  · simp only [List.map_cons, List.cons_append, g] at *
    rw [← h.targets]
    rfl
  · intro g' hg'
    rcases List.mem_cons.mp hg' with rfl | hg'
    · rw [← htarget]
      exact hrom
    · exact h.inRom g' hg'

/-- Older frames keep their slots below the arguments of the latest one. -/
theorem slotsBelow_arguments (h : Simulates K f fs sp s c) :
    SlotsBelow (fs.map Frame.slot) f.arguments := by
  intro slot hslot
  obtain ⟨g, hg, rfl⟩ := List.mem_map.mp hslot
  cases fs with
  | nil => cases hg
  | cons g' rest =>
      have hbelow := h.chain.2.1
      have hbounds := h.chain.tail.locals_le g hg
      simp only [Frame.slot]
      omega

/-- The end of a call, on both sides. -/
theorem leave_both (h : Simulates K f fs sp s c) (owner : String) (hK : Implements p words K)
    (habove : f.locals + 1 ≤ sp)
    (hloaded : Loaded K.addresses words (K.codeStart s.pc) leaveFunction) :
    popFrame owner s = .ok (word s.ram (sp - 1))
        { s with ram := restored s.ram sp f.locals f.arguments } ∧
      ∃ c', Reaches words c c' ∧ c'.pc = f.target ∧
        Agree K.statics (fs.map Frame.slot) (f.arguments + 1)
          (restored s.ram sp f.locals f.arguments) c'.ram := by
  have hlow := h.low
  have hbelow := h.below
  have hroom := h.chain.room
  refine ⟨popFrame_run h.stack h.locals h.arguments (by omega) hroom.2 (by omega) (by omega)
    (by omega), ?_⟩
  have hframe : word c.ram 1 = pointer f.locals := by rw [h.agree.low 1 (by omega), h.locals]
  have hargs : word c.ram 2 = pointer f.arguments := by
    rw [h.agree.low 2 (by omega), h.arguments]
  have htarget : word c.ram (f.locals - 5) = pointer f.target :=
    h.agree.slots f.slot List.mem_cons_self
  rw [← h.pc] at hloaded
  obtain ⟨c', hreach, hpc, hram⟩ := reaches_leave hloaded hK.names h.cpuStack hframe hargs htarget
    (by omega) hroom.2 (by omega) (by omega) (by omega) (h.inRom f List.mem_cons_self)
  refine ⟨c', hreach, hpc, ?_⟩
  rw [hram]
  have hfirst := h.agree.scratch hK.statics h.slotsBelow (a := 13) (by omega) (pointer f.locals)
  have hsecond := hfirst.scratch hK.statics h.slotsBelow (a := 14) (by omega) (pointer f.target)
  exact hsecond.restored hK.statics h.slotsBelow_arguments hroom.1 hroom.2 (by omega) hbelow

theorem step_leave (hK : Implements p words K) (h : Simulates K f fs sp s c)
    (hop : p.instructions[s.pc]? = some ⟨.return, owner⟩)
    (hloaded : Loaded K.addresses words (K.codeStart s.pc) leaveFunction)
    (hdisc : Disciplined .shared s .return) (hstep : step p s = .ok none s') :
    ∃ c' g rest, Reaches words c c' ∧ Simulates K g rest (f.arguments + 1) s' c' := by
  have hbelow := h.below
  have hroom := h.chain.room
  have habove := h.of_hasOperands hdisc
  obtain ⟨hpop, c', hreach, hpc, hagree⟩ := h.leave_both owner hK habove hloaded
  rw [step_of_instruction hop, execute_return s.pc hpop] at hstep
  have htargets := h.targets
  cases hreturns : s.returns with
  | nil =>
      simp only [leave, hreturns] at hstep
      cases hstep
  | cons target returns =>
      simp only [leave, hreturns] at hstep
      cases hstep
      cases fs with
      | nil =>
          rw [hreturns] at htargets
          simp at htargets
      | cons g rest =>
          rw [hreturns] at htargets
          simp only [List.map_cons, List.cons_append, List.cons.injEq] at htargets
          obtain ⟨hfirst, hrest⟩ := htargets
          obtain ⟨-, hlower, hlocals, harguments, hchain⟩ := h.chain
          refine ⟨c', g, rest, hreach, ?_⟩
          constructor
          · rw [hpc, hfirst]
          · exact hagree
          · exact word_restored_stack s.ram (by decide)
          · exact (word_restored_locals s.ram (by decide)).trans hlocals
          · exact (word_restored_args s.ram (by decide)).trans harguments
          · refine hchain.congr fun g' hg' a hge hlt => ?_
            have hbounds := hchain.locals_le g' hg'
            exact word_restored_of_ne s.ram (by omega) (by omega)
          · omega
          · omega
          · simpa using hrest
          · exact fun g' hg' => h.inRom g' (List.mem_cons_of_mem _ hg')

/-- The first call returns: the value is where the stack began. -/
theorem step_finish (hK : Implements p words K) (h : Simulates K f fs sp s c) {value : Int16}
    (hop : p.instructions[s.pc]? = some ⟨.return, owner⟩)
    (hloaded : Loaded K.addresses words (K.codeStart s.pc) leaveFunction)
    (hdisc : Disciplined .shared s .return) (hstep : step p s = .ok (some value) s') :
    ∃ c', Reaches words c c' ∧ c'.pc = K.bottom ∧ Agree K.statics [] 257 s'.ram c'.ram ∧
      word s'.ram 0 = pointer 257 ∧ word s'.ram 256 = value := by
  have habove := h.of_hasOperands hdisc
  obtain ⟨hpop, c', hreach, hpc, hagree⟩ := h.leave_both owner hK habove hloaded
  rw [step_of_instruction hop, execute_return s.pc hpop] at hstep
  have htargets := h.targets
  cases hreturns : s.returns with
  | cons target returns =>
      simp only [leave, hreturns] at hstep
      cases hstep
  | nil =>
      simp only [leave, hreturns] at hstep
      cases hstep
      cases fs with
      | cons g rest =>
          rw [hreturns] at htargets
          simp at htargets
      | nil =>
          rw [hreturns] at htargets
          simp only [List.map_cons, List.map_nil, List.nil_append, List.cons.injEq] at htargets
          have hbase : f.arguments = 256 := h.chain.1
          refine ⟨c', hreach, hpc.trans htargets.1, ?_, ?_, ?_⟩
          · rw [hbase] at hagree ⊢
            exact hagree
          · rw [hbase]
            exact word_restored_stack s.ram (by decide)
          · rw [hbase]
            exact word_restored_arguments s.ram (by decide) (by decide)

/-- A disciplined step of the stack machine is some cycles of the processor. -/
theorem step (hK : Implements p words K) (h : Simulates K f fs sp s c) {op : Op}
    (hop : p.instructions[s.pc]? = some ⟨op, owner⟩) (hdisc : Disciplined .shared s op)
    (hstep : Machine.step p s = .ok none s') (hbase : 256 ≤ s'.stackPointer)
    (hbound : s'.stackPointer ≤ 2048) :
    ∃ c' g rest sp', Reaches words c c' ∧ Simulates K g rest sp' s' c' := by
  obtain ⟨block, htranslates, hloaded, hnext⟩ := hK.block s.pc op owner hop
  cases htranslates with
  | pushConstant value =>
      obtain ⟨c', hreach, hsim⟩ := h.step_pushConstant hK hop hloaded hnext hstep hbound
      exact ⟨c', f, fs, _, hreach, hsim⟩
  | pushFixed hload hfixed =>
      obtain ⟨c', hreach, hsim⟩ := h.step_pushFixed hK hload hfixed hop hloaded hnext hstep hbound
      exact ⟨c', f, fs, _, hreach, hsim⟩
  | pushBased index hregister =>
      obtain ⟨c', hreach, hsim⟩ :=
        h.step_pushBased hK hregister hop hloaded hnext hdisc hstep hbound
      exact ⟨c', f, fs, _, hreach, hsim⟩
  | popFixed hload hfixed =>
      obtain ⟨c', hreach, hsim⟩ := h.step_popFixed hK hload hfixed hop hloaded hnext hdisc hstep
      exact ⟨c', f, fs, _, hreach, hsim⟩
  | popBased index hregister hne =>
      obtain ⟨c', hreach, hsim⟩ := h.step_popBased hK hregister hne hop hloaded hnext hdisc hstep
      exact ⟨c', f, fs, _, hreach, hsim⟩
  | unary hcomp =>
      obtain ⟨c', hreach, hsim⟩ := h.step_unary hK hcomp hop hloaded hnext hdisc hstep
      exact ⟨c', f, fs, _, hreach, hsim⟩
  | binary hcomp =>
      obtain ⟨c', hreach, hsim⟩ := h.step_binary hK hcomp hop hloaded hnext hdisc hstep
      exact ⟨c', f, fs, _, hreach, hsim⟩
  | compare file number hcomp =>
      obtain ⟨c', hreach, hsim⟩ := h.step_compare hK hcomp hop hloaded hnext hdisc hstep
      exact ⟨c', f, fs, _, hreach, hsim⟩
  | skip name => exact ⟨c, f, fs, sp, Reaches.refl words c, h.step_skip hop hnext hstep⟩
  | jump htarget =>
      obtain ⟨c', hreach, hsim⟩ := h.step_jump htarget hop hloaded hstep
      exact ⟨c', f, fs, sp, hreach, hsim⟩
  | jumpIf htarget =>
      obtain ⟨c', hreach, hsim⟩ := h.step_jumpIf hK htarget hop hloaded hnext hdisc hstep
      exact ⟨c', f, fs, _, hreach, hsim⟩
  | enter name count =>
      obtain ⟨c', hreach, hsim⟩ := h.step_enter hK hop hloaded hnext hstep hbase hbound
      exact ⟨c', f, fs, _, hreach, hsim⟩
  | call count returnLabel hentry =>
      obtain ⟨c', g, hreach, hsim⟩ := h.step_call hK hentry hop hloaded hnext hdisc hstep hbound
      exact ⟨c', g, f :: fs, _, hreach, hsim⟩
  | leave =>
      obtain ⟨c', g, rest, hreach, hsim⟩ := h.step_leave hK hop hloaded hdisc hstep
      exact ⟨c', g, rest, _, hreach, hsim⟩

end Simulates

end JackToolchain.Machine
