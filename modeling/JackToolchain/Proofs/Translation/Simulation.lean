import JackToolchain.Proofs.Translation.Agreement
import JackToolchain.Proofs.Translation.Templates

/-!
# One step on the processor

The block of an operation, started in a state that stands for one of the stack machine, ends in a
state that stands for the next one.
-/

namespace JackToolchain.Machine

open JackToolchain.Assembly JackToolchain.Assembly.Cpu JackToolchain.Assembly.Instruction
open JackToolchain.Memory JackToolchain.Stack JackToolchain.Stack.Expander

/-! ## Comparisons -/

/-- The difference of two words is a word. -/
def Fits (x y : Int16) : Prop :=
  -32768 ≤ x.toInt - y.toInt ∧ x.toInt - y.toInt < 32768

instance (x y : Int16) : Decidable (Fits x y) :=
  inferInstanceAs (Decidable (-32768 ≤ x.toInt - y.toInt ∧ x.toInt - y.toInt < 32768))

/-- A difference that is a word has the sign that its operands tell, any other the opposite one. -/
theorem sign_sub (x y : Int16) :
    (0 < x - y ↔ (y < x ↔ Fits x y)) ∧ (x - y < 0 ↔ (x < y ↔ Fits x y)) := by
  have hx := And.intro x.le_toInt x.toInt_lt
  have hy := And.intro y.le_toInt y.toInt_lt
  have hsub : (x - y).toInt = (x.toInt - y.toInt).bmod (2 ^ 16) := Int16.toInt_sub x y
  rw [Int.bmod_eq_emod] at hsub
  simp only [Int16.lt_iff_toInt_lt, Int16.toInt_zero, Fits]
  split at hsub <;> omega

theorem truth_not (b : Bool) : truth (!b) = ~~~truth b := by
  cases b <;> decide

/-- What the sign of a difference of sixteen bits tells about its operands. -/
theorem combine_sub_zero {op : Arithmetic} (hop : op ∈ comparisons) (x y : Int16) :
    combine op (x - y) 0 =
      if op = .eq ∨ Fits x y then combine op x y else ~~~combine op x y := by
  obtain ⟨hpos, hneg⟩ := sign_sub x y
  simp only [comparisons, List.mem_cons, List.not_mem_nil, or_false] at hop
  rcases hop with rfl | rfl | rfl
  · have hzero : x - y = 0 ↔ x = y := by grind
    have hsame : (x - y == 0) = (x == y) := by simp only [beq_eq_decide, hzero]
    simp [combine, hsame]
  · by_cases hfits : Fits x y
    · simp [combine, hfits, hpos]
    · simp only [combine, hfits, hpos, iff_false, or_false, reduceCtorEq, if_false, decide_not,
        truth_not]
  · by_cases hfits : Fits x y
    · simp [combine, hfits, hneg]
    · simp only [combine, hfits, hneg, iff_false, or_false, reduceCtorEq, if_false, decide_not,
        truth_not]

/-- A jump by the sign of a word finds how it compares to zero. -/
theorem taken_eq_combine {op : Arithmetic} {condition : String}
    (hop : (op, condition) ∈ [(Arithmetic.eq, "JEQ"), (.gt, "JGT"), (.lt, "JLT")]) (w : Int16) :
    (if taken condition w then (-1 : Int16) else 0) = combine op w 0 := by
  simp only [List.mem_cons, Prod.mk.injEq, List.not_mem_nil, or_false] at hop
  rcases hop with ⟨rfl, rfl⟩ | ⟨rfl, rfl⟩ | ⟨rfl, rfl⟩
  all_goals simp [taken, combine, truth]

/-! ## States -/

/-- Where an assembled program has its symbols, its blocks, and its static variables. -/
structure Layout where
  addresses : String → Nat
  /-- Where the block of an instruction starts. -/
  codeStart : Nat → Nat
  /-- Static variables of the stack machine and of the processor. -/
  statics : Nat → Nat → Prop
  /-- Where the first call returns to. -/
  bottom : Nat

/-- Words that have the same role: registers and temporaries, or static variables. -/
def Layout.Fixed (K : Layout) (a b : Nat) : Prop := 3 ≤ a ∧ a ≤ 12 ∧ b = a ∨ K.statics a b

/-- The blocks that an operation may become. -/
inductive Translates (K : Layout) : Op → List Assembly.Instruction → Prop
  | pushConstant (value : UInt16) :
    Translates K (.push (.constant value)) ([constant value, assign "D" "A"] ++ pushD)
  | pushFixed {i : Assembly.Instruction} {a b : Nat} (hload : Loads K.addresses i b)
      (hfixed : K.Fixed a b) : Translates K (.push (.fixed a)) ([i, assign "D" "M"] ++ pushD)
  | pushBased {register : Register} {base : String} (index : UInt16)
      (hbase : K.addresses base = register.address) :
    Translates K (.push (.based register index)) ([constant index, assign "D" "A", symbol base,
      assign "A" "D+M", assign "D" "M"] ++ pushD)
  | popFixed {i : Assembly.Instruction} {a b : Nat} (hload : Loads K.addresses i b)
      (hfixed : K.Fixed a b) : Translates K (.pop (.fixed a)) (popD ++ [i, assign "M" "D"])
  | popBased {register : Register} {base : String} (index : UInt16)
      (hbase : K.addresses base = register.address) (hne : register ≠ .stack) :
    Translates K (.pop (.based register index)) ([constant index, assign "D" "A", symbol base,
      assign "D" "D+M", symbol "R13", assign "M" "D"] ++ popD ++
      [symbol "R13", assign "A" "M", assign "M" "D"])
  | unary {op : Arithmetic} {comp : String} (hop : (op, comp) ∈ [(.neg, "-M"), (.not, "!M")]) :
    Translates K (.arithmetic op) (unary comp)
  | binary {op : Arithmetic} {comp : String}
      (hop : (op, comp) ∈ [(.add, "D+M"), (.sub, "M-D"), (.and, "D&M"), (.or, "D|M")]) :
    Translates K (.arithmetic op) (binary comp)
  | compare {op : Arithmetic} {condition : String} (file : String) (number : Nat)
      (hop : (op, condition) ∈ [(.eq, "JEQ"), (.gt, "JGT"), (.lt, "JLT")]) :
    Translates K (.arithmetic op) (compare file op condition number)
  | skip (name : String) : Translates K .skip [label name]
  | jump {name : String} {target : Nat} (htarget : K.addresses name = K.codeStart target) :
    Translates K (.jump target) [symbol name, jump "0" "JMP"]
  | jumpIf {name : String} {target : Nat} (htarget : K.addresses name = K.codeStart target) :
    Translates K (.jumpIf target) (popD ++ [symbol name, jump "D" "JNE"])
  | enter (name : String) (locals : UInt16) :
    Translates K (.enter locals) (enterFunction name locals)
  | call {name : String} {entry : Nat} (arguments : UInt16) (returnLabel : String)
      (hentry : K.addresses name = K.codeStart entry) :
    Translates K (.call (.function entry) arguments) (callFunction name arguments returnLabel)
  | leave : Translates K .return leaveFunction

/-- Every instruction of the stack machine has its block in the words. -/
structure Implements (p : Program) (words : List UInt16) (K : Layout) : Prop where
  names : Conventional K.addresses
  statics : StaticLayout K.statics
  block : ∀ i op owner, p.instructions[i]? = some ⟨op, owner⟩ →
    ∃ block, Translates K op block ∧ Loaded K.addresses words (K.codeStart i) block ∧
      K.codeStart (i + 1) = K.codeStart i + wordCount block

/-- The address of the return address of a frame, and what it is. -/
def Frame.slot (f : Frame) : Nat × Nat := (f.locals - 5, f.target)

/-- A state of the processor stands for one of the stack machine, whose open calls have the frames
`f` and, below it, `fs`. -/
structure Simulates (K : Layout) (f : Frame) (fs : List Frame) (sp : Nat) (s : State) (c : Cpu) :
    Prop where
  pc : c.pc = K.codeStart s.pc
  agree : Agree K.statics ((f :: fs).map Frame.slot) sp s.ram c.ram
  stack : word s.ram 0 = pointer sp
  locals : word s.ram 1 = pointer f.locals
  arguments : word s.ram 2 = pointer f.arguments
  chain : Chain s.ram (f :: fs)
  above : f.locals ≤ sp
  below : sp ≤ 2048
  targets : (f :: fs).map Frame.target = s.returns.map K.codeStart ++ [K.bottom]
  inRom : ∀ g ∈ f :: fs, g.target < 32768

/-- The registers of a frame and the words that frames have saved. -/
def Pinned (fs : List Frame) (a : Nat) : Prop :=
  a = 1 ∨ a = 2 ∨ ∃ g ∈ fs, g.locals - 5 ≤ a ∧ a < g.locals

namespace Simulates

variable {p : Program} {words : List UInt16} {K : Layout} {f : Frame} {fs : List Frame} {sp : Nat}
  {s s' : State} {c c' : Cpu}

theorem low (h : Simulates K f fs sp s c) : 261 ≤ sp := by
  have hroom := h.chain.room
  have habove := h.above
  omega

theorem slotsBelow (h : Simulates K f fs sp s c) : SlotsBelow ((f :: fs).map Frame.slot) sp := by
  intro slot hslot
  obtain ⟨g, hg, rfl⟩ := List.mem_map.mp hslot
  have hbounds := h.chain.locals_le g hg
  have habove := h.above
  simp only [Frame.slot]
  omega

theorem pinned_lt (h : Simulates K f fs sp s c) {a : Nat} (ha : Pinned (f :: fs) a) :
    a = 1 ∨ a = 2 ∨ 256 ≤ a ∧ a < sp := by
  rcases ha with rfl | rfl | ⟨g, hg, hlow, hhigh⟩
  · exact .inl rfl
  · exact .inr (.inl rfl)
  · have hbounds := h.chain.locals_le g hg
    have habove := h.above
    omega

/-- A write that no frame has saved, in the one memory and in the other. -/
theorem of_agree (h : Simulates K f fs sp s c) {sp' : Nat} {m : Vector Int16 ramSize}
    (pc : Nat) (hpc : c'.pc = K.codeStart pc)
    (hagree : Agree K.statics ((f :: fs).map Frame.slot) sp' m c'.ram)
    (hstack : word m 0 = pointer sp')
    (hkeep : ∀ a, Pinned (f :: fs) a → word m a = word s.ram a) (habove : f.locals ≤ sp')
    (hbelow : sp' ≤ 2048) : Simulates K f fs sp' { s with ram := m, pc := pc } c' where
  pc := hpc
  agree := hagree
  stack := hstack
  locals := by rw [hkeep 1 (.inl rfl), h.locals]
  arguments := by rw [hkeep 2 (.inr (.inl rfl)), h.arguments]
  chain := h.chain.congr fun g hg a hlow hhigh => hkeep a (.inr (.inr ⟨g, hg, hlow, hhigh⟩))
  above := habove
  below := hbelow
  targets := h.targets
  inRom := h.inRom

theorem frames_eq (h : Simulates K f fs sp s c) : s.frames = (f :: fs).map Frame.locals := by
  have hlength : s.returns.length = fs.length := by
    have hcount := congrArg List.length h.targets
    simp at hcount
    exact hcount.symm
  have hlt : f.locals < 32768 := by
    have habove := h.above
    have hbelow := h.below
    omega
  unfold State.frames
  rw [hlength, h.locals, toInt_pointer hlt, Int.toNat_natCast]
  exact framesFrom_chain h.chain hlt

theorem stackPointer_eq (h : Simulates K f fs sp s c) : s.stackPointer = sp := by
  have hbelow := h.below
  rw [State.stackPointer, h.stack, toInt_pointer (by omega)]

/-- What is accessible is below the stack pointer and no saved word, or on the heap. -/
theorem of_accessible (h : Simulates K f fs sp s c) {a : Nat} (ha : s.Accessible a) :
    (2048 ≤ a ∨ a < sp) ∧ ∀ g ∈ f :: fs, ¬(g.locals - 5 ≤ a ∧ a < g.locals) := by
  have hbelow := h.below
  rcases ha with hheap | ⟨hhigh, hfree⟩
  · have hge : 2048 ≤ a := by exact_mod_cast hheap
    refine ⟨.inl hge, fun g hg => ?_⟩
    have hbounds := h.chain.locals_le g hg
    have habove := h.above
    omega
  · rw [h.stackPointer_eq] at hhigh
    refine ⟨.inr (by exact_mod_cast hhigh), fun g hg hbounds => ?_⟩
    have hsaved := (h.chain.locals_le g hg).1
    refine hfree g.locals ?_ (by omega)
    rw [h.frames_eq]
    exact List.mem_map_of_mem hg

theorem slot_ne_of_accessible (h : Simulates K f fs sp s c) {a : Nat} (ha : s.Accessible a) :
    ∀ slot ∈ (f :: fs).map Frame.slot, slot.1 ≠ a := by
  intro slot hslot heq
  obtain ⟨g, hg, rfl⟩ := List.mem_map.mp hslot
  have hsaved := (h.chain.locals_le g hg).1
  have hfree := (h.of_accessible ha).2 g hg
  simp only [Frame.slot] at heq
  omega

/-- What may be read is the same on both sides. -/
theorem word_of_reads (h : Simulates K f fs sp s c) {a : Nat} (ha : s.Accessible a)
    (hreads : Access.shared.reads a) : word c.ram a = word s.ram a := by
  have hwhere := (h.of_accessible ha).1
  simp only [Access.shared] at hreads
  by_cases hlow : a < 16
  · exact h.agree.low a (by omega)
  · by_cases hhigh : 2048 ≤ a
    · exact h.agree.heap a hhigh
    · exact h.agree.stack a (by omega) (by omega) (h.slot_ne_of_accessible ha)

/-- What may be written is neither a register of the frame nor a word that a frame has saved. -/
theorem not_pinned_of_writes (h : Simulates K f fs sp s c) {a : Nat} (ha : s.Accessible a)
    (hwrites : Access.shared.writes a) : ¬Pinned (f :: fs) a := by
  simp only [Access.shared] at hwrites
  rintro (rfl | rfl | ⟨g, hg, hbounds⟩)
  · omega
  · omega
  · exact (h.of_accessible ha).2 g hg hbounds

/-- The two words of a fixed role hold the same. -/
theorem of_fixed (hK : Implements p words K) (h : Simulates K f fs sp s c) {a b : Nat}
    (hfixed : K.Fixed a b) :
    3 ≤ a ∧ a < 256 ∧ b < 256 ∧ word c.ram b = word s.ram a := by
  rcases hfixed with ⟨hlow, hhigh, rfl⟩ | hstatic
  · exact ⟨hlow, by omega, by omega, h.agree.low b (.inl hhigh)⟩
  · have hrange := hK.statics.range a b hstatic
    exact ⟨by omega, by omega, by omega, h.agree.statics a b hstatic⟩

/-- A word is pushed on both sides. -/
theorem push (hK : Implements p words K) (h : Simulates K f fs sp s c) (hlt : sp < 2048)
    {block : List Assembly.Instruction} {w a d : Int16} {pc : Nat}
    (hloaded : Loaded K.addresses words (K.codeStart s.pc) block)
    (hnext : K.codeStart (s.pc + 1) = K.codeStart s.pc + wordCount block)
    (hperform : performAll K.addresses block c = some ⟨a, d, pc, pushed c.ram sp w⟩) :
    ∃ c', Reaches words c c' ∧
      Simulates K f fs (sp + 1) { s with ram := pushed s.ram sp w, pc := s.pc + 1 } c' := by
  have hlow := h.low
  rw [← h.pc] at hloaded
  obtain ⟨hreach, hend⟩ := reaches_of_performAll hloaded hperform
  refine ⟨_, hreach, h.of_agree (s.pc + 1) ?_ ?_ (word_pushed_zero _ _ _ (by decide)) ?_ ?_ hlt⟩
  · rw [hend, h.pc, hnext]
  · exact h.agree.pushed hK.statics h.slotsBelow (by omega) hlt w
  · intro b hb
    have hbounds := h.pinned_lt hb
    exact word_pushed_of_ne _ _ (by omega) (by omega)
  · exact h.above.trans (Nat.le_succ sp)

/-- A word is popped on both sides, and then written to two words of the same role. -/
theorem pop (h : Simulates K f fs sp s c) (habove : f.locals < sp)
    {block : List Assembly.Instruction} {x d : Int16} {pc a : Nat} {r : Vector Int16 32768}
    (hloaded : Loaded K.addresses words (K.codeStart s.pc) block)
    (hnext : K.codeStart (s.pc + 1) = K.codeStart s.pc + wordCount block)
    (hperform : performAll K.addresses block c = some ⟨x, d, pc, r⟩)
    (hpinned : ¬Pinned (f :: fs) a) (hpos : a ≠ 0)
    (hagree : Agree K.statics ((f :: fs).map Frame.slot) (sp - 1)
      (put (popped s.ram sp) a (word s.ram (sp - 1))) r) :
    ∃ c', Reaches words c c' ∧ Simulates K f fs (sp - 1) { s with
      ram := put (popped s.ram sp) a (word s.ram (sp - 1)), pc := s.pc + 1 } c' := by
  have hbelow := h.below
  rw [← h.pc] at hloaded
  obtain ⟨hreach, hend⟩ := reaches_of_performAll hloaded hperform
  refine ⟨_, hreach, h.of_agree (s.pc + 1) ?_ hagree ?_ ?_ (by omega) (by omega)⟩
  · rw [hend, h.pc, hnext]
  · rw [word_put_of_ne _ _ hpos, word_popped_zero _ _ (by decide)]
  · intro b hb
    have hbounds := h.pinned_lt hb
    have hne : a ≠ b := fun hab => hpinned (hab ▸ hb)
    rw [word_put_of_ne _ _ hne, word_popped_of_ne _ _ (by omega)]

/-- The top of the stack is the same on both sides when the frame has operands. -/
theorem top (h : Simulates K f fs sp s c) {depth : Nat} (hdepth : f.locals + depth ≤ sp)
    (hpos : 0 < depth) : word c.ram (sp - depth) = word s.ram (sp - depth) := by
  have hlow := h.chain.room
  refine h.agree.stack _ (by omega) (by omega) ?_
  intro slot hslot
  obtain ⟨g, hg, rfl⟩ := List.mem_map.mp hslot
  have hbounds := h.chain.locals_le g hg
  simp only [Frame.slot]
  omega

theorem of_hasOperands (h : Simulates K f fs sp s c) {count : Nat} (hcount : s.HasOperands count) :
    f.locals + count ≤ sp := by
  have habove := h.above
  have hbelow := h.below
  unfold State.HasOperands at hcount
  rw [h.stackPointer_eq, h.locals, toInt_pointer (by omega)] at hcount
  exact_mod_cast hcount

theorem operand_eq (h : Simulates K f fs sp s c) (depth : Nat) :
    s.operand depth = word s.ram (sp - depth) := by
  rw [State.operand, h.stackPointer_eq, Int.toNat_natCast]

/-- The values of operators with one operand. -/
theorem value_unary {op : Arithmetic} {comp : String}
    (hop : (op, comp) ∈ [(Arithmetic.neg, "-M"), (.not, "!M")]) (y : Int16) :
    op.arity = 1 ∧ comp ∈ unaryComps ∧
      valueOf comp 0 y = if op = .neg then -y else ~~~y := by
  simp only [List.mem_cons, Prod.mk.injEq, List.not_mem_nil, or_false] at hop
  rcases hop with ⟨rfl, rfl⟩ | ⟨rfl, rfl⟩
  · exact ⟨rfl, by decide, by simp [valueOf]⟩
  · exact ⟨rfl, by decide, by simp [valueOf]⟩

theorem value_binary {op : Arithmetic} {comp : String}
    (hop : (op, comp) ∈
      [(Arithmetic.add, "D+M"), (.sub, "M-D"), (.and, "D&M"), (.or, "D|M")]) (x y : Int16) :
    op.arity = 2 ∧ comp ∈ binaryComps ∧ valueOf comp y x = combine op x y := by
  simp only [List.mem_cons, Prod.mk.injEq, List.not_mem_nil, or_false] at hop
  rcases hop with ⟨rfl, rfl⟩ | ⟨rfl, rfl⟩ | ⟨rfl, rfl⟩ | ⟨rfl, rfl⟩
  · exact ⟨rfl, by decide, by simp [valueOf, combine, Int16.add_comm]⟩
  · exact ⟨rfl, by decide, by simp [valueOf, combine]⟩
  · exact ⟨rfl, by decide, by simp [valueOf, combine, Int16.and_comm]⟩
  · exact ⟨rfl, by decide, by simp [valueOf, combine, Int16.or_comm]⟩

theorem arity_compare {op : Arithmetic} {condition : String}
    (hop : (op, condition) ∈ [(Arithmetic.eq, "JEQ"), (.gt, "JGT"), (.lt, "JLT")]) :
    op.arity = 2 ∧ op ∈ comparisons ∧ ("D", condition) ∈ branches := by
  simp only [List.mem_cons, Prod.mk.injEq, List.not_mem_nil, or_false] at hop
  rcases hop with ⟨rfl, rfl⟩ | ⟨rfl, rfl⟩ | ⟨rfl, rfl⟩
  all_goals exact ⟨rfl, by decide, by decide⟩

/-- A difference that does not overflow compares as its operands do. -/
theorem value_compare {op : Arithmetic} {condition : String}
    (hop : (op, condition) ∈ [(Arithmetic.eq, "JEQ"), (.gt, "JGT"), (.lt, "JLT")]) (x y : Int16)
    (hrange : -32768 ≤ x.toInt - y.toInt ∧ x.toInt - y.toInt < 32768) :
    (if taken condition (x - y) then (-1 : Int16) else 0) = combine op x y := by
  have hfits : Fits x y := hrange
  rw [taken_eq_combine hop, combine_sub_zero (arity_compare hop).2.1, if_pos (.inr hfits)]

end Simulates

end JackToolchain.Machine
