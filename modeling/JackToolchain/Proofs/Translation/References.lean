import JackToolchain.Proofs.Translation.Text

/-!
# Symbols of expansions

The blocks of commands refer to registers, to their own labels, to static variables, and to the
targets of their branches and calls.
-/

namespace JackToolchain.Stack

open JackToolchain.Assembly JackToolchain.Assembly.Instruction

/-- All symbols of a block are known. -/
def Refers (known : String → Prop) (block : List Assembly.Instruction) : Prop :=
  ∀ name, .symbol name ∈ block → known name

section References

variable {known : String → Prop} {block front back : List Assembly.Instruction} {name : String}

@[simp] theorem refers_nil : Refers known [] := by
  intro name hname
  cases hname

theorem refers_cons {i : Assembly.Instruction} :
    Refers known (i :: block) ↔ (∀ name, i = .symbol name → known name) ∧ Refers known block := by
  constructor
  · intro h
    exact ⟨fun name hi => h name (hi ▸ List.mem_cons_self), fun name hname =>
      h name (List.mem_cons_of_mem _ hname)⟩
  · rintro ⟨hi, hblock⟩ name hname
    rcases List.mem_cons.mp hname with heq | hname
    · exact hi name heq.symm
    · exact hblock name hname

@[simp] theorem refers_symbol :
    Refers known (.symbol name :: block) ↔ known name ∧ Refers known block := by
  rw [refers_cons]
  simp

@[simp] theorem refers_constant {value : UInt16} :
    Refers known (.constant value :: block) ↔ Refers known block := by
  rw [refers_cons]
  simp

@[simp] theorem refers_label : Refers known (.label name :: block) ↔ Refers known block := by
  rw [refers_cons]
  simp

@[simp] theorem refers_assign {dest comp : String} :
    Refers known (assign dest comp :: block) ↔ Refers known block := by
  rw [refers_cons]
  simp [assign]

@[simp] theorem refers_jump {comp condition : String} :
    Refers known (jump comp condition :: block) ↔ Refers known block := by
  rw [refers_cons]
  simp [jump]

@[simp] theorem refers_append :
    Refers known (front ++ back) ↔ Refers known front ∧ Refers known back := by
  constructor
  · intro h
    exact ⟨fun name hname => h name (List.mem_append_left back hname), fun name hname =>
      h name (List.mem_append_right front hname)⟩
  · rintro ⟨hfront, hback⟩ name hname
    rcases List.mem_append.mp hname with hname | hname
    · exact hfront name hname
    · exact hback name hname

theorem refers_of_forall {blocks : List (List Assembly.Instruction)}
    (h : ∀ block ∈ blocks, Refers known block) : Refers known blocks.flatten := by
  intro name hname
  obtain ⟨block, hblock, hmem⟩ := List.mem_flatten.mp hname
  exact h block hblock name hmem

end References

namespace Expander

/-- The registers that blocks use. -/
def usedRegisters : List String := ["SP", "LCL", "ARG", "THIS", "THAT", "R13", "R14"]

section Blocks

variable {known : String → Prop} {t t' : Expander} {command : Command}
  {block : List Assembly.Instruction}

theorem refers_pushD (h : ∀ r ∈ usedRegisters, known r) : Refers known pushD := by
  simp [pushD, h "SP" (by decide)]

theorem refers_popD (h : ∀ r ∈ usedRegisters, known r) : Refers known popD := by
  simp [popD, h "SP" (by decide)]

theorem refers_combine (h : ∀ r ∈ usedRegisters, known r) (comp : String) :
    Refers known (combine comp) := by
  simp [combine, refers_popD h, h "SP" (by decide)]

theorem refers_compare (h : ∀ r ∈ usedRegisters, known r) {file : String} {op : Arithmetic}
    {condition : String} {number : Nat}
    (hlabels : ∀ name, .label name ∈ compare file op condition number → known name) :
    Refers known (compare file op condition number) := by
  have htrue := hlabels s!"{file}.if_{op.text}${number}" (by simp [compare])
  have hafter := hlabels s!"{file}.after_{op.text}${number}" (by simp [compare])
  simp only [compare, refers_append, refers_symbol, refers_jump, refers_assign, refers_label,
    refers_nil, htrue, hafter, refers_combine h, refers_pushD h, and_self]

theorem refers_base (h : ∀ r ∈ usedRegisters, known r) (segment : Segment) :
    known (baseRegister segment) := by
  refine h _ ?_
  cases segment <;> decide

theorem refers_fixedWord (h : ∀ r ∈ usedRegisters, known r) {file : String} {segment : Segment}
    {index : UInt16} {i : Assembly.Instruction} (hword : fixedWord? file segment index = some i)
    (hstatic : segment = .static → known (staticName file index.toNat)) : Refers known [i] := by
  cases segment <;> simp only [fixedWord?, Option.some.injEq, reduceCtorEq] at hword
  · rw [← hword]
    exact refers_symbol.mpr ⟨hstatic rfl, refers_nil⟩
  · rw [← hword]
    refine refers_symbol.mpr ⟨h _ ?_, refers_nil⟩
    unfold pointerRegister
    split <;> decide
  · rw [← hword]
    simp

theorem refers_pushFrom (h : ∀ r ∈ usedRegisters, known r) {file : String} {segment : Segment}
    {index : UInt16} (hstatic : segment = .static → known (staticName file index.toNat)) :
    Refers known (pushFrom file segment index) := by
  unfold pushFrom
  simp only
  split
  · simp [refers_pushD h]
  · rename_i i hword
    have hi := (refers_cons.mp (refers_fixedWord h hword hstatic)).1
    rw [refers_append, refers_cons]
    simp only [refers_assign, refers_nil, refers_pushD h, and_true]
    exact hi
  · simp [refers_pushD h, refers_base h]

theorem refers_popInto (h : ∀ r ∈ usedRegisters, known r) {file : String} {segment : Segment}
    {index : UInt16} (hstatic : segment = .static → known (staticName file index.toNat)) :
    Refers known (popInto file segment index) := by
  unfold popInto
  split
  · rename_i i hword
    have hi := (refers_cons.mp (refers_fixedWord h hword hstatic)).1
    rw [refers_append, refers_cons]
    simp only [refers_assign, refers_nil, refers_popD h, and_true, true_and]
    exact hi
  · simp [refers_popD h, refers_base h, h "R13" (by decide)]

theorem refers_callFunction (h : ∀ r ∈ usedRegisters, known r) {returnLabel name : String}
    (arguments : UInt16) (hname : known name) (hreturn : known returnLabel) :
    Refers known (callFunction name arguments returnLabel) := by
  simp [callFunction, frameRegisters, refers_pushD h, hname, hreturn, h "LCL" (by decide),
    h "ARG" (by decide), h "THIS" (by decide), h "THAT" (by decide), h "SP" (by decide)]

theorem refers_enterFunction (h : ∀ r ∈ usedRegisters, known r) (name : String) (locals : UInt16) :
    Refers known (enterFunction name locals) := by
  have hclear : Refers known
      (List.replicate locals.toNat [assign "M" "0", assign "A" "A+1"]).flatten := by
    refine refers_of_forall fun block hblock => ?_
    rw [List.eq_of_mem_replicate hblock]
    simp
  simp [enterFunction, hclear, h "SP" (by decide)]

theorem refers_restore (h : ∀ r ∈ usedRegisters, known r) {register : String}
    (hregister : known register) (offset : Nat) : Refers known (restore offset register) := by
  have hback : Refers known (List.replicate offset (assign "A" "A-1")) := by
    intro name hname
    cases List.eq_of_mem_replicate hname
  simp [restore, hback, hregister, h "R13" (by decide)]

theorem refers_leaveFunction (h : ∀ r ∈ usedRegisters, known r) : Refers known leaveFunction := by
  simp [leaveFunction, frameRegisters, List.zipIdx, refers_popD h, h "LCL" (by decide),
    h "R13" (by decide), h "R14" (by decide), h "ARG" (by decide), h "SP" (by decide),
    refers_restore h (h "LCL" (by decide)), refers_restore h (h "ARG" (by decide)),
    refers_restore h (h "THIS" (by decide)), refers_restore h (h "THAT" (by decide))]

/-- What the block of a command refers to. -/
theorem refers_of_expand (hexpand : t.expand command = .ok (block, t'))
    (h : ∀ r ∈ usedRegisters, known r) (hlabels : ∀ name, .label name ∈ block → known name)
    (hstatic : ∀ index, command = .push .static index ∨ command = .pop .static index →
      known (staticName t.file index.toNat))
    (hbranch : ∀ label name, command = .goto label ∨ command = .ifGoto label →
      t.branchLabel label command = .ok name → known name)
    (hcall : ∀ name count, command = .call name count → known name) : Refers known block := by
  unfold expand at hexpand
  split at hexpand
  · cases hexpand
  · cases command with
    | push segment index =>
        cases hexpand
        exact refers_pushFrom h fun hsegment => hstatic index (.inl (by rw [hsegment]))
    | pop segment index =>
        cases hexpand
        exact refers_popInto h fun hsegment => hstatic index (.inr (by rw [hsegment]))
    | arithmetic op =>
        have hblock : (t.arithmetic op).1 = block := by rw [Except.ok.inj hexpand]
        rw [← hblock] at hlabels ⊢
        cases op
        case eq => exact refers_compare h hlabels
        case gt => exact refers_compare h hlabels
        case lt => exact refers_compare h hlabels
        case neg => simp [arithmetic, unary, refers_pushD h, h "SP" (by decide)]
        case not => simp [arithmetic, unary, refers_pushD h, h "SP" (by decide)]
        all_goals simp [arithmetic, binary, refers_pushD h, refers_combine h]
    | label name =>
        obtain ⟨target, -, hexpand⟩ := exists_of_bind hexpand
        cases hexpand
        simp
    | goto name =>
        obtain ⟨target, htarget, hexpand⟩ := exists_of_bind hexpand
        cases hexpand
        simp [hbranch name target (.inl rfl) htarget]
    | ifGoto name =>
        obtain ⟨target, htarget, hexpand⟩ := exists_of_bind hexpand
        cases hexpand
        simp [refers_popD h, hbranch name target (.inr rfl) htarget]
    | function name locals =>
        cases hexpand
        exact refers_enterFunction h name locals
    | call name arguments =>
        cases hexpand
        refine refers_callFunction h arguments (hcall name arguments rfl) (hlabels _ ?_)
        simp [callFunction]
    | «return» =>
        cases hexpand
        exact refers_leaveFunction h

end Blocks

end Expander

end JackToolchain.Stack
