import JackToolchain.Proofs.Machine.Resolution
import JackToolchain.Proofs.Machine.Snapshots
import JackToolchain.Proofs.Stack.RoundTrip
import JackToolchain.Proofs.Translation.Image
import JackToolchain.Proofs.Translation.Step

/-!
# Runs on the processor

A fresh run of `Sys.init` on the stack machine, as long as it keeps to its frames, is a run of the
assembled program from address zero on empty memory.
-/

namespace JackToolchain.Machine

open JackToolchain.Assembly JackToolchain.Assembly.Cpu JackToolchain.Assembly.Instruction
open JackToolchain.Memory JackToolchain.Stack JackToolchain.Stack.Expander

/-- The processor is where the stack machine is. The first word of a saved frame is that of the
return address, which only the processor keeps there. -/
structure Mirrors (files : List SourceFile) (image : Assembly.Program) (s : State) (c : Cpu) :
    Prop where
  pc : c.pc = codeStart files s.pc
  low : ∀ a, a ≤ 12 → word c.ram a = word s.ram a
  heap : ∀ a, 2048 ≤ a → word c.ram a = word s.ram a
  stack : ∀ a : Nat, 256 ≤ a → a < s.stackPointer → (∀ frame ∈ s.frames, frame - 5 ≠ a) →
    word c.ram a = word s.ram a
  returns : List.Forall₂ (fun frame target => word c.ram (frame - 5) = pointer target) s.frames
    (s.returns.map (codeStart files) ++ [image.symbols.address bootstrapReturn])
  statics : ∀ name a, StaticOf files name a →
    word c.ram (image.symbols.address name) = word s.ram a

theorem instruction_of_step {p : Program} {s s' : State} {value : Option Int16}
    (h : step p s = .ok value s') : ∃ i, p.instructions[s.pc]? = some i := by
  cases hi : p.instructions[s.pc]? with
  | some i => exact ⟨i, rfl⟩
  | none =>
      obtain ⟨address, t, hread, h⟩ := bind_eq_ok h
      cases hread
      rw [hi] at h
      cases h

/-- The memory of the machine when a function starts. -/
def freshMemory : Vector Int16 ramSize := put (.replicate ramSize 0) 0 (pointer 256)

section Runs

variable {files : List SourceFile} {p : Program} {image : Assembly.Program} {d : Directory}
  {K : Layout} {f : Frame} {fs : List Frame} {sp n : Nat} {s s' : State} {c : Cpu}
  {states : Nat → State}

theorem Simulates.mirrors (h : Simulates (imageLayout files image) f fs sp s c) :
    Mirrors files image s c where
  pc := h.pc
  low a ha := h.agree.low a (.inl ha)
  heap := h.agree.heap
  stack a hlow hhigh hframes := by
    rw [h.stackPointer_eq] at hhigh
    rw [h.frames_eq] at hframes
    refine h.agree.stack a hlow (by exact_mod_cast hhigh) fun slot hslot => ?_
    obtain ⟨g, hg, rfl⟩ := List.mem_map.mp hslot
    exact hframes g.locals (List.mem_map_of_mem hg)
  returns := by
    have htargets := h.targets
    have hslots := h.agree.slots
    rw [h.frames_eq]
    simp only [imageLayout] at htargets
    rw [← htargets, List.forall₂_map_left_iff, List.forall₂_map_right_iff, List.forall₂_same]
    exact fun g hg => hslots g.slot (List.mem_map_of_mem hg)
  statics name a hname := h.agree.statics a _ ⟨name, hname, rfl⟩

/-- The first call returns to the end of the bootstrap. -/
theorem Parts.address_bootstrapReturn (h : Parts files p image d) :
    image.symbols.address bootstrapReturn = codeStart files 0 := by
  have hloaded := (loaded_append.mp h.loaded).1
  have hsplit : bootstrapBlock = bootstrapBlock.dropLast ++ [.label bootstrapReturn] := rfl
  rw [hsplit, loaded_append] at hloaded
  exact hloaded.2.1

/-- The bootstrap opens the frame of `Sys.init`. -/
theorem Parts.boot (h : Parts files p image d) (himage : Image files p image) {entry : Nat}
    (hentry : p.functions["Sys.init"]? = some entry) :
    ∃ c f, Reaches image.words {} c ∧ Simulates (imageLayout files image) f [] 261
      { ram := opening (.replicate ramSize 0), pc := entry } c := by
  have hnames := h.conventional
  rw [h.functions] at hentry
  have hloaded := (loaded_append.mp h.loaded).1
  rw [bootstrapBlock, loaded_append] at hloaded
  have hset : performAll image.symbols.address
      [constant 256, assign "D" "A", symbol "SP", assign "M" "D"] {} =
        some ⟨pointer 0, pointer 256, 4, freshMemory⟩ := by
    simp +decide [performAll, perform, assign, hnames.sp, address_pointer, stored, operand,
      valueOf, freshMemory]
    rfl
  obtain ⟨hfirst, hpc⟩ := reaches_of_performAll hloaded.1 hset
  have hstack : word freshMemory 0 = pointer 256 := word_put_self _ _ (by decide)
  obtain ⟨-, hrom, c, hsecond, hend, hram⟩ :=
    reaches_call (c := ⟨pointer 0, pointer 256, 4, freshMemory⟩) hloaded.2 hnames hstack
      (by decide) (by decide) (by decide)
  refine ⟨c, ⟨261, 256, image.symbols.address bootstrapReturn⟩, hfirst.trans hsecond, ?_⟩
  have hlayout := h.staticLayout himage
  have hzero (a : Nat) (ha : 16 ≤ a) : word freshMemory a = 0 := by
    unfold freshMemory
    rw [word_put_of_ne _ _ (by omega), word_replicate_zero]
  have hbase : Agree (imageLayout files image).statics [] 256 freshMemory freshMemory := by
    constructor
    · exact fun a _ => rfl
    · exact fun a _ => rfl
    · exact fun a _ _ _ => rfl
    · intro a b hab
      obtain ⟨⟨hlow, _⟩, ⟨hlow', _⟩⟩ := hlayout.range a b hab
      exact (hzero b hlow').trans (hzero a hlow).symm
    · exact fun slot hslot => absurd hslot List.not_mem_nil
  have hagree := hbase.framed hlayout (by simp [SlotsBelow]) (by decide) (by decide) 0
    (image.symbols.address bootstrapReturn)
  constructor
  · rw [hend]
    exact (h.function hentry).1
  · rw [hram]
    exact hagree
  · exact word_framed_stack freshMemory 0 0 (by decide)
  · exact word_framed_locals freshMemory 0 0 (by decide)
  · exact word_framed_args freshMemory 0 0 (by decide)
  · exact ⟨rfl, rfl⟩
  · exact le_refl _
  · decide
  · rfl
  · intro g hg
    rw [List.mem_singleton.mp hg]
    exact hrom

/-- Every step of a disciplined run is some cycles. -/
theorem exists_clock {words : List UInt16} (hK : Implements p words K)
    (hrun : DisciplinedRun .shared p n states)
    (hstart : ∃ c f fs sp, Reaches words {} c ∧ Simulates K f fs sp (states 0) c) :
    ∃ clock : Nat → Nat, Monotone clock ∧ ∀ i ≤ n, ∃ c f fs sp,
      Cpu.run words (clock i) {} = some c ∧ Simulates K f fs sp (states i) c := by
  induction n with
  | zero =>
      obtain ⟨c, f, fs, sp, ⟨cycles, hcycles⟩, hsim⟩ := hstart
      refine ⟨fun _ => cycles, monotone_const, fun i hi => ?_⟩
      rw [Nat.le_zero.mp hi]
      exact ⟨c, f, fs, sp, hcycles, hsim⟩
  | succ n ih =>
      obtain ⟨clock, hmono, hclock⟩ := ih ⟨hrun.start, fun i hi => hrun.step i (by omega),
        fun i hi => hrun.discipline i (by omega), fun i hi => hrun.room i (by omega)⟩
      obtain ⟨c, f, fs, sp, hcycles, hsim⟩ := hclock n (le_refl n)
      have hstep := hrun.step n (Nat.lt_succ_self n)
      obtain ⟨⟨op, owner⟩, hop⟩ := instruction_of_step hstep
      have hroom := hrun.room (n + 1) (le_refl _)
      obtain ⟨c', g, rest, sp', ⟨more, hmore⟩, hsim'⟩ := hsim.step hK hop
        (hrun.discipline n (Nat.lt_succ_self n) _ hop) hstep hroom.1 hroom.2
      refine ⟨fun i => if i ≤ n then clock i else clock n + more, ?_, ?_⟩
      · intro i j hij
        simp only
        split
        · rename_i hi
          split
          · exact hmono hij
          · have hle := hmono hi
            omega
        · rw [if_neg (by omega)]
      · intro i hi
        simp only
        rcases Nat.lt_or_eq_of_le hi with hlt | rfl
        · rw [if_pos (by omega)]
          exact hclock i (by omega)
        · rw [if_neg (by omega)]
          refine ⟨c', g, rest, sp', ?_, hsim'⟩
          rw [run_add, hcycles]
          exact hmore

/-- A disciplined run of the stack machine is simulated from address zero on empty memory. -/
theorem exists_simulation (himage : Image files p image)
    (hrun : DisciplinedRun .shared p n states) :
    ∃ d, Parts files p image d ∧ ∃ clock : Nat → Nat, Monotone clock ∧ ∀ i ≤ n, ∃ c f fs sp,
      Cpu.run image.words (clock i) {} = some c ∧
        Simulates (imageLayout files image) f fs sp (states i) c := by
  obtain ⟨entry, hentry, hprepare⟩ := hrun.start
  have hfunction : p.hasFunction "Sys.init" = true := by
    rw [Program.hasFunction, Std.HashMap.contains_eq_isSome_getElem?, hentry]
    rfl
  obtain ⟨d, hparts⟩ := himage.parts hfunction
  have hK := hparts.implements himage
  obtain ⟨c, f, hreach, hsim⟩ := hparts.boot himage hentry
  rw [prepare_eq] at hprepare
  have hfirst := (EStateM.Result.ok.inj hprepare).2
  rw [hfirst] at hsim
  exact ⟨d, hparts, exists_clock hK hrun ⟨c, f, [], 261, hreach, hsim⟩⟩

/-- What is left when `Sys.init` returns. -/
theorem Simulates.finish {words : List UInt16} (hK : Implements p words K)
    (h : Simulates K f fs sp s c) {value : Int16}
    (hstep : Machine.step p s = .ok (some value) s') (hdisc : s.HasOperands 1) :
    ∃ c', Reaches words c c' ∧ c'.pc = K.bottom ∧
      Agree K.statics [] 257 s'.ram c'.ram ∧ word s'.ram 0 = pointer 257 ∧
        word s'.ram 256 = value := by
  obtain ⟨⟨op, owner⟩, hop⟩ := instruction_of_step hstep
  have hreturn : op = .return := by
    rw [step_of_instruction hop] at hstep
    exact eq_return_of_execute hstep
  subst hreturn
  obtain ⟨block, htranslates, hloaded, -⟩ := hK.block s.pc _ owner hop
  cases htranslates
  exact h.step_finish hK hop hloaded hdisc hstep

end Runs

/-! ## Blocks in any memory -/

section Blocks

variable {p : Program} {words : List UInt16} {K : Layout} {register : Register} {index : UInt16}
  {owner : String} {i sp a : Nat} {c : Cpu}

/-- A push by a register, whatever the word that it reads stands for. -/
theorem Implements.pushBased (hK : Implements p words K)
    (hop : p.instructions[i]? = some ⟨.push (.based register index), owner⟩)
    (hpc : c.pc = K.codeStart i) (hsp : word c.ram 0 = pointer sp) (hpos : 0 < sp)
    (hlt : sp < 32768) (ha : (word c.ram register.address).toInt + index.toNat = a)
    (halt : a < 32768) : ∃ c', Reaches words c c' ∧ c'.pc = K.codeStart (i + 1) ∧
      c'.ram = pushed c.ram sp (word c.ram a) := by
  obtain ⟨block, htranslates, hloaded, hnext⟩ := hK.block i _ owner hop
  cases htranslates with
  | pushBased _ hbase =>
      rw [← hbase] at ha
      have hperform := performAll_pushBased hloaded.1.1 hloaded.2.2.1.1 ha halt hK.names hsp hpos hlt
      rw [← hpc] at hloaded
      obtain ⟨hreach, hend⟩ := reaches_of_performAll hloaded hperform
      exact ⟨_, hreach, by rw [hend, hpc, hnext], rfl⟩

/-- A pop by a register, whatever the word that it writes stands for. -/
theorem Implements.popBased (hK : Implements p words K)
    (hop : p.instructions[i]? = some ⟨.pop (.based register index), owner⟩)
    (hpc : c.pc = K.codeStart i) (hsp : word c.ram 0 = pointer sp) (hpos : 14 < sp)
    (hle : sp ≤ 32768) (ha : (word c.ram register.address).toInt + index.toNat = a)
    (halt : a < 32768) : ∃ c', Reaches words c c' ∧ c'.pc = K.codeStart (i + 1) ∧
      c'.ram = put (popped (put c.ram 13 (pointer a)) sp) a (word c.ram (sp - 1)) := by
  obtain ⟨block, htranslates, hloaded, hnext⟩ := hK.block i _ owner hop
  cases htranslates with
  | popBased _ hbase =>
      rw [← hbase] at ha
      have hperform := performAll_popBased hloaded.1.1 hloaded.2.2.1.1 ha halt hK.names hsp hpos hle
      rw [← hpc] at hloaded
      obtain ⟨hreach, hend⟩ := reaches_of_performAll hloaded hperform
      exact ⟨_, hreach, by rw [hend, hpc, hnext], rfl⟩

/-- A pop into a static variable writes to its word on the processor. -/
theorem Implements.popStatic (hK : Implements p words K) (ha : 16 ≤ a)
    (hop : p.instructions[i]? = some ⟨.pop (.fixed a), owner⟩)
    (hpc : c.pc = K.codeStart i) (hsp : word c.ram 0 = pointer sp) (hpos : 1 < sp)
    (hle : sp ≤ 32768) : ∃ b c', K.statics a b ∧ Reaches words c c' ∧
      c'.pc = K.codeStart (i + 1) ∧
      c'.ram = put (popped c.ram sp) b (word c.ram (sp - 1)) := by
  obtain ⟨block, htranslates, hloaded, hnext⟩ := hK.block i _ owner hop
  cases htranslates with
  | popFixed hload hfixed =>
      rcases hfixed with hlow | hstatic
      · omega
      · have hrange := hK.statics.range _ _ hstatic
        have hperform := performAll_popFixed hload (by omega) hK.names hsp hpos hle
        rw [← hpc] at hloaded
        obtain ⟨hreach, hend⟩ := reaches_of_performAll hloaded hperform
        exact ⟨_, _, hstatic, hreach, by rw [hend, hpc, hnext], rfl⟩

/-- A jump to the label in front of it changes no memory. -/
theorem ram_of_loop {addresses : String → Nat} {name : String} {e k : Nat} {c' : Cpu}
    (hload : Placed addresses words e (symbol name))
    (hjump : Placed addresses words (e + 1) (jump "0" "JMP")) (he : addresses name = e)
    (hpc : c.pc = e ∨ c.pc = e + 1 ∧ c.address = e) (hrun : Cpu.run words k c = some c') :
    c'.ram = c.ram := by
  induction k generalizing c with
  | zero =>
      cases hrun
      rfl
  | succ k ih =>
      obtain ⟨next, hstep, hrest⟩ := Option.bind_eq_some_iff.mp hrun
      have hsmall : e < 32768 := he ▸ hload.1
      rcases hpc with hpc | ⟨hpc, haddress⟩
      · rw [← hpc] at hload
        rw [(step_of_perform hload rfl).1] at hstep
        cases hstep
        have haddress : (⟨pointer (addresses name), c.d, c.pc + 1, c.ram⟩ : Cpu).address = e := by
          rw [address_pointer hload.1, he]
        exact (ih (.inr ⟨by simp [hpc], haddress⟩) hrest).trans rfl
      · rw [← hpc] at hjump
        rw [step_of_branch (by decide) hjump (by omega)] at hstep
        cases hstep
        have hback : (if taken "JMP" (valueOf "0" c.d c.a) then c.address else c.pc + 1) = e := by
          simp [taken, haddress]
        exact (ih (.inl hback) hrest).trans rfl

end Blocks

/-! ## Accesses that go astray -/

/-- Calls `Sys.less`, keeps its value in a static variable, and then writes to the stack pointer
and reads a scratch word and a word of the static variables. -/
def strayCommands : List Command :=
  [.function "Sys.init" 0, .push .constant 265, .push .constant 5, .pop .that 2048,
    .push .that 2048, .push .constant 7, .call "Sys.less" 2, .pop .static 1, .pop .that 0,
    .push .that 14, .push .that 16, .label "END", .goto "END", .function "Sys.less" 1,
    .push .argument 0, .push .argument 1, .arithmetic .lt, .pop .locals 0, .push .locals 0,
    .return]

def strayFiles : List SourceFile := [("Sys", strayCommands)]

def strayCode : List Instruction :=
  [⟨.enter 0, "Sys.init"⟩, ⟨.push (.constant 265), "Sys.init"⟩,
    ⟨.push (.constant 5), "Sys.init"⟩, ⟨.pop (.based .that 2048), "Sys.init"⟩,
    ⟨.push (.based .that 2048), "Sys.init"⟩, ⟨.push (.constant 7), "Sys.init"⟩,
    ⟨.call (.function 13) 2, "Sys.init"⟩, ⟨.pop (.fixed 17), "Sys.init"⟩,
    ⟨.pop (.based .that 0), "Sys.init"⟩, ⟨.push (.based .that 14), "Sys.init"⟩,
    ⟨.push (.based .that 16), "Sys.init"⟩, ⟨.skip, "Sys.init"⟩, ⟨.jump 11, "Sys.init"⟩,
    ⟨.enter 1, "Sys.less"⟩, ⟨.push (.based .arguments 0), "Sys.less"⟩,
    ⟨.push (.based .arguments 1), "Sys.less"⟩, ⟨.arithmetic .lt, "Sys.less"⟩,
    ⟨.pop (.based .locals 0), "Sys.less"⟩, ⟨.push (.based .locals 0), "Sys.less"⟩,
    ⟨.return, "Sys.less"⟩]

/-- The states of the stack machine on the way into the loop. -/
def strayState (i : Nat) : State := (Snapshot.after strayCode i (.started 0)).state

theorem link_stray : ∃ p, Program.link strayFiles = .ok p ∧ p.instructions.toList = strayCode ∧
    ∀ name, p.functions[name]? = functionAt? (rows staticBase strayFiles) name :=
  exists_link (by decide +kernel) (by decide +kernel) (by decide +kernel) (by decide)

theorem image_stray : ∃ p image, Image strayFiles p image ∧ p.instructions.toList = strayCode ∧
    p.functions["Sys.init"]? = some 0 := by
  obtain ⟨p, hlinked, hcode, hfunctions⟩ := link_stray
  obtain ⟨text, htext⟩ : ∃ text, expandFile "Sys" strayCommands = .ok text := ⟨_, rfl⟩
  have htexts : strayFiles.mapM (fun file => expandFile file.1 file.2) = .ok [text] := by
    simp only [strayFiles, List.mapM_cons, List.mapM_nil, htext]
    rfl
  have hread : Stack.read (render strayCommands) = .ok strayCommands :=
    read_of_render (by decide +kernel)
  have hconstants : (constantsOf (instructionsOf strayFiles)).all (·.toNat < 32768) = true := by
    decide +kernel
  have hdots : ∀ name ∈ labelsOf (instructionsOf strayFiles), '.' ∈ name.toList := by
    decide +kernel
  obtain ⟨image, himage⟩ := exists_image (p := p)
    (fun file hfile => by
      rw [List.mem_singleton.mp hfile]
      exact ⟨by decide, _, hread⟩)
    (by decide) hlinked
    (fun file hfile name count hcall => by
      rw [List.mem_singleton.mp hfile] at hcall
      have hname : name = "Sys.less" := by
        simp [strayCommands] at hcall
        exact hcall.1
      rw [Program.hasFunction, Std.HashMap.contains_eq_isSome_getElem?, hfunctions, hname]
      decide +kernel)
    htexts (fun value hvalue => of_decide_eq_true (List.all_eq_true.mp hconstants value hvalue))
    (fun name hname => Symbols.get?_eq_none_of_dot (hdots name hname)) (by decide +kernel)
    (by decide +kernel) (by decide +kernel)
  exact ⟨p, image, himage, hcode, by rw [hfunctions]; decide +kernel⟩

theorem disciplinedRun_stray {access : Access} [DecidablePred access.reads]
    [DecidablePred access.writes] {p : Program} {n : Nat}
    (hcode : p.instructions.toList = strayCode)
    (hentry : p.functions["Sys.init"]? = some 0)
    (hkeeps : Snapshot.keeps access strayCode n (.started 0)) :
    DisciplinedRun access p n strayState := by
  have hrun := Snapshot.disciplinedRun_of_keeps (n := n) hentry (hcode ▸ hkeeps)
  rwa [hcode] at hrun

section Stray

variable {p : Program} {image : Assembly.Program} {d : Directory}

theorem staticOf_stray {name : String} {a : Nat} (h : StaticOf strayFiles name a) :
    name = "Sys.1" := by
  obtain ⟨row, hrow, index, haccess, rfl, -⟩ := h
  rcases List.mem_append.mp hrow with hrow | hrow
  · obtain ⟨hfile, -, hcommand⟩ := mem_of_mem_rowsFrom hrow
    have hindex : index = 1 := by
      rcases haccess with heq | heq
      · simp [heq, strayCommands] at hcommand
      · simpa [heq, strayCommands] using hcommand
    rw [hfile, hindex]
    rfl
  · cases hrow

/-- The one static variable that is used has the first address. -/
theorem static_stray (hparts : Parts strayFiles p image d) (himage : Image strayFiles p image)
    {a b : Nat} (h : (imageLayout strayFiles image).statics a b) : b = 16 := by
  obtain ⟨name, hname, rfl⟩ := h
  obtain ⟨names, hnodup, hsub, hhomes⟩ := hparts.homes ["Sys.1"] (by decide) fun other hother => by
    rcases hparts.refers himage other hother with hlabel | hknown | ⟨a, ha⟩
    · exact .inl hlabel
    · exact .inr (.inl hknown)
    · exact .inr (.inr (staticOf_stray ha ▸ List.mem_singleton_self _))
  have hunknown : ({} : Symbols).get? name = none := by
    rw [staticOf_stray hname]
    exact Symbols.get?_eq_none_of_dot (by decide)
  obtain ⟨hmem, hget⟩ :=
    hhomes name (hparts.symbol_of_static hname) (hparts.statics name a hname) hunknown
  have hfirst : names.idxOf name = 0 := by
    cases names with
    | nil => cases hmem
    | cons other rest =>
        have hother := List.mem_singleton.mp (hsub List.mem_cons_self)
        rw [hother, staticOf_stray hname]
        simp
  rw [Symbols.address_of_get? hget, hfirst]
  rfl

/-- The frames when `Sys.less` is about to return. -/
theorem frames_stray {f : Frame} {fs : List Frame} {sp : Nat} {c : Cpu}
    (h : Simulates (imageLayout strayFiles image) f fs sp (strayState 13) c) :
    sp = 271 ∧ f = ⟨269, 262, codeStart strayFiles 7⟩ ∧
      fs = [⟨261, 256, image.symbols.address bootstrapReturn⟩] := by
  have hstack : (strayState 13).stackPointer = 271 := by
    rw [strayState, Snapshot.stackPointer_state]
    decide +kernel
  have hframes : (strayState 13).frames = [269, 261] := by
    rw [strayState, Snapshot.frames_state]
    decide +kernel
  have hreturns : (strayState 13).returns = [7] := by decide +kernel
  have harguments : word (strayState 13).ram 2 = pointer 262 := by
    rw [strayState, Snapshot.word_state]
    decide +kernel
  have htargets := h.targets
  have hchain := h.chain
  have hroom := hchain.room
  have hargs := h.arguments
  rw [h.stackPointer_eq] at hstack
  rw [h.frames_eq] at hframes
  rw [hreturns] at htargets
  rw [harguments] at hargs
  have hlength : fs.length = 1 := by simpa using congrArg List.length hframes
  obtain ⟨⟨locals', arguments', target'⟩, rfl⟩ := List.length_eq_one_iff.mp hlength
  obtain ⟨locals, arguments, target⟩ := f
  simp only [List.map_cons, List.map_nil, List.cons.injEq, and_true] at hframes
  simp only [List.map_cons, List.map_nil, List.cons_append, List.nil_append, List.cons.injEq,
    and_true] at htargets
  obtain ⟨rfl, rfl⟩ := hframes
  obtain ⟨rfl, rfl⟩ := htargets
  have hfirst : arguments' = 256 := hchain.tail.1
  have hsame := congrArg Int16.toInt hargs
  rw [toInt_pointer (by decide), toInt_pointer (by simp only at hroom ⊢; omega)] at hsame
  refine ⟨by omega, ?_, ?_⟩
  · rw [← show (262 : Nat) = arguments by exact_mod_cast hsame]
    rfl
  · rw [hfirst]
    rfl

theorem getElem?_stray (hcode : p.instructions.toList = strayCode) (i : Nat) :
    p.instructions[i]? = strayCode[i]? := by
  rw [← Array.getElem?_toList, hcode]

/-- What the processor has in memory when `Sys.less` has returned: the saved return addresses are
still there, that of the call also as a scratch word. -/
theorem returns_stray (hparts : Parts strayFiles p image d) (himage : Image strayFiles p image)
    (hcode : p.instructions.toList = strayCode) {f : Frame} {fs : List Frame} {sp : Nat} {c : Cpu}
    (h : Simulates (imageLayout strayFiles image) f fs sp (strayState 13) c) :
    ∃ c', Reaches image.words c c' ∧ c'.pc = (imageLayout strayFiles image).codeStart 7 ∧
      word c'.ram 0 = pointer 263 ∧ word c'.ram 4 = 0 ∧
      word c'.ram 14 = pointer (codeStart strayFiles 7) ∧
      word c'.ram 256 = pointer (image.symbols.address bootstrapReturn) ∧
      word c'.ram 261 = pointer 265 ∧ word c'.ram 262 = -1 ∧
      word c'.ram 264 = pointer (codeStart strayFiles 7) := by
  obtain ⟨rfl, rfl, rfl⟩ := frames_stray h
  have hK := hparts.implements himage
  have hsame (a : Nat) (ha : 256 ≤ a ∧ a < 271 ∧ a ≠ 256 ∧ a ≠ 264) :
      word c.ram a = (Snapshot.after strayCode 13 (.started 0)).word a := by
    rw [← Snapshot.word_state]
    refine h.agree.stack a ha.1 ha.2.1 ?_
    simp [Frame.slot]
    omega
  have hslot : word c.ram 264 = pointer (codeStart strayFiles 7) :=
    h.agree.slots (Frame.slot ⟨269, 262, codeStart strayFiles 7⟩) List.mem_cons_self
  have hbase : word c.ram 256 = pointer (image.symbols.address bootstrapReturn) :=
    h.agree.slots (Frame.slot ⟨261, 256, image.symbols.address bootstrapReturn⟩)
      (List.mem_cons_of_mem _ List.mem_cons_self)
  have hvalue : word c.ram 270 = -1 := (hsame 270 (by decide)).trans (by decide +kernel)
  have hthat : word c.ram 268 = 0 := (hsame 268 (by decide)).trans (by decide +kernel)
  have hpointer : word c.ram 261 = pointer 265 := (hsame 261 (by decide)).trans (by decide +kernel)
  obtain ⟨block, htranslates, hloaded, -⟩ := hK.block 19 _ _ (getElem?_stray hcode 19)
  cases htranslates
  have hat : (strayState 13).pc = 19 := by decide +kernel
  have hpc : c.pc = (imageLayout strayFiles image).codeStart 19 := by rw [h.pc, hat]
  rw [← hpc] at hloaded
  obtain ⟨c', hreach, hend, hram⟩ := reaches_leave hloaded hK.names h.cpuStack
    ((h.agree.low 1 (by decide)).trans h.locals) ((h.agree.low 2 (by decide)).trans h.arguments)
    hslot (by decide) (by decide) (by decide) (by decide) (by decide) (by decide +kernel)
  refine ⟨c', hreach, hend, ?_⟩
  simp (disch := decide) only [hram, restored, popped, word_put_of_ne, word_put_self,
    Nat.reduceSub, hthat, hvalue, hpointer, hbase, hslot, and_self]

/-- From the return of `Sys.less` on, the processor reads words that the stack machine does not
have: return addresses, a scratch word and the static variable. -/
theorem reaches_stray (hparts : Parts strayFiles p image d) (himage : Image strayFiles p image)
    (hcode : p.instructions.toList = strayCode) {f : Frame} {fs : List Frame} {sp : Nat} {c : Cpu}
    (h : Simulates (imageLayout strayFiles image) f fs sp (strayState 13) c) :
    ∃ c', Reaches image.words c c' ∧ c'.pc = (imageLayout strayFiles image).codeStart 11 ∧
      word c'.ram 256 = pointer (image.symbols.address bootstrapReturn) ∧
      word c'.ram 264 = pointer (codeStart strayFiles 7) ∧
      word c'.ram 265 = pointer (codeStart strayFiles 7) ∧ word c'.ram 266 = -1 := by
  have hK := hparts.implements himage
  obtain ⟨c₁, hreach₁, hpc₁, hstack₁, hthat₁, hscratch₁, hbase₁, hpointer₁, hvalue₁, hslot₁⟩ :=
    returns_stray hparts himage hcode h
  obtain ⟨b, c₂, hstatic, hreach₂, hpc₂, hram₂⟩ := hK.popStatic (by decide)
    (getElem?_stray hcode 7) hpc₁ hstack₁ (by decide) (by decide)
  rw [static_stray hparts himage hstatic] at hram₂
  have hwords₂ : word c₂.ram 0 = pointer 262 ∧ word c₂.ram 4 = 0 := by
    simp (disch := decide) only [hram₂, popped, word_put_of_ne, word_put_self, hthat₁, and_self]
  obtain ⟨c₃, hreach₃, hpc₃, hram₃⟩ := hK.popBased (a := 0) (getElem?_stray hcode 8) hpc₂ hwords₂.1
    (by decide) (by decide) (by rw [address_that, hwords₂.2]; rfl) (by decide)
  have hwords₃ : word c₃.ram 0 = pointer 265 ∧ word c₃.ram 4 = 0 := by
    simp (disch := decide) only [hram₃, hram₂, popped, word_put_of_ne, word_put_self,
      Nat.reduceSub, hthat₁, hpointer₁, and_self]
  obtain ⟨c₄, hreach₄, hpc₄, hram₄⟩ := hK.pushBased (a := 14) (getElem?_stray hcode 9) hpc₃
    hwords₃.1 (by decide) (by decide) (by rw [address_that, hwords₃.2]; rfl) (by decide)
  have hwords₄ : word c₄.ram 0 = pointer 266 ∧ word c₄.ram 4 = 0 := by
    simp (disch := decide) only [hram₄, pushed, word_put_of_ne, word_put_self, Nat.reduceAdd,
      hwords₃, and_self]
  obtain ⟨c₅, hreach₅, hpc₅, hram₅⟩ := hK.pushBased (a := 16) (getElem?_stray hcode 10) hpc₄
    hwords₄.1 (by decide) (by decide) (by rw [address_that, hwords₄.2]; rfl) (by decide)
  refine ⟨c₅, (((hreach₁.trans hreach₂).trans hreach₃).trans hreach₄).trans hreach₅, hpc₅, ?_⟩
  simp (disch := decide) only [hram₅, hram₄, hram₃, hram₂, pushed, popped, word_put_of_ne,
    word_put_self, Nat.reduceSub, hscratch₁, hvalue₁, hbase₁, hslot₁, and_self]

/-- The loop is entered with the memory that it is found with at any later time. -/
theorem ram_of_visits (hparts : Parts strayFiles p image d) (himage : Image strayFiles p image)
    (hcode : p.instructions.toList = strayCode) {k k' : Nat} {c c' : Cpu}
    (hrun : Cpu.run image.words k {} = some c) (hrun' : Cpu.run image.words k' {} = some c')
    (hpc : c.pc = codeStart strayFiles 11) (hpc' : c'.pc = codeStart strayFiles 11) :
    c.ram = c'.ram := by
  obtain ⟨block, htranslates, hloaded, -⟩ :=
    (hparts.implements himage).block 12 _ _ (getElem?_stray hcode 12)
  cases htranslates with
  | jump htarget =>
      have hstart : codeStart strayFiles 12 = codeStart strayFiles 11 := by decide +kernel
      simp only [imageLayout, hstart] at hloaded htarget
      obtain ⟨hload, hback, -⟩ := hloaded
      have hlater {k k' : Nat} {c c' : Cpu} (hle : k ≤ k')
          (hrun : Cpu.run image.words k {} = some c) (hrun' : Cpu.run image.words k' {} = some c')
          (hpc : c.pc = codeStart strayFiles 11) : c'.ram = c.ram := by
        obtain ⟨more, rfl⟩ := Nat.exists_eq_add_of_le hle
        rw [run_add, hrun] at hrun'
        exact ram_of_loop hload hback htarget (.inl hpc) hrun'
      rcases le_total k k' with hle | hle
      · exact (hlater hle hrun hrun' hpc).symm
      · exact hlater hle hrun' hrun hpc'

end Stray

/-! ## Mirrored runs -/

/-- A disciplined run is mirrored by the processor, from address zero on empty memory, until
`Sys.init` returns to the bootstrap. -/
theorem disciplinedRun_mirrored {files : List SourceFile} {p : Program} {image : Assembly.Program}
    {n : Nat} {states : Nat → State} (himage : Image files p image)
    (hrun : DisciplinedRun .shared p n states) :
    ∃ clock : Nat → Nat, Monotone clock ∧
      (∀ i ≤ n, ∃ c, Cpu.run image.words (clock i) {} = some c ∧
        Mirrors files image (states i) c) ∧
      ∀ value s', step p (states n) = .ok (some value) s' → (states n).HasOperands 1 →
        ∃ cycles c, clock n ≤ cycles ∧ Cpu.run image.words cycles {} = some c ∧
          c.pc = image.symbols.address bootstrapReturn ∧ word c.ram 0 = 257 ∧
            word c.ram 256 = value ∧ (∀ a, a ≤ 12 → word c.ram a = word s'.ram a) ∧
              (∀ a, 2048 ≤ a → word c.ram a = word s'.ram a) ∧
                ∀ name a, StaticOf files name a →
                  word c.ram (image.symbols.address name) = word s'.ram a := by
  obtain ⟨d, hparts, clock, hmono, hclock⟩ := exists_simulation himage hrun
  have hK := hparts.implements himage
  refine ⟨clock, hmono, fun i hi => ?_, fun value s' hstep hoperand => ?_⟩
  · obtain ⟨c, f, fs, sp, hcycles, hsim⟩ := hclock i hi
    exact ⟨c, hcycles, hsim.mirrors⟩
  · obtain ⟨c, f, fs, sp, hcycles, hsim⟩ := hclock n (le_refl n)
    obtain ⟨c', ⟨more, hmore⟩, hpc, hagree, hstack, hvalue⟩ := hsim.finish hK hstep hoperand
    refine ⟨clock n + more, c', Nat.le_add_right _ _, ?_, hpc, ?_, ?_,
      fun a ha => hagree.low a (.inl ha), hagree.heap, ?_⟩
    · rw [run_add, hcycles]
      exact hmore
    · rw [hagree.low 0 (by decide), hstack]
      rfl
    · rw [hagree.stack 256 (by decide) (by decide) (by simp), hvalue]
    · exact fun name a hname => hagree.statics a _ ⟨name, hname, rfl⟩

theorem disciplinedRun_stray_mirrored : ∃ p image, Image strayFiles p image ∧
    DisciplinedRun .shared p 15 strayState ∧ ∃ clock : Nat → Nat, Monotone clock ∧
      ∀ i ≤ 15, ∃ c, Cpu.run image.words (clock i) {} = some c ∧
        Mirrors strayFiles image (strayState i) c := by
  obtain ⟨p, image, himage, hcode, hentry⟩ := image_stray
  have hrun : DisciplinedRun .shared p 15 strayState :=
    disciplinedRun_stray hcode hentry (by decide +kernel)
  obtain ⟨clock, hmono, hclock, -⟩ := disciplinedRun_mirrored himage hrun
  exact ⟨p, image, himage, hrun, clock, hmono, hclock⟩

/-- Under no restriction on the addresses, words below the stack pointer differ whenever the
processor is where the stack machine is: the return address of the open call, that of a call which
has returned, and what was read from a scratch word and among the static variables. -/
theorem exists_words_not_mirrored : ∃ p image, Image strayFiles p image ∧
    DisciplinedRun .any p 18 strayState ∧
    (∃ cycles c, Cpu.run image.words cycles {} = some c ∧
      c.pc = codeStart strayFiles (strayState 18).pc) ∧
    ∀ cycles c, Cpu.run image.words cycles {} = some c →
      c.pc = codeStart strayFiles (strayState 18).pc →
        ∀ a ∈ ([256, 264, 265, 266] : List Nat), a < (strayState 18).stackPointer ∧
          word c.ram a ≠ word (strayState 18).ram a := by
  obtain ⟨p, image, himage, hcode, hentry⟩ := image_stray
  have hrun : DisciplinedRun .shared p 13 strayState :=
    disciplinedRun_stray hcode hentry (by decide +kernel)
  have hat : (strayState 18).pc = 11 := by decide +kernel
  have hstack : (strayState 18).stackPointer = 267 := by
    rw [strayState, Snapshot.stackPointer_state]
    decide +kernel
  have hzero : ∀ a ∈ [256, 264, 265, 266], word (strayState 18).ram a = 0 := by
    rw [strayState, Snapshot.word_state]
    decide +kernel
  obtain ⟨d, hparts, clock, -, hclock⟩ := exists_simulation himage hrun
  obtain ⟨c, f, fs, sp, hcycles, hsim⟩ := hclock 13 (le_refl _)
  obtain ⟨c', ⟨more, hmore⟩, hpc, hbase, hslot, hscratch, hstatic⟩ :=
    reaches_stray hparts himage hcode hsim
  have hvisit : Cpu.run image.words (clock 13 + more) {} = some c' := by
    rw [run_add, hcycles]
    exact hmore
  have hnonzero : ∀ a ∈ [256, 264, 265, 266], word c'.ram a ≠ 0 := by
    have hbottom : pointer (codeStart strayFiles 0) ≠ 0 := by decide +kernel
    have htarget : pointer (codeStart strayFiles 7) ≠ 0 := by decide +kernel
    rw [hparts.address_bootstrapReturn] at hbase
    simp [hbase, hslot, hscratch, hstatic, hbottom, htarget]
  refine ⟨p, image, himage, disciplinedRun_stray hcode hentry (by decide +kernel),
    ⟨_, c', hvisit, by rw [hpc, hat]; rfl⟩, fun cycles other hrun hother a ha => ⟨?_, ?_⟩⟩
  · rw [hstack]
    revert a
    decide
  · rw [hzero a ha, ram_of_visits hparts himage hcode hrun hvisit (hother.trans (by rw [hat])) hpc]
    exact hnonzero a ha

end JackToolchain.Machine
