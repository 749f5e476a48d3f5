import JackToolchain.Proofs.Translation.Symbols

/-!
# Symbols of a built program

The assembly of classes behind the bootstrap: its labels are all different, and everything it
refers to is known.
-/

namespace JackToolchain

open JackToolchain.Assembly JackToolchain.Machine
open JackToolchain.Stack JackToolchain.Stack.Expander
open JackToolchain.Lowering JackToolchain.Syntax JackToolchain.Text JackToolchain.Token

/-! ## Classes as files -/

/-- The commands of a class: functions with different names. -/
structure IsClassFile (c : String) (commands : List Command) : Prop where
  className : IsWord c
  functions : ∃ names codes, commands = codes.flatten ∧ List.Forall₂ (IsFunction c) names codes ∧
    names.Nodup ∧ ∀ f ∈ names, IsWord f

theorem innerCommand_of_lowered {d : Command} (h : Lowered d) : InnerCommand d := by
  cases d with
  | label mark => exact h
  | function name locals => exact h.elim
  | _ => trivial

theorem innerCommand_opening (tree : ClassTree) (s : Subroutine) :
    ∀ d ∈ openingOf tree s, InnerCommand d := by
  unfold openingOf
  cases s.kind <;> simp [InnerCommand]

theorem plain_opening (tree : ClassTree) (s : Subroutine) : ∀ d ∈ openingOf tree s, IsPlain d := by
  unfold openingOf
  cases s.kind <;> simp [IsPlain, targetOf?, labelOf?]

theorem isFunction_block {tree : ClassTree} {s : Subroutine} {labels : Labels}
    {body : List Command} (h : YieldsBlock tree labels s (openingOf tree s) body)
    (htree : tree.Proper) (hs : s.Proper) :
    IsFunction tree.name s.name (blockOf tree s (openingOf tree s) body) := by
  obtain ⟨marks, hmarks⟩ := marked_statements _ _ _ h.body
  have hbody := h.lowered htree hs
  have hjumps := jumpsInto_statements _ _ _ h.body
  have hplain := plain_opening tree s
  refine ⟨s.localCount.toUInt16, openingOf tree s ++ body, rfl, ?_, ?_, ?_⟩
  · rw [List.forall_mem_append]
    exact ⟨innerCommand_opening tree s, fun d hd => innerCommand_of_lowered (hbody d hd)⟩
  · rw [labelsIn_append, labelsIn_plain hplain]
    exact hmarks.nodup_labelsIn
  · rw [jumpsInto_append_iff]
    exact ⟨jumpsInto_of_straight (fun d hd => (hplain d hd).1) _,
      hjumps.mono (List.subset_append_right _ _)⟩

theorem isFunction_blocks {tree : ClassTree} {labels : Labels} {ss : List Subroutine}
    {blocks : List (List Command)} (h : YieldsBlocks tree labels ss blocks) (htree : tree.Proper)
    (hss : ∀ s ∈ ss, s.Proper) :
    List.Forall₂ (fun s block => IsFunction tree.name s.name block) ss blocks := by
  induction h with
  | nil labels => exact .nil
  | cons first others ih =>
      obtain ⟨hs, hss⟩ := List.forall_mem_cons.mp hss
      obtain ⟨rfl, -⟩ := first.opening_eq
      exact .cons (isFunction_block first htree hs) (ih hss)

theorem Compiles.isClassFile {lx : Lexer} {tree : ClassTree} {c : CompiledClass}
    (h : Compiles lx tree c) (hnames : (tree.subroutines.map Subroutine.name).Nodup) :
    IsClassFile c.className c.commands := by
  obtain ⟨blocks, hblocks, hcommands⟩ := yields_of_lowerClass h.lowered
  rw [h.className, hcommands]
  refine ⟨h.proper.name, _, blocks, rfl, ?_, hnames, ?_⟩
  · rw [List.forall₂_map_left_iff]
    exact isFunction_blocks hblocks h.proper h.proper.subroutines
  · intro f hf
    obtain ⟨s, hs, rfl⟩ := List.mem_map.mp hf
    exact (h.proper.subroutines s hs).name

/-! ## Labels of a program -/

theorem isDigit_of_isLetter {c : Char} (h : Rule.isLetter c = true) : isDigit c = false := by
  simp only [Rule.isLetter, Bool.or_eq_true, Bool.and_eq_true, decide_eq_true_eq,
    beq_iff_eq] at h
  rw [isDigit, Bool.and_eq_false_iff, decide_eq_false_iff_not, decide_eq_false_iff_not]
  simp only [Char.le_def, UInt32.le_iff_toNat_le] at h ⊢
  rcases h with (h | h) | rfl
  · exact .inr (Nat.not_le.mpr (Nat.lt_of_lt_of_le (by decide) h.1))
  · exact .inr (Nat.not_le.mpr (Nat.lt_of_lt_of_le (by decide) h.1))
  · decide

/-- The symbols of a class. -/
structure OfClass (c : String) (form : Form) : Prop where
  className : IsWord c
  belongs : ∃ names t t', Belongs c names t t' form ∧ ∀ f ∈ names, IsWord f

namespace OfClass

variable {c c' : String} {form : Form}

theorem head (h : OfClass c form) : form.words.head? = some c := by
  obtain ⟨names, t, t', hbelongs, -⟩ := h.belongs
  cases hbelongs <;> rfl

theorem unique (h : OfClass c form) (h' : OfClass c' form) : c = c' :=
  Option.some.inj (h.head.symm.trans h'.head)

theorem proper (h : OfClass c form) : form.Proper := by
  have hc := isPart_of_isWord h.className
  obtain ⟨names, t, t', hbelongs, hnames⟩ := h.belongs
  cases hbelongs with
  | entry hf => exact ⟨by simp, by simp [hc, isPart_of_isWord (hnames _ hf)], by simp⟩
  | branch hf m =>
      refine ⟨by simp, by simp [hc, isPart_of_isWord (hnames _ hf)], ?_⟩
      rintro _ ⟨⟩
      exact ⟨m, rfl⟩
  | call hf hlow hhigh =>
      refine ⟨by simp, by simp [hc, isPart_of_isWord (hnames _ hf)], ?_⟩
      rintro _ ⟨⟩
      trivial
  | comparison hword hlow hhigh =>
      refine ⟨by simp, by simp [hc, hword], ?_⟩
      rintro _ ⟨⟩
      trivial

theorem dot_mem (h : OfClass c form) : '.' ∈ form.text.toList := by
  obtain ⟨names, t, t', hbelongs, -⟩ := h.belongs
  cases hbelongs <;> exact Form.dot_mem_text _

/-- Functions have names that are no numbers. -/
theorem ne_static (h : OfClass c form) (file : String) (i : Nat) :
    form ≠ ⟨[file, toString i], none⟩ := by
  rintro rfl
  obtain ⟨names, t, t', hbelongs, hnames⟩ := h.belongs
  cases hbelongs with
  | entry hf =>
      obtain ⟨d, rest, hname, hd, -⟩ := exists_of_isWord (hnames _ hf)
      have hdigit : d ∈ Nat.toDigits 10 i := by
        rw [← toList_toString, hname]
        exact List.mem_cons_self
      have hletter := isDigit_of_isLetter hd
      rw [isDigit_of_mem_toDigits hdigit] at hletter
      cases hletter

/-- The call of the bootstrap is in no class: it names the class once. -/
theorem ne_bootstrap (h : OfClass c form) :
    form ≠ ⟨["Sys", "bootstrap"], some (.call 0)⟩ := by
  obtain ⟨names, t, t', hbelongs, -⟩ := h.belongs
  have hlength : ∀ number, form.suffix = some (.call number) → form.words.length = 3 := by
    cases hbelongs <;> simp
  rintro rfl
  cases hlength 0 rfl

end OfClass

theorem IsClassFile.labelled {c : String} {commands : List Command}
    {blocks : List (List Assembly.Instruction)} (h : IsClassFile c commands)
    (hblocks : ({ file := c } : Expander).Expanded commands blocks) :
    ∃ forms : List Form, labelsOf blocks.flatten = forms.map Form.text ∧ forms.Nodup ∧
      ∀ form ∈ forms, OfClass c form := by
  obtain ⟨names, codes, rfl, hcodes, hnodup, hnames⟩ := h.functions
  obtain ⟨forms, hforms⟩ := hblocks.labelled_functions rfl hcodes hnodup
  exact ⟨forms, hforms.labels, hforms.nodup, fun form hform =>
    ⟨h.className, names, _, _, hforms.belongs form hform, hnames⟩⟩

/-- Classes with different names have different labels. -/
theorem labelled_files {files : List SourceFile}
    {blocks : List (List (List Assembly.Instruction))}
    (hfiles : ∀ file ∈ files, IsClassFile file.1 file.2) (hnames : (files.map Prod.fst).Nodup)
    (h : List.Forall₂ (fun file blocks => ({ file := file.1 } : Expander).Expanded file.2 blocks)
      files blocks) :
    ∃ forms : List Form, labelsOf blocks.flatten.flatten = forms.map Form.text ∧ forms.Nodup ∧
      ∀ form ∈ forms, ∃ file ∈ files, OfClass file.1 form := by
  induction h with
  | nil => exact ⟨[], rfl, .nil, by simp⟩
  | @cons file fileBlocks files blocks hfile hrest ih =>
      obtain ⟨hclass, hfiles⟩ := List.forall_mem_cons.mp hfiles
      rw [List.map_cons, List.nodup_cons] at hnames
      obtain ⟨fs, hlabels, hnodup, hof⟩ := hclass.labelled hfile
      obtain ⟨gs, hlabels', hnodup', hof'⟩ := ih hfiles hnames.2
      refine ⟨fs ++ gs, ?_, ?_, ?_⟩
      · rw [List.flatten_cons, List.flatten_append, labelsOf_append, hlabels, hlabels',
          List.map_append]
      · rw [List.nodup_append]
        refine ⟨hnodup, hnodup', ?_⟩
        rintro form hform _ hother rfl
        obtain ⟨other, hmem, hform'⟩ := hof' form hother
        have hsame : file.1 = other.1 := (hof form hform).unique hform'
        exact hnames.1 (hsame ▸ List.mem_map_of_mem hmem)
      · intro form hform
        rcases List.mem_append.mp hform with hform | hform
        · exact ⟨file, List.mem_cons_self, hof form hform⟩
        · obtain ⟨other, hmem, hform'⟩ := hof' form hform
          exact ⟨other, List.mem_cons_of_mem _ hmem, hform'⟩

/-! ## Symbols of a program -/

/-- What a symbol may be: known to every program, a label that stands in one place, a static
variable of the file, or a function that no file has. -/
inductive Reference (files : List SourceFile) (statics called : String → Prop) (name : String) :
    Prop
  | predefined (h : ({} : Symbols).get? name ≠ none)
  | label (h : (labelsOf (instructionsOf files)).count name = 1)
  | static (h : statics name)
  | missing (h : called name) (hnone : ∀ file ∈ files, ∀ locals, .function name locals ∉ file.2)

/-- No symbol of the assembly of files stands for two things. -/
structure SymbolsApart (files : List SourceFile) : Prop where
  labels : (labelsOf (instructionsOf files)).Nodup
  predefined : ∀ name ∈ labelsOf (instructionsOf files), ({} : Symbols).get? name = none
  statics : ∀ name ∈ labelsOf (instructionsOf files), ∀ file ∈ files, ∀ i,
    name ≠ staticName file.1 i
  bootstrap : Refers (Reference files (fun _ => False) (· = "Sys.init")) bootstrapBlock
  files : ∀ file ∈ files, Refers
    (Reference files (fun name => ∃ i, name = staticName file.1 i)
      fun name => ∃ count, .call name count ∈ file.2)
    (({ file := file.1 } : Expander).blocksFrom file.2).flatten

theorem text_bootstrap :
    (Form.mk ["Sys", "bootstrap"] (some (.call 0))).text = bootstrapReturn := by
  decide

section Files

variable {files : List SourceFile} {blocks : List (List (List Assembly.Instruction))}

theorem mem_instructionsOf {file : SourceFile} (hfile : file ∈ files) {i : Assembly.Instruction}
    (h : i ∈ (({ file := file.1 } : Expander).blocksFrom file.2).flatten) :
    i ∈ instructionsOf files := by
  obtain ⟨block, hblock, hi⟩ := List.mem_flatten.mp h
  refine List.mem_append_right _ (List.mem_flatten.mpr ⟨block, ?_, hi⟩)
  exact List.mem_flatMap.mpr ⟨file, hfile, hblock⟩

/-- The labels of a program in their forms. -/
theorem exists_forms (hfiles : ∀ file ∈ files, IsClassFile file.1 file.2)
    (hnames : (files.map Prod.fst).Nodup)
    (h : List.Forall₂ (fun file blocks => ({ file := file.1 } : Expander).Expanded file.2 blocks)
      files blocks) :
    ∃ forms : List Form, labelsOf (instructionsOf files) = forms.map Form.text ∧ forms.Nodup ∧
      ∀ form ∈ forms, form.Proper ∧ '.' ∈ form.text.toList ∧
        ∀ (file : String) (i : Nat), form ≠ ⟨[file, toString i], none⟩ := by
  obtain ⟨forms, hlabels, hnodup, hof⟩ := labelled_files hfiles hnames h
  let first : Form := ⟨["Sys", "bootstrap"], some (.call 0)⟩
  refine ⟨first :: forms, ?_, ?_, List.forall_mem_cons.mpr ⟨⟨?_, ?_, by simp [first]⟩, ?_⟩⟩
  · rw [instructionsOf, ← blocksOf_eq h, labelsOf_append, hlabels, List.map_cons, text_bootstrap]
    rfl
  · refine List.nodup_cons.mpr ⟨fun hmem => ?_, hnodup⟩
    obtain ⟨file, -, hform⟩ := hof first hmem
    exact hform.ne_bootstrap rfl
  · refine ⟨by simp [first], List.forall_mem_cons.mpr ⟨by decide, ?_⟩, ?_⟩
    · exact List.forall_mem_singleton.mpr (by decide)
    · rintro _ ⟨⟩
      trivial
  · exact Form.dot_mem_text _
  · intro form hform
    obtain ⟨file, -, hform⟩ := hof form hform
    exact ⟨hform.proper, hform.dot_mem, hform.ne_static⟩

theorem SymbolsApart.of_classes (hfiles : ∀ file ∈ files, IsClassFile file.1 file.2)
    (hnames : (files.map Prod.fst).Nodup)
    (h : List.Forall₂ (fun file blocks => ({ file := file.1 } : Expander).Expanded file.2 blocks)
      files blocks) : SymbolsApart files := by
  obtain ⟨forms, hlabels, hnodup, hforms⟩ := exists_forms hfiles hnames h
  have hapart : (labelsOf (instructionsOf files)).Nodup := by
    rw [hlabels]
    exact hnodup.map_on fun a ha b hb => Form.text_inj (hforms a ha).1 (hforms b hb).1
  have hlabel {statics called : String → Prop} {name : String}
      (hname : .label name ∈ instructionsOf files) : Reference files statics called name :=
    .label (List.count_eq_one_of_mem hapart (mem_labelsOf.mpr hname))
  have hregisters {statics called : String → Prop} :
      ∀ r ∈ usedRegisters, Reference files statics called r :=
    fun r hr => .predefined (knows_registers r hr)
  -- A function that is called is a label of the file that has it.
  have hcalled {statics called : String → Prop} {name : String} (hname : called name) :
      Reference files statics called name := by
    by_cases hsome : ∃ file ∈ files, ∃ locals, .function name locals ∈ file.2
    · obtain ⟨file, hfile, locals, hfunction⟩ := hsome
      obtain ⟨bs, -, hbs⟩ := exists_right_of_forall₂ h hfile
      have hentry := hbs.entry_mem hfunction
      rw [hbs.eq_blocksFrom] at hentry
      exact hlabel (mem_instructionsOf hfile hentry)
    · exact .missing hname fun file hfile locals hfunction =>
        hsome ⟨file, hfile, locals, hfunction⟩
  refine ⟨hapart, fun name hname => ?_, fun name hname file hfile i heq => ?_, ?_,
    fun file hfile => ?_⟩
  · rw [hlabels] at hname
    obtain ⟨form, hform, rfl⟩ := List.mem_map.mp hname
    exact Symbols.get?_eq_none_of_dot (hforms form hform).2.1
  · rw [hlabels] at hname
    obtain ⟨form, hform, rfl⟩ := List.mem_map.mp hname
    have hstatic : (Form.mk [file.1, toString i] none).Proper := by
      have hpart := isPart_of_isWord (hfiles file hfile).className
      refine ⟨by simp, List.forall_mem_cons.mpr ⟨hpart, ?_⟩, by simp⟩
      exact List.forall_mem_singleton.mpr (isPart_toString i)
    rw [← Form.text_static] at heq
    exact (hforms form hform).2.2 file.1 i (Form.text_inj (hforms form hform).1 hstatic heq)
  · have hreturn : .label bootstrapReturn ∈ instructionsOf files :=
      List.mem_append_left _ (by simp [bootstrapBlock, callFunction, bootstrapReturn])
    have hbase : ∀ r ∈ usedRegisters, Reference files (fun _ => False) (· = "Sys.init") r :=
      hregisters
    have hcall := refers_callFunction hbase 0 (hcalled rfl) (hlabel hreturn)
    simp only [bootstrapBlock, refers_append, refers_constant, refers_assign, refers_symbol,
      refers_nil]
    exact ⟨⟨hbase "SP" (by decide), trivial⟩, hcall⟩
  · obtain ⟨bs, -, hbs⟩ := exists_right_of_forall₂ h hfile
    obtain ⟨names, codes, hcommands, hcodes, -⟩ := (hfiles file hfile).functions
    rw [← hbs.eq_blocksFrom]
    have hexpanded := hcommands ▸ hbs
    refine hexpanded.refers_functions rfl hcodes hregisters (fun i => .static ⟨i, rfl⟩) ?_ ?_
    · intro name hname
      rw [hbs.eq_blocksFrom] at hname
      exact hlabel (mem_instructionsOf hfile hname)
    · intro name count hcall
      exact hcalled ⟨count, hcommands ▸ hcall⟩

end Files

/-! ## Compiled classes -/

theorem exists_expand {t : Expander} {command : Command} (hfunction : t.function ≠ none)
    (h : command.violation? = none) : ∃ block, t.expand command = .ok (block, t.after command) := by
  obtain ⟨function, hfunction⟩ := Option.ne_none_iff_exists'.mp hfunction
  unfold expand
  rw [h]
  cases command with
  | arithmetic op => cases op <;> exact ⟨_, rfl⟩
  | label name | goto name | ifGoto name =>
      simp only [branchLabel, hfunction]
      exact ⟨_, rfl⟩
  | push segment index | pop segment index | function name locals | call name arguments
  | «return» => exact ⟨_, rfl⟩

theorem function_after {t : Expander} (h : t.function ≠ none) (command : Command) :
    (t.after command).function ≠ none := by
  cases command with
  | arithmetic op => cases op <;> exact h
  | function name locals => simp [after]
  | _ => exact h

theorem exists_expandFrom {t : Expander} {code : List Command} (hfunction : t.function ≠ none)
    (h : ∀ d ∈ code, d.violation? = none) (text : String) :
    ∃ out, t.expandFrom text code = .ok out := by
  induction code generalizing t text with
  | nil => exact ⟨text, rfl⟩
  | cons command code ih =>
      obtain ⟨hcommand, hcode⟩ := List.forall_mem_cons.mp h
      obtain ⟨block, hblock⟩ := exists_expand hfunction hcommand
      rw [expandFrom, hblock]
      exact ih (function_after hfunction command) hcode _

theorem IsClassFile.exists_expandFile {c : String} {commands : List Command}
    (h : IsClassFile c commands) (hcommands : ∀ d ∈ commands, d.violation? = none) :
    ∃ text, expandFile c commands = .ok text := by
  obtain ⟨names, codes, rfl, hcodes, -⟩ := h.functions
  cases hcodes with
  | nil => exact ⟨_, rfl⟩
  | cons hcode hcodes =>
      obtain ⟨locals, inner, rfl, -⟩ := hcode.parts
      exact exists_expandFrom (Option.some_ne_none _)
        (fun d hd => hcommands d (List.mem_cons_of_mem _ hd)) _

/-- The files of commands of classes, each under the name of its class. -/
def filesOf (classes : List CompiledClass) : List SourceFile :=
  classes.map fun c => (c.className, c.commands)

theorem Compiles.wellNamed {lx : Lexer} {tree : ClassTree} {c : CompiledClass}
    (h : Compiles lx tree c) : ∀ d ∈ c.commands, d.WellNamed := by
  intro d hd
  rcases h.wellFormed_commands d hd with hd | ⟨rfl, -⟩
  · exact hd.named
  · trivial

/-- In the assembly of compiled classes behind the bootstrap, no symbol stands for two things, so
its labels are bound unless there are too many words, and no static variable is a label. Classes
that can be read back have an assembly. -/
theorem symbols_apart_of_compiled {classes : List CompiledClass}
    (hcompiled : ∀ c ∈ classes, ∃ name lx tree, (Compilation.ofLexer name lx).result = .ok c ∧
      Compiles lx tree c ∧ (tree.subroutines.map Subroutine.name).Nodup)
    (hnames : (classes.map CompiledClass.className).Nodup) :
    (∀ c ∈ classes, Stack.read c.text = .ok c.commands →
      ∃ text, expandFile c.className c.commands = .ok text) ∧
    ∀ texts, (filesOf classes).mapM (fun file => expandFile file.1 file.2) = .ok texts →
      Listing (bootstrap ++ String.join texts).toList (instructionsOf (filesOf classes)) ∧
      SymbolsApart (filesOf classes) ∧
      ∀ source, Assembly.read (bootstrap ++ String.join texts) = .ok source →
        source.map SourceLine.instruction = instructionsOf (filesOf classes) ∧
        (∀ e, bindLabels {} 0 0 source = .error e → ∃ count, e = .programTooLarge count) ∧
        ∀ symbols count, bindLabels {} 0 0 source = .ok (symbols, count) →
          ∀ c ∈ classes, ∀ i, symbols.get? (staticName c.className i) = none := by
  have hclass : ∀ c ∈ classes, IsClassFile c.className c.commands := by
    intro c hc
    obtain ⟨name, lx, tree, -, htree, hnodup⟩ := hcompiled c hc
    exact htree.isClassFile hnodup
  have hfiles : ∀ file ∈ filesOf classes, IsClassFile file.1 file.2 := by
    intro file hfile
    obtain ⟨c, hc, rfl⟩ := List.mem_map.mp hfile
    exact hclass c hc
  have hwritten : ∀ file ∈ filesOf classes,
      isName file.1.toList = true ∧ ∀ d ∈ file.2, d.WellNamed := by
    intro file hfile
    refine ⟨(hfiles file hfile).className.isName, ?_⟩
    obtain ⟨c, hc, rfl⟩ := List.mem_map.mp hfile
    obtain ⟨name, lx, tree, -, htree, -⟩ := hcompiled c hc
    exact htree.wellNamed
  have hdistinct : ((filesOf classes).map Prod.fst).Nodup := by
    rw [filesOf, List.map_map]
    exact hnames
  refine ⟨fun c hc hread => ?_, fun texts htexts => ?_⟩
  · exact (hclass c hc).exists_expandFile fun d hd => (wellFormed_of_read hread d hd).access
  · obtain ⟨blocks, hblocks, hlisting⟩ := listing_of_files htexts hwritten
    have hapart := SymbolsApart.of_classes hfiles hdistinct hblocks
    have hwhole : Listing (bootstrap ++ String.join texts).toList
        (instructionsOf (filesOf classes)) := by
      rw [String.toList_append, instructionsOf, ← blocksOf_eq hblocks]
      exact listing_bootstrap.append hlisting
    refine ⟨hwhole, hapart, fun source hread => ?_⟩
    have hinstructions := instructions_of_read hwhole hread
    have hfresh : ∀ name, .label name ∈ source.map SourceLine.instruction →
        ({} : Symbols).get? name = none := fun name hname =>
      hapart.predefined name (mem_labelsOf.mpr (hinstructions ▸ hname))
    refine ⟨hinstructions, fun e he => ?_, fun symbols count hbind c hc i => ?_⟩
    · exact bindLabels_error hfresh (hinstructions ▸ hapart.labels) he
    · by_contra hbound
      have hnew : ({} : Symbols).get? (staticName c.className i) = none :=
        Symbols.get?_eq_none_of_dot (by simp [toList_staticName])
      have hlabel := (bindLabels_spec hbind).2.2.1 _ hbound hnew
      rw [hinstructions] at hlabel
      exact hapart.statics _ (mem_labelsOf.mpr hlabel) _ (List.mem_map_of_mem hc) i rfl

/-- A class with a loop, a conditional, a static variable of its own and calls of `Counter`. -/
def mainSource : List Char :=
  ["class Main \x7b static int total;\n",
    "  function int main() \x7b\n    var Counter c; let c = Counter.new(3);\n",
    "    while (c.step(1)) { let total = total + 2; }\n",
    "    if (total = 4) { do Output.printInt(total); }\n",
    "    return total;\n  \x7d\n\x7d\n"].flatMap String.toList

theorem symbols_apart_of_counter : ∃ counter main texts,
    (Compilation.ofLexer "Counter.jack" (.ofText Lexer.counterSource)).result = .ok counter ∧
    (Compilation.ofLexer "Main.jack" (.ofText mainSource)).result = .ok main ∧
    (filesOf [counter, main]).mapM (fun file => expandFile file.1 file.2) = .ok texts ∧
    Listing (bootstrap ++ String.join texts).toList (instructionsOf (filesOf [counter, main])) ∧
    SymbolsApart (filesOf [counter, main]) := by
  have hclass (source : List Char) (file name : String)
      (h : ∃ part ∈ Compilation.compiled? 200 (.ofText source), part.1.name = name ∧
        (part.1.subroutines.map Subroutine.name).Nodup ∧ part.1.fieldCount ≤ 32767) :
      ∃ c, (Compilation.ofLexer file (.ofText source)).result = .ok c ∧ c.className = name ∧
        Stack.read c.text = .ok c.commands ∧
          ∃ name lx tree, (Compilation.ofLexer name lx).result = .ok c ∧ Compiles lx tree c ∧
            (tree.subroutines.map Subroutine.name).Nodup := by
    obtain ⟨⟨tree, commands⟩, hpart, hname, hnodup, hfields⟩ := h
    obtain ⟨c, hc, htree, -⟩ := Compilation.exists_compiles file rfl hpart
    exact ⟨c, hc, htree.className.trans hname, htree.read_text fun _ _ _ => hfields, file, _, tree,
      hc, htree, hnodup⟩
  obtain ⟨counter, hcounter, hname, hread, hcompiled⟩ :=
    hclass Lexer.counterSource "Counter.jack" "Counter" (by decide +kernel)
  obtain ⟨main, hmain, hname', hread', hcompiled'⟩ :=
    hclass mainSource "Main.jack" "Main" (by decide +kernel)
  have hnames : ([counter, main].map CompiledClass.className).Nodup := by
    simp [hname, hname']
  obtain ⟨hexpand, hapart⟩ := @symbols_apart_of_compiled [counter, main]
    (List.forall_mem_cons.mpr ⟨hcompiled, List.forall_mem_singleton.mpr hcompiled'⟩) hnames
  obtain ⟨text, htext⟩ := hexpand counter (by simp) hread
  obtain ⟨text', htext'⟩ := hexpand main (by simp) hread'
  have htexts : (filesOf [counter, main]).mapM (fun file => expandFile file.1 file.2) =
      .ok [text, text'] := by
    simp [filesOf, htext, htext', bind, Except.bind, pure, Except.pure]
  obtain ⟨hlisting, hsymbols, -⟩ := hapart _ htexts
  exact ⟨counter, main, _, hcounter, hmain, htexts, hlisting, hsymbols⟩

end JackToolchain
