import JackToolchain.Proofs.Assembly.Totality
import JackToolchain.Proofs.Lists
import JackToolchain.Proofs.Translation.Placement
import JackToolchain.Proofs.Translation.References

/-!
# Images

The assembly of a linked program, bootstrap in front, with the blocks of all commands in their
places.
-/

namespace JackToolchain.Machine

open JackToolchain.Assembly JackToolchain.Assembly.Instruction JackToolchain.Text
open JackToolchain.Stack JackToolchain.Stack.Expander

/-- A static variable that some command accesses, with its name in assembly and its address. -/
def StaticOf (files : List SourceFile) (name : String) (a : Nat) : Prop :=
  ∃ row ∈ rows staticBase files, ∃ index : UInt16,
    (row.command = .push .static index ∨ row.command = .pop .static index) ∧
      name = staticName row.file index.toNat ∧ a = row.base + index.toNat

/-- `image` is the assembled program of files that link to `p`. -/
structure Image (files : List SourceFile) (p : Program) (image : Assembly.Program) : Prop where
  parsed : ∀ file ∈ files, isName file.1.toList = true ∧ ∃ text, Stack.read text = .ok file.2
  distinct : (files.map Prod.fst).Nodup
  linked : Program.link files = .ok p
  calls : ∀ file ∈ files, ∀ name count, .call name count ∈ file.2 → p.hasFunction name = true
  assembled : ∃ texts source, files.mapM (fun file => expandFile file.1 file.2) = .ok texts ∧
    Assembly.read (bootstrap ++ String.join texts) = .ok source ∧ ofLines source = .ok image ∧
      ∀ name a, StaticOf files name a → .label name ∉ source.map SourceLine.instruction
  small : ∀ name a, image.symbols.get? name = some a → a.toNat ≤ 32767

/-- The blocks of all commands. -/
def blocksOf (files : List SourceFile) : List (List Assembly.Instruction) :=
  files.flatMap fun file => ({ file := file.1 } : Expander).blocksFrom file.2

/-- Where the block of a command starts. -/
def codeStart (files : List SourceFile) (i : Nat) : Nat :=
  wordCount bootstrapBlock + wordCount ((blocksOf files).take i).flatten

/-- The label behind the call of the bootstrap. -/
def bootstrapReturn : String := "Sys.bootstrap$ret.0"

/-- Where an image has its symbols, its blocks and its static variables. -/
def imageLayout (files : List SourceFile) (image : Assembly.Program) : Layout where
  addresses := image.symbols.address
  codeStart := codeStart files
  statics a b := ∃ name, StaticOf files name a ∧ b = image.symbols.address name
  bottom := image.symbols.address bootstrapReturn

/-- All the instructions of an image. -/
def instructionsOf (files : List SourceFile) : List Assembly.Instruction :=
  bootstrapBlock ++ (blocksOf files).flatten

/-- What linking and assembling leave of an image. -/
structure Parts (files : List SourceFile) (p : Program) (image : Assembly.Program)
    (d : Directory) : Prop where
  entry : p.hasFunction "Sys.init" = true
  functions : p.functions = d.functions
  locates : d.Locates (rows staticBase files)
  resolves : List.Forall₂ (Resolves d) (rows staticBase files) p.instructions.toList
  total : staticBase + staticTotal files ≤ staticEnd
  expands : List.Forall₂ Expands (rows staticBase files) (blocksOf files)
  loaded : Loaded image.symbols.address image.words 0 (instructionsOf files)
  known : Symbols.Extends {} image.symbols
  homes : ∀ pool : List String, pool.length < 65535 - variableBase →
    Refers (fun name => .label name ∈ instructionsOf files ∨ ({} : Symbols).get? name ≠ none ∨
      name ∈ pool) (instructionsOf files) → ∃ names, names.Nodup ∧ names ⊆ pool ∧
        ∀ name, .symbol name ∈ instructionsOf files → .label name ∉ instructionsOf files →
          ({} : Symbols).get? name = none → name ∈ names ∧
            image.symbols.get? name = some (variableBase + names.idxOf name).toUInt16
  statics : ∀ name a, StaticOf files name a → .label name ∉ instructionsOf files

section Images

variable {files : List SourceFile} {p : Program} {image : Assembly.Program} {d : Directory}

theorem blocksOf_eq {blocks : List (List (List Assembly.Instruction))}
    (h : List.Forall₂ (fun file blocks => ({ file := file.1 } : Expander).Expanded file.2 blocks)
      files blocks) : blocks.flatten = blocksOf files := by
  induction h with
  | nil => rfl
  | cons hfile rest ih =>
      rw [List.flatten_cons, ih, hfile.eq_blocksFrom]
      simp [blocksOf]

theorem mem_homes_of_staticOf (htotal : staticBase + staticTotal files ≤ staticEnd) {name : String}
    {a : Nat} (hname : StaticOf files name a) : (name, a) ∈ staticHomes staticBase files := by
  obtain ⟨row, hrow, index, haccess, rfl, rfl⟩ := hname
  refine mem_staticHomes hrow ?_
  have hcount : staticsOf row.command = min (index.toNat + 1) 65535 := by
    rcases haccess with heq | heq
    · rw [heq]
      rfl
    · rw [heq]
      rfl
  obtain ⟨file, hfile, hcommand⟩ := mem_commands hrow
  have hle := staticsOf_le_staticCount hcommand
  have hsum := staticCount_le_staticTotal hfile
  unfold staticBase staticEnd at htotal
  omega

/-- Files that can be translated have an image if their symbols are apart and the assembly leaves
room for the variables. -/
theorem exists_image {texts : List String}
    (hparsed : ∀ file ∈ files, isName file.1.toList = true ∧ ∃ text, Stack.read text = .ok file.2)
    (hdistinct : (files.map Prod.fst).Nodup) (hlinked : Program.link files = .ok p)
    (hcalls : ∀ file ∈ files, ∀ name count, .call name count ∈ file.2 → p.hasFunction name = true)
    (htexts : files.mapM (fun file => expandFile file.1 file.2) = .ok texts)
    (hconstants : ∀ value ∈ constantsOf (instructionsOf files), value.toNat < 32768)
    (hlabels : ∀ name ∈ labelsOf (instructionsOf files), ({} : Symbols).get? name = none)
    (hnodup : (labelsOf (instructionsOf files)).Nodup)
    (hstatics : ∀ home ∈ staticHomes staticBase files, home.1 ∉ labelsOf (instructionsOf files))
    (hroom : variableBase + (instructionsOf files).length < 32768) :
    ∃ image, Image files p image := by
  obtain ⟨-, -, -, -, htotal⟩ := Program.link_spec hlinked
  obtain ⟨blocks, hblocks, hlisting⟩ := listing_of_files htexts fun file hfile => by
    obtain ⟨hname, text, htext⟩ := hparsed file hfile
    exact ⟨hname, wellNamed_of_read htext⟩
  rw [blocksOf_eq hblocks] at hlisting
  have hwhole := listing_bootstrap.append hlisting
  rw [← String.toList_append] at hwhole
  obtain ⟨source, image, hread, hsource, hassemble, hsmall⟩ := assemble_of_listing hwhole
    (fun value hvalue => hconstants value (mem_constantsOf.mpr hvalue)) hlabels hnodup hroom
  refine ⟨image, hparsed, hdistinct, hlinked, hcalls, ⟨texts, source, htexts, hread, hassemble,
    fun name a hname hlabel => ?_⟩, fun name a hget => Nat.le_of_lt_succ (hsmall name a hget)⟩
  rw [hsource] at hlabel
  exact hstatics _ (mem_homes_of_staticOf htotal hname) (mem_labelsOf.mpr hlabel)

theorem Image.parts (h : Image files p image) (hentry : p.hasFunction "Sys.init" = true) :
    ∃ d, Parts files p image d := by
  obtain ⟨texts, source, htexts, hread, hassemble, hstatics⟩ := h.assembled
  obtain ⟨d, hnoted, hfunctions, hresolves, htotal⟩ := Program.link_spec h.linked
  have hlocates := Directory.locates_nil.addRows hnoted
  obtain ⟨blocks, hblocks, hlisting⟩ := listing_of_files htexts fun file hfile => by
    obtain ⟨hname, text, htext⟩ := h.parsed file hfile
    exact ⟨hname, wellNamed_of_read htext⟩
  have hexpands := expands_of_files hblocks staticBase
  rw [blocksOf_eq hblocks] at hexpands hlisting
  have hwhole := listing_bootstrap.append hlisting
  rw [← String.toList_append] at hwhole
  have hprogram : assemble (bootstrap ++ String.join texts) = .ok image := by
    rw [assemble, hread]
    exact hassemble
  have hinstructions : source.map SourceLine.instruction = instructionsOf files :=
    instructions_of_read hwhole hread
  refine ⟨d, hentry, hfunctions, hlocates, hresolves, htotal, hexpands, ?_, ?_, ?_, ?_⟩
  · exact loaded_of_assemble hwhole hprogram fun name a ha => Nat.lt_succ_of_le (h.small name a ha)
  · exact predefined_of_assemble hprogram
  · intro pool hpool hrefers
    obtain ⟨names, hnodup, hsub, hused, hvariables⟩ := variables_of_assemble hwhole hprogram hpool
      fun name hname hlabel hknown => by
        rcases hrefers name hname with hknows | hknows | hknows
        · exact absurd hknows hlabel
        · exact absurd hknown hknows
        · exact hknows
    refine ⟨names, hnodup, hsub, fun name hname hlabel hknown => ?_⟩
    obtain ⟨a, ha⟩ := hused name hname
    obtain ⟨hmem, rfl⟩ := hvariables name a hlabel hknown ha
    exact ⟨hmem, ha⟩
  · intro name a hstatic
    rw [← hinstructions]
    exact hstatics name a hstatic

/-- A block among others that stand one after the other. -/
theorem loaded_block {addresses : String → Nat} {words : List UInt16} {pc i : Nat}
    {blocks : List (List Assembly.Instruction)} {block : List Assembly.Instruction}
    (h : Loaded addresses words pc blocks.flatten) (hblock : blocks[i]? = some block) :
    Loaded addresses words (pc + wordCount (blocks.take i).flatten) block ∧
      wordCount (blocks.take (i + 1)).flatten =
        wordCount (blocks.take i).flatten + wordCount block := by
  induction blocks generalizing pc i with
  | nil => simp at hblock
  | cons other rest ih =>
      rw [List.flatten_cons, loaded_append] at h
      cases i with
      | zero =>
          cases hblock
          exact ⟨by simpa using h.1, by simp⟩
      | succ i =>
          obtain ⟨hloaded, hcount⟩ := ih h.2 hblock
          refine ⟨?_, ?_⟩
          · simpa [Nat.add_assoc] using hloaded
          · simp only [List.take_succ_cons, List.flatten_cons, wordCount_append] at hcount ⊢
            omega

theorem knows_registers : ∀ r ∈ usedRegisters, ({} : Symbols).get? r ≠ none := by
  intro r hr
  have hall : ∀ r ∈ usedRegisters, ∃ a, (r, a) ∈ predefined := by
    have hshort : ∀ r ∈ usedRegisters, ∃ entry ∈ predefined, entry.1 = r := by decide
    intro r hr
    obtain ⟨⟨name, a⟩, hmem, rfl⟩ := hshort r hr
    exact ⟨a, hmem⟩
  obtain ⟨a, ha⟩ := hall r hr
  rw [Symbols.get?_of_mem_predefined ha]
  exact Option.some_ne_none a

/-- The symbols of registers have the addresses of registers. -/
theorem conventional_of_extends {s : Symbols} (h : Symbols.Extends {} s) :
    Conventional s.address := by
  have hknown {name : String} {a : UInt16} (hmem : (name, a) ∈ predefined) :
      s.address name = a.toNat :=
    Symbols.address_of_get? (h name a (Symbols.get?_of_mem_predefined hmem))
  constructor
  · exact hknown (a := 0) (by decide)
  · exact hknown (a := 1) (by decide)
  · exact hknown (a := 2) (by decide)
  · exact hknown (a := 3) (by decide)
  · exact hknown (a := 4) (by decide)
  · exact hknown (a := 13) (by decide)
  · exact hknown (a := 14) (by decide)

namespace Parts

/-- A row, its instruction and its block. -/
theorem row (h : Parts files p image d) {i : Nat} {row : Row}
    (hrow : (rows staticBase files)[i]? = some row) : ∃ instruction block,
      p.instructions[i]? = some instruction ∧ Resolves d row instruction ∧ Expands row block ∧
        Loaded image.symbols.address image.words (codeStart files i) block ∧
          codeStart files (i + 1) = codeStart files i + wordCount block ∧
            ∀ x ∈ block, x ∈ instructionsOf files := by
  obtain ⟨instruction, hinstruction, hresolves⟩ := exists_of_forall₂ h.resolves hrow
  obtain ⟨block, hblock, hexpands⟩ := exists_of_forall₂ h.expands hrow
  obtain ⟨hloaded, hcount⟩ := loaded_block (loaded_append.mp h.loaded).2 hblock
  rw [Nat.zero_add] at hloaded
  refine ⟨instruction, block, by simpa using hinstruction, hresolves, hexpands, hloaded, ?_, ?_⟩
  · rw [codeStart, hcount, codeStart, Nat.add_assoc]
  · intro x hx
    have hmem := List.mem_flatten.mpr ⟨block, List.mem_of_getElem? hblock, hx⟩
    exact List.mem_append_right _ hmem

/-- A label in front of a block stands at its start, and is one of the image. -/
theorem label_of_block (h : Parts files p image d) {i : Nat} {row : Row}
    (hrow : (rows staticBase files)[i]? = some row) {name : String}
    (hlabel : ∀ block, Expands row block → ∃ rest, block = .label name :: rest) :
    image.symbols.address name = codeStart files i ∧ .label name ∈ instructionsOf files := by
  obtain ⟨_, block, _, _, hexpands, hloaded, _, hmem⟩ := h.row hrow
  obtain ⟨rest, rfl⟩ := hlabel block hexpands
  exact ⟨hloaded.1, hmem _ List.mem_cons_self⟩

theorem label (h : Parts files p image d) {owner name : String} {i : Nat}
    (hname : d.labels[(owner, name)]? = some i) :
    image.symbols.address s!"{owner}${name}" = codeStart files i ∧
      .label s!"{owner}${name}" ∈ instructionsOf files := by
  obtain ⟨⟨rowFile, rowBase, rowOwner, command⟩, hrow, howner, hcommand⟩ := h.locates.labels owner name i hname
  refine h.label_of_block hrow fun block hexpands => ?_
  obtain ⟨t, t', hexpand, -, hfunction⟩ := hexpands
  simp only at hcommand howner hexpand hfunction
  subst hcommand howner
  rw [(frame_of_expand hexpand).2] at hfunction
  obtain ⟨target, htarget, hexpand⟩ := exists_of_bind hexpand
  cases hexpand
  rw [branchLabel_of_owner htarget hfunction]
  exact ⟨[], rfl⟩

theorem function (h : Parts files p image d) {name : String} {i : Nat}
    (hname : d.functions[name]? = some i) :
    image.symbols.address name = codeStart files i ∧ .label name ∈ instructionsOf files := by
  obtain ⟨⟨rowFile, rowBase, rowOwner, command⟩, locals, hrow, hcommand⟩ :=
    h.locates.functions name i hname
  refine h.label_of_block hrow fun block hexpands => ?_
  obtain ⟨t, t', hexpand, -, -⟩ := hexpands
  simp only at hcommand hexpand
  subst hcommand
  cases hexpand
  exact ⟨_, rfl⟩

/-- Every call is of a function. -/
theorem exists_function (h : Parts files p image d) {name : String}
    (hname : p.hasFunction name = true) : ∃ i, d.functions[name]? = some i := by
  rw [Program.hasFunction, h.functions, Std.HashMap.contains_eq_isSome_getElem?,
    Option.isSome_iff_exists] at hname
  exact hname

theorem conventional (h : Parts files p image d) : Conventional image.symbols.address :=
  conventional_of_extends h.known

/-- The image refers to its labels, to what every program knows, and to static variables. -/
theorem refers (h : Parts files p image d) (himage : Image files p image) :
    Refers (fun name => .label name ∈ instructionsOf files ∨ ({} : Symbols).get? name ≠ none ∨
      ∃ a, StaticOf files name a) (instructionsOf files) := by
  have hregisters : ∀ r ∈ usedRegisters, .label r ∈ instructionsOf files ∨
      ({} : Symbols).get? r ≠ none ∨ ∃ a, StaticOf files r a :=
    fun r hr => .inr (.inl (knows_registers r hr))
  rw [instructionsOf, refers_append]
  constructor
  · obtain ⟨i, hi⟩ := h.exists_function h.entry
    have hinit := (h.function hi).2
    have hreturn : .label bootstrapReturn ∈ instructionsOf files := by
      refine List.mem_append_left _ ?_
      simp [bootstrapBlock, callFunction, bootstrapReturn]
    have hcall := refers_callFunction hregisters 0 (.inl hinit) (.inl hreturn)
    simp only [bootstrapBlock, refers_append, refers_constant, refers_assign, refers_symbol,
      refers_nil]
    exact ⟨⟨hregisters "SP" (by decide), trivial⟩, hcall⟩
  · refine refers_of_forall fun block hblock => ?_
    obtain ⟨i, hi⟩ := List.mem_iff_getElem?.mp hblock
    obtain ⟨row, hrow, hexpands⟩ := exists_of_forall₂ h.expands.flip hi
    obtain ⟨instruction, _, hresolves⟩ := exists_of_forall₂ h.resolves hrow
    have hmem : row ∈ rows staticBase files := List.mem_of_getElem? hrow
    obtain ⟨t, t', hexpand, hfile, howner⟩ := hexpands
    obtain ⟨file, hfiles, hcommand⟩ := mem_commands hmem
    refine refers_of_expand hexpand hregisters ?_ ?_ ?_ ?_
    · intro name hname
      exact .inl (List.mem_append_right _ (List.mem_flatten.mpr ⟨block, hblock, hname⟩))
    · intro index haccess
      rw [hfile]
      exact .inr (.inr ⟨_, row, hmem, index, haccess, rfl, rfl⟩)
    · intro label name hjump hbranch
      refine .inl ?_
      rw [(frame_of_expand hexpand).2] at howner
      have hlabel : ∃ target, d.label row.owner label = .ok target := by
        obtain ⟨hop, -⟩ := hresolves
        rcases hjump with heq | heq
        · rw [heq] at hop
          obtain ⟨target, htarget, -⟩ := exists_of_map hop
          exact ⟨target, htarget⟩
        · rw [heq] at hop
          obtain ⟨target, htarget, -⟩ := exists_of_map hop
          exact ⟨target, htarget⟩
      have hfunction : t.function.getD topLevel = row.owner := by
        rcases hjump with heq | heq
        · rw [heq] at howner
          exact howner
        · rw [heq] at howner
          exact howner
      obtain ⟨target, htarget⟩ := hlabel
      unfold Directory.label at htarget
      split at htarget
      · rename_i hfound
        rw [branchLabel_of_owner hbranch hfunction]
        exact (h.label hfound).2
      · cases htarget
    · intro name count hcall
      rw [hcall] at hcommand
      obtain ⟨i, hi⟩ := h.exists_function (himage.calls file hfiles name count hcommand)
      exact .inl (h.function hi).2

theorem mem_homes (h : Parts files p image d) {name : String} {a : Nat}
    (hname : StaticOf files name a) : (name, a) ∈ staticHomes staticBase files :=
  mem_homes_of_staticOf h.total hname

theorem symbol_of_static (h : Parts files p image d) {name : String} {a : Nat}
    (hname : StaticOf files name a) : .symbol name ∈ instructionsOf files := by
  obtain ⟨⟨rowFile, rowBase, rowOwner, command⟩, hrow, index, haccess, rfl, rfl⟩ := hname
  obtain ⟨i, hi⟩ := List.mem_iff_getElem?.mp hrow
  obtain ⟨_, block, _, _, ⟨t, t', hexpand, hfile, -⟩, _, _, hmem⟩ := h.row hi
  refine hmem _ ?_
  simp only at hexpand hfile haccess
  subst hfile
  rcases haccess with rfl | rfl
  · cases hexpand
    exact List.mem_append_left _ List.mem_cons_self
  · cases hexpand
    exact List.mem_append_right _ List.mem_cons_self

/-- The static variables have symbols of their own, in the words behind the registers. -/
theorem exists_home (h : Parts files p image d) (himage : Image files p image) :
    ∃ names : List String, names.Nodup ∧ names.length ≤ 240 ∧ ∀ name a, StaticOf files name a →
      name ∈ names ∧ image.symbols.get? name = some (variableBase + names.idxOf name).toUInt16 := by
  have htotal : (staticHomes staticBase files).length ≤ 240 := by
    have hle := h.total
    rw [length_staticHomes]
    unfold staticBase staticEnd at hle
    omega
  obtain ⟨names, hnodup, hsub, hhomes⟩ := h.homes ((staticHomes staticBase files).map Prod.fst)
    (by rw [List.length_map]; unfold variableBase; omega) fun name hname => by
      rcases h.refers himage name hname with hlabel | hknown | ⟨a, ha⟩
      · exact .inl hlabel
      · exact .inr (.inl hknown)
      · exact .inr (.inr (List.mem_map_of_mem (h.mem_homes ha)))
  refine ⟨names, hnodup, ?_, fun name a hname => ?_⟩
  · have hlength := (hnodup.subperm hsub).length_le
    rw [List.length_map] at hlength
    omega
  · refine hhomes name (h.symbol_of_static hname) (h.statics name a hname) ?_
    obtain ⟨row, -, index, -, rfl, -⟩ := hname
    exact Symbols.get?_eq_none_of_dot (by simp [toList_staticName])

theorem staticLayout (h : Parts files p image d) (himage : Image files p image) :
    StaticLayout (imageLayout files image).statics := by
  obtain ⟨names, hnodup, hlength, hhomes⟩ := h.exists_home himage
  have haddress {name : String} {a : Nat} (hname : StaticOf files name a) :
      name ∈ names ∧ image.symbols.address name = variableBase + names.idxOf name := by
    obtain ⟨hmem, hget⟩ := hhomes name a hname
    refine ⟨hmem, ?_⟩
    have hlt := List.idxOf_lt_length_of_mem hmem
    rw [Symbols.address_of_get? hget, Nat.toUInt16_eq, UInt16.toNat_ofNat']
    unfold variableBase
    omega
  constructor
  · rintro a b ⟨name, hname, rfl⟩
    obtain ⟨hmem, heq⟩ := haddress hname
    have hlt := List.idxOf_lt_length_of_mem hmem
    have hrange := range_of_mem_staticHomes (h.mem_homes hname)
    have htotal := h.total
    unfold staticBase at hrange htotal
    unfold staticEnd at htotal
    unfold variableBase at heq
    simp only at hrange
    refine ⟨⟨hrange.1, by omega⟩, ?_, ?_⟩
    · simp only [heq]
      omega
    · simp only [heq]
      omega
  · rintro a b a' b' ⟨name, hname, rfl⟩ ⟨name', hname', rfl⟩
    obtain ⟨hmem, heq⟩ := haddress hname
    obtain ⟨hmem', heq'⟩ := haddress hname'
    have hsame := staticHomes_inj himage.distinct (h.mem_homes hname) (h.mem_homes hname')
    rw [heq, heq']
    simp only at hsame
    rw [← hsame]
    constructor
    · rintro rfl
      rfl
    · intro hindex
      exact (List.idxOf_inj hmem).mp (Nat.add_left_cancel hindex)

/-- The image has a block for every instruction. -/
theorem implements (h : Parts files p image d) (himage : Image files p image) :
    Implements p image.words (imageLayout files image) where
  names := h.conventional
  statics := h.staticLayout himage
  block i op owner hop := by
    have hlist : p.instructions.toList[i]? = some ⟨op, owner⟩ := by simpa using hop
    obtain ⟨row, hrow, -⟩ := exists_of_forall₂ h.resolves.flip hlist
    obtain ⟨instruction, block, hinstruction, hresolves, hexpands, hloaded, hnext, -⟩ := h.row hrow
    rw [hop] at hinstruction
    cases hinstruction
    refine ⟨block, ?_, hloaded, hnext⟩
    have hlinks : Links (imageLayout files image) d (rows staticBase files) := by
      constructor
      · exact h.conventional
      · exact fun owner name i hi => (h.label hi).1
      · exact fun name i hi => (h.function hi).1
      · intro row hrow name count hcall
        obtain ⟨file, hfile, hcommand⟩ := mem_commands hrow
        rw [hcall] at hcommand
        exact h.exists_function (himage.calls file hfile name count hcommand)
      · intro row hrow index haccess
        exact ⟨_, ⟨row, hrow, index, haccess, rfl, rfl⟩, rfl⟩
    exact hlinks.translates (List.mem_of_getElem? hrow) hresolves hexpands

end Parts

end Images

end JackToolchain.Machine
