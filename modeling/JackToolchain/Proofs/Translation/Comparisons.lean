import JackToolchain.Proofs.Assembly.Reading
import JackToolchain.Proofs.Assembly.Resolution
import JackToolchain.Proofs.Translation.Symbols

/-!
# Comparisons on the processor

An assembled comparison goes by the sign of a difference of sixteen bits. Wherever it stands in a
file, it leaves on the stack what the stack machine finds, but for `gt` and `lt` of operands whose
difference is no word: there it leaves the opposite.
-/

namespace JackToolchain.Stack.Expander

open JackToolchain.Assembly JackToolchain.Assembly.Instruction JackToolchain.Text

variable {t : Expander} {text out : String} {commands front back : List Command}

/-! ## Parts of an expansion -/

/-- An expansion writes whole lines behind the text that it starts with. -/
theorem grows_of_expandFrom (h : t.expandFrom text commands = .ok out) :
    (∃ rest, out = text ++ rest) ∧ (WholeLines text → WholeLines out) := by
  induction commands generalizing t text with
  | nil =>
      cases h
      exact ⟨⟨"", String.append_empty.symm⟩, id⟩
  | cons command commands ih =>
      unfold expandFrom at h
      split at h
      · cases h
      · rename_i block _ _
        rw [foldl_text] at h
        obtain ⟨⟨rest, rfl⟩, hwhole⟩ := ih h
        have hcomment : WholeLines (text ++ "// " ++ command.text ++ "\n") :=
          wholeLines_append _ ⟨[], rfl⟩
        refine ⟨⟨"// " ++ command.text ++ "\n" ++ Assembly.render block ++ rest, ?_⟩,
          fun _ => hwhole ?_⟩
        · simp only [String.append_assoc]
        · cases block with
          | nil => rwa [Assembly.render, List.foldl_nil, String.append_empty]
          | cons i block => exact wholeLines_append _ (wholeLines_render (List.cons_ne_nil i block))

/-- Commands are expanded one after the other, first those in front. -/
theorem expandFrom_append : t.expandFrom text (front ++ back) =
    t.expandFrom text front >>= fun middle => (front.foldl after t).expandFrom middle back := by
  induction front generalizing t text with
  | nil => rfl
  | cons command front ih =>
      rw [List.cons_append, expandFrom, expandFrom]
      cases hexpand : t.expand command with
      | error e => rfl
      | ok result =>
          obtain ⟨block, t'⟩ := result
          rw [List.foldl_cons, ← eq_after_of_expand hexpand]
          exact ih

theorem wholeLines_of_expandFile {file : String} (h : expandFile file commands = .ok text) :
    WholeLines text :=
  (grows_of_expandFrom h).2 (wholeLines_append ("// File: " ++ file) ⟨".vm".toList, by decide⟩)

/-- The text of a command between those of others. -/
theorem expandFile_cons {file : String} {command : Command}
    (h : expandFile file (front ++ command :: back) = .ok text) :
    ∃ t' middle block rest, (front.foldl after { file }).expand command = .ok (block, t') ∧
      expandFile file front = .ok middle ∧
      expandFile file (front ++ [command]) =
        .ok (middle ++ ("// " ++ command.text ++ "\n" ++ Assembly.render block)) ∧
      text = middle ++ ("// " ++ command.text ++ "\n" ++ Assembly.render block) ++ rest := by
  rw [expandFile, List.append_cons, expandFrom_append] at h
  obtain ⟨ending, hending, h⟩ := exists_of_bind h
  obtain ⟨⟨rest, rfl⟩, -⟩ := grows_of_expandFrom h
  have hboth := hending
  rw [expandFrom_append] at hending
  obtain ⟨middle, hmiddle, hcommand⟩ := exists_of_bind hending
  rw [expandFrom] at hcommand
  cases hexpand : (front.foldl after { file }).expand command with
  | error e =>
      rw [hexpand] at hcommand
      cases hcommand
  | ok result =>
      obtain ⟨block, t'⟩ := result
      rw [hexpand] at hcommand
      have hending :
          middle ++ ("// " ++ command.text ++ "\n" ++ Assembly.render block) = ending := by
        dsimp only [expandFrom] at hcommand
        rw [foldl_text] at hcommand
        cases hcommand
        simp only [String.append_assoc]
      exact ⟨t', middle, block, rest, rfl, hmiddle, hending ▸ hboth, by rw [hending]⟩

/-! ## Blocks with labels of any names -/

/-- Two names that are written in a comparison are read as two symbols. -/
theorem exists_comparing {ifTrue after condition : String}
    {instructions : List Assembly.Instruction} (hmem : ("D", condition) ∈ branches)
    (h : Reads (Assembly.render (comparing ifTrue after condition)) instructions) :
    ∃ ifTrue' after', instructions = comparing ifTrue' after' condition := by
  have hfixed {block found : List Assembly.Instruction} (hblock : AllReadable block)
      (hfound : Reads (Assembly.render block) found) : found = block := by
    refine hfound.eq_of_listing ?_
    rw [Assembly.render, toList_foldl_text]
    exact listing_of_readable hblock
  have hparts (x y : String) : comparing x y condition =
      combine "M-D" ++ ([symbol x] ++ ([jump "D" condition, assign "D" "0"] ++ ([symbol y] ++
        ([jump "0" "JMP"] ++ ([label x] ++ ([assign "D" "-1"] ++ ([label y] ++ pushD))))))) := by
    simp [comparing, choose]
  rw [hparts] at h
  obtain ⟨_, _, rfl, hcombine, h⟩ := h.render_append (by decide)
  obtain ⟨_, _, rfl, htrue, h⟩ := h.render_append (by simp)
  obtain ⟨_, _, rfl, hzero, h⟩ := h.render_append (by simp)
  obtain ⟨_, _, rfl, hafter, h⟩ := h.render_append (by simp)
  obtain ⟨_, _, rfl, hskip, h⟩ := h.render_append (by simp)
  obtain ⟨_, _, rfl, htrue', h⟩ := h.render_append (by simp)
  obtain ⟨_, _, rfl, hone, h⟩ := h.render_append (by simp)
  obtain ⟨_, _, rfl, hafter', hpush⟩ := h.render_append (by simp)
  obtain ⟨x, rfl, rfl⟩ := symbol_and_label htrue htrue'
  obtain ⟨y, rfl, rfl⟩ := symbol_and_label hafter hafter'
  refine ⟨x, y, ?_⟩
  rw [hparts, hfixed (readable_combine (by decide)) hcombine, hfixed readable_pushD hpush,
    hfixed (by simp [hmem]; decide) hzero, hfixed (by simp; decide) hskip,
    hfixed (by simp; decide) hone]

end JackToolchain.Stack.Expander

namespace JackToolchain.Machine

open JackToolchain.Assembly JackToolchain.Assembly.Cpu JackToolchain.Assembly.Instruction
open JackToolchain.Memory JackToolchain.Stack JackToolchain.Stack.Expander JackToolchain.Text

/-! ## Places -/

/-- Behind some commands of a file the next block starts at an address: as many words come from the
assembly in front of it, that above the file included. -/
def StartsAt (above file : String) (commands : List Command) (address : Nat) : Prop :=
  ∃ text source, expandFile file commands = .ok text ∧ Assembly.read (above ++ text) = .ok source ∧
    address = wordCount (source.map SourceLine.instruction)

section Files

variable {program : Assembly.Program} {above file text below : String}
  {front back : List Command} {op : Arithmetic} {condition : String} {source : List SourceLine}

theorem small_registers {s : Symbols} (h : Symbols.Extends {} s) :
    ∀ r ∈ usedRegisters, s.address r < 32768 := by
  intro r hr
  obtain ⟨a, ha⟩ := Option.ne_none_iff_exists'.mp (knows_registers r hr)
  rw [Symbols.address_of_get? (h r a ha)]
  exact small_predefined r a ha

/-- A label in front of some words has an address in the memory of programs. -/
theorem small_label {before inner last after : List Assembly.Instruction} {name : String}
    (hread : Assembly.read text = .ok source)
    (hparts : source.map SourceLine.instruction = before ++ (inner ++ last ++ after))
    (h : assemble text = .ok program) (hname : .label name ∈ inner) (hlast : 0 < wordCount last) :
    program.symbols.address name < 32768 := by
  obtain ⟨source', bound, hread', -, hbind, hencode⟩ := passes_of_assemble h
  obtain rfl : source = source' := Except.ok.inj (hread.symm.trans hread')
  obtain ⟨left, right, rfl⟩ := List.append_of_mem hname
  have hroom := (bindLabels_counts hbind).2
  have hlabels := (bindLabels_spec hbind).2.2.2 _ (encodeLines_spec hencode).1
  have haround : source.map SourceLine.instruction =
      (before ++ left) ++ .label name :: (right ++ last ++ after) := by simp [hparts]
  rw [hlabels.address_eq haround]
  simp only [haround, wordCount_append, wordCount_cons, romSize] at hroom ⊢
  omega

theorem small_comparing {before after : List Assembly.Instruction} {x y : String}
    (hread : Assembly.read text = .ok source)
    (hparts : source.map SourceLine.instruction = before ++ (comparing x y condition ++ after))
    (h : assemble text = .ok program) :
    SmallSymbols program.symbols.address (comparing x y condition) := by
  have hregisters := small_registers (predefined_of_assemble h)
  have hsplit : comparing x y condition = Expander.combine "M-D" ++ choose x y condition ++ pushD :=
    (List.append_assoc ..).symm
  rw [hsplit] at hparts
  have hlabel (name : String)
      (hname : .label name ∈ Expander.combine "M-D" ++ choose x y condition) :=
    small_label hread hparts h hname (by decide)
  have hx := hlabel x (by simp [choose])
  have hy := hlabel y (by simp [choose])
  have hrefers : Refers (program.symbols.address · < 32768) (comparing x y condition) := by
    simp only [hsplit, choose, refers_append, refers_symbol, refers_jump, refers_assign,
      refers_label, refers_nil, refers_combine hregisters, refers_pushD hregisters, hx, hy,
      and_self]
  exact hrefers

theorem block_of_comparison {t t' : Expander} {block : List Assembly.Instruction}
    (h : t.expand (.arithmetic op) = .ok (block, t'))
    (hop : (op, condition) ∈ [(Arithmetic.eq, "JEQ"), (.gt, "JGT"), (.lt, "JLT")]) :
    block = compare t.file op condition t.comparisons := by
  simp only [List.mem_cons, Prod.mk.injEq, List.not_mem_nil, or_false] at hop
  rcases hop with ⟨rfl, rfl⟩ | ⟨rfl, rfl⟩ | ⟨rfl, rfl⟩
  all_goals
    cases h
    rfl


/-- The block of a comparison, with the labels that its names are read as. -/
theorem exists_loaded
    (hop : (op, condition) ∈ [(Arithmetic.eq, "JEQ"), (.gt, "JGT"), (.lt, "JLT")])
    (htext : expandFile file (front ++ .arithmetic op :: back) = .ok text)
    (h : assemble (above ++ text ++ below) = .ok program) :
    ∃ start ifTrue after, StartsAt above file front start ∧
      StartsAt above file (front ++ [.arithmetic op])
        (start + wordCount (comparing ifTrue after condition)) ∧
      Loaded program.symbols.address program.words start (comparing ifTrue after condition) := by
  obtain ⟨t', middle, block, rest, hexpand, hfront, hnext, rfl⟩ := expandFile_cons htext
  rw [block_of_comparison hexpand hop, compare_eq_comparing] at hnext h
  obtain ⟨-, -, hbranch⟩ := Simulates.arity_compare hop
  set comment := "// " ++ (Command.arithmetic op).text ++ "\n" with hcomment
  set block := comparing _ _ condition
  have hwhole : WholeLines (above ++ (middle ++ (comment ++ Assembly.render block))) :=
    wholeLines_append above (wholeLines_of_expandFile hnext)
  have hfull : above ++ (middle ++ (comment ++ Assembly.render block) ++ rest) ++ below =
      above ++ (middle ++ (comment ++ Assembly.render block)) ++ (rest ++ below) := by
    simp only [String.append_assoc]
  rw [hfull] at h
  -- What the assembly up to the comparison, the comparison itself and the rest are read as.
  obtain ⟨source, bound, hread, -⟩ := passes_of_assemble h
  obtain ⟨source', others, hread', rfl, -⟩ := read_append hwhole hread
  have hboth := hread'
  rw [← String.append_assoc] at hboth
  obtain ⟨first, lines, hfirst, rfl, hlines⟩ := read_append
    (wholeLines_append above (wholeLines_of_expandFile hfront)) hboth
  obtain ⟨_, found, heq, hnone, hfound⟩ := hlines.append (wholeLines_append _ ⟨[], rfl⟩)
  have hplain : Plain (' ' :: (Command.arithmetic op).text.toList) :=
    plain_cons (by decide) (plain_command trivial)
  have hlisting : Listing comment.toList [] := by
    have hlisting := Listing.comment hplain .nil
    simpa [hcomment] using hlisting
  obtain ⟨x, y, rfl⟩ := exists_comparing hbranch hfound
  rw [hnone.eq_of_listing hlisting, List.nil_append] at heq
  have hparts : (first ++ lines ++ others).map SourceLine.instruction =
      first.map SourceLine.instruction ++
        (comparing x y condition ++ others.map SourceLine.instruction) := by
    simp [heq]
  refine ⟨_, x, y, ⟨middle, first, hfront, hfirst, rfl⟩, ⟨_, _, hnext, hread', ?_⟩,
    loaded_part hread hparts h (small_comparing hread hparts h)⟩
  rw [List.map_append, wordCount_append, heq]

theorem exists_condition (hop : op ∈ comparisons) :
    ∃ condition, (op, condition) ∈ [(Arithmetic.eq, "JEQ"), (.gt, "JGT"), (.lt, "JLT")] := by
  simp only [comparisons, List.mem_cons, List.not_mem_nil, or_false] at hop
  rcases hop with rfl | rfl | rfl
  · exact ⟨"JEQ", by simp⟩
  · exact ⟨"JGT", by simp⟩
  · exact ⟨"JLT", by simp⟩

/-- An assembled comparison leaves on the stack what the stack machine finds, unless it compares
words whose difference is none: then `gt` and `lt` leave the opposite. Nothing else in memory
changes, wherever the comparison stands in a file and whatever is above and below the file. -/
theorem reaches_comparison (hop : op ∈ comparisons)
    (htext : expandFile file (front ++ .arithmetic op :: back) = .ok text)
    (h : assemble (above ++ text ++ below) = .ok program) :
    ∃ start next, StartsAt above file front start ∧
      StartsAt above file (front ++ [.arithmetic op]) next ∧
      ∀ (c : Cpu) (sp : Nat) (x y : Int16), c.pc = start → word c.ram 0 = pointer sp → 2 < sp →
        sp ≤ 32768 → word c.ram (sp - 2) = x → word c.ram (sp - 1) = y →
          ∃ c', Reaches program.words c c' ∧ c'.pc = next ∧
            c'.ram = pushed (popped (popped c.ram sp) (sp - 1)) (sp - 2)
              (if op = .eq ∨ Fits x y then combine op x y else ~~~combine op x y) := by
  obtain ⟨condition, hcondition⟩ := exists_condition hop
  obtain ⟨start, ifTrue, after, hstart, hnext, hloaded⟩ := exists_loaded hcondition htext h
  refine ⟨start, _, hstart, hnext, fun c sp x y hpc hsp hlow hhigh hx hy => ?_⟩
  subst hpc
  obtain ⟨c', hreach, hend, hram⟩ := reaches_comparing (Simulates.arity_compare hcondition).2.2
    hloaded (conventional_of_extends (predefined_of_assemble h)) hsp hlow hhigh
  refine ⟨c', hreach, hend, ?_⟩
  rw [hram, hx, hy, taken_eq_combine hcondition, combine_sub_zero hop]

end Files

/-! ## Operands far apart -/

/-- Two words whose difference is none, on the stack. -/
def wideOperands : List Command :=
  [.function "Main.main" 0, .push .constant 32767, .push .constant 1, .arithmetic .neg]

theorem assemble_wide : ∃ text program,
    expandFile "Main" (wideOperands ++ .arithmetic .gt :: [.return]) = .ok text ∧
      assemble text = .ok program := by
  have hread : Stack.read
      "function Main.main 0\npush constant 32767\npush constant 1\nneg\ngt\nreturn" =
        .ok (wideOperands ++ .arithmetic .gt :: [.return]) := by
    decide
  obtain ⟨text, htext⟩ : ∃ text,
      expandFile "Main" (wideOperands ++ .arithmetic .gt :: [.return]) = .ok text := ⟨_, rfl⟩
  obtain ⟨blocks, hblocks, hlisting⟩ :=
    listing_of_expandFile htext (by decide) (wellNamed_of_read hread)
  rw [hblocks.eq_blocksFrom] at hlisting
  have hlabels : labelsOf (({ file := "Main" } : Expander).blocksFrom
      (wideOperands ++ .arithmetic .gt :: [.return])).flatten =
        ["Main.main", "Main.if_gt$0", "Main.after_gt$0"] := rfl
  have hconstants : (constantsOf (({ file := "Main" } : Expander).blocksFrom
      (wideOperands ++ .arithmetic .gt :: [.return])).flatten).all
        (fun value => value.toNat < 32768) = true := rfl
  have hdots : ∀ name ∈ ["Main.main", "Main.if_gt$0", "Main.after_gt$0"], '.' ∈ name.toList := by
    decide
  obtain ⟨source, program, hsource, -, hlines, -⟩ := assemble_of_listing hlisting
    (fun value hvalue => by
      simpa using List.all_eq_true.mp hconstants value (mem_constantsOf.mpr hvalue))
    (fun name hname => Symbols.get?_eq_none_of_dot (hdots name (hlabels ▸ hname)))
    (by rw [hlabels]; decide) (by decide)
  refine ⟨text, program, htext, ?_⟩
  rw [assemble, hsource]
  exact hlines

/-- 32767 is greater than -1, but the difference of sixteen bits is negative. -/
theorem reaches_comparison_wide : ∃ text program c c',
    expandFile "Main" (wideOperands ++ .arithmetic .gt :: [.return]) = .ok text ∧
      assemble text = .ok program ∧ StartsAt "" "Main" wideOperands c.pc ∧
      word c.ram 0 = pointer 258 ∧ word c.ram 256 = 32767 ∧ word c.ram 257 = -1 ∧
      Reaches program.words c c' ∧ StartsAt "" "Main" (wideOperands ++ [.arithmetic .gt]) c'.pc ∧
      word c'.ram 256 = 0 ∧ combine .gt 32767 (-1) = -1 := by
  obtain ⟨text, program, htext, hprogram⟩ := assemble_wide
  have hwhole : assemble ("" ++ text ++ "") = .ok program := by
    rwa [String.empty_append, String.append_empty]
  obtain ⟨start, next, hstart, hnext, hreaches⟩ := reaches_comparison (by decide) htext hwhole
  let m : Vector Int16 32768 :=
    put (put (put (.replicate 32768 0) 0 (pointer 258)) 256 32767) 257 (-1)
  have hsp : word m 0 = pointer 258 := by
    rw [word_put_of_ne _ _ (by decide), word_put_of_ne _ _ (by decide),
      word_put_self _ _ (by decide)]
  have hx : word m 256 = 32767 := by
    rw [word_put_of_ne _ _ (by decide), word_put_self _ _ (by decide)]
  have hy : word m 257 = -1 := word_put_self _ _ (by decide)
  obtain ⟨c', hreach, hend, hram⟩ := hreaches { pc := start, ram := m } 258 32767 (-1) rfl hsp
    (by decide) (by decide) hx hy
  refine ⟨text, program, { pc := start, ram := m }, c', htext, hprogram, hstart, hsp, hx, hy,
    hreach, hend ▸ hnext, ?_, by decide⟩
  rw [hram, word_pushed_self _ _ (by decide) (by decide)]
  decide

end JackToolchain.Machine
