import JackToolchain.Proofs.Assembly.Listing
import JackToolchain.Proofs.Stack.Fields
import JackToolchain.Stack.Expansion

/-!
# The text of an expansion

The assembly of a file is a listing of the blocks of its commands.
-/

namespace JackToolchain.Stack

open JackToolchain.Assembly JackToolchain.Assembly.Instruction JackToolchain.Text

/-! ## Names -/

theorem isNameChar_of_mem_arithmetic {op : Arithmetic} {c : Char} (h : c ∈ op.text.toList) :
    isNameChar c = true := by
  have hall : op.text.toList.all isNameChar = true := by
    cases op <;> decide
  exact List.all_eq_true.mp hall c h

/-- The name of a static variable. -/
def staticName (file : String) (index : Nat) : String := s!"{file}.{index}"

theorem toList_staticName (file : String) (index : Nat) :
    (staticName file index).toList = file.toList ++ '.' :: Nat.toDigits 10 index := by
  simp [staticName]
  rfl

theorem isName_static {file : String} (h : isName file.toList = true) (index : Nat) :
    isName (staticName file index).toList = true := by
  rw [toList_staticName]
  refine isName_append h fun c hc => ?_
  rcases List.mem_cons.mp hc with rfl | hc
  · decide
  · exact isNameChar_of_mem_toDigits hc

theorem isName_branch {function label : String} (hfunction : isName function.toList = true)
    (hlabel : isName label.toList = true) : isName s!"{function}${label}".toList = true := by
  have htext : s!"{function}${label}".toList = function.toList ++ '$' :: label.toList := by
    simp
    rfl
  rw [htext]
  refine isName_append hfunction fun c hc => ?_
  rcases List.mem_cons.mp hc with rfl | hc
  · decide
  · exact isNameChar_of_isName hlabel c hc

theorem isName_compare {file : String} (hfile : isName file.toList = true) {middle : String}
    (hmiddle : middle.toList.all isNameChar = true) (op : Arithmetic) (number : Nat) :
    isName s!"{file}{middle}{op.text}${number}".toList = true := by
  have htext : s!"{file}{middle}{op.text}${number}".toList =
      (file.toList ++ (middle.toList ++ op.text.toList ++ ['$'])) ++ (toString number).toList := by
    simp
    rfl
  rw [htext]
  refine isName_numbered (isName_append hfile fun c hc => ?_) number
  rcases List.mem_append.mp hc with hc | hc
  · rcases List.mem_append.mp hc with hc | hc
    · exact List.all_eq_true.mp hmiddle c hc
    · exact isNameChar_of_mem_arithmetic hc
  · rw [List.mem_singleton.mp hc]
    decide

theorem isName_return {file caller : String} (hfile : isName file.toList = true)
    (hcaller : isName caller.toList = true) (number : Nat) :
    isName s!"{file}.{caller}$ret.{number}".toList = true := by
  have htext : s!"{file}.{caller}$ret.{number}".toList =
      (file.toList ++ ('.' :: caller.toList ++ "$ret.".toList)) ++ (toString number).toList := by
    simp
    rfl
  rw [htext]
  refine isName_numbered (isName_append hfile fun c hc => ?_) number
  rcases List.mem_append.mp hc with hc | hc
  · rcases List.mem_cons.mp hc with rfl | hc
    · decide
    · exact isNameChar_of_isName hcaller c hc
  · have hall : "$ret.".toList.all isNameChar = true := by decide
    exact List.all_eq_true.mp hall c hc

/-! ## Readable blocks -/

@[simp] theorem readable_constant (value : UInt16) : Readable (.constant value) := .constant value

@[simp] theorem readable_symbol {name : String} :
    Readable (.symbol name) ↔ isName name.toList = true := by
  constructor
  · intro h
    cases h
    assumption
  · exact Readable.symbol

@[simp] theorem readable_label {name : String} :
    Readable (.label name) ↔ isName name.toList = true := by
  constructor
  · intro h
    cases h
    assumption
  · exact Readable.label

@[simp] theorem readable_assign {dest comp : String} :
    Readable (assign dest comp) ↔ (dest, comp) ∈ assignments := by
  constructor
  · intro h
    cases h
    assumption
  · exact Readable.assign

@[simp] theorem readable_jump {comp condition : String} :
    Readable (jump comp condition) ↔ (comp, condition) ∈ branches := by
  constructor
  · intro h
    cases h
    assumption
  · exact Readable.jump

/-- All instructions of a block are. -/
def AllReadable (block : List Assembly.Instruction) : Prop := ∀ i ∈ block, Readable i

@[simp] theorem allReadable_nil : AllReadable [] := by
  intro i hi
  cases hi

@[simp] theorem allReadable_cons {i : Assembly.Instruction} {block : List Assembly.Instruction} :
    AllReadable (i :: block) ↔ Readable i ∧ AllReadable block := List.forall_mem_cons

@[simp] theorem allReadable_append {front back : List Assembly.Instruction} :
    AllReadable (front ++ back) ↔ AllReadable front ∧ AllReadable back := List.forall_mem_append

@[simp] theorem allReadable_flatten_replicate {block : List Assembly.Instruction} {count : Nat}
    (h : AllReadable block) : AllReadable (List.replicate count block).flatten := by
  intro i hi
  obtain ⟨part, hpart, hmem⟩ := List.mem_flatten.mp hi
  rw [List.eq_of_mem_replicate hpart] at hmem
  exact h i hmem

namespace Expander

@[simp] theorem readable_pushD : AllReadable pushD := by
  simp [pushD, assignments, isNameStart, isNameChar]

@[simp] theorem readable_popD : AllReadable popD := by
  simp [popD, assignments, isNameStart, isNameChar]

/-- The names that an expansion carries are names of symbols. -/
structure WellNamed (t : Expander) : Prop where
  file : isName t.file.toList = true
  function : ∀ name, t.function = some name → isName name.toList = true

section Blocks

variable {t t' : Expander} {block : List Assembly.Instruction} {command : Command}

theorem readable_fixedWord {file : String} (hfile : isName file.toList = true) {segment : Segment}
    {index : UInt16} {i : Assembly.Instruction} (h : fixedWord? file segment index = some i) :
    Readable i := by
  cases segment <;> simp only [fixedWord?, Option.some.injEq, reduceCtorEq] at h
  · rw [← h]
    exact readable_symbol.mpr (isName_static hfile index.toNat)
  · rw [← h]
    simp [pointerRegister]
    split <;> decide
  · rw [← h]
    exact readable_constant _

theorem isName_baseRegister (segment : Segment) : isName (baseRegister segment).toList = true := by
  cases segment <;> decide

theorem readable_pushFrom {file : String} (hfile : isName file.toList = true) (segment : Segment)
    (index : UInt16) : AllReadable (pushFrom file segment index) := by
  unfold pushFrom
  simp only
  split
  · simp [assignments]
  · rename_i i hword
    simp [readable_fixedWord hfile hword, assignments]
  · simp [assignments, isName_baseRegister]

theorem readable_popInto {file : String} (hfile : isName file.toList = true) (segment : Segment)
    (index : UInt16) : AllReadable (popInto file segment index) := by
  unfold popInto
  split
  · rename_i i hword
    simp [readable_fixedWord hfile hword, assignments]
  · simp [assignments, isName_baseRegister, isNameStart, isNameChar, isDigit]

theorem readable_unary {comp : String}
    (hcomp : ("D", comp) ∈ assignments) : AllReadable (unary comp) := by
  simp [unary, hcomp]
  decide

theorem readable_combine {comp : String} (hcomp : ("D", comp) ∈ assignments) :
    AllReadable (combine comp) := by
  simp [combine, hcomp]
  decide

theorem readable_compare {file : String} (hfile : isName file.toList = true) (op : Arithmetic)
    {condition : String} (hcondition : ("D", condition) ∈ branches) (number : Nat) :
    AllReadable (compare file op condition number) := by
  have htrue : isName s!"{file}.if_{op.text}${number}".toList = true :=
    isName_compare hfile (by decide : ".if_".toList.all isNameChar = true) op number
  have hafter : isName s!"{file}.after_{op.text}${number}".toList = true :=
    isName_compare hfile (by decide : ".after_".toList.all isNameChar = true) op number
  simp only [compare, allReadable_append, allReadable_cons, readable_symbol, readable_label,
    readable_assign, readable_jump, htrue, hafter, hcondition, readable_pushD, allReadable_nil]
  exact ⟨⟨readable_combine (by decide), by decide⟩, trivial⟩

theorem readable_flatMap {α : Type} {l : List α} {f : α → List Assembly.Instruction}
    (h : ∀ x ∈ l, AllReadable (f x)) : AllReadable (l.flatMap f) := by
  intro i hi
  obtain ⟨x, hx, hmem⟩ := List.mem_flatMap.mp hi
  exact h x hx i hmem

theorem readable_callFunction {name returnLabel : String} (hname : isName name.toList = true)
    (hreturn : isName returnLabel.toList = true) (arguments : UInt16) :
    AllReadable (callFunction name arguments returnLabel) := by
  have hsave : AllReadable
      (frameRegisters.flatMap fun r => [.symbol r, assign "D" "M"] ++ pushD) := by
    refine readable_flatMap fun r hr => ?_
    have hall : ∀ r ∈ frameRegisters, isName r.toList = true := by decide
    simp [hall r hr]
    decide
  simp only [callFunction, allReadable_append, allReadable_cons, readable_symbol, readable_label,
    readable_assign, readable_jump, readable_constant, hname, hreturn, hsave, readable_pushD,
    allReadable_nil]
  decide

theorem readable_enterFunction {name : String} (hname : isName name.toList = true)
    (locals : UInt16) : AllReadable (enterFunction name locals) := by
  have hclear : AllReadable
      (List.replicate locals.toNat [assign "M" "0", assign "A" "A+1"]).flatten :=
    allReadable_flatten_replicate (by simp; decide)
  simp only [enterFunction, allReadable_append, allReadable_cons, readable_symbol, readable_label,
    readable_assign, hname, hclear, allReadable_nil]
  decide

theorem readable_restore {register : String} (h : isName register.toList = true) (offset : Nat) :
    AllReadable (restore offset register) := by
  have hback : AllReadable (List.replicate offset (assign "A" "A-1")) := by
    intro i hi
    rw [List.eq_of_mem_replicate hi]
    exact Readable.assign (by decide)
  simp only [restore, allReadable_append, allReadable_cons, readable_symbol, readable_assign, h,
    hback, allReadable_nil]
  decide

theorem readable_leaveFunction : AllReadable leaveFunction := by
  have hrestore : AllReadable ((frameRegisters.reverse.zipIdx 1).flatMap
      fun row => restore row.2 row.1) := by
    refine readable_flatMap fun row hrow => readable_restore ?_ row.2
    have hall : ∀ row ∈ frameRegisters.reverse.zipIdx 1, isName row.1.toList = true := by decide
    exact hall row hrow
  have hleave : leaveFunction = [.symbol "LCL", assign "D" "M", .symbol "R13", assign "M" "D",
      .constant 5, assign "D" "A", .symbol "R13", assign "A" "M-D", assign "D" "M", .symbol "R14",
      assign "M" "D"] ++ popD ++ [.symbol "ARG", assign "A" "M", assign "M" "D", assign "D" "A",
      .symbol "SP", assign "M" "D+1"] ++
      ((frameRegisters.reverse.zipIdx 1).flatMap fun row => restore row.2 row.1) ++
      [.symbol "R14", assign "A" "M", jump "0" "JMP"] := rfl
  rw [hleave]
  simp [hrestore, assignments, branches, isNameStart, isNameChar, isDigit]

theorem readable_arithmetic (ht : t.WellNamed) (op : Arithmetic) :
    AllReadable (t.arithmetic op).1 ∧ (t.arithmetic op).2.file = t.file ∧
      (t.arithmetic op).2.function = t.function := by
  cases op
  case neg => exact ⟨readable_unary (by decide), rfl, rfl⟩
  case not => exact ⟨readable_unary (by decide), rfl, rfl⟩
  case eq => exact ⟨readable_compare ht.file .eq (by decide) _, rfl, rfl⟩
  case gt => exact ⟨readable_compare ht.file .gt (by decide) _, rfl, rfl⟩
  case lt => exact ⟨readable_compare ht.file .lt (by decide) _, rfl, rfl⟩
  all_goals
    refine ⟨?_, rfl, rfl⟩
    simp only [arithmetic, binary, allReadable_append, readable_pushD, and_true]
    exact readable_combine (by decide)

theorem branchLabel_eq {label name : String} (h : t.branchLabel label command = .ok name) :
    ∃ function, t.function = some function ∧ name = s!"{function}${label}" := by
  unfold branchLabel at h
  split at h
  · rename_i function hfunction
    cases h
    exact ⟨function, hfunction, rfl⟩
  · cases h

theorem isName_of_branchLabel {label name : String} (h : t.branchLabel label command = .ok name)
    (ht : t.WellNamed) (hlabel : isName label.toList = true) : isName name.toList = true := by
  obtain ⟨function, hfunction, rfl⟩ := branchLabel_eq h
  exact isName_branch (ht.function function hfunction) hlabel

/-- The blocks of commands with names of symbols are readable. -/
theorem readable_of_expand (h : t.expand command = .ok (block, t')) (ht : t.WellNamed)
    (hcommand : command.WellNamed) : AllReadable block ∧ t'.WellNamed := by
  unfold expand at h
  split at h
  · cases h
  · cases command with
    | push segment index =>
        cases h
        exact ⟨readable_pushFrom ht.file segment index, ht⟩
    | pop segment index =>
        cases h
        exact ⟨readable_popInto ht.file segment index, ht⟩
    | arithmetic op =>
        have heq : t.arithmetic op = (block, t') := Except.ok.inj h
        have hblock : (t.arithmetic op).1 = block := by rw [heq]
        have hnext : (t.arithmetic op).2 = t' := by rw [heq]
        rw [← hblock, ← hnext]
        obtain ⟨hreadable, hfile, hfunction⟩ := readable_arithmetic ht op
        exact ⟨hreadable, hfile ▸ ht.file, hfunction ▸ ht.function⟩
    | label name =>
        obtain ⟨target, hbranch, h⟩ := exists_of_bind h
        cases h
        exact ⟨by simpa using isName_of_branchLabel hbranch ht hcommand, ht⟩
    | goto name =>
        obtain ⟨target, hbranch, h⟩ := exists_of_bind h
        cases h
        refine ⟨?_, ht⟩
        simp [isName_of_branchLabel hbranch ht hcommand]
        decide
    | ifGoto name =>
        obtain ⟨target, hbranch, h⟩ := exists_of_bind h
        cases h
        refine ⟨?_, ht⟩
        simp [isName_of_branchLabel hbranch ht hcommand]
        decide
    | function name locals =>
        cases h
        refine ⟨readable_enterFunction hcommand locals, ht.file, ?_⟩
        rintro other ⟨⟩
        exact hcommand
    | call name arguments =>
        cases h
        refine ⟨readable_callFunction hcommand (isName_return ht.file ?_ t.calls) arguments,
          ht.file, ht.function⟩
        cases hfunction : t.function with
        | none => decide
        | some function => exact ht.function function hfunction
    | «return» =>
        cases h
        exact ⟨readable_leaveFunction, ht⟩

end Blocks

/-- The blocks of commands, up to the first that has none. -/
def blocksFrom (t : Expander) : List Command → List (List Assembly.Instruction)
  | [] => []
  | command :: rest =>
    match t.expand command with
    | .ok (block, t) => block :: blocksFrom t rest
    | .error _ => []

/-- The blocks of commands that are expanded one after the other. -/
inductive Expanded : Expander → List Command → List (List Assembly.Instruction) → Prop
  | nil (t : Expander) : Expanded t [] []
  | cons {t t' : Expander} {command : Command} {block : List Assembly.Instruction}
      {commands : List Command} {blocks : List (List Assembly.Instruction)}
      (h : t.expand command = .ok (block, t')) (rest : Expanded t' commands blocks) :
    Expanded t (command :: commands) (block :: blocks)

theorem Expanded.eq_blocksFrom {t : Expander} {commands : List Command}
    {blocks : List (List Assembly.Instruction)} (h : t.Expanded commands blocks) :
    blocks = t.blocksFrom commands := by
  induction h with
  | nil t => rfl
  | cons h rest ih => rw [blocksFrom, h, ih]

end Expander

/-! ## Listings -/

/-- Instructions on lines of their own. -/
theorem toList_foldl_text (instructions : List Assembly.Instruction) (text : String) :
    (instructions.foldl (fun text i => text ++ i.text ++ "\n") text).toList =
      text.toList ++ instructions.flatMap fun i => i.text.toList ++ ['\n'] := by
  induction instructions generalizing text with
  | nil => simp
  | cons i rest ih => simp [ih]

theorem listing_of_readable {instructions : List Assembly.Instruction}
    (h : AllReadable instructions) :
    Listing (instructions.flatMap fun i => i.text.toList ++ ['\n']) instructions := by
  induction instructions with
  | nil => exact .nil
  | cons i rest ih =>
      rw [allReadable_cons] at h
      have hlisting := Listing.instruction h.1 (ih h.2)
      simpa using hlisting

theorem listing_of_expandFrom {t : Expander} {commands : List Command} {text out : String}
    (h : t.expandFrom text commands = .ok out) (ht : t.WellNamed)
    (hcommands : ∀ c ∈ commands, c.WellNamed) :
    ∃ blocks rest, t.Expanded commands blocks ∧ out.toList = text.toList ++ rest ∧
      Listing rest blocks.flatten := by
  induction commands generalizing t text with
  | nil =>
      cases h
      exact ⟨[], [], .nil t, by simp, .nil⟩
  | cons command commands ih =>
      unfold Expander.expandFrom at h
      cases hexpand : t.expand command with
      | error e => simp [hexpand] at h
      | ok result =>
          obtain ⟨block, t'⟩ := result
          simp only [hexpand] at h
          have hcommand := hcommands command List.mem_cons_self
          obtain ⟨hreadable, ht'⟩ := Expander.readable_of_expand hexpand ht hcommand
          obtain ⟨blocks, rest, hblocks, hout, hlisting⟩ := ih h ht' fun c hc =>
            hcommands c (List.mem_cons_of_mem _ hc)
          have hblock := (listing_of_readable hreadable).append hlisting
          have hspace : Plain (' ' :: command.text.toList) :=
            plain_cons (by decide) (plain_command hcommand)
          have hcomment := Listing.comment hspace hblock
          refine ⟨block :: blocks, _, .cons hexpand hblocks, ?_, hcomment⟩
          rw [hout, toList_foldl_text]
          simp

theorem listing_of_expandFile {file text : String} {commands : List Command}
    (h : expandFile file commands = .ok text) (hfile : isName file.toList = true)
    (hcommands : ∀ c ∈ commands, c.WellNamed) :
    ∃ blocks, ({ file } : Expander).Expanded commands blocks ∧
      Listing text.toList blocks.flatten := by
  obtain ⟨blocks, rest, hblocks, htext, hlisting⟩ := listing_of_expandFrom h ⟨hfile, by simp⟩ hcommands
  refine ⟨blocks, hblocks, ?_⟩
  have hheader : s!"// File: {file}.vm\n".toList =
      '/' :: '/' :: (" File: ".toList ++ (file.toList ++ ".vm".toList) ++ ['\n']) := by
    simp
    rfl
  have hplain : Plain (" File: ".toList ++ (file.toList ++ ".vm".toList)) := by
    refine plain_append ?_ (plain_append (plain_of_isName hfile) ?_)
    · exact plain_of_all (by decide)
    · exact plain_of_all (by decide)
  have hcomment := Listing.comment hplain hlisting
  rw [htext, hheader]
  simpa using hcomment

/-- The instructions of the bootstrap. -/
def bootstrapBlock : List Assembly.Instruction :=
  [.constant 256, assign "D" "A", .symbol "SP", assign "M" "D"] ++
    Expander.callFunction "Sys.init" 0 "Sys.bootstrap$ret.0"

theorem call_bootstrap : (({ file := "Sys" } : Expander).call "Sys.init" 0).1 =
    Expander.callFunction "Sys.init" 0 "Sys.bootstrap$ret.0" := by
  have hlabel (file caller : String) (number : Nat) (hfile : file = "Sys")
      (hcaller : caller = "bootstrap") (hnumber : number = 0) :
      s!"{file}.{caller}$ret.{number}" = "Sys.bootstrap$ret.0" := by
    subst hfile hcaller hnumber
    decide
  rw [← hlabel "Sys" "bootstrap" 0 rfl rfl rfl]
  rfl

theorem listing_bootstrap : Listing bootstrap.toList bootstrapBlock := by
  have hreadable : AllReadable bootstrapBlock := by
    have hcall := Expander.readable_callFunction (by decide : isName "Sys.init".toList = true)
      (by decide : isName "Sys.bootstrap$ret.0".toList = true) 0
    simp only [bootstrapBlock, allReadable_append, allReadable_cons, readable_constant,
      readable_symbol, readable_assign, hcall, allReadable_nil]
    decide
  have hplain : Plain " Bootstrap".toList := plain_of_all (by decide)
  have htext : bootstrap.toList = '/' :: '/' :: (" Bootstrap".toList ++ '\n' ::
      bootstrapBlock.flatMap fun i => i.text.toList ++ ['\n']) := by
    rw [bootstrap, call_bootstrap, String.toList_append, Assembly.render, toList_foldl_text]
    simp [bootstrapBlock]
  rw [htext]
  exact .comment hplain (listing_of_readable hreadable)

/-- The blocks of files in a row. -/
theorem listing_of_files {files : List (String × List Command)} {texts : List String}
    (h : files.mapM (fun file => expandFile file.1 file.2) = .ok texts)
    (hfiles : ∀ file ∈ files, isName file.1.toList = true ∧ ∀ c ∈ file.2, c.WellNamed) :
    ∃ blocks : List (List (List Assembly.Instruction)),
      List.Forall₂ (fun file blocks => ({ file := file.1 } : Expander).Expanded file.2 blocks)
        files blocks ∧ Listing (String.join texts).toList blocks.flatten.flatten := by
  induction files generalizing texts with
  | nil =>
      cases h
      exact ⟨[], .nil, .nil⟩
  | cons file files ih =>
      rw [List.mapM_cons] at h
      obtain ⟨text, hfirst, h⟩ := exists_of_bind h
      obtain ⟨rest, hrest, h⟩ := exists_of_bind h
      cases h
      obtain ⟨hname, hcommands⟩ := hfiles file List.mem_cons_self
      obtain ⟨blocks, hblocks, hlisting⟩ := listing_of_expandFile hfirst hname hcommands
      obtain ⟨others, hothers, htexts⟩ := ih hrest fun other hother =>
        hfiles other (List.mem_cons_of_mem _ hother)
      refine ⟨blocks :: others, .cons hblocks hothers, ?_⟩
      have happend := hlisting.append htexts
      simpa [String.join_cons] using happend

end JackToolchain.Stack
