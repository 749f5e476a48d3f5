import JackToolchain.Proofs.Assembly.Resolution
import JackToolchain.Proofs.Stack.Names
import JackToolchain.Proofs.Translation.Text

/-!
# The lines of an expansion

A line of an expansion is a comment or an instruction, and the only instructions that cannot be
read back are constants beyond fifteen bits. A block has one exactly if its command is wide: the
index of a based segment or the number of arguments of a call is written as it is. Without wide
commands, an expansion is refused for its labels or its size only.
-/

namespace JackToolchain.Stack

open JackToolchain.Assembly JackToolchain.Assembly.Instruction JackToolchain.Text

/-! ## Constants -/

section Constants

variable {block : List Assembly.Instruction}

@[simp] theorem constantsOf_nil : constantsOf [] = [] := rfl

@[simp] theorem constantsOf_constant (value : UInt16) :
    constantsOf (.constant value :: block) = value :: constantsOf block := rfl

@[simp] theorem constantsOf_symbol (name : String) :
    constantsOf (.symbol name :: block) = constantsOf block := rfl

@[simp] theorem constantsOf_label (name : String) :
    constantsOf (.label name :: block) = constantsOf block := rfl

@[simp] theorem constantsOf_assign (dest comp : String) :
    constantsOf (assign dest comp :: block) = constantsOf block := rfl

@[simp] theorem constantsOf_jump (comp condition : String) :
    constantsOf (jump comp condition :: block) = constantsOf block := rfl

@[simp] theorem constantsOf_append (front back : List Assembly.Instruction) :
    constantsOf (front ++ back) = constantsOf front ++ constantsOf back :=
  List.filterMap_append

theorem constantsOf_flatten_replicate (count : Nat) (h : constantsOf block = []) :
    constantsOf (List.replicate count block).flatten = [] := by
  induction count with
  | zero => rfl
  | succ count ih => simp [List.replicate_succ, ih, h]

end Constants

namespace Expander

@[simp] theorem constantsOf_pushD : constantsOf pushD = [] := rfl

@[simp] theorem constantsOf_popD : constantsOf popD = [] := rfl

@[simp] theorem constantsOf_unary (comp : String) : constantsOf (unary comp) = [] := rfl

@[simp] theorem constantsOf_combine (comp : String) : constantsOf (combine comp) = [] := rfl

@[simp] theorem constantsOf_compare (file : String) (op : Arithmetic) (condition : String)
    (number : Nat) : constantsOf (compare file op condition number) = [] := rfl

theorem constantsOf_arithmetic (t : Expander) (op : Arithmetic) :
    constantsOf (t.arithmetic op).1 = [] := by
  cases op
  all_goals rfl

theorem constantsOf_enterFunction (name : String) (locals : UInt16) :
    constantsOf (enterFunction name locals) = [] := by
  have hblock : constantsOf [assign "M" "0", assign "A" "A+1"] = [] := rfl
  have hclear := constantsOf_flatten_replicate locals.toNat hblock
  simp [enterFunction, hclear]

theorem constantsOf_callFunction (name returnLabel : String) (arguments : UInt16) :
    constantsOf (callFunction name arguments returnLabel) = [5, arguments] := by
  simp [callFunction, frameRegisters]

end Expander

/-- The constants in the block of a command. -/
def Command.constants : Command → List UInt16
  | .push segment index | .pop segment index =>
    match segment with
    | .static | .pointer => []
    | .temp => [5 + index]
    | _ => [index]
  | .call _ arguments => [5, arguments]
  | .return => [5]
  | _ => []

/-- The index of a based segment or the number of arguments has more than fifteen bits. -/
def Command.isWide : Command → Bool
  | .push segment index | .pop segment index =>
    match segment with
    | .argument | .locals | .this | .that => decide (32767 < index.toNat)
    | _ => false
  | .call _ arguments => decide (32767 < arguments.toNat)
  | _ => false

namespace Expander

variable {t t' : Expander} {command : Command} {block : List Assembly.Instruction}

theorem constantsOf_expand (h : t.expand command = .ok (block, t')) :
    command.violation? = none ∧ constantsOf block = command.constants := by
  unfold expand at h
  split at h
  · cases h
  · rename_i hlegal
    refine ⟨hlegal, ?_⟩
    cases command with
    | push segment index =>
        cases h
        cases segment
        all_goals rfl
    | pop segment index =>
        cases h
        cases segment
        case constant => cases hlegal
        all_goals rfl
    | arithmetic op =>
        have heq : t.arithmetic op = (block, t') := Except.ok.inj h
        have hnone := constantsOf_arithmetic t op
        rw [heq] at hnone
        exact hnone
    | label name =>
        obtain ⟨target, -, h⟩ := exists_of_bind h
        cases h
        rfl
    | goto name =>
        obtain ⟨target, -, h⟩ := exists_of_bind h
        cases h
        rfl
    | ifGoto name =>
        obtain ⟨target, -, h⟩ := exists_of_bind h
        cases h
        rfl
    | function name locals =>
        cases h
        exact constantsOf_enterFunction name locals
    | call name arguments =>
        cases h
        exact constantsOf_callFunction name _ arguments
    | «return» =>
        cases h
        rfl

end Expander

/-- The constants of a legal command fit unless the command is wide. -/
theorem Command.exists_constant_iff {command : Command} (h : command.violation? = none) :
    (∃ value ∈ command.constants, 32767 < value.toNat) ↔ command.isWide = true := by
  have haccess (segment : Segment) (index : UInt16) (pops : Bool)
      (hlegal : segment.violation? index pops = none) :
      (∃ value ∈ (Command.push segment index).constants, 32767 < value.toNat) ↔
        (Command.push segment index).isWide = true := by
    cases segment
    case constant =>
      have hsmall : ¬32767 < index.toNat := by
        intro hlarge
        cases pops <;> simp [Segment.violation?, Segment.limit?, hlarge] at hlegal
      simp [constants, isWide, hsmall]
    case temp =>
      have hsmall : ¬7 < index.toNat := by
        intro hlarge
        cases pops <;> simp [Segment.violation?, Segment.limit?, hlarge] at hlegal
      have hsum : (5 + index).toNat = 5 + index.toNat := by
        rw [UInt16.toNat_add]
        exact Nat.mod_eq_of_lt (by change 5 + index.toNat < 65536; omega)
      simp only [constants, isWide, List.mem_singleton, exists_eq_left, hsum, Bool.false_eq_true,
        iff_false]
      omega
    all_goals simp [constants, isWide]
  cases command with
  | push segment index => exact haccess segment index false h
  | pop segment index => exact haccess segment index true h
  | call name arguments => simp [constants, isWide]
  | _ => simp [constants, isWide]

theorem Expander.Expanded.exists_constant_iff {t : Expander} {commands : List Command}
    {blocks : List (List Assembly.Instruction)} (h : t.Expanded commands blocks) :
    (∃ value, .constant value ∈ blocks.flatten ∧ 32767 < value.toNat) ↔
      ∃ c ∈ commands, c.isWide = true := by
  induction h with
  | nil t => simp
  | @cons t t' command block commands blocks hexpand rest ih =>
      obtain ⟨hlegal, hconstants⟩ := Expander.constantsOf_expand hexpand
      have hblock : (∃ value, .constant value ∈ block ∧ 32767 < value.toNat) ↔
          command.isWide = true := by
        rw [← Command.exists_constant_iff hlegal, ← hconstants]
        simp only [mem_constantsOf]
      simp only [List.flatten_cons, List.mem_append, List.mem_cons, or_and_right, exists_or,
        exists_eq_left, hblock, ih]

/-! ## Lines -/

/-- The lines of a listing. -/
theorem mem_lines_of_listing {text : List Char} {instructions : List Assembly.Instruction}
    (h : Listing text instructions) :
    (∀ raw ∈ linesFrom [] [] text, (∃ comment, raw = String.ofList ('/' :: '/' :: comment)) ∨
      ∃ i ∈ instructions, raw = i.text) ∧
    ∀ i ∈ instructions, i.text ∈ linesFrom [] [] text := by
  induction h with
  | nil => simp [linesFrom]
  | @comment comment text instructions hline h ih =>
      have hplain : Plain ('/' :: '/' :: comment) :=
        plain_cons (by decide) (plain_cons (by decide) hline)
      have hlines := linesFrom_cons text hplain
      simp only [List.cons_append] at hlines
      rw [hlines]
      refine ⟨List.forall_mem_cons.mpr ⟨.inl ⟨comment, rfl⟩, ih.1⟩, fun i hi => ?_⟩
      exact List.mem_cons_of_mem _ (ih.2 i hi)
  | @instruction i text instructions hi h ih =>
      rw [linesFrom_cons text (plain_text hi), String.ofList_toList]
      refine ⟨List.forall_mem_cons.mpr ⟨.inr ⟨i, List.mem_cons_self, rfl⟩, fun raw hraw => ?_⟩,
        fun j hj => ?_⟩
      · rcases ih.1 raw hraw with hcomment | ⟨j, hj, heq⟩
        · exact .inl hcomment
        · exact .inr ⟨j, List.mem_cons_of_mem _ hj, heq⟩
      · rcases List.mem_cons.mp hj with rfl | hj
        · exact List.mem_cons_self
        · exact List.mem_cons_of_mem _ (ih.2 j hj)

/-- A line that is read, and if it computes, has a word. -/
def Accepted (raw : String) (line : Nat) : Prop :=
  ∃ found, Assembly.readLine raw line = .ok found ∧
    ∀ dest comp jump, found = some (.compute dest comp jump) →
      ∃ word, encodeParts dest comp jump = .ok word

/-- An instruction of a listing is accepted on its line, unless it is a constant that does not
fit. -/
theorem accepted_or_refused {i : Assembly.Instruction} (h : Readable i) (line : Nat) :
    Accepted i.text line ∧ (∀ value, i = .constant value → value.toNat ≤ 32767) ∨
      ∃ value, i = .constant value ∧ 32767 < value.toNat ∧
        Assembly.readLine i.text line =
          .error (.badLine line (.constantOutOfRange (toString value.toNat))) := by
  cases h with
  | constant value =>
      have hread := readLine_constant value line
      by_cases hsmall : value.toNat < 32768
      · rw [if_pos hsmall] at hread
        refine .inl ⟨⟨_, hread, fun _ _ _ heq => by cases heq⟩, fun other heq => ?_⟩
        cases heq
        omega
      · rw [if_neg hsmall] at hread
        exact .inr ⟨value, rfl, by omega, hread⟩
  | symbol h =>
      exact .inl ⟨⟨_, readLine_symbol h line, fun _ _ _ heq => by cases heq⟩,
        fun _ heq => by cases heq⟩
  | label h =>
      exact .inl ⟨⟨_, readLine_label h line, fun _ _ _ heq => by cases heq⟩,
        fun _ heq => by cases heq⟩
  | assign h =>
      refine .inl ⟨⟨_, readLine_assign h line, fun dest comp jump heq => ?_⟩,
        fun _ heq => by cases heq⟩
      cases heq
      exact encodeParts_of_assignment h
  | jump h =>
      refine .inl ⟨⟨_, readLine_jump h line, fun dest comp jump heq => ?_⟩,
        fun _ heq => by cases heq⟩
      cases heq
      exact encodeParts_of_branch h

theorem accepted_comment (comment : List Char) (line : Nat) :
    Accepted (String.ofList ('/' :: '/' :: comment)) line :=
  ⟨none, readLine_comment comment line, fun _ _ _ heq => by cases heq⟩

/-! ## Expansions -/

/-- The lines of the expansion of a file. Each is accepted but for constants beyond fifteen bits,
which come from wide commands; if there are none, the expansion is refused only for a label that is
defined twice or for its size. -/
theorem lines_accepted {file text out : String} {commands : List Command}
    (hread : read text = .ok commands) (hfile : isName file.toList = true)
    (hexpand : expandFile file commands = .ok out) :
    (∀ raw ∈ lines out, ∀ line, Accepted raw line ∨
      ∃ value : UInt16, raw = s!"@{value.toNat}" ∧ 32767 < value.toNat ∧
        Assembly.readLine raw line =
          .error (.badLine line (.constantOutOfRange (toString value.toNat)))) ∧
    ((∀ raw ∈ lines out, ∀ line, Accepted raw line) ↔ ∀ c ∈ commands, c.isWide = false) ∧
    ((∀ c ∈ commands, c.isWide = false) → ∀ e, assemble out = .error e →
      (∃ line label, e = .badLine line (.duplicateLabel label)) ∨
        ∃ count, e = .programTooLarge count) := by
  obtain ⟨blocks, hblocks, hlisting⟩ := listing_of_expandFile hexpand hfile (wellNamed_of_read hread)
  obtain ⟨hlines, htexts⟩ := mem_lines_of_listing hlisting
  have hwide := hblocks.exists_constant_iff
  have hreadable := hlisting.readable
  have hsmall (hnarrow : ∀ c ∈ commands, c.isWide = false) :
      ∀ value, .constant value ∈ blocks.flatten → value.toNat < 32768 := by
    intro value hvalue
    by_contra hlarge
    obtain ⟨c, hc, hcwide⟩ := hwide.mp ⟨value, hvalue, by omega⟩
    rw [hnarrow c hc] at hcwide
    cases hcwide
  refine ⟨fun raw hraw line => ?_, ⟨fun haccepted c hc => ?_, fun hnarrow raw hraw line => ?_⟩,
    fun hnarrow e he => ?_⟩
  · rcases hlines raw hraw with ⟨comment, rfl⟩ | ⟨i, hi, rfl⟩
    · exact .inl (accepted_comment comment line)
    · rcases accepted_or_refused (hreadable i hi) line with ⟨haccepted, -⟩ | ⟨value, rfl, hlarge⟩
      · exact .inl haccepted
      · exact .inr ⟨value, rfl, hlarge⟩
  · rw [← Bool.not_eq_true]
    intro hcwide
    obtain ⟨value, hvalue, hlarge⟩ := hwide.mpr ⟨c, hc, hcwide⟩
    obtain ⟨found, hfound, -⟩ := haccepted _ (htexts _ hvalue) 1
    rw [readLine_constant, if_neg (by omega)] at hfound
    cases hfound
  · rcases hlines raw hraw with ⟨comment, rfl⟩ | ⟨i, hi, rfl⟩
    · exact accepted_comment comment line
    · rcases accepted_or_refused (hreadable i hi) line with ⟨haccepted, -⟩ | ⟨value, rfl, hlarge, -⟩
      · exact haccepted
      · have hlt := hsmall hnarrow value hi
        omega
  · obtain ⟨source, hsource⟩ := readLines_total hlisting (hsmall hnarrow) [] 1
    have hlinesof : Assembly.read out = .ok source := hsource
    have hassemble : assemble out = ofLines source := by
      rw [assemble, hlinesof]
      rfl
    rw [hassemble] at he
    rcases error_of_ofLines he with hbind | ⟨bound, hencode⟩
    · exact duplicate_or_large_of_bindLabels hbind
    · have hinstructions := instructions_of_read hlisting hlinesof
      obtain ⟨words, symbols, hok⟩ := encodeLines_isOk [] (s := bound) fun line hline =>
        hreadable _ (hinstructions ▸ List.mem_map_of_mem hline)
      rw [hok] at hencode
      cases hencode

/-- An index of sixteen bits is refused behind the expansion, not in front of it. -/
theorem lines_accepted_wide : ∃ out,
    expandFile "Main" [.function "Main.main" 0, .push .locals 32768, .return] = .ok out ∧
      ¬∀ raw ∈ lines out, ∀ line, Accepted raw line := by
  have hread : read "function Main.main 0\npush local 32768\nreturn" =
      .ok [.function "Main.main" 0, .push .locals 32768, .return] := by decide
  obtain ⟨out, hexpand⟩ : ∃ out, expandFile "Main"
      [.function "Main.main" 0, .push .locals 32768, .return] = .ok out := ⟨_, rfl⟩
  have hlines := (lines_accepted hread (by decide) hexpand).2.1
  refine ⟨out, hexpand, fun haccepted => ?_⟩
  exact absurd (hlines.mp haccepted (.push .locals 32768) (by simp)) (by decide)

end JackToolchain.Stack
