import JackToolchain.Proofs.Translation.Simulation
import JackToolchain.Proofs.Translation.Statics

/-!
# Blocks of linked commands

The block that a command expands to is one of the operation that it links to.
-/

namespace JackToolchain.Machine

open JackToolchain.Assembly JackToolchain.Assembly.Instruction
open JackToolchain.Stack JackToolchain.Stack.Expander

/-- The function around the commands after one. -/
def functionAfter (function : Option String) : Command → Option String
  | .function name _ => some name
  | _ => function

theorem getD_functionAfter (function : Option String) (command : Command) :
    (functionAfter function command).getD topLevel = ownerAfter (function.getD topLevel) command := by
  cases command <;> rfl

section Expanding

variable {t t' : Expander} {command : Command} {block : List Assembly.Instruction}

theorem violation_of_expand (h : t.expand command = .ok (block, t')) : command.violation? = none := by
  unfold expand at h
  split at h
  · cases h
  · assumption

/-- An expansion keeps its file and knows the function around it. -/
theorem frame_of_expand (h : t.expand command = .ok (block, t')) :
    t'.file = t.file ∧ t'.function = functionAfter t.function command := by
  unfold expand at h
  rw [violation_of_expand h] at h
  cases command with
  | push segment index =>
      cases h
      exact ⟨rfl, rfl⟩
  | pop segment index =>
      cases h
      exact ⟨rfl, rfl⟩
  | arithmetic op =>
      have heq : t.arithmetic op = (block, t') := Except.ok.inj h
      have hnext : (t.arithmetic op).2 = t' := by rw [heq]
      rw [← hnext]
      cases op <;> exact ⟨rfl, rfl⟩
  | label name =>
      obtain ⟨_, _, h⟩ := exists_of_bind h
      cases h
      exact ⟨rfl, rfl⟩
  | goto name =>
      obtain ⟨_, _, h⟩ := exists_of_bind h
      cases h
      exact ⟨rfl, rfl⟩
  | ifGoto name =>
      obtain ⟨_, _, h⟩ := exists_of_bind h
      cases h
      exact ⟨rfl, rfl⟩
  | function name locals =>
      cases h
      exact ⟨rfl, rfl⟩
  | call name arguments =>
      cases h
      exact ⟨rfl, rfl⟩
  | «return» =>
      cases h
      exact ⟨rfl, rfl⟩

end Expanding

/-- A block that a row expands to. -/
def Expands (row : Row) (block : List Assembly.Instruction) : Prop :=
  ∃ t t' : Expander, t.expand row.command = .ok (block, t') ∧ t.file = row.file ∧
    t'.function.getD topLevel = row.owner

theorem expands_of_expanded {t : Expander} {commands : List Command}
    {blocks : List (List Assembly.Instruction)} (h : t.Expanded commands blocks) (base : Nat) :
    List.Forall₂ Expands (rowsFrom t.file base (t.function.getD topLevel) commands) blocks := by
  induction h with
  | nil t => exact .nil
  | @cons t t' command block commands blocks hexpand rest ih =>
      obtain ⟨hfile, hfunction⟩ := frame_of_expand hexpand
      rw [hfile, hfunction, getD_functionAfter] at ih
      refine .cons ⟨t, t', hexpand, rfl, ?_⟩ ih
      rw [hfunction, getD_functionAfter]

theorem expands_of_files {files : List SourceFile} {blocks : List (List (List Assembly.Instruction))}
    (h : List.Forall₂ (fun file blocks => ({ file := file.1 } : Expander).Expanded file.2 blocks)
      files blocks) (base : Nat) : List.Forall₂ Expands (rows base files) blocks.flatten := by
  induction h generalizing base with
  | nil => exact .nil
  | cons hfile rest ih =>
      rw [rows, List.flatten_cons]
      exact List.rel_append (expands_of_expanded hfile base) (ih _)

theorem violation_push {segment : Segment} {index : UInt16} {pops : Bool}
    (h : segment.violation? index pops = none) :
    (pops = true → segment ≠ .constant) ∧
      ∀ limit, segment.limit? = some limit → index.toNat ≤ limit := by
  unfold Segment.violation? at h
  split at h
  · cases h
  · rename_i hconstant
    refine ⟨?_, ?_⟩
    · rintro rfl rfl
      exact hconstant rfl
    · intro limit hlimit
      rw [hlimit] at h
      simp only at h
      split at h
      · cases h
      · omega

/-- Where the labels of a program are, and its static variables. -/
structure Links (K : Layout) (d : Directory) (all : List Row) : Prop where
  names : Conventional K.addresses
  labels : ∀ (owner name : String) (i : Nat), d.labels[(owner, name)]? = some i →
    K.addresses s!"{owner}${name}" = K.codeStart i
  functions : ∀ name i, d.functions[name]? = some i → K.addresses name = K.codeStart i
  calls : ∀ row ∈ all, ∀ name count, row.command = .call name count →
    ∃ i, d.functions[name]? = some i
  statics : ∀ row ∈ all, ∀ index : UInt16,
    row.command = .push .static index ∨ row.command = .pop .static index →
      K.statics (row.base + index.toNat) (K.addresses (staticName row.file index.toNat))

section Translating

variable {K : Layout} {d : Directory} {all : List Row} {file owner : String} {base : Nat}
  {block : List Assembly.Instruction}

/-- The word of a segment with fixed addresses. -/
theorem loads_fixedWord (hnames : Conventional K.addresses) {segment : Segment} {index : UInt16}
    {i : Assembly.Instruction} (hword : fixedWord? file segment index = some i)
    (hlimit : ∀ limit, segment.limit? = some limit → index.toNat ≤ limit)
    (hstatic : segment = .static →
      K.statics (base + index.toNat) (K.addresses (staticName file index.toNat))) :
    ∃ a b, locate base segment index = .fixed a ∧ Loads K.addresses i b ∧ K.Fixed a b := by
  cases segment <;> simp only [fixedWord?, Option.some.injEq, reduceCtorEq] at hword
  case static =>
    rw [← hword]
    exact ⟨_, _, rfl, loads_symbol _, .inr (hstatic rfl)⟩
  case temp =>
    have hle := hlimit 7 rfl
    have hsum : (5 + index : UInt16).toNat = 5 + index.toNat := by
      rw [UInt16.toNat_add]
      have hfive : (5 : UInt16).toNat = 5 := rfl
      omega
    rw [← hword]
    refine ⟨_, _, rfl, loads_constant _, .inl ⟨by omega, by omega, hsum⟩⟩
  case pointer =>
    have hle := hlimit 1 rfl
    rw [← hword]
    refine ⟨_, _, rfl, loads_symbol _, .inl ⟨by omega, by omega, ?_⟩⟩
    unfold pointerRegister
    split
    · rename_i hzero
      rw [hnames.this, hzero]
      rfl
    · rename_i hone
      have hne : index.toNat ≠ 0 := fun h => hone (UInt16.toNat_inj.mp h)
      rw [hnames.that]
      omega

theorem locate_based {segment : Segment} (hfixed : fixedWord? file segment 0 = none)
    (hconstant : segment ≠ .constant) (hnames : Conventional K.addresses) (index : UInt16) :
    ∃ register, locate base segment index = .based register index ∧ register ≠ .stack ∧
      K.addresses (baseRegister segment) = register.address := by
  cases segment with
  | argument => exact ⟨.arguments, rfl, by decide, hnames.arg⟩
  | locals => exact ⟨.locals, rfl, by decide, hnames.lcl⟩
  | this => exact ⟨.this, rfl, by decide, hnames.this⟩
  | that => exact ⟨.that, rfl, by decide, hnames.that⟩
  | constant => exact absurd rfl hconstant
  | static | temp | pointer => cases hfixed

theorem translates_push (hnames : Conventional K.addresses) {segment : Segment} {index : UInt16}
    (hviolation : segment.violation? index false = none)
    (hstatic : segment = .static →
      K.statics (base + index.toNat) (K.addresses (staticName file index.toNat))) :
    Translates K (.push (locate base segment index)) (pushFrom file segment index) := by
  cases hword : fixedWord? file segment index with
  | some i =>
      obtain ⟨a, b, hlocate, hload, hfixed⟩ :=
        loads_fixedWord hnames hword (violation_push hviolation).2 hstatic
      have hblock : pushFrom file segment index = [i, assign "D" "M"] ++ pushD := by
        cases segment <;> cases hword <;> rfl
      rw [hlocate, hblock]
      exact .pushFixed hload hfixed
  | none =>
      by_cases hconstant : segment = .constant
      · rw [hconstant]
        exact .pushConstant index
      · have hfixed : fixedWord? file segment 0 = none := by
          cases segment <;> first | rfl | cases hword
        obtain ⟨register, hlocate, _, hbase⟩ := locate_based hfixed hconstant hnames index
        have hblock : pushFrom file segment index = [constant index, assign "D" "A",
            symbol (baseRegister segment), assign "A" "D+M", assign "D" "M"] ++ pushD := by
          cases segment <;> first | rfl | exact absurd rfl hconstant | cases hword
        rw [hlocate, hblock]
        exact .pushBased index hbase

theorem translates_pop (hnames : Conventional K.addresses) {segment : Segment} {index : UInt16}
    (hviolation : segment.violation? index true = none)
    (hstatic : segment = .static →
      K.statics (base + index.toNat) (K.addresses (staticName file index.toNat))) :
    Translates K (.pop (locate base segment index)) (popInto file segment index) := by
  obtain ⟨hpops, hlimit⟩ := violation_push hviolation
  cases hword : fixedWord? file segment index with
  | some i =>
      obtain ⟨a, b, hlocate, hload, hfixed⟩ := loads_fixedWord hnames hword hlimit hstatic
      have hblock : popInto file segment index = popD ++ [i, assign "M" "D"] := by
        rw [popInto, hword]
      rw [hlocate, hblock]
      exact .popFixed hload hfixed
  | none =>
      have hfixed : fixedWord? file segment 0 = none := by
        cases segment <;> first | rfl | cases hword
      obtain ⟨register, hlocate, hne, hbase⟩ := locate_based hfixed (hpops rfl) hnames index
      have hblock : popInto file segment index = [constant index, assign "D" "A",
          symbol (baseRegister segment), assign "D" "D+M", symbol "R13", assign "M" "D"] ++ popD ++
            [symbol "R13", assign "A" "M", assign "M" "D"] := by
        rw [popInto, hword]
      rw [hlocate, hblock]
      exact .popBased index hbase hne

theorem translates_arithmetic (t : Expander) (op : Arithmetic) :
    Translates K (.arithmetic op) (t.arithmetic op).1 := by
  cases op
  case neg => exact .unary (by decide)
  case not => exact .unary (by decide)
  case eq => exact .compare t.file t.comparisons (by decide)
  case gt => exact .compare t.file t.comparisons (by decide)
  case lt => exact .compare t.file t.comparisons (by decide)
  all_goals exact .binary (by decide)

/-- The function around a branch and its label. -/
theorem branchLabel_of_owner {t : Expander} {command : Command} {label name : String}
    (h : t.branchLabel label command = .ok name) (howner : t.function.getD topLevel = owner) :
    name = s!"{owner}${label}" := by
  obtain ⟨function, hfunction, rfl⟩ := branchLabel_eq h
  rw [hfunction] at howner
  rw [← howner]
  rfl

theorem Links.target (hlinks : Links K d all) {label : String} {target : Nat}
    (h : d.label owner label = .ok target) :
    K.addresses s!"{owner}${label}" = K.codeStart target := by
  unfold Directory.label at h
  split at h
  · rename_i hlabel
    cases h
    exact hlinks.labels owner label _ hlabel
  · cases h

/-- A block of a row is one of its operation. -/
theorem Links.translates (hlinks : Links K d all) {row : Row} {i : Instruction} (hrow : row ∈ all)
    (hresolves : Resolves d row i) (hexpands : Expands row block) : Translates K i.op block := by
  obtain ⟨t, t', hexpand, hfile, howner⟩ := hexpands
  have hframe := (frame_of_expand hexpand).2
  have hstatics := hlinks.statics row hrow
  have hcalls := hlinks.calls row hrow
  obtain ⟨hop, -⟩ := hresolves
  have hviolation := violation_of_expand hexpand
  obtain ⟨rowFile, rowBase, rowOwner, command⟩ := row
  simp only at hexpand hop hfile howner hstatics hcalls hviolation hframe
  unfold expand at hexpand
  rw [hviolation] at hexpand
  rw [hframe] at howner
  cases command with
  | push segment index =>
      cases hexpand
      rw [← Except.ok.inj hop, hfile]
      exact translates_push hlinks.names hviolation fun h => hstatics index (.inl (by rw [h]))
  | pop segment index =>
      cases hexpand
      rw [← Except.ok.inj hop, hfile]
      exact translates_pop hlinks.names hviolation fun h => hstatics index (.inr (by rw [h]))
  | arithmetic op =>
      have hblock : (t.arithmetic op).1 = block := by rw [Except.ok.inj hexpand]
      rw [← Except.ok.inj hop, ← hblock]
      exact translates_arithmetic t op
  | label name =>
      obtain ⟨target, -, hexpand⟩ := exists_of_bind hexpand
      cases hexpand
      rw [← Except.ok.inj hop]
      exact .skip target
  | goto name =>
      obtain ⟨branch, hbranch, hexpand⟩ := exists_of_bind hexpand
      obtain ⟨target, htarget, hop⟩ := exists_of_map hop
      cases hexpand
      rw [← hop, branchLabel_of_owner hbranch howner]
      exact .jump (hlinks.target htarget)
  | ifGoto name =>
      obtain ⟨branch, hbranch, hexpand⟩ := exists_of_bind hexpand
      obtain ⟨target, htarget, hop⟩ := exists_of_map hop
      cases hexpand
      rw [← hop, branchLabel_of_owner hbranch howner]
      exact .jumpIf (hlinks.target htarget)
  | function name locals =>
      cases hexpand
      rw [← Except.ok.inj hop]
      exact .enter name locals
  | call name count =>
      cases hexpand
      obtain ⟨entry, hentry⟩ := hcalls name count rfl
      rw [← Except.ok.inj hop, Directory.target, hentry]
      exact .call count _ (hlinks.functions name entry hentry)
  | «return» =>
      cases hexpand
      rw [← Except.ok.inj hop]
      exact .leave

end Translating

end JackToolchain.Machine
