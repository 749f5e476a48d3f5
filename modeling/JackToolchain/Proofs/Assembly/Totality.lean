import JackToolchain.Proofs.Assembly.Listing

/-!
# Listings assemble

A listing whose labels are new and apart, whose constants fit and which is not too long has a
program.
-/

namespace JackToolchain.Assembly

open Symbols JackToolchain.Text

/-- The labels among some instructions. -/
def labelsOf (instructions : List Instruction) : List String :=
  instructions.filterMap fun
    | .label name => some name
    | _ => none

theorem labelsOf_label (name : String) (rest : List Instruction) :
    labelsOf (.label name :: rest) = name :: labelsOf rest := rfl

theorem labelsOf_cons {i : Instruction} (hi : ∀ name, i ≠ .label name) (rest : List Instruction) :
    labelsOf (i :: rest) = labelsOf rest := by
  cases i with
  | label name => exact absurd rfl (hi name)
  | constant value => rfl
  | symbol name => rfl
  | compute dest comp jump => rfl

/-- What one form of instructions carries is found in that form. -/
theorem mem_filterMap_iff {α : Type} {part? : Instruction → Option α} {form : α → Instruction}
    (h : ∀ i a, part? i = some a ↔ i = form a) {instructions : List Instruction} {a : α} :
    a ∈ instructions.filterMap part? ↔ form a ∈ instructions := by
  simp only [List.mem_filterMap, h, exists_eq_right]

theorem mem_labelsOf {instructions : List Instruction} {name : String} :
    name ∈ labelsOf instructions ↔ .label name ∈ instructions :=
  mem_filterMap_iff fun i a => by cases i <;> simp

/-- The constants among some instructions. -/
def constantsOf (instructions : List Instruction) : List UInt16 :=
  instructions.filterMap fun
    | .constant value => some value
    | _ => none

theorem mem_constantsOf {instructions : List Instruction} {value : UInt16} :
    value ∈ constantsOf instructions ↔ .constant value ∈ instructions :=
  mem_filterMap_iff fun i a => by cases i <;> simp

/-- A listing with constants that fit is read. -/
theorem readLines_total {text : List Char} {instructions : List Instruction}
    (h : Listing text instructions)
    (hsmall : ∀ value, .constant value ∈ instructions → value.toNat < 32768)
    (done : List SourceLine) (line : Nat) :
    ∃ source, readLines done line (Text.linesFrom [] [] text) = .ok source := by
  induction h generalizing done line with
  | nil => exact ⟨done.reverse, rfl⟩
  | @comment front text instructions hline h ih =>
      have hplain : Plain ('/' :: '/' :: front) :=
        plain_cons (by decide) (plain_cons (by decide) hline)
      have hlines := linesFrom_cons text hplain
      simp only [List.cons_append] at hlines
      rw [hlines, readLines, readLine_comment]
      exact ih hsmall done (line + 1)
  | @instruction i text instructions hi h ih =>
      have hrest : ∀ value, .constant value ∈ instructions → value.toNat < 32768 :=
        fun value hvalue => hsmall value (List.mem_cons_of_mem _ hvalue)
      have hone : readLine i.text line = .ok (some i) := by
        cases hi with
        | constant value =>
            rw [readLine_constant, if_pos (hsmall value List.mem_cons_self)]
        | symbol h => exact readLine_symbol h line
        | label h => exact readLine_label h line
        | assign h => exact readLine_assign h line
        | jump h => exact readLine_jump h line
      rw [linesFrom_cons text (plain_text hi), String.ofList_toList, readLines, hone]
      exact ih hrest _ (line + 1)

theorem define?_of_get? {s : Symbols} {name : String} {address : UInt16}
    (h : s.get? name = none) : s.define? name address = some (s.bind name address) := by
  rw [define?, if_neg]
  simpa [get?, contains] using h

theorem define?_of_get?_eq_some {s : Symbols} {name : String} {address a : UInt16}
    (h : s.get? name = some a) : s.define? name address = none := by
  rw [define?, if_pos]
  simp only [contains, Std.HashMap.contains_eq_isSome_getElem?]
  rw [get?] at h
  rw [h]
  rfl

theorem bindLabels_total {s : Symbols} {address : Nat} (labels : Nat) {lines : List SourceLine}
    (hfresh : ∀ name, .label name ∈ lines.map SourceLine.instruction → s.get? name = none)
    (hnodup : (labelsOf (lines.map SourceLine.instruction)).Nodup)
    (hroom : address + wordCount (lines.map SourceLine.instruction) ≤ romSize) :
    ∃ t n, bindLabels s address labels lines = .ok (t, n) := by
  induction lines generalizing s address labels with
  | nil =>
      refine ⟨s, labels, ?_⟩
      rw [bindLabels, if_neg (by simpa using hroom)]
  | cons source rest ih =>
      obtain ⟨line, i⟩ := source
      rw [List.map_cons, wordCount_cons] at hroom
      by_cases hlabel : ∃ name, i = .label name
      · obtain ⟨name, rfl⟩ := hlabel
        have hname := hfresh name List.mem_cons_self
        rw [List.map_cons, labelsOf_label, List.nodup_cons] at hnodup
        have haddress : ¬address > 65535 := by
          unfold romSize at hroom
          omega
        rw [bindLabels, if_neg haddress, define?_of_get? hname]
        refine ih (labels + 1) (fun other hother => ?_) hnodup.2 (by simpa using hroom)
        rw [get?_bind, if_neg, hfresh other (List.mem_cons_of_mem _ hother)]
        rintro rfl
        exact hnodup.1 (mem_labelsOf.mpr hother)
      · have hnot : ∀ name, i ≠ .label name := fun name heq => hlabel ⟨name, heq⟩
        have hskip : bindLabels s address labels (⟨line, i⟩ :: rest) =
            bindLabels s (address + 1) labels rest ∧ i.size = 1 :=
          bindLabels_cons_of_not_label rest hnot
        rw [List.map_cons, labelsOf_cons hnot] at hnodup
        rw [hskip.1]
        refine ih labels (fun name hname => hfresh name (List.mem_cons_of_mem _ hname)) hnodup ?_
        rw [hskip.2] at hroom
        omega

/-- Why the first pass refuses a text at a line, or behind it. -/
theorem bindLabels_cons_eq_error {s : Symbols} {address labels line : Nat} {i : Instruction}
    {rest : List SourceLine} {e : AssemblyError}
    (h : bindLabels s address labels (⟨line, i⟩ :: rest) = .error e) :
    (∃ name, i = .label name ∧ (e = .programTooLarge address ∨
      s.get? name ≠ none ∧ e = .badLine line (.duplicateLabel name) ∨
        bindLabels (s.bind name address.toUInt16) address (labels + 1) rest = .error e)) ∨
    (∀ name, i ≠ .label name) ∧ bindLabels s (address + 1) labels rest = .error e := by
  by_cases hlabel : ∃ name, i = .label name
  · obtain ⟨name, rfl⟩ := hlabel
    refine .inl ⟨name, rfl, ?_⟩
    rw [bindLabels] at h
    split at h
    · exact .inl (Except.error.inj h).symm
    · cases hget : s.get? name with
      | none =>
          rw [define?_of_get? hget] at h
          exact .inr (.inr h)
      | some a =>
          rw [define?_of_get?_eq_some hget] at h
          exact .inr (.inl ⟨by simp, (Except.error.inj h).symm⟩)
  · have hnot : ∀ name, i ≠ .label name := fun name heq => hlabel ⟨name, heq⟩
    rw [(bindLabels_cons_of_not_label rest hnot).1] at h
    exact .inr ⟨hnot, h⟩

theorem bindLabels_nil_eq_error {s : Symbols} {address labels : Nat} {e : AssemblyError}
    (h : bindLabels s address labels [] = .error e) : e = .programTooLarge address := by
  rw [bindLabels] at h
  split at h
  · exact (Except.error.inj h).symm
  · cases h

/-- Labels that are new and apart are bound unless there are too many words. -/
theorem bindLabels_error {s : Symbols} {address labels : Nat} {lines : List SourceLine}
    {e : AssemblyError}
    (hfresh : ∀ name, .label name ∈ lines.map SourceLine.instruction → s.get? name = none)
    (hnodup : (labelsOf (lines.map SourceLine.instruction)).Nodup)
    (h : bindLabels s address labels lines = .error e) : ∃ count, e = .programTooLarge count := by
  induction lines generalizing s address labels with
  | nil => exact ⟨address, bindLabels_nil_eq_error h⟩
  | cons source rest ih =>
      obtain ⟨line, i⟩ := source
      rw [List.map_cons] at hfresh hnodup
      rcases bindLabels_cons_eq_error h with ⟨name, rfl, h | ⟨htaken, -⟩ | h⟩ | ⟨hnot, h⟩
      · exact ⟨address, h⟩
      · exact absurd (hfresh name List.mem_cons_self) htaken
      · rw [labelsOf_label, List.nodup_cons] at hnodup
        refine ih (fun other hother => ?_) hnodup.2 h
        rw [get?_bind, if_neg, hfresh other (List.mem_cons_of_mem _ hother)]
        rintro rfl
        exact hnodup.1 (mem_labelsOf.mpr hother)
      · rw [labelsOf_cons hnot] at hnodup
        exact ih (fun name hname => hfresh name (List.mem_cons_of_mem _ hname)) hnodup h

theorem encodeParts_of_assignment {dest comp : String} (h : (dest, comp) ∈ assignments) :
    ∃ word, encodeParts (some dest) comp none = .ok word := by
  have hall : ∀ row ∈ assignments, (encodeParts (some row.1) row.2 none).isOk = true := by decide
  cases hword : encodeParts (some dest) comp none with
  | ok word => exact ⟨word, rfl⟩
  | error fault =>
      have hok := hall (dest, comp) h
      simp only [hword] at hok
      cases hok

theorem encodeParts_of_branch {comp condition : String} (h : (comp, condition) ∈ branches) :
    ∃ word, encodeParts none comp (some condition) = .ok word := by
  have hall : ∀ row ∈ branches, (encodeParts none row.1 (some row.2)).isOk = true := by decide
  cases hword : encodeParts none comp (some condition) with
  | ok word => exact ⟨word, rfl⟩
  | error fault =>
      have hok := hall (comp, condition) h
      simp only [hword] at hok
      cases hok

/-- All addresses fit into fifteen bits. -/
def Symbols.Small (s : Symbols) : Prop := ∀ name a, s.get? name = some a → a.toNat < 32768

theorem small_predefined : ({} : Symbols).Small := by
  intro name a hget
  rw [get?_empty] at hget
  have hall : ∀ row ∈ predefined, row.2.toNat < 32768 := by decide
  exact hall (name, a) (mem_of_lookup hget)

theorem small_bind {s : Symbols} (h : s.Small) (name : String) {address : Nat}
    (haddress : address < 32768) : (s.bind name address.toUInt16).Small := by
  intro other a hget
  rw [get?_bind] at hget
  split at hget
  · cases hget
    rw [Nat.toUInt16_eq, UInt16.toNat_ofNat']
    omega
  · exact h other a hget

theorem resolve_small {s : Symbols} (h : s.Small) (name : String)
    (hroom : variableBase + s.variableCount < 32768) :
    (s.resolve name).2.Small ∧ (s.resolve name).2.variableCount ≤ s.variableCount + 1 := by
  unfold resolve
  cases hget : s.get? name with
  | some a => exact ⟨h, Nat.le_succ _⟩
  | none => exact ⟨small_bind h name hroom, Nat.min_le_left _ _⟩

theorem bindLabels_small {s t : Symbols} {address labels n : Nat} {lines : List SourceLine}
    (h : bindLabels s address labels lines = .ok (t, n)) (hs : s.Small)
    (hroom : address + wordCount (lines.map SourceLine.instruction) < 32768) : t.Small := by
  induction lines generalizing s address labels with
  | nil =>
      obtain ⟨-, rfl, -⟩ := bindLabels_nil_eq_ok h
      exact hs
  | cons source rest ih =>
      obtain ⟨line, i⟩ := source
      rw [List.map_cons, wordCount_cons] at hroom
      rcases bindLabels_cons_eq_ok h with ⟨name, rfl, -, -, h⟩ | ⟨-, hsize, h⟩
      · exact ih h (small_bind hs name (by omega)) (by simpa using hroom)
      · rw [hsize] at hroom
        exact ih h hs (by omega)

/-- The second pass has a word for every instruction of an expansion. -/
theorem encodeLines_isOk (words : List UInt16) {s : Symbols} {lines : List SourceLine}
    (hlines : ∀ source ∈ lines, Readable source.instruction) :
    ∃ words' t, encodeLines words s lines = .ok (words', t) := by
  induction lines generalizing words s with
  | nil => exact ⟨words.reverse, s, rfl⟩
  | cons source rest ih =>
      obtain ⟨line, i⟩ := source
      have hrest : ∀ source ∈ rest, Readable source.instruction :=
        fun source hsource => hlines source (List.mem_cons_of_mem _ hsource)
      cases hlines ⟨line, i⟩ List.mem_cons_self with
      | constant value => exact ih _ hrest
      | symbol h => exact ih _ hrest
      | label h => exact ih _ hrest
      | assign h =>
          obtain ⟨word, hword⟩ := encodeParts_of_assignment h
          simp only [encodeLines, encode, hword, Except.map]
          exact ih _ hrest
      | jump h =>
          obtain ⟨word, hword⟩ := encodeParts_of_branch h
          simp only [encodeLines, encode, hword, Except.map]
          exact ih _ hrest

/-- Symbols stay below a bound that leaves room for variables. -/
theorem encodeLines_small {words words' : List UInt16} {s t : Symbols} {lines : List SourceLine}
    (h : encodeLines words s lines = .ok (words', t)) (haddresses : s.Small)
    (hroom : variableBase + s.variableCount + lines.length ≤ 32768) : t.Small := by
  induction lines generalizing words s with
  | nil =>
      cases h
      exact haddresses
  | cons source rest ih =>
      obtain ⟨line, i⟩ := source
      rw [List.length_cons] at hroom
      cases i with
      | constant value => exact ih h haddresses (by omega)
      | symbol name =>
          obtain ⟨hsmall, hcount⟩ := resolve_small haddresses name (by omega)
          have hleft : variableBase + (s.resolve name).2.variableCount + rest.length ≤ 32768 := by
            omega
          exact ih h hsmall hleft
      | label name => exact ih h haddresses (by omega)
      | compute dest comp jump =>
          obtain ⟨word, -, h⟩ := encodeLines_compute h
          exact ih h haddresses (by omega)

theorem wordCount_le_length (instructions : List Instruction) :
    wordCount instructions ≤ instructions.length := by
  induction instructions with
  | nil => exact le_refl _
  | cons i rest ih =>
      have hsize : i.size ≤ 1 := by
        cases i <;> simp [Instruction.size]
      rw [wordCount_cons, List.length_cons]
      omega

/-- Both passes accept a listing if its constants fit, its labels are new and apart and it is not
larger than the memory. -/
theorem passes_of_listing {text : String} {instructions : List Instruction}
    (hlisting : Listing text.toList instructions)
    (hconstants : ∀ value, .constant value ∈ instructions → value.toNat < 32768)
    (hlabels : ∀ name ∈ labelsOf instructions, ({} : Symbols).get? name = none)
    (hnodup : (labelsOf instructions).Nodup) (hroom : wordCount instructions ≤ romSize) :
    ∃ source bound program, read text = .ok source ∧
      source.map SourceLine.instruction = instructions ∧
      bindLabels {} 0 0 source = .ok (bound, program.labels) ∧
      encodeLines [] bound source = .ok (program.words, program.symbols) ∧
      ofLines source = .ok program := by
  obtain ⟨source, hread⟩ := readLines_total hlisting hconstants [] 1
  obtain ⟨new, hnew, rfl⟩ := readLines_listing hlisting hread
  rw [List.reverse_nil, List.nil_append] at hnew
  subst hnew
  obtain ⟨bound, n, hbind⟩ : ∃ bound n, bindLabels {} 0 0 source = .ok (bound, n) :=
    bindLabels_total 0
    (fun name hname => hlabels name (mem_labelsOf.mpr hname)) hnodup (by omega)
  obtain ⟨words, symbols, hencode⟩ := encodeLines_isOk [] (s := bound)
    fun line hline => hlisting.readable _ (List.mem_map_of_mem hline)
  refine ⟨source, bound, ⟨words, symbols, n⟩, hread, rfl, hbind, hencode, ?_⟩
  simp only [ofLines, hbind, hencode, Bind.bind, Except.bind, pure, Except.pure]

/-- A listing assembles if its constants fit, its labels are new and apart and it is not too
long. -/
theorem assemble_of_listing {text : String} {instructions : List Instruction}
    (hlisting : Listing text.toList instructions)
    (hconstants : ∀ value, .constant value ∈ instructions → value.toNat < 32768)
    (hlabels : ∀ name ∈ labelsOf instructions, ({} : Symbols).get? name = none)
    (hnodup : (labelsOf instructions).Nodup)
    (hroom : variableBase + instructions.length < 32768) :
    ∃ source program, read text = .ok source ∧
      source.map SourceLine.instruction = instructions ∧ ofLines source = .ok program ∧
        program.symbols.Small := by
  have hcount := wordCount_le_length instructions
  have hwords : 0 + wordCount instructions < 32768 := by omega
  obtain ⟨source, bound, program, hread, rfl, hbind, hencode, hlines⟩ :=
    passes_of_listing hlisting hconstants hlabels hnodup (by unfold romSize; omega)
  rw [List.length_map] at hroom
  have hvariables : bound.variableCount = 0 := (bindLabels_spec hbind).2.1
  have hsmall : program.symbols.Small :=
    encodeLines_small hencode (bindLabels_small hbind small_predefined hwords) (by omega)
  exact ⟨source, program, hread, rfl, hlines, hsmall⟩

end JackToolchain.Assembly
