import JackToolchain.Proofs.Assembly.Binding
import JackToolchain.Proofs.Text.Lines
import JackToolchain.Assembly.Text

/-!
# Listings

Texts of whole lines, each a comment or an instruction as it is written. When such a text is read,
the instructions come back.
-/

namespace JackToolchain.Assembly

open JackToolchain.Text

/-! ## Instructions on their lines -/

/-- A text without blanks and slashes is read as it is. -/
theorem readLine_of_solid {text : List Char} {line : Nat} (hne : text ≠ [])
    (hsolid : ∀ c ∈ text, c ≠ '/' ∧ isBlank c = false) :
    readLine (String.ofList text) line =
      match readInstruction text with
      | .ok i => .ok (some i)
      | .error fault => .error (.badLine line fault) := by
  have hslash : '/' ∉ text := fun hmem => (hsolid '/' hmem).1 rfl
  have hfilter : text.filter (fun c => !isBlank c) = text := by
    rw [List.filter_eq_self]
    intro c hc
    simp [(hsolid c hc).2]
  have hempty : text.isEmpty = false := by
    cases text with
    | nil => exact absurd rfl hne
    | cons c rest => rfl
  simp only [readLine, String.toList_ofList, beforeSlashes_of_not_mem hslash, hfilter, hempty]
  rfl

theorem readLine_comment (text : List Char) (line : Nat) :
    readLine (String.ofList ('/' :: '/' :: text)) line = .ok none := by
  simp [readLine, beforeSlashes, beforeSlashesFrom]

/-- The instructions of expanded commands. -/
inductive Readable : Instruction → Prop
  | constant (value : UInt16) : Readable (.constant value)
  | symbol {name : String} (h : isName name.toList = true) : Readable (.symbol name)
  | label {name : String} (h : isName name.toList = true) : Readable (.label name)
  | assign {dest comp : String} (h : (dest, comp) ∈ assignments) : Readable (.assign dest comp)
  | jump {comp condition : String} (h : (comp, condition) ∈ branches) :
    Readable (.jump comp condition)

theorem text_symbol (name : String) :
    (Instruction.symbol name).text = String.ofList ('@' :: name.toList) := by
  apply String.toList_inj.mp
  simp [Instruction.text]
  rfl

theorem text_label (name : String) :
    (Instruction.label name).text = String.ofList ('(' :: (name.toList ++ [')'])) := by
  apply String.toList_inj.mp
  simp [Instruction.text]
  rfl

theorem text_constant (value : UInt16) :
    (Instruction.constant value).text =
      String.ofList ('@' :: Nat.toDigits 10 value.toNat) := by
  apply String.toList_inj.mp
  simp [Instruction.text]
  rfl

theorem readAddress_of_isName {value : List Char} (h : isName value = true) :
    readAddress value = .ok (.symbol (String.ofList value)) := by
  cases value with
  | nil => cases h
  | cons c rest =>
      have hstart := (Bool.and_eq_true_iff.mp h).1
      simp only [readAddress, not_isDigit_of_isNameStart hstart, h]
      rfl

theorem readLine_symbol {name : String} (h : isName name.toList = true) (line : Nat) :
    readLine (Instruction.symbol name).text line = .ok (some (.symbol name)) := by
  have hsolid : ∀ c ∈ '@' :: name.toList, c ≠ '/' ∧ isBlank c = false := by
    intro c hc
    rcases List.mem_cons.mp hc with rfl | hmem
    · decide
    · have hchar := solid_of_isNameChar (isNameChar_of_isName h c hmem)
      exact ⟨hchar.1, hchar.2.1⟩
  rw [text_symbol, readLine_of_solid (by simp) hsolid]
  simp only [readInstruction, readAddress_of_isName h, String.ofList_toList]

theorem readLine_label {name : String} (h : isName name.toList = true) (line : Nat) :
    readLine (Instruction.label name).text line = .ok (some (.label name)) := by
  have hsolid : ∀ c ∈ '(' :: (name.toList ++ [')']), c ≠ '/' ∧ isBlank c = false := by
    intro c hc
    rcases List.mem_cons.mp hc with rfl | hmem
    · decide
    · rcases List.mem_append.mp hmem with hmem | hmem
      · have hchar := solid_of_isNameChar (isNameChar_of_isName h c hmem)
        exact ⟨hchar.1, hchar.2.1⟩
      · rw [List.mem_singleton.mp hmem]
        decide
  rw [text_label, readLine_of_solid (by simp) hsolid]
  simp [readInstruction, readLabel, h]

theorem readLine_constant (value : UInt16) (line : Nat) :
    readLine (Instruction.constant value).text line =
      if value.toNat < 32768 then .ok (some (.constant value))
      else .error (.badLine line (.constantOutOfRange (toString value.toNat))) := by
  have hsolid : ∀ c ∈ '@' :: Nat.toDigits 10 value.toNat, c ≠ '/' ∧ isBlank c = false := by
    intro c hc
    rcases List.mem_cons.mp hc with rfl | hmem
    · decide
    · have hchar : isNameChar c = true := by simp [isNameChar, isDigit_of_mem_toDigits hmem]
      have hsolid := solid_of_isNameChar hchar
      exact ⟨hsolid.1, hsolid.2.1⟩
  rw [text_constant, readLine_of_solid (by simp) hsolid]
  simp only [readInstruction]
  have hlt := value.toNat_lt
  have hnumber : readDigits? Limits.maxWord32 (Nat.toDigits 10 value.toNat) = some value.toNat :=
    readDigits?_toDigits (by unfold Limits.maxWord32; omega)
  have htext : String.ofList (Nat.toDigits 10 value.toNat) = toString value.toNat := by
    rw [Nat.toString_eq_ofList_toDigits]
  cases hdigits : Nat.toDigits 10 value.toNat with
  | nil => exact absurd hdigits Nat.toDigits_ne_nil
  | cons c rest =>
      have hdigit : isDigit c = true :=
        isDigit_of_mem_toDigits (hdigits ▸ List.mem_cons_self)
      rw [hdigits] at hnumber htext
      simp only [readAddress, hdigit, if_true, hnumber, htext]
      by_cases hsmall : value.toNat < 32768
      · have hle : value.toNat ≤ maxAddress := by unfold maxAddress; omega
        simp [hsmall, hle]
      · have hle : ¬value.toNat ≤ maxAddress := by unfold maxAddress; omega
        simp [hsmall, hle]

theorem readLine_assign {dest comp : String} (h : (dest, comp) ∈ assignments) (line : Nat) :
    readLine (Instruction.assign dest comp).text line = .ok (some (.assign dest comp)) := by
  simp only [assignments, List.mem_cons, Prod.mk.injEq, List.not_mem_nil, or_false] at h
  rcases h with ⟨rfl, rfl⟩ | ⟨rfl, rfl⟩ | ⟨rfl, rfl⟩ | ⟨rfl, rfl⟩ | ⟨rfl, rfl⟩ | ⟨rfl, rfl⟩ |
    ⟨rfl, rfl⟩ | ⟨rfl, rfl⟩ | ⟨rfl, rfl⟩ | ⟨rfl, rfl⟩ | ⟨rfl, rfl⟩ | ⟨rfl, rfl⟩ | ⟨rfl, rfl⟩ |
    ⟨rfl, rfl⟩ | ⟨rfl, rfl⟩ | ⟨rfl, rfl⟩ | ⟨rfl, rfl⟩ | ⟨rfl, rfl⟩ | ⟨rfl, rfl⟩ | ⟨rfl, rfl⟩ |
    ⟨rfl, rfl⟩
  all_goals rfl

theorem readLine_jump {comp condition : String} (h : (comp, condition) ∈ branches) (line : Nat) :
    readLine (Instruction.jump comp condition).text line =
      .ok (some (.jump comp condition)) := by
  simp only [branches, List.mem_cons, Prod.mk.injEq, List.not_mem_nil, or_false] at h
  rcases h with ⟨rfl, rfl⟩ | ⟨rfl, rfl⟩ | ⟨rfl, rfl⟩ | ⟨rfl, rfl⟩ | ⟨rfl, rfl⟩
  all_goals rfl

theorem plain_text {i : Instruction} (hi : Readable i) : Plain i.text.toList := by
  have hname {name : String} (h : isName name.toList = true) : Plain name.toList :=
    plain_of_solid fun c hc => solid_of_isNameChar (isNameChar_of_isName h c hc)
  cases hi with
  | constant value =>
      rw [text_constant, String.toList_ofList]
      refine plain_cons (by decide) (plain_of_solid fun c hc => solid_of_isNameChar ?_)
      simp [isNameChar, isDigit_of_mem_toDigits hc]
  | symbol h =>
      rw [text_symbol, String.toList_ofList]
      exact plain_cons (by decide) (hname h)
  | label h =>
      rw [text_label, String.toList_ofList]
      refine plain_cons (by decide) fun c hc => ?_
      rcases List.mem_append.mp hc with hc | hc
      · exact hname h c hc
      · rw [List.mem_singleton.mp hc]
        decide
  | assign h =>
      simp only [assignments, List.mem_cons, Prod.mk.injEq, List.not_mem_nil, or_false] at h
      rcases h with ⟨rfl, rfl⟩ | ⟨rfl, rfl⟩ | ⟨rfl, rfl⟩ | ⟨rfl, rfl⟩ | ⟨rfl, rfl⟩ | ⟨rfl, rfl⟩ |
        ⟨rfl, rfl⟩ | ⟨rfl, rfl⟩ | ⟨rfl, rfl⟩ | ⟨rfl, rfl⟩ | ⟨rfl, rfl⟩ | ⟨rfl, rfl⟩ | ⟨rfl, rfl⟩ |
        ⟨rfl, rfl⟩ | ⟨rfl, rfl⟩ | ⟨rfl, rfl⟩ | ⟨rfl, rfl⟩ | ⟨rfl, rfl⟩ | ⟨rfl, rfl⟩ | ⟨rfl, rfl⟩ |
        ⟨rfl, rfl⟩
      all_goals exact plain_of_all (by decide)
  | jump h =>
      simp only [branches, List.mem_cons, Prod.mk.injEq, List.not_mem_nil, or_false] at h
      rcases h with ⟨rfl, rfl⟩ | ⟨rfl, rfl⟩ | ⟨rfl, rfl⟩ | ⟨rfl, rfl⟩ | ⟨rfl, rfl⟩
      all_goals exact plain_of_all (by decide)

/-! ## Constants that are read -/

theorem small_of_readAddress {value : List Char} {n : UInt16}
    (h : readAddress value = .ok (.constant n)) : n.toNat < 32768 := by
  cases value with
  | nil => cases h
  | cons c rest =>
      simp only [readAddress] at h
      split at h
      · cases hdigits : readDigits? Limits.maxWord32 (c :: rest) with
        | none => simp [hdigits] at h
        | some m =>
            simp only [hdigits] at h
            split at h
            · rename_i hle
              cases h
              unfold maxAddress at hle
              rw [Nat.toUInt16_eq, UInt16.toNat_ofNat']
              omega
            · cases h
      · split at h <;> cases h

theorem small_of_readLine {raw : String} {line : Nat} {n : UInt16}
    (h : readLine raw line = .ok (some (.constant n))) : n.toNat < 32768 := by
  simp only [readLine] at h
  split at h
  · cases h
  · cases hread : readInstruction ((beforeSlashes raw.toList).filter
        fun c => !isBlank c) with
    | error fault => simp [hread] at h
    | ok i =>
        simp only [hread] at h
        cases h
        unfold readInstruction at hread
        split at hread
        · rw [readLabel] at hread
          split at hread <;> cases hread
        · exact small_of_readAddress hread
        · simp only [readCompute] at hread
          split at hread <;> split at hread <;> split at hread <;> cases hread

theorem smallConstants_of_readLines {done source : List SourceLine} {line : Nat}
    {raws : List String} (h : readLines done line raws = .ok source) (hdone : SmallConstants done) :
    SmallConstants source := by
  induction raws generalizing done line with
  | nil =>
      cases h
      exact fun line value hmem => hdone line value (List.mem_reverse.mp hmem)
  | cons raw rest ih =>
      rw [readLines] at h
      split at h
      · cases h
      · exact ih h hdone
      · rename_i i hline
        refine ih h fun number value hmem => ?_
        rcases List.mem_cons.mp hmem with heq | hmem
        · cases heq
          exact small_of_readLine hline
        · exact hdone number value hmem

/-! ## Texts -/

/-- A text of whole lines, comments or instructions, with its instructions. -/
inductive Listing : List Char → List Instruction → Prop
  | nil : Listing [] []
  | comment {line text : List Char} {instructions : List Instruction} (hline : Plain line)
      (h : Listing text instructions) :
    Listing ('/' :: '/' :: (line ++ '\n' :: text)) instructions
  | instruction {i : Instruction} {text : List Char} {instructions : List Instruction}
      (hi : Readable i) (h : Listing text instructions) :
    Listing (i.text.toList ++ '\n' :: text) (i :: instructions)

theorem Listing.append {text text' : List Char} {front back : List Instruction}
    (h : Listing text front) (h' : Listing text' back) : Listing (text ++ text') (front ++ back) := by
  induction h with
  | nil => exact h'
  | comment hline _ ih =>
      simp only [List.cons_append, List.append_assoc]
      exact Listing.comment hline ih
  | instruction hi _ ih =>
      simp only [List.cons_append, List.append_assoc]
      exact Listing.instruction hi ih

theorem Listing.readable {text : List Char} {instructions : List Instruction}
    (h : Listing text instructions) : ∀ i ∈ instructions, Readable i := by
  induction h with
  | nil => simp
  | comment _ _ ih => exact ih
  | instruction hi _ ih =>
      intro other hother
      rcases List.mem_cons.mp hother with rfl | hother
      · exact hi
      · exact ih other hother

/-- Reading a listing gives its instructions back. -/
theorem readLines_listing {text : List Char} {instructions : List Instruction}
    (h : Listing text instructions) {done source : List SourceLine} {line : Nat}
    (hread : readLines done line (linesFrom [] [] text) = .ok source) :
    ∃ new, source = done.reverse ++ new ∧ new.map SourceLine.instruction = instructions := by
  induction h generalizing done line with
  | nil =>
      simp only [linesFrom, List.isEmpty_nil, if_true, List.reverse_nil, readLines] at hread
      cases hread
      exact ⟨[], by simp, rfl⟩
  | @comment comment text instructions hline _ ih =>
      have hplain : Plain ('/' :: '/' :: comment) := by
        intro c hc
        rcases List.mem_cons.mp hc with rfl | hc
        · decide
        · rcases List.mem_cons.mp hc with rfl | hc
          · decide
          · exact hline c hc
      have hfirst := linesFrom_cons text hplain
      simp only [List.cons_append] at hfirst
      rw [hfirst, readLines, readLine_comment] at hread
      exact ih hread
  | @instruction i text instructions hi _ ih =>
      rw [linesFrom_cons text (plain_text hi), String.ofList_toList, readLines] at hread
      have hone (hline : readLine i.text line = .ok (some i)) :
          ∃ new, source = done.reverse ++ new ∧
            new.map SourceLine.instruction = i :: instructions := by
        rw [hline] at hread
        obtain ⟨new, hnew, hmap⟩ := ih hread
        exact ⟨⟨line, i⟩ :: new, by simpa using hnew, by simp [hmap]⟩
      cases hi with
      | constant value =>
          rw [readLine_constant] at hone hread
          by_cases hsmall : value.toNat < 32768
          · exact hone (if_pos hsmall)
          · rw [if_neg hsmall] at hread
            cases hread
      | symbol h => exact hone (readLine_symbol h line)
      | label h => exact hone (readLine_label h line)
      | assign h => exact hone (readLine_assign h line)
      | jump h => exact hone (readLine_jump h line)

section Assembling

variable {text : String} {instructions : List Instruction} {program : Program}

theorem instructions_of_read {source : List SourceLine}
    (hlisting : Listing text.toList instructions) (h : read text = .ok source) :
    source.map SourceLine.instruction = instructions := by
  obtain ⟨new, rfl, hinstructions⟩ := readLines_listing hlisting h
  exact hinstructions

/-- What the two passes over the lines of a program leave. -/
theorem passes_of_assemble (h : assemble text = .ok program) :
    ∃ (source : List SourceLine) (bound : Symbols), read text = .ok source ∧
      SmallConstants source ∧ bindLabels {} 0 0 source = .ok (bound, program.labels) ∧
        encodeLines [] bound source = .ok (program.words, program.symbols) := by
  rw [assemble] at h
  cases hread : read text with
  | error e => simp [hread, bind, Except.bind] at h
  | ok source =>
      have hsmall : SmallConstants source :=
        smallConstants_of_readLines hread fun _ _ hmem => absurd hmem List.not_mem_nil
      rw [hread] at h
      simp only [bind, Except.bind, ofLines] at h
      cases hbind : bindLabels {} 0 0 source with
      | error e => simp [hbind] at h
      | ok result =>
          obtain ⟨bound, labels⟩ := result
          simp only [hbind] at h
          cases hencode : encodeLines [] bound source with
          | error e => simp [hencode] at h
          | ok result =>
              obtain ⟨words, symbols⟩ := result
              simp only [hencode, pure, Except.pure] at h
              cases h
              exact ⟨source, bound, rfl, hsmall, hbind, hencode⟩

/-- The lines of a listing and what the two passes over them leave. -/
theorem lines_of_assemble (hlisting : Listing text.toList instructions)
    (h : assemble text = .ok program) :
    ∃ (source : List SourceLine) (bound : Symbols), read text = .ok source ∧
      source.map SourceLine.instruction = instructions ∧ SmallConstants source ∧
        bindLabels {} 0 0 source = .ok (bound, program.labels) ∧
      encodeLines [] bound source = .ok (program.words, program.symbols) := by
  obtain ⟨source, bound, hread, hsmall, hbind, hencode⟩ := passes_of_assemble h
  exact ⟨source, bound, hread, instructions_of_read hlisting hread, hsmall, hbind, hencode⟩

/-- Some of the instructions of a program, in their places. -/
theorem loaded_part {source : List SourceLine} {front block back : List Instruction}
    (hread : read text = .ok source)
    (hparts : source.map SourceLine.instruction = front ++ (block ++ back))
    (h : assemble text = .ok program) (hsmall : SmallSymbols program.symbols.address block) :
    Loaded program.symbols.address program.words (wordCount front) block := by
  obtain ⟨source', bound, hread', hconstants, hbind, hencode⟩ := passes_of_assemble h
  obtain rfl : source = source' := Except.ok.inj (hread.symm.trans hread')
  obtain ⟨lines, rest, rfl, rfl, hrest⟩ := List.map_eq_append_iff.mp hparts
  have hlabels := ((bindLabels_spec hbind).2.2.2 _ (encodeLines_spec hencode).1).append
  obtain ⟨words, s, hback, hlength⟩ := encodeLines_append hencode
  obtain ⟨-, new, hwords, hloaded⟩ := encodeLines_spec hback
  rw [List.length_nil, Nat.zero_add] at hlength
  rw [Nat.zero_add, ← hlength] at hlabels
  rw [hwords, ← hlength]
  exact hloaded (fun line value hmem => hconstants line value (List.mem_append_right _ hmem))
    words.reverse List.length_reverse hlabels block back hrest hsmall

/-- All instructions of a listing, if every symbol fits. -/
theorem loaded_of_assemble (hlisting : Listing text.toList instructions)
    (h : assemble text = .ok program)
    (hsmall : ∀ name a, program.symbols.get? name = some a → a.toNat < 32768) :
    Loaded program.symbols.address program.words 0 instructions := by
  obtain ⟨source, -, hread, hinstructions, -⟩ := lines_of_assemble hlisting h
  have hparts : source.map SourceLine.instruction = [] ++ (instructions ++ []) := by
    simpa using hinstructions
  refine loaded_part hread hparts h fun name _ => ?_
  cases hget : program.symbols.get? name with
  | none => simp [Symbols.address, hget]
  | some a =>
      rw [Symbols.address_of_get? hget]
      exact hsmall name a hget

/-- The symbols that every program knows keep their addresses. -/
theorem predefined_of_assemble (h : assemble text = .ok program) :
    Symbols.Extends {} program.symbols := by
  obtain ⟨source, bound, -, -, hbind, hencode⟩ := passes_of_assemble h
  exact (bindLabels_spec hbind).1.trans (encodeLines_spec hencode).1

/-- If all symbols but some are labels or known to every program, the others are variables: they
have the addresses from 16 on, each its own. -/
theorem variables_of_assemble {pool : List String} (hlisting : Listing text.toList instructions)
    (h : assemble text = .ok program) (hpool : pool.length < 65535 - variableBase)
    (hsymbols : ∀ name, .symbol name ∈ instructions → .label name ∉ instructions →
      ({} : Symbols).get? name = none → name ∈ pool) :
    ∃ names, names.Nodup ∧ names ⊆ pool ∧ (∀ name, .symbol name ∈ instructions →
      ∃ a, program.symbols.get? name = some a) ∧ ∀ name a, .label name ∉ instructions →
        ({} : Symbols).get? name = none → program.symbols.get? name = some a →
          name ∈ names ∧ a = (variableBase + names.idxOf name).toUInt16 := by
  obtain ⟨source, bound, _, rfl, _, hbind, hencode⟩ := lines_of_assemble hlisting h
  obtain ⟨hextends, hcount, hlabels, _⟩ := bindLabels_spec hbind
  have hfree (name : String) (hlabel : .label name ∉ source.map SourceLine.instruction)
      (hpredefined : ({} : Symbols).get? name = none) : bound.get? name = none := by
    by_contra hbound
    exact hlabel (hlabels name hbound hpredefined)
  obtain ⟨names, hvars, hsub⟩ := encodeLines_variables hencode (.nil hcount) (List.nil_subset pool)
    hpool fun line name hmem hbound => by
      have hinstruction : .symbol name ∈ source.map SourceLine.instruction :=
        List.mem_map.mpr ⟨_, hmem, rfl⟩
      refine hsymbols name hinstruction ?_ ?_
      · intro hlabel
        obtain ⟨a, ha⟩ := get?_of_bindLabels hbind hlabel
        rw [ha] at hbound
        cases hbound
      · cases hpredefined : ({} : Symbols).get? name with
        | none => rfl
        | some a =>
            rw [hextends name a hpredefined] at hbound
            cases hbound
  refine ⟨names, hvars.nodup, hsub, fun name hmem => get?_of_encodeLines hencode hmem, ?_⟩
  intro name a hlabel hpredefined hget
  have hnone := hfree name hlabel hpredefined
  rw [hvars.get, hnone] at hget
  split at hget
  · rename_i hmem
    exact ⟨hmem, (Option.some.inj hget).symm⟩
  · cases hget

end Assembling

end JackToolchain.Assembly
