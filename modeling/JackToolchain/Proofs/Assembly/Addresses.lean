import JackToolchain.Proofs.Assembly.Reading
import JackToolchain.Proofs.Assembly.Resolution

/-!
# Words of addresses

An instruction that uses a symbol has room for fifteen bits of its address. That is the whole
address, unless it is the one behind the last word of a program that fills the memory, or the
address of a variable that comes after 32752 others.
-/

namespace JackToolchain.Assembly

open Symbols

variable {instructions : List Instruction} {program : Program} {name : String}

/-- A symbol whose address does not fit into an instruction. -/
inductive Beyond (instructions : List Instruction) (name : String) : Prop
  | label {front back : List Instruction} (h : instructions = front ++ .label name :: back)
      (hfull : wordCount front = romSize)
  | variable {front back : List Instruction} (h : instructions = front ++ .symbol name :: back)
      (hfirst : .symbol name ∉ front) (hname : isVariable instructions name = true)
      (hcount : 32768 ≤ variableBase + (namesUsed (isVariable instructions) front).card)

/-- An instruction of a program uses a symbol that has an address, and is a word of the program. -/
def Uses (instructions : List Instruction) (program : Program) (name : String)
    (address word : UInt16) : Prop :=
  ∃ front back, instructions = front ++ .symbol name :: back ∧
    program.symbols.get? name = some address ∧ program.words[wordCount front]? = some word

/-! ## Places of words -/

theorem wordCount_eq_length (instructions : List Instruction) :
    wordCount instructions = (instructions.filter fun i => !i.isLabel).length := by
  induction instructions with
  | nil => rfl
  | cons i rest ih =>
      rw [wordCount_cons, ih]
      cases i with
      | label name => simp [Instruction.isLabel, Instruction.size]
      | constant value => simp [Instruction.isLabel, Instruction.size, Nat.add_comm]
      | symbol name => simp [Instruction.isLabel, Instruction.size, Nat.add_comm]
      | compute dest comp jump => simp [Instruction.isLabel, Instruction.size, Nat.add_comm]

/-- An instruction that is no label has its word behind those of the instructions in front. -/
theorem exists_word {R : Instruction → UInt16 → Prop} {words : List UInt16}
    {front back : List Instruction} {i : Instruction}
    (h : List.Forall₂ R ((front ++ i :: back).filter fun i => !i.isLabel) words)
    (hi : i.isLabel = false) : ∃ word, words[wordCount front]? = some word ∧ R i word := by
  rw [List.filter_append, List.filter_cons_of_pos (by simpa using hi)] at h
  have hlength := h.length_eq
  rw [List.length_append, List.length_cons, ← wordCount_eq_length] at hlength
  have hlt : wordCount front < words.length := by omega
  refine ⟨words[wordCount front], List.getElem?_eq_getElem hlt, ?_⟩
  have hat := h.get (i := wordCount front) (by
    rw [List.length_append, List.length_cons, ← wordCount_eq_length]
    omega) hlt
  simpa [List.getElem_append_right, ← wordCount_eq_length] using hat

theorem card_namesUsed_le (free : String → Bool) (front : List Instruction) :
    (namesUsed free front).card ≤ wordCount front :=
  ((List.toFinset_card_le _).trans (List.length_filter_le ..)).trans (length_symbolsOf_le front)

/-! ## Addresses -/

namespace Resolved

/-- A name that every program knows is not beyond. -/
theorem not_beyond_of_known {a : UInt16} (h : Resolved instructions program)
    (hknown : knownAddress name = some a) : ¬Beyond instructions name := by
  rintro (⟨hsplit, -⟩ | ⟨-, -, hname, -⟩)
  · exact h.fresh _ name _ hsplit (.inl (by simp [hknown]))
  · simp [isVariable, hknown] at hname

theorem beyond_iff_of_label (h : Resolved instructions program) {front back : List Instruction}
    (hsplit : instructions = front ++ .label name :: back) :
    Beyond instructions name ↔ wordCount front = romSize := by
  refine ⟨?_, .label hsplit⟩
  have haddress := h.label _ _ _ hsplit
  rintro (⟨hother, hfull⟩ | ⟨-, -, hname, -⟩)
  · rw [h.label _ _ _ hother] at haddress
    exact (Option.some.inj haddress).symm.trans hfull
  · have hlabel : name ∈ labelsOf instructions :=
      mem_labelsOf.mpr (hsplit ▸ List.mem_append_right front List.mem_cons_self)
    simp [isVariable, hlabel] at hname

theorem beyond_iff_of_variable (h : Resolved instructions program)
    {front back : List Instruction} (hsplit : instructions = front ++ .symbol name :: back)
    (hname : isVariable instructions name = true) (hfirst : .symbol name ∉ front) :
    Beyond instructions name ↔
      32768 ≤ variableBase + (namesUsed (isVariable instructions) front).card := by
  refine ⟨?_, .variable hsplit hfirst hname⟩
  have haddress := h.variable_address _ _ _ hsplit hname hfirst
  rintro (⟨hlabel, -⟩ | ⟨hother, hnew, -, hcount⟩)
  · have hmem : name ∈ labelsOf instructions :=
      mem_labelsOf.mpr (hlabel ▸ List.mem_append_right _ List.mem_cons_self)
    simp [isVariable, hmem] at hname
  · rw [h.variable_address _ _ _ hother hname hnew] at haddress
    exact hcount.trans_eq (Option.some.inj haddress)

/-- The address of a symbol fits into an instruction, or is beyond by less than the registers that
have names. -/
theorem address_cases (h : Resolved instructions program)
    (hroom : wordCount instructions ≤ romSize) (hname : .symbol name ∈ instructions) :
    ∃ address, program.symbols.get? name = some address ∧
      (¬Beyond instructions name ∧ address.toNat < 32768 ∨
        Beyond instructions name ∧ 32768 ≤ address.toNat ∧
          address.toNat < 32768 + variableBase) := by
  unfold romSize at hroom
  cases hknown : knownAddress name with
  | some a =>
      refine ⟨a, h.known name a hknown, .inl ⟨h.not_beyond_of_known hknown, ?_⟩⟩
      exact small_predefined name a ((get?_empty name).trans hknown)
  | none =>
      by_cases hlabel : .label name ∈ instructions
      · obtain ⟨front, back, hsplit⟩ := List.append_of_mem hlabel
        have haddress := h.label _ _ _ hsplit
        obtain ⟨address, hget, hcount⟩ := Option.map_eq_some_iff.mp haddress
        refine ⟨address, hget, ?_⟩
        rw [h.beyond_iff_of_label hsplit, hcount]
        rw [hsplit, wordCount_append] at hroom
        unfold romSize variableBase
        omega
      · have hvariable : isVariable instructions name = true := by
          simp [isVariable, hknown, mem_labelsOf, hlabel]
        obtain ⟨front, back, hsplit, hfirst⟩ := List.eq_append_cons_of_mem hname
        have haddress := h.variable_address _ _ _ hsplit hvariable hfirst
        obtain ⟨address, hget, hcount⟩ := Option.map_eq_some_iff.mp haddress
        refine ⟨address, hget, ?_⟩
        rw [h.beyond_iff_of_variable hsplit hvariable hfirst, hcount]
        have hbefore := card_namesUsed_le (isVariable instructions) front
        rw [hsplit, wordCount_append, wordCount_cons, Instruction.size_symbol] at hroom
        omega

/-- The word of a symbol is its address without the sixteenth bit. -/
theorem word_eq_mod (h : Resolved instructions program) {front back : List Instruction}
    {address : UInt16} (hsplit : instructions = front ++ .symbol name :: back)
    (hget : program.symbols.get? name = some address) :
    ∃ word, program.words[wordCount front]? = some word ∧
      word.toNat = address.toNat % 32768 := by
  have hwords := h.words
  rw [hsplit] at hwords
  obtain ⟨word, hword, hencodes⟩ := exists_word hwords rfl
  refine ⟨word, hword, ?_⟩
  rw [← address_of_get? hget]
  exact hencodes

theorem exists_uses (h : Resolved instructions program)
    (hroom : wordCount instructions ≤ romSize) {front back : List Instruction}
    (hsplit : instructions = front ++ .symbol name :: back) :
    ∃ address word, program.symbols.get? name = some address ∧
      program.words[wordCount front]? = some word := by
  obtain ⟨address, hget, -⟩ :=
    h.address_cases hroom (hsplit ▸ List.mem_append_right front List.mem_cons_self)
  obtain ⟨word, hword, -⟩ := h.word_eq_mod hsplit hget
  exact ⟨address, word, hget, hword⟩

theorem uses_cases (h : Resolved instructions program)
    (hroom : wordCount instructions ≤ romSize) {address word : UInt16}
    (huses : Uses instructions program name address word) :
    ¬Beyond instructions name ∧ word = address ∧ address.toNat < 32768 ∨
      Beyond instructions name ∧ word.toNat + 32768 = address.toNat ∧
        word.toNat < variableBase := by
  obtain ⟨front, back, hsplit, hget, hword⟩ := huses
  obtain ⟨word', hword', hmod⟩ := h.word_eq_mod hsplit hget
  obtain rfl : word = word' := Option.some.inj (hword.symm.trans hword')
  obtain ⟨address', hget', hcases⟩ :=
    h.address_cases hroom (hsplit ▸ List.mem_append_right front List.mem_cons_self)
  obtain rfl : address = address' := Option.some.inj (hget.symm.trans hget')
  rcases hcases with ⟨hnot, hlt⟩ | ⟨hbeyond, hle, hlt⟩
  · rw [Nat.mod_eq_of_lt hlt] at hmod
    exact .inl ⟨hnot, UInt16.toNat_inj.mp hmod, hlt⟩
  · unfold variableBase at hlt ⊢
    exact .inr ⟨hbeyond, by omega, by omega⟩

end Resolved

theorem resolved_of_assemble {text : String} (h : assemble text = .ok program) :
    ∃ source, read text = .ok source ∧ Resolved (source.map SourceLine.instruction) program ∧
      wordCount (source.map SourceLine.instruction) ≤ romSize := by
  obtain ⟨source, bound, hread, hsmall, hbind, hencode⟩ := passes_of_assemble h
  exact ⟨source, hread, resolved_of_passes hsmall hbind hencode,
    by simpa using (bindLabels_counts hbind).2⟩

/-- What the words of symbols say in a program that assembles. Every instruction that uses a symbol
has a word, which is the address of the symbol exactly if that is not beyond. The others are words
of registers. Two symbols of different addresses have the same word exactly if one of them is
beyond, and the other is the register that is left of it. -/
theorem words_of_symbols {text : String} (h : assemble text = .ok program) :
    ∃ source, read text = .ok source ∧
      let instructions := source.map SourceLine.instruction
      (∀ front name back, instructions = front ++ .symbol name :: back →
        ∃ address word, program.symbols.get? name = some address ∧
          program.words[wordCount front]? = some word) ∧
      (∀ name address word, Uses instructions program name address word →
        (word = address ↔ ¬Beyond instructions name) ∧
          (Beyond instructions name →
            word.toNat + 32768 = address.toNat ∧ word.toNat < variableBase)) ∧
      ∀ name name' address address' word word', Uses instructions program name address word →
        Uses instructions program name' address' word' →
          (word = word' ∧ address ≠ address' ↔
            Beyond instructions name ∧ address'.toNat + 32768 = address.toNat ∨
              Beyond instructions name' ∧ address.toNat + 32768 = address'.toNat) := by
  obtain ⟨source, hread, hresolved, hroom⟩ := resolved_of_assemble h
  refine ⟨source, hread, fun front name back hsplit => hresolved.exists_uses hroom hsplit,
    fun name address word huses => ?_,
    fun name name' address address' word word' huses huses' => ?_⟩
  · rcases hresolved.uses_cases hroom huses with ⟨hnot, hsame, -⟩ | ⟨hbeyond, hword, hlow⟩
    · exact ⟨⟨fun _ => hnot, fun _ => hsame⟩, fun hbeyond => absurd hbeyond hnot⟩
    · refine ⟨⟨fun hsame => ?_, fun hnot => absurd hbeyond hnot⟩, fun _ => ⟨hword, hlow⟩⟩
      rw [hsame] at hword
      omega
  · have hsame : word = word' ∧ address ≠ address' ↔
        word.toNat = word'.toNat ∧ address.toNat ≠ address'.toNat := by
      rw [UInt16.toNat_inj, Ne, Ne, UInt16.toNat_inj]
    rw [hsame]
    have hbase : variableBase = 16 := rfl
    rcases hresolved.uses_cases hroom huses with ⟨hnot, rfl, hlt⟩ | ⟨hbeyond, hword, hlow⟩ <;>
      rcases hresolved.uses_cases hroom huses' with ⟨hnot', rfl, hlt'⟩ | ⟨hbeyond', hword', hlow'⟩
    · simp [hnot, hnot']
    · simp only [hnot, hbeyond', false_and, true_and, false_or]
      omega
    · simp only [hbeyond, hnot', false_and, true_and, or_false]
      omega
    · simp only [hbeyond, hbeyond', true_and]
      omega

/-! ## A program that fills the memory -/

/-- A use of a label behind zeros. -/
def filled (zeros : Nat) : List Instruction :=
  (.symbol "END" :: List.replicate zeros (.constant 0)) ++ [.label "END"]

theorem mem_filled {zeros : Nat} {i : Instruction} (h : i ∈ filled zeros) :
    i = .symbol "END" ∨ i = .constant 0 ∨ i = .label "END" := by
  simp only [filled, List.cons_append, List.mem_cons, List.mem_append, List.mem_replicate,
    List.not_mem_nil, or_false] at h
  exact h.imp_right (Or.imp_left And.right)

theorem wordCount_filled (zeros : Nat) :
    wordCount (.symbol "END" :: List.replicate zeros (.constant 0)) = zeros + 1 := by
  simp [wordCount, Nat.add_comm]

theorem labelsOf_filled (zeros : Nat) : labelsOf (filled zeros) = ["END"] := by
  simp [labelsOf, filled]

/-- A text that ends with a label and is not larger than the memory assembles. -/
theorem assemble_filled (zeros : Nat) (hroom : zeros + 1 ≤ romSize) :
    ∃ source program, read (render (filled zeros)) = .ok source ∧
      source.map SourceLine.instruction = filled zeros ∧
      assemble (render (filled zeros)) = .ok program := by
  have hreadable : ∀ i ∈ filled zeros, Readable i := by
    intro i hi
    rcases mem_filled hi with rfl | rfl | rfl
    · exact .symbol (by decide)
    · exact .constant 0
    · exact .label (by decide)
  obtain ⟨source, -, program, hread, hsource, -, -, hlines⟩ :=
    passes_of_listing (listing_render hreadable)
      (fun value hvalue => by rcases mem_filled hvalue with h | h | h <;> cases h; decide)
      (by rw [labelsOf_filled]; simp only [get?_empty]; decide)
      (by rw [labelsOf_filled]; decide)
      (by rw [filled, wordCount_append, wordCount_filled]; exact hroom)
  refine ⟨source, program, hread, hsource, ?_⟩
  rw [assemble, hread]
  exact hlines

/-- The label of a full program is 32768, and the instruction that uses it loads 0. -/
theorem word_of_full_program : ∃ program, assemble (render (filled 32767)) = .ok program ∧
    ∃ address word, program.symbols.get? "END" = some address ∧
      program.words[0]? = some word ∧ address.toNat = 32768 ∧ word.toNat = 0 := by
  obtain ⟨source, program, hread, hsource, hassemble⟩ :=
    assemble_filled 32767 (by decide)
  obtain ⟨source', hread', htotal, hwords, -⟩ := words_of_symbols hassemble
  obtain rfl : source = source' := Except.ok.inj (hread.symm.trans hread')
  obtain ⟨source', hread', hresolved, -⟩ := resolved_of_assemble hassemble
  obtain rfl : source = source' := Except.ok.inj (hread.symm.trans hread')
  rw [hsource] at htotal hwords hresolved
  have hbeyond : Beyond (filled 32767) "END" := .label rfl (wordCount_filled 32767)
  obtain ⟨address, word, hget, hword⟩ := htotal [] "END" _ rfl
  have haddress := hresolved.label _ "END" [] rfl
  rw [hget, Option.map_some, wordCount_filled] at haddress
  have hcount : address.toNat = 32767 + 1 := Option.some.inj haddress
  obtain ⟨hsum, -⟩ := (hwords "END" address word ⟨[], _, rfl, hget, hword⟩).2 hbeyond
  exact ⟨program, hassemble, address, word, hget, hword, hcount, by omega⟩

end JackToolchain.Assembly
