import JackToolchain.Proofs.Assembly.Totality
import JackToolchain.Proofs.Assembly.Words
import Mathlib.Data.Finset.Card
import Mathlib.Data.List.Basic

/-!
# Resolution of symbols

The address of a symbol follows from the instructions alone. A name that every program knows keeps
its address, a label has as many words in front of it as its address says, and any other name has
the address behind those of the names that were used before it. A program resolves its symbols in
this way and holds one word for each instruction that takes room. A label that is taken already is
refused where it is defined again.
-/

namespace JackToolchain.Assembly

open Symbols

/-! ## The rule -/

/-- The names that some instructions use as addresses. -/
def symbolsOf (instructions : List Instruction) : List String :=
  instructions.filterMap fun
    | .symbol name => some name
    | _ => none

/-- The address of a name in every program. -/
def knownAddress (name : String) : Option UInt16 := predefined.lookup name

/-- Whether a name becomes a variable when some instructions use it. -/
def isVariable (instructions : List Instruction) (name : String) : Bool :=
  (knownAddress name).isNone && !(labelsOf instructions).contains name

/-- The names among those some instructions use that pass a test. -/
def namesUsed (free : String → Bool) (instructions : List Instruction) : Finset String :=
  ((symbolsOf instructions).filter free).toFinset

/-- A name has an address before the first pass, or is a label in front. -/
def Taken (known : String → Option UInt16) (front : List Instruction) (name : String) : Prop :=
  known name ≠ none ∨ .label name ∈ front

/-- No label of some instructions is taken where it is defined. -/
def Fresh (known : String → Option UInt16) (instructions : List Instruction) : Prop :=
  ∀ front name back, instructions = front ++ .label name :: back → ¬Taken known front name

/-- A program has resolved the symbols of its instructions by the rule. -/
structure Resolved (instructions : List Instruction) (program : Program) : Prop where
  words : List.Forall₂ (Encodes program.symbols) (instructions.filter fun i => !i.isLabel)
    program.words
  known : ∀ name address, knownAddress name = some address →
    program.symbols.get? name = some address
  fresh : Fresh knownAddress instructions
  label : ∀ front name back, instructions = front ++ .label name :: back →
    (program.symbols.get? name).map UInt16.toNat = some (wordCount front)
  variable_address : ∀ front name back, instructions = front ++ .symbol name :: back →
    isVariable instructions name = true → .symbol name ∉ front →
      (program.symbols.get? name).map UInt16.toNat =
        some (variableBase + (namesUsed (isVariable instructions) front).card)
  label_count : program.labels = (labelsOf instructions).length
  variable_count : program.symbols.variableCount =
    (namesUsed (isVariable instructions) instructions).card

theorem mem_symbolsOf {instructions : List Instruction} {name : String} :
    name ∈ symbolsOf instructions ↔ .symbol name ∈ instructions :=
  mem_filterMap_iff fun i a => by cases i <;> simp

theorem mem_namesUsed {free : String → Bool} {instructions : List Instruction} {name : String} :
    name ∈ namesUsed free instructions ↔ .symbol name ∈ instructions ∧ free name = true := by
  rw [namesUsed, List.mem_toFinset, List.mem_filter, mem_symbolsOf]

theorem length_symbolsOf_le (instructions : List Instruction) :
    (symbolsOf instructions).length ≤ wordCount instructions := by
  induction instructions with
  | nil => exact le_refl _
  | cons i rest ih =>
      cases i with
      | symbol name =>
          have hsize : (Instruction.symbol name).size = 1 := rfl
          have hnames : symbolsOf (.symbol name :: rest) = name :: symbolsOf rest := rfl
          rw [hnames, List.length_cons, wordCount_cons, hsize]
          omega
      | constant value => exact ih.trans (Nat.le_add_left _ _)
      | label name => exact ih.trans (Nat.le_add_left _ _)
      | compute dest comp jump => exact ih.trans (Nat.le_add_left _ _)

theorem get?_empty_eq_knownAddress : Symbols.get? {} = knownAddress := funext get?_empty

/-! ## Labels -/

theorem taken_label {s : Symbols} {name other : String} {address : UInt16}
    {front : List Instruction} :
    Taken (s.bind name address).get? front other ↔ Taken s.get? (.label name :: front) other := by
  rw [Taken, Taken, get?_bind, List.mem_cons]
  by_cases hsame : name = other
  · simp [hsame]
  · simp [hsame, Ne.symm hsame]

/-- A label is fresh in front of labels that are fresh behind it. -/
theorem Fresh.cons {known known' : String → Option UInt16} {i : Instruction}
    {rest : List Instruction} (h : Fresh known' rest)
    (hi : ∀ name, i = .label name → ¬Taken known [] name)
    (htaken : ∀ front other, Taken known (i :: front) other → Taken known' front other) :
    Fresh known (i :: rest) := by
  intro front name back heq
  cases front with
  | nil => exact hi name (List.cons.inj heq).1
  | cons j front =>
      obtain ⟨rfl, hrest⟩ := List.cons.inj heq
      exact fun hname => h front name back hrest (htaken front name hname)

/-- The addresses of all labels are words. -/
def InReach (address : Nat) (lines : List SourceLine) : Prop :=
  ∀ front line name back, lines = front ++ ⟨line, .label name⟩ :: back →
    address + wordCount (front.map SourceLine.instruction) ≤ 65535

theorem InReach.tail {address : Nat} {source : SourceLine} {rest : List SourceLine}
    (h : InReach address (source :: rest)) :
    InReach (address + source.instruction.size) rest := by
  intro front line name back heq
  have hle := h (source :: front) line name back (by rw [heq, List.cons_append])
  rw [List.map_cons, wordCount_cons] at hle
  omega

/-- The first pass refuses the first label that is taken, and no line if there is none. -/
theorem bindLabels_cases {s : Symbols} {address : Nat} (labels : Nat) {lines : List SourceLine}
    (h : InReach address lines) :
    (Fresh s.get? (lines.map SourceLine.instruction) ∧
      ∀ line fault, bindLabels s address labels lines ≠ .error (.badLine line fault)) ∨
    ∃ front line name back, lines = front ++ ⟨line, .label name⟩ :: back ∧
      Fresh s.get? (front.map SourceLine.instruction) ∧
        Taken s.get? (front.map SourceLine.instruction) name ∧
          bindLabels s address labels lines = .error (.badLine line (.duplicateLabel name)) := by
  induction lines generalizing s address labels with
  | nil =>
      refine .inl ⟨fun front name back heq => by simp at heq, fun line fault => ?_⟩
      rw [bindLabels]
      split
      · simp
      · simp
  | cons source rest ih =>
      obtain ⟨line, i⟩ := source
      have htail := h.tail
      by_cases hlabel : ∃ name, i = .label name
      · obtain ⟨name, rfl⟩ := hlabel
        have haddress : ¬address > 65535 := by
          have hle := h [] line name rest rfl
          simpa using hle
        cases hget : s.get? name with
        | some a =>
            refine .inr ⟨[], line, name, rest, rfl, fun front other back heq => by simp at heq,
              .inl (by simp [hget]), ?_⟩
            rw [bindLabels, if_neg haddress, define?_of_get?_eq_some hget]
        | none =>
            have hnext : bindLabels s address labels (⟨line, .label name⟩ :: rest) =
                bindLabels (s.bind name address.toUInt16) address (labels + 1) rest := by
              rw [bindLabels, if_neg haddress, define?_of_get? hget]
            have hfirst : ∀ other, Instruction.label name = .label other →
                ¬Taken s.get? [] other := by
              intro other heq
              cases heq
              simp [Taken, hget]
            rw [hnext]
            rcases ih (s := s.bind name address.toUInt16) (labels + 1) htail with
              ⟨hfresh, hnone⟩ | ⟨front, number, other, back, rfl, hfresh, htaken, herror⟩
            · exact .inl ⟨hfresh.cons hfirst fun _ _ => taken_label.mpr, hnone⟩
            · exact .inr ⟨⟨line, .label name⟩ :: front, number, other, back, rfl,
                hfresh.cons hfirst fun _ _ => taken_label.mpr, taken_label.mp htaken, herror⟩
      · have hnot : ∀ name, i ≠ .label name := fun name heq => hlabel ⟨name, heq⟩
        obtain ⟨hskip, hsize⟩ : bindLabels s address labels (⟨line, i⟩ :: rest) =
            bindLabels s (address + 1) labels rest ∧ i.size = 1 :=
          bindLabels_cons_of_not_label rest hnot
        have hsame : ∀ front other, Taken s.get? (i :: front) other ↔ Taken s.get? front other := by
          intro front other
          simp [Taken, (hnot other).symm]
        rw [hskip]
        rw [hsize] at htail
        rcases ih (s := s) labels htail with
          ⟨hfresh, hnone⟩ | ⟨front, number, other, back, rfl, hfresh, htaken, herror⟩
        · exact .inl ⟨hfresh.cons (fun name heq => absurd heq (hnot name))
            fun front other => (hsame front other).mp, hnone⟩
        · exact .inr ⟨⟨line, i⟩ :: front, number, other, back, rfl,
            hfresh.cons (fun name heq => absurd heq (hnot name))
              fun front other => (hsame front other).mp, (hsame _ _).mpr htaken, herror⟩

/-- The first pass refuses labels that are taken and programs that are too long. -/
theorem duplicate_or_large_of_bindLabels {s : Symbols} {address labels : Nat}
    {lines : List SourceLine} {e : AssemblyError}
    (h : bindLabels s address labels lines = .error e) :
    (∃ line name, e = .badLine line (.duplicateLabel name)) ∨ ∃ count, e = .programTooLarge count := by
  induction lines generalizing s address labels with
  | nil => exact .inr ⟨address, bindLabels_nil_eq_error h⟩
  | cons source rest ih =>
      obtain ⟨line, i⟩ := source
      rcases bindLabels_cons_eq_error h with ⟨name, -, h | ⟨-, h⟩ | h⟩ | ⟨-, h⟩
      · exact .inr ⟨address, h⟩
      · exact .inl ⟨line, name, h⟩
      · exact ih h
      · exact ih h

/-- What the first pass counts. -/
theorem bindLabels_counts {s t : Symbols} {address labels n : Nat} {lines : List SourceLine}
    (h : bindLabels s address labels lines = .ok (t, n)) :
    n = labels + (labelsOf (lines.map SourceLine.instruction)).length ∧
      address + wordCount (lines.map SourceLine.instruction) ≤ romSize := by
  induction lines generalizing s address labels with
  | nil =>
      obtain ⟨hroom, -, rfl⟩ := bindLabels_nil_eq_ok h
      exact ⟨rfl, hroom⟩
  | cons source rest ih =>
      obtain ⟨line, i⟩ := source
      rcases bindLabels_cons_eq_ok h with ⟨name, rfl, -, -, h⟩ | ⟨hnot, hsize, h⟩
      · obtain ⟨hcount, hroom⟩ := ih h
        rw [List.map_cons, labelsOf_label, List.length_cons]
        exact ⟨by omega, by simpa using hroom⟩
      · obtain ⟨hcount, hroom⟩ := ih h
        rw [List.map_cons, labelsOf_cons hnot, wordCount_cons, hsize]
        exact ⟨hcount, by omega⟩

theorem inReach_of_bindLabels {s t : Symbols} {address labels n : Nat} {lines : List SourceLine}
    (h : bindLabels s address labels lines = .ok (t, n)) : InReach address lines := by
  intro front line name back heq
  have hroom := (bindLabels_counts h).2
  rw [heq, List.map_append, wordCount_append] at hroom
  unfold romSize at hroom
  omega

theorem LabelsAt.address_eq {addresses : String → Nat} {pc : Nat} {lines : List SourceLine}
    (h : LabelsAt addresses pc lines) {front back : List Instruction} {name : String}
    (heq : lines.map SourceLine.instruction = front ++ .label name :: back) :
    addresses name = pc + wordCount front := by
  induction lines generalizing pc front with
  | nil => simp at heq
  | cons source rest ih =>
      obtain ⟨line, i⟩ := source
      obtain ⟨hfirst, hrest⟩ := h
      cases front with
      | nil => exact hfirst name (List.cons.inj heq).1
      | cons j front =>
          obtain ⟨rfl, htail⟩ := List.cons.inj heq
          rw [ih hrest htail, wordCount_cons, Nat.add_assoc]

/-! ## Variables -/

/-- Whether a name has no address. -/
def Symbols.lacks (s : Symbols) (name : String) : Bool := (s.get? name).isNone

/-- After the instructions `front`, the variables are the names used there without an address, in
the order of their first use. -/
structure Ranked (base : Symbols) (front : List Instruction) (names : List String)
    (s : Symbols) : Prop extends Variables base names s where
  mem : ∀ name, name ∈ names ↔ .symbol name ∈ front ∧ base.get? name = none
  rank : ∀ before name after, front = before ++ .symbol name :: after → .symbol name ∉ before →
    base.get? name = none → names.idxOf name = (namesUsed base.lacks before).card

theorem Ranked.nil {base : Symbols} (h : base.variableCount = 0) : Ranked base [] [] base where
  toVariables := .nil h
  mem := by simp
  rank := by simp

section Ranking

variable {base s : Symbols} {front : List Instruction} {names : List String} {i : Instruction}

theorem Ranked.length_eq (h : Ranked base front names s) :
    names.length = (namesUsed base.lacks front).card := by
  have hnames : names.toFinset = namesUsed base.lacks front := by
    ext name
    rw [List.mem_toFinset, h.mem, mem_namesUsed, Symbols.lacks, Option.isNone_iff_eq_none]
  rw [← hnames, List.toFinset_card_of_nodup h.nodup]

theorem Ranked.length_le (h : Ranked base front names s) : names.length ≤ wordCount front := by
  refine (h.nodup.subperm fun name hname => ?_).length_le.trans (length_symbolsOf_le front)
  exact mem_symbolsOf.mpr ((h.mem name).mp hname).1

/-- An instruction in a text that ends with another is that one or stands in front of it. -/
theorem split_snoc {before after : List Instruction} {j : Instruction}
    (h : front ++ [i] = before ++ j :: after) :
    front = before ∧ i = j ∨ ∃ after', front = before ++ j :: after' := by
  rcases List.eq_nil_or_concat' after with rfl | ⟨after', k, rfl⟩
  · obtain ⟨hfront, hlast⟩ := List.append_inj' h rfl
    exact .inl ⟨hfront, (List.cons.inj hlast).1⟩
  · rw [← List.cons_append, ← List.append_assoc] at h
    exact .inr ⟨after', (List.append_inj' h rfl).1⟩

theorem Ranked.append (h : Ranked base front names s)
    (hi : ∀ name, i = .symbol name → name ∈ names ∨ base.get? name ≠ none) :
    Ranked base (front ++ [i]) names s where
  toVariables := h.toVariables
  mem := by
    intro name
    rw [h.mem, List.mem_append, List.mem_singleton]
    refine ⟨fun hname => ⟨.inl hname.1, hname.2⟩, fun ⟨hname, hfree⟩ => ?_⟩
    rcases hname with hname | hname
    · exact ⟨hname, hfree⟩
    · rcases hi name hname.symm with hmem | hbound
      · exact (h.mem name).mp hmem
      · exact absurd hfree hbound
  rank := by
    intro before name after heq hnot hfree
    rcases split_snoc heq with ⟨rfl, hlast⟩ | ⟨after', hfront⟩
    · rcases hi name hlast with hmem | hbound
      · exact absurd ((h.mem name).mp hmem).1 hnot
      · exact absurd hfree hbound
    · exact h.rank before name after' hfront hnot hfree

theorem Ranked.resolve (h : Ranked base front names s) (name : String)
    (hroom : names.length < 65535 - variableBase) :
    ∃ names', Ranked base (front ++ [.symbol name]) names' (s.resolve name).2 := by
  obtain ⟨names', hvars, ⟨hbound, rfl⟩ | ⟨hnot, hfree, rfl⟩⟩ := h.toVariables.resolve name hroom
  · have hsame : Ranked base front names' (s.resolve name).2 := ⟨hvars, h.mem, h.rank⟩
    refine ⟨names', hsame.append fun other heq => ?_⟩
    cases heq
    exact hbound
  · refine ⟨names ++ [name], hvars, fun other => ?_, fun before other after heq hbefore hother => ?_⟩
    · simp only [List.mem_append, List.mem_singleton, h.mem, Instruction.symbol.injEq]
      refine ⟨?_, fun ⟨hmem, hother⟩ => hmem.imp (fun hmem => ⟨hmem, hother⟩) id⟩
      rintro (⟨hmem, hother⟩ | rfl)
      · exact ⟨.inl hmem, hother⟩
      · exact ⟨.inr rfl, hfree⟩
    · rcases split_snoc heq with ⟨rfl, hlast⟩ | ⟨after', hfront⟩
      · cases hlast
        rw [List.idxOf_append_of_notMem hnot, ← h.length_eq]
        simp
      · have hmem : other ∈ names := (h.mem other).mpr
          ⟨hfront ▸ List.mem_append_right before List.mem_cons_self, hother⟩
        rw [List.idxOf_append_of_mem hmem]
        exact h.rank before other after' hfront hbefore hother

end Ranking

/-- The second pass gives variables their addresses in the order of their first use. -/
theorem encodeLines_ranked {words words' : List UInt16} {base s t : Symbols}
    {front : List Instruction} {names : List String} {lines : List SourceLine}
    (h : encodeLines words s lines = .ok (words', t)) (hs : Ranked base front names s)
    (hroom : wordCount front + wordCount (lines.map SourceLine.instruction) ≤ romSize) :
    ∃ names', Ranked base (front ++ lines.map SourceLine.instruction) names' t := by
  induction lines generalizing words s front names with
  | nil =>
      simp only [encodeLines] at h
      cases h
      exact ⟨names, by simpa using hs⟩
  | cons source rest ih =>
      obtain ⟨line, i⟩ := source
      rw [List.map_cons, wordCount_cons] at hroom
      change wordCount front + (i.size + _) ≤ romSize at hroom
      have hsplit : front ++ (⟨line, i⟩ :: rest).map SourceLine.instruction =
          (front ++ [i]) ++ rest.map SourceLine.instruction := by simp
      have hroom' : wordCount (front ++ [i]) + wordCount (rest.map SourceLine.instruction) ≤
          romSize := by
        rw [wordCount_append, wordCount_cons, wordCount_nil]
        omega
      rw [hsplit]
      cases i with
      | constant value => exact ih h (hs.append fun _ heq => by cases heq) hroom'
      | symbol name =>
          have hlength : names.length < 65535 - variableBase := by
            have hle := hs.length_le
            unfold romSize at hroom
            unfold variableBase
            omega
          obtain ⟨names', hs'⟩ := hs.resolve name hlength
          exact ih h hs' hroom'
      | compute dest comp jump =>
          obtain ⟨word, -, h⟩ := encodeLines_compute h
          exact ih h (hs.append fun _ heq => by cases heq) hroom'
      | label name => exact ih h (hs.append fun _ heq => by cases heq) hroom'

/-! ## Words -/

/-- No fault of the second pass is a label. -/
theorem encodeLines_ne_duplicate {words : List UInt16} {s : Symbols} {lines : List SourceLine}
    {line : Nat} {name : String} :
    encodeLines words s lines ≠ .error (.badLine line (.duplicateLabel name)) := by
  induction lines generalizing words s with
  | nil => simp [encodeLines]
  | cons source rest ih =>
      obtain ⟨number, i⟩ := source
      cases i with
      | constant value => exact ih
      | symbol other => exact ih
      | compute dest comp jump =>
          cases hencode : encodeParts dest comp jump with
          | error fault =>
              have hne : fault ≠ .duplicateLabel name := by
                obtain ⟨part, rfl | rfl | rfl⟩ := unknown_of_encodeParts hencode
                all_goals simp
              simp [encodeLines, encode, hencode, Except.map, hne]
          | ok word =>
              simp only [encodeLines, encode, hencode, Except.map]
              exact ih
      | label other => exact ih

/-- The second pass leaves one word for each instruction that is no label. -/
theorem encodeLines_words {words words' : List UInt16} {s t : Symbols} {lines : List SourceLine}
    (h : encodeLines words s lines = .ok (words', t)) (hsmall : SmallConstants lines) :
    ∃ new, words' = words.reverse ++ new ∧
      List.Forall₂ (Encodes t)
        ((lines.map SourceLine.instruction).filter fun i => !i.isLabel) new := by
  induction lines generalizing words s with
  | nil =>
      simp only [encodeLines] at h
      cases h
      exact ⟨[], by simp, .nil⟩
  | cons source rest ih =>
      obtain ⟨line, i⟩ := source
      have hrest : SmallConstants rest :=
        fun line value hmem => hsmall line value (List.mem_cons_of_mem _ hmem)
      have hword {word : UInt16} {s' : Symbols}
          (hafter : encodeLines (word :: words) s' rest = .ok (words', t))
          (hkeep : i.isLabel = false) (hencodes : Encodes t i word) :
          ∃ new, words' = words.reverse ++ new ∧ List.Forall₂ (Encodes t)
            (((⟨line, i⟩ :: rest).map SourceLine.instruction).filter fun i => !i.isLabel) new := by
        obtain ⟨new, hnew, hall⟩ := ih hafter hrest
        refine ⟨word :: new, by simpa using hnew, ?_⟩
        rw [List.map_cons, List.filter_cons_of_pos (by simpa using hkeep)]
        exact .cons hencodes hall
      cases i with
      | constant value =>
          have hafter : encodeLines (encodeAddress value :: words) s rest = .ok (words', t) := h
          refine hword hafter rfl ?_
          exact encodeAddress_eq (hsmall line value List.mem_cons_self)
      | symbol name =>
          have hafter : encodeLines (encodeAddress (s.resolve name).1 :: words)
              (s.resolve name).2 rest = .ok (words', t) := h
          refine hword hafter rfl ?_
          have hget := (encodeLines_spec hafter).1 name _ (resolve_spec s name).2
          rw [Encodes, address_of_get? hget, encodeAddress, UInt16.toNat_and]
          exact Nat.and_two_pow_sub_one_eq_mod _ 15
      | compute dest comp jump =>
          obtain ⟨word, hencode, h⟩ := encodeLines_compute h
          exact hword h rfl (encodes_of_encodeParts hencode)
      | label name =>
          simp only [encodeLines, encode] at h
          obtain ⟨new, hnew, hall⟩ := ih h hrest
          exact ⟨new, hnew, by simpa using hall⟩

/-! ## Programs -/

/-- A program resolves its symbols by the rule. -/
theorem resolved_of_passes {source : List SourceLine} {bound : Symbols} {program : Program}
    (hsmall : SmallConstants source)
    (hbind : bindLabels {} 0 0 source = .ok (bound, program.labels))
    (hencode : encodeLines [] bound source = .ok (program.words, program.symbols)) :
    Resolved (source.map SourceLine.instruction) program := by
  obtain ⟨hextends, hcount, hlabels, hat⟩ := bindLabels_spec hbind
  obtain ⟨hcounted, hroom⟩ := bindLabels_counts hbind
  have hafter := (encodeLines_spec hencode).1
  obtain ⟨new, hnew, hwords⟩ := encodeLines_words hencode hsmall
  obtain ⟨names, hranked⟩ := encodeLines_ranked hencode (.nil hcount) (by simpa using hroom)
  rw [List.nil_append] at hranked
  -- the names without an address after the first pass are the variables
  have hvariable : bound.lacks = isVariable (source.map SourceLine.instruction) := by
    funext name
    rw [Bool.eq_iff_iff, lacks, Option.isNone_iff_eq_none, isVariable, ← get?_empty_eq_knownAddress,
      Bool.and_eq_true, Option.isNone_iff_eq_none, Bool.not_eq_true', List.contains_eq_mem,
      decide_eq_false_iff_not, mem_labelsOf]
    constructor
    · intro hnone
      refine ⟨?_, fun hlabel => ?_⟩
      · cases hknown : Symbols.get? {} name with
        | none => rfl
        | some a =>
            rw [hextends name a hknown] at hnone
            cases hnone
      · obtain ⟨a, ha⟩ := get?_of_bindLabels hbind hlabel
        rw [ha] at hnone
        cases hnone
    · rintro ⟨hknown, hlabel⟩
      by_contra hbound
      exact hlabel (hlabels name hbound hknown)
  refine ⟨by rw [hnew]; exact hwords, ?_, ?_, ?_, ?_, by simpa using hcounted, ?_⟩
  · intro name address hknown
    rw [← get?_empty_eq_knownAddress] at hknown
    exact hafter name address (hextends name address hknown)
  · rw [← get?_empty_eq_knownAddress]
    rcases bindLabels_cases 0 (inReach_of_bindLabels hbind) with
      ⟨hfresh, -⟩ | ⟨front, line, name, back, -, -, -, herror⟩
    · exact hfresh
    · rw [hbind] at herror
      cases herror
  · intro front name back heq
    have hmem : .label name ∈ source.map SourceLine.instruction :=
      heq ▸ List.mem_append_right front List.mem_cons_self
    obtain ⟨a, ha⟩ := get?_of_bindLabels hbind hmem
    have haddress := (hat _ (Extends.refl bound)).address_eq heq
    rw [address_of_get? ha, Nat.zero_add] at haddress
    rw [hafter name a ha, Option.map_some, haddress]
  · intro front name back heq hname hfirst
    have hfree : bound.get? name = none := by
      rw [← hvariable, lacks, Option.isNone_iff_eq_none] at hname
      exact hname
    have hmem : name ∈ names := (hranked.mem name).mpr
      ⟨heq ▸ List.mem_append_right front List.mem_cons_self, hfree⟩
    have hrank := hranked.rank front name back heq hfirst hfree
    rw [← hvariable, ← hrank, hranked.get, if_pos hmem, Option.map_some, Nat.toUInt16_eq,
      UInt16.toNat_ofNat', Nat.mod_eq_of_lt]
    have hlength := hranked.length_le
    have hlt := List.idxOf_lt_length_iff.mpr hmem
    unfold romSize at hroom
    unfold variableBase
    omega
  · rw [← hvariable, hranked.count, hranked.length_eq]

theorem error_of_ofLines {source : List SourceLine} {e : AssemblyError}
    (h : ofLines source = .error e) :
    bindLabels {} 0 0 source = .error e ∨ ∃ bound, encodeLines [] bound source = .error e := by
  rw [ofLines] at h
  cases hbind : bindLabels {} 0 0 source with
  | error fault =>
      rw [hbind] at h
      cases h
      exact .inl rfl
  | ok result =>
      obtain ⟨bound, labels⟩ := result
      rw [hbind] at h
      cases hencode : encodeLines [] bound source with
      | error fault =>
          simp only [Bind.bind, Except.bind, hencode] at h
          cases h
          exact .inr ⟨bound, hencode⟩
      | ok passed => simp [Bind.bind, Except.bind, hencode, pure, Except.pure] at h

/-- Every program has resolved its symbols by the rule. If the addresses of all labels are words,
a text is refused for a label exactly if one of its labels is taken, and then for the first such
label. -/
theorem symbols_resolved (text : String) :
    (∀ program, assemble text = .ok program → ∃ source, read text = .ok source ∧
      Resolved (source.map SourceLine.instruction) program) ∧
    ∀ source, read text = .ok source → InReach 0 source →
      ((∃ line name, assemble text = .error (.badLine line (.duplicateLabel name))) ↔
        ∃ front line name back, source = front ++ ⟨line, .label name⟩ :: back ∧
          Taken knownAddress (front.map SourceLine.instruction) name) ∧
      ∀ line name, assemble text = .error (.badLine line (.duplicateLabel name)) →
        ∃ front back, source = front ++ ⟨line, .label name⟩ :: back ∧
          Taken knownAddress (front.map SourceLine.instruction) name ∧
            Fresh knownAddress (front.map SourceLine.instruction) := by
  refine ⟨fun program h => ?_, fun source hread hreach => ?_⟩
  · obtain ⟨source, bound, hread, hsmall, hbind, hencode⟩ := passes_of_assemble h
    exact ⟨source, hread, resolved_of_passes hsmall hbind hencode⟩
  · have hassemble : assemble text = ofLines source := by
      rw [assemble, hread]
      rfl
    rw [hassemble, ← get?_empty_eq_knownAddress]
    rcases bindLabels_cases (s := {}) 0 hreach with
      ⟨hfresh, hnone⟩ | ⟨front, line, name, back, hsource, hfresh, htaken, herror⟩
    · have hnever : ∀ line name, ofLines source ≠ .error (.badLine line (.duplicateLabel name)) := by
        intro line name h
        rcases error_of_ofLines h with hbind | ⟨bound, hencode⟩
        · exact hnone _ _ hbind
        · exact encodeLines_ne_duplicate hencode
      refine ⟨⟨?_, ?_⟩, fun line name h => absurd h (hnever line name)⟩
      · rintro ⟨line, name, h⟩
        exact absurd h (hnever line name)
      · rintro ⟨front, line, name, back, rfl, htaken⟩
        exact absurd htaken (hfresh _ name (back.map SourceLine.instruction) (by simp))
    · have hrefused : ofLines source = .error (.badLine line (.duplicateLabel name)) := by
        rw [ofLines, herror]
        rfl
      refine ⟨⟨fun _ => ⟨front, line, name, back, hsource, htaken⟩,
        fun _ => ⟨line, name, hrefused⟩⟩, ?_⟩
      intro other label h
      rw [hrefused] at h
      cases h
      exact ⟨front, back, hsource, htaken, hfresh⟩

/-- A text with a label and a variable, and one with a label twice. -/
theorem symbols_resolved_examples :
    (∃ program source, assemble "(LOOP)\n@i\n@LOOP\n0;JMP\n" = .ok program ∧
      read "(LOOP)\n@i\n@LOOP\n0;JMP\n" = .ok source ∧
        Resolved (source.map SourceLine.instruction) program) ∧
    ∃ line name, assemble "(A)\n(A)\n" = .error (.badLine line (.duplicateLabel name)) := by
  constructor
  · have hlisting : Listing "(LOOP)\n@i\n@LOOP\n0;JMP\n".toList
        [.label "LOOP", .symbol "i", .symbol "LOOP", .jump "0" "JMP"] :=
      .instruction (i := .label "LOOP") (.label (by decide))
        (.instruction (i := .symbol "i") (.symbol (by decide))
          (.instruction (i := .symbol "LOOP") (.symbol (by decide))
            (.instruction (i := .jump "0" "JMP") (.jump (by decide)) .nil)))
    obtain ⟨source, program, hread, -, hlines, -⟩ := assemble_of_listing hlisting
      (by simp [Instruction.jump])
      (by simp only [get?_empty]; decide) (by decide) (by decide)
    have hassemble : assemble "(LOOP)\n@i\n@LOOP\n0;JMP\n" = .ok program := by
      rw [assemble, hread]
      exact hlines
    obtain ⟨source, hread, hresolved⟩ := (symbols_resolved _).1 program hassemble
    exact ⟨program, source, hassemble, hread, hresolved⟩
  · have hread : read "(A)\n(A)\n" = .ok [⟨1, .label "A"⟩, ⟨2, .label "A"⟩] := by decide
    refine ((symbols_resolved _).2 _ hread ?_).1.mpr
      ⟨[⟨1, .label "A"⟩], 2, "A", [], rfl, .inr (by decide)⟩
    intro front line name back heq
    have hlength := congrArg List.length heq
    have hcount := wordCount_le_length (front.map SourceLine.instruction)
    simp only [List.length_append, List.length_cons, List.length_nil] at hlength
    rw [List.length_map] at hcount
    omega

end JackToolchain.Assembly
