import JackToolchain.Proofs.Assembly.Blocks
import Mathlib.Data.List.Basic
import Mathlib.Data.List.Nodup
import Mathlib.Data.List.Perm.Subperm

/-!
# Addresses of symbols

What the two passes over a program leave: every label has the address of what follows it, names
that are no labels have addresses of their own from 16 on, and every instruction stands where its
turn is.
-/

namespace JackToolchain.Assembly

namespace Symbols

variable {s t : Symbols} {name other : String} {address : UInt16}

theorem define?_eq_some (h : s.define? name address = some t) :
    s.get? name = none ∧ t = s.bind name address := by
  unfold define? at h
  split at h
  · cases h
  · rename_i hfree
    cases h
    refine ⟨?_, rfl⟩
    simpa [get?, contains] using hfree

theorem distinct_predefined : predefined.Pairwise fun x y => (x.1 == y.1) = false := by
  decide

theorem get?_of_mem_predefined (h : (name, address) ∈ predefined) :
    ({} : Symbols).get? name = some address :=
  Std.HashMap.getElem?_ofList_of_mem (beq_self_eq_true name) distinct_predefined h

theorem mem_of_lookup {table : List (String × UInt16)} {bits : UInt16}
    (h : table.lookup name = some bits) : (name, bits) ∈ table := by
  obtain ⟨front, back, rfl, -⟩ := List.lookup_eq_some_iff.mp h
  exact List.mem_append_right front List.mem_cons_self

/-- Without labels and variables a name has the address of its row. -/
theorem get?_empty (name : String) : ({} : Symbols).get? name = predefined.lookup name := by
  cases hlookup : predefined.lookup name with
  | some address => exact get?_of_mem_predefined (mem_of_lookup hlookup)
  | none =>
      refine Std.HashMap.getElem?_ofList_of_contains_eq_false ?_
      rw [Bool.eq_false_iff, List.contains_eq_mem, ne_eq, decide_eq_true_eq]
      intro hmem
      obtain ⟨row, hrow, rfl⟩ := List.mem_map.mp hmem
      have hne := List.lookup_eq_none_iff.mp hlookup row hrow
      simp at hne

/-- No symbol that every program knows has a dot. -/
theorem get?_eq_none_of_dot (h : '.' ∈ name.toList) : ({} : Symbols).get? name = none := by
  rw [get?_empty, List.lookup_eq_none_iff]
  intro row hrow
  have hall : ∀ row ∈ predefined, '.' ∉ row.1.toList := by decide
  have hne : name ≠ row.1 := by
    rintro rfl
    exact hall row hrow h
  simpa using hne

theorem get?_nextVariable : s.nextVariable.get? name = s.get? name := rfl

/-- Names keep their addresses. -/
def Extends (s t : Symbols) : Prop := ∀ name address, s.get? name = some address →
  t.get? name = some address

theorem Extends.refl (s : Symbols) : Extends s s := fun _ _ h => h

theorem Extends.trans {u : Symbols} (h : Extends s t) (h' : Extends t u) : Extends s u :=
  fun name address hs => h' name address (h name address hs)

theorem extends_bind (h : s.get? name = none) : Extends s (s.bind name address) := by
  intro other a hother
  rw [get?_bind]
  split
  · rename_i heq
    rw [← heq, h] at hother
    cases hother
  · exact hother

theorem resolve_spec (s : Symbols) (name : String) :
    Extends s (s.resolve name).2 ∧ (s.resolve name).2.get? name = some (s.resolve name).1 := by
  unfold resolve
  cases hget : s.get? name with
  | some a => exact ⟨Extends.refl s, hget⟩
  | none =>
      refine ⟨fun other a hother => extends_bind hget other a hother, ?_⟩
      rw [get?_nextVariable, get?_bind, if_pos rfl]

end Symbols

open Symbols

/-- The labels of some instructions stand at their addresses. -/
def LabelsAt (addresses : String → Nat) : Nat → List SourceLine → Prop
  | _, [] => True
  | pc, ⟨_, i⟩ :: rest =>
    (∀ name, i = .label name → addresses name = pc) ∧ LabelsAt addresses (pc + i.size) rest

theorem bindLabels_cons_of_not_label {s : Symbols} {address labels line : Nat} {i : Instruction}
    (rest : List SourceLine) (hi : ∀ name, i ≠ .label name) :
    bindLabels s address labels (⟨line, i⟩ :: rest) = bindLabels s (address + 1) labels rest ∧
      i.size = 1 := by
  cases i with
  | label name => exact absurd rfl (hi name)
  | constant value => exact ⟨by rw [bindLabels]; simp, rfl⟩
  | symbol name => exact ⟨by rw [bindLabels]; simp, rfl⟩
  | compute dest comp jump => exact ⟨by rw [bindLabels]; simp, rfl⟩

/-- What the first pass checks at a line that it accepts. -/
theorem bindLabels_cons_eq_ok {s t : Symbols} {address labels line n : Nat} {i : Instruction}
    {rest : List SourceLine} (h : bindLabels s address labels (⟨line, i⟩ :: rest) = .ok (t, n)) :
    (∃ name, i = .label name ∧ address ≤ 65535 ∧ s.get? name = none ∧
      bindLabels (s.bind name address.toUInt16) address (labels + 1) rest = .ok (t, n)) ∨
    (∀ name, i ≠ .label name) ∧ i.size = 1 ∧
      bindLabels s (address + 1) labels rest = .ok (t, n) := by
  by_cases hlabel : ∃ name, i = .label name
  · obtain ⟨name, rfl⟩ := hlabel
    simp only [bindLabels] at h
    split at h
    · cases h
    · rename_i hsmall
      cases hdefine : s.define? name address.toUInt16 with
      | none => simp [hdefine] at h
      | some s' =>
          simp only [hdefine] at h
          obtain ⟨hfree, rfl⟩ := define?_eq_some hdefine
          exact .inl ⟨name, rfl, Nat.not_lt.mp hsmall, hfree, h⟩
  · have hnot : ∀ name, i ≠ .label name := fun name heq => hlabel ⟨name, heq⟩
    obtain ⟨hskip, hsize⟩ := bindLabels_cons_of_not_label rest hnot
    exact .inr ⟨hnot, hsize, hskip ▸ h⟩

theorem bindLabels_nil_eq_ok {s t : Symbols} {address labels n : Nat}
    (h : bindLabels s address labels [] = .ok (t, n)) :
    address ≤ romSize ∧ t = s ∧ n = labels := by
  simp only [bindLabels] at h
  split at h
  · cases h
  · rename_i hroom
    cases h
    exact ⟨Nat.not_lt.mp hroom, rfl, rfl⟩

/-- The address of a name, zero if it has none. -/
def Symbols.address (s : Symbols) (name : String) : Nat := ((s.get? name).getD 0).toNat

theorem Symbols.address_of_get? {s : Symbols} {name : String} {a : UInt16}
    (h : s.get? name = some a) : s.address name = a.toNat := by
  rw [Symbols.address, h]
  rfl

/-- What the first pass leaves. -/
theorem bindLabels_spec {s t : Symbols} {address labels n : Nat} {lines : List SourceLine}
    (h : bindLabels s address labels lines = .ok (t, n)) :
    Extends s t ∧ t.variableCount = s.variableCount ∧
      (∀ name, t.get? name ≠ none → s.get? name = none →
        .label name ∈ lines.map SourceLine.instruction) ∧
      ∀ u, Extends t u → LabelsAt u.address address lines := by
  induction lines generalizing s address labels with
  | nil =>
      obtain ⟨-, rfl, -⟩ := bindLabels_nil_eq_ok h
      exact ⟨Extends.refl _, rfl, fun name hbound hfree => absurd hfree hbound, fun u _ => trivial⟩
  | cons source rest ih =>
      obtain ⟨line, i⟩ := source
      rcases bindLabels_cons_eq_ok h with ⟨name, rfl, hsmall, hfree, h⟩ | ⟨hnot, hsize, h⟩
      · obtain ⟨hextends, hcount, hbound, hat⟩ := ih h
        refine ⟨(extends_bind hfree).trans hextends, hcount, ?_, ?_⟩
        · intro other hother hnone
          by_cases hsame : name = other
          · rw [hsame]
            exact List.mem_cons_self
          · refine List.mem_cons_of_mem _ (hbound other hother ?_)
            rw [get?_bind, if_neg hsame, hnone]
        · intro u hu
          refine ⟨?_, hat u hu⟩
          intro other heq
          cases heq
          have hget : u.get? name = some address.toUInt16 := by
            apply hu
            apply hextends
            rw [get?_bind, if_pos rfl]
          rw [address_of_get? hget, Nat.toUInt16_eq, UInt16.toNat_ofNat']
          omega
      · obtain ⟨hextends, hcount, hbound, hat⟩ := ih h
        refine ⟨hextends, hcount, fun name hname hfree =>
          List.mem_cons_of_mem _ (hbound name hname hfree), fun u hu => ⟨?_, ?_⟩⟩
        · exact fun name heq => absurd heq (hnot name)
        · rw [hsize]
          exact hat u hu

/-- Every label has an address. -/
theorem get?_of_bindLabels {s t : Symbols} {address labels n : Nat} {lines : List SourceLine}
    (h : bindLabels s address labels lines = .ok (t, n)) {name : String}
    (hname : .label name ∈ lines.map SourceLine.instruction) : ∃ a, t.get? name = some a := by
  induction lines generalizing s address labels with
  | nil => cases hname
  | cons source rest ih =>
      obtain ⟨line, i⟩ := source
      rcases bindLabels_cons_eq_ok h with ⟨other, rfl, -, -, h⟩ | ⟨hnot, -, h⟩
      · rcases List.mem_cons.mp hname with heq | hname
        · cases heq
          refine ⟨address.toUInt16, (bindLabels_spec h).1 name _ ?_⟩
          rw [get?_bind, if_pos rfl]
        · exact ih h hname
      · rcases List.mem_cons.mp hname with heq | hname
        · exact absurd heq.symm (hnot name)
        · exact ih h hname

/-- The constants of an address instruction fit into fifteen bits. -/
def SmallConstants (lines : List SourceLine) : Prop :=
  ∀ line value, ⟨line, .constant value⟩ ∈ lines → value.toNat < 32768

theorem encodeAddress_eq {a : UInt16} (h : a.toNat < 32768) : encodeAddress a = a := by
  apply UInt16.toNat_inj.mp
  rw [encodeAddress, UInt16.toNat_and]
  exact Nat.and_two_pow_sub_one_of_lt_two_pow (n := 15) h

theorem encodeLines_compute {words words' : List UInt16} {s t : Symbols} {line : Nat}
    {dest jump : Option String} {comp : String} {rest : List SourceLine}
    (h : encodeLines words s (⟨line, .compute dest comp jump⟩ :: rest) = .ok (words', t)) :
    ∃ word, encodeParts dest comp jump = .ok word ∧
      encodeLines (word :: words) s rest = .ok (words', t) := by
  cases hencode : encodeParts dest comp jump with
  | error fault => simp [encodeLines, encode, hencode, Except.map] at h
  | ok word =>
      simp only [encodeLines, encode, hencode, Except.map] at h
      exact ⟨word, rfl, h⟩

/-- The symbols of some instructions fit into fifteen bits. -/
def SmallSymbols (addresses : String → Nat) (instructions : List Instruction) : Prop :=
  ∀ name, .symbol name ∈ instructions → addresses name < 32768

/-- What the second pass leaves: the first instructions in their places. -/
theorem encodeLines_spec {words words' : List UInt16} {s t : Symbols} {lines : List SourceLine}
    (h : encodeLines words s lines = .ok (words', t)) :
    Extends s t ∧ ∃ new, words' = words.reverse ++ new ∧
      (SmallConstants lines → ∀ front, front.length = words.length →
        LabelsAt t.address words.length lines → ∀ block back,
          lines.map SourceLine.instruction = block ++ back → SmallSymbols t.address block →
            Loaded t.address (front ++ new) words.length block) := by
  induction lines generalizing words s with
  | nil =>
      simp only [encodeLines] at h
      cases h
      refine ⟨Extends.refl _, [], by simp, ?_⟩
      intro _ front _ _ block back hblock _
      rw [(List.append_eq_nil_iff.mp hblock.symm).1]
      trivial
  | cons source rest ih =>
      obtain ⟨line, i⟩ := source
      have hsmall (hall : SmallConstants (⟨line, i⟩ :: rest)) : SmallConstants rest :=
        fun line value hmem => hall line value (List.mem_cons_of_mem _ hmem)
      -- a word in front of the words of the other lines
      have hword (word : UInt16) (s' : Symbols) (hs : Extends s s')
          (hencode : encode s i = .ok (some word, s')) (hsize : i.size = 1)
          (hplaced : Extends s' t → SmallConstants (⟨line, i⟩ :: rest) →
            SmallSymbols t.address [i] → ∀ code : List UInt16, code[words.length]? = some word →
              Placed t.address code words.length i) :
          Extends s t ∧ ∃ new, words' = words.reverse ++ new ∧
            (SmallConstants (⟨line, i⟩ :: rest) → ∀ front, front.length = words.length →
              LabelsAt t.address words.length (⟨line, i⟩ :: rest) → ∀ block back,
                (⟨line, i⟩ :: rest).map SourceLine.instruction = block ++ back →
                  SmallSymbols t.address block →
                    Loaded t.address (front ++ new) words.length block) := by
        simp only [encodeLines, hencode] at h
        obtain ⟨hextends, new, hnew, hloaded⟩ := ih h
        refine ⟨hs.trans hextends, word :: new, by simpa using hnew, ?_⟩
        intro hconstants front hfront hlabels block back hblock hsymbols
        cases block with
        | nil => trivial
        | cons j block =>
            obtain ⟨rfl, htail⟩ := List.cons.inj hblock
            refine ⟨hplaced hextends hconstants (fun name hname => ?_) _ ?_, ?_⟩
            · exact hsymbols name (List.mem_singleton.mp hname ▸ List.mem_cons_self)
            · rw [← hfront, List.getElem?_append_right (le_refl _)]
              simp
            · have hlabels' := hlabels.2
              rw [hsize] at hlabels' ⊢
              have hrest := hloaded (hsmall hconstants) (front ++ [word]) (by simp [hfront])
                hlabels' block back htail fun name hname =>
                  hsymbols name (List.mem_cons_of_mem _ hname)
              simpa using hrest
      cases i with
      | constant value =>
          refine hword (encodeAddress value) s (Extends.refl s) rfl rfl ?_
          intro _ hconstants _ code hcode
          have hvalue := hconstants line value List.mem_cons_self
          rw [encodeAddress_eq hvalue] at hcode
          exact ⟨hvalue, hcode⟩
      | symbol name =>
          obtain ⟨hs, hget⟩ := resolve_spec s name
          refine hword (encodeAddress (s.resolve name).1) (s.resolve name).2 hs rfl rfl ?_
          intro hextends _ hsymbols code hcode
          have hsmall' := hsymbols name List.mem_cons_self
          have haddress := address_of_get? (hextends name _ hget)
          rw [haddress] at hsmall'
          rw [encodeAddress_eq hsmall'] at hcode
          rw [Placed, haddress]
          refine ⟨hsmall', ?_⟩
          rw [hcode]
          simp
      | compute dest comp jump =>
          obtain ⟨word, hencode, -⟩ := encodeLines_compute h
          refine hword word s (Extends.refl s) (by simp [encode, hencode, Except.map]) rfl ?_
          intro _ _ _ code hcode
          exact ⟨word, hencode, hcode⟩
      | label name =>
          simp only [encodeLines, encode] at h
          obtain ⟨hextends, new, hnew, hloaded⟩ := ih h
          refine ⟨hextends, new, hnew, ?_⟩
          intro hconstants front hfront hlabels block back hblock hsymbols
          cases block with
          | nil => trivial
          | cons j block =>
              obtain ⟨rfl, htail⟩ := List.cons.inj hblock
              refine ⟨hlabels.1 name rfl, ?_⟩
              exact hloaded (hsmall hconstants) front hfront hlabels.2 block back htail
                fun other hother => hsymbols other (List.mem_cons_of_mem _ hother)

/-- The second pass comes from the lines in front to those behind. -/
theorem encodeLines_append {words words' : List UInt16} {s t : Symbols}
    {front back : List SourceLine} (h : encodeLines words s (front ++ back) = .ok (words', t)) :
    ∃ words₁ s₁, encodeLines words₁ s₁ back = .ok (words', t) ∧
      words₁.length = words.length + wordCount (front.map SourceLine.instruction) := by
  induction front generalizing words s with
  | nil => exact ⟨words, s, h, rfl⟩
  | cons source rest ih =>
      obtain ⟨line, i⟩ := source
      rw [List.map_cons, wordCount_cons]
      have hword {word : UInt16} {s' : Symbols} (hsize : i.size = 1)
          (hafter : encodeLines (word :: words) s' (rest ++ back) = .ok (words', t)) :
          ∃ words₁ s₁, encodeLines words₁ s₁ back = .ok (words', t) ∧
            words₁.length =
              words.length + (i.size + wordCount (rest.map SourceLine.instruction)) := by
        obtain ⟨words₁, s₁, hback, hlength⟩ := ih hafter
        refine ⟨words₁, s₁, hback, ?_⟩
        rw [hlength, hsize, List.length_cons, Nat.add_assoc]
      cases i with
      | constant value => exact hword rfl h
      | symbol name => exact hword rfl h
      | compute dest comp jump =>
          obtain ⟨word, -, h⟩ := encodeLines_compute h
          exact hword rfl h
      | label name =>
          obtain ⟨words₁, s₁, hback, hlength⟩ := ih h
          exact ⟨words₁, s₁, hback, by simpa using hlength⟩

theorem LabelsAt.append {addresses : String → Nat} {pc : Nat} {front back : List SourceLine}
    (h : LabelsAt addresses pc (front ++ back)) :
    LabelsAt addresses (pc + wordCount (front.map SourceLine.instruction)) back := by
  induction front generalizing pc with
  | nil => exact h
  | cons source rest ih =>
      have hrest := ih h.2
      rwa [Nat.add_assoc] at hrest

/-- Every symbol that is used has an address. -/
theorem get?_of_encodeLines {words words' : List UInt16} {s t : Symbols} {lines : List SourceLine}
    (h : encodeLines words s lines = .ok (words', t)) {name : String}
    (hname : .symbol name ∈ lines.map SourceLine.instruction) : ∃ a, t.get? name = some a := by
  induction lines generalizing words s with
  | nil => cases hname
  | cons source rest ih =>
      obtain ⟨line, i⟩ := source
      have hrest (words : List UInt16) (s : Symbols) (hne : i ≠ .symbol name)
          (h : encodeLines words s rest = .ok (words', t)) : ∃ a, t.get? name = some a := by
        rcases List.mem_cons.mp hname with heq | hname
        · exact absurd heq.symm hne
        · exact ih h hname
      cases i with
      | constant value => exact hrest _ _ (by simp) h
      | symbol other =>
          by_cases hsame : other = name
          · subst hsame
            have hafter : encodeLines (encodeAddress (s.resolve other).1 :: words)
                (s.resolve other).2 rest = .ok (words', t) := h
            exact ⟨_, (encodeLines_spec hafter).1 other _ (resolve_spec s other).2⟩
          · exact hrest _ _ (by simpa using hsame) h
      | compute dest comp jump =>
          obtain ⟨word, -, h⟩ := encodeLines_compute h
          exact hrest _ _ (by simp) h
      | label other => exact hrest _ _ (by simp) h

/-! ## Variables -/

/-- The names that became variables after the first pass, in order. -/
structure Variables (base : Symbols) (names : List String) (s : Symbols) : Prop where
  count : s.variableCount = names.length
  nodup : names.Nodup
  fresh : ∀ name ∈ names, base.get? name = none
  get : ∀ name, s.get? name =
    if name ∈ names then some (variableBase + names.idxOf name).toUInt16 else base.get? name

theorem Variables.nil {base : Symbols} (h : base.variableCount = 0) : Variables base [] base where
  count := h
  nodup := List.nodup_nil
  fresh := by simp
  get := by simp

/-- A name that has an address keeps it, any other becomes the next variable. -/
theorem Variables.resolve {base s : Symbols} {names : List String} (h : Variables base names s)
    (name : String) (hroom : names.length < 65535 - variableBase) :
    ∃ names', Variables base names' (s.resolve name).2 ∧
      ((name ∈ names ∨ base.get? name ≠ none) ∧ names' = names ∨
        name ∉ names ∧ base.get? name = none ∧ names' = names ++ [name]) := by
  unfold Symbols.resolve
  cases hget : s.get? name with
  | some a =>
      refine ⟨names, h, .inl ⟨?_, rfl⟩⟩
      by_cases hmem : name ∈ names
      · exact .inl hmem
      · rw [h.get, if_neg hmem] at hget
        exact .inr (by simp [hget])
  | none =>
      have hnot : name ∉ names := by
        intro hmem
        rw [h.get, if_pos hmem] at hget
        cases hget
      have hbase : base.get? name = none := by
        rw [h.get, if_neg hnot] at hget
        exact hget
      refine ⟨names ++ [name], ⟨?_, ?_, ?_, ?_⟩, .inr ⟨hnot, hbase, rfl⟩⟩
      · simp only [nextVariable, Symbols.bind, List.length_append, List.length_singleton, h.count]
        omega
      · rw [List.nodup_append]
        refine ⟨h.nodup, List.nodup_singleton name, ?_⟩
        intro a ha b hb hab
        rw [List.mem_singleton.mp hb] at hab
        exact hnot (hab ▸ ha)
      · intro other hother
        rcases List.mem_append.mp hother with hother | hother
        · exact h.fresh other hother
        · rw [List.mem_singleton.mp hother]
          exact hbase
      · intro other
        rw [get?_nextVariable, get?_bind, h.get]
        by_cases hsame : name = other
        · subst hsame
          rw [if_pos rfl, if_pos (by simp), List.idxOf_append_of_notMem hnot, h.count]
          simp
        · rw [if_neg hsame]
          by_cases hmem : other ∈ names
          · rw [if_pos hmem, if_pos (by simp [hmem]), List.idxOf_append_of_mem hmem]
          · rw [if_neg hmem, if_neg (by simp [hmem, Ne.symm hsame])]

/-- The second pass makes variables of the names in `pool` at most. -/
theorem encodeLines_variables {words words' : List UInt16} {base s t : Symbols}
    {names pool : List String} {lines : List SourceLine}
    (h : encodeLines words s lines = .ok (words', t)) (hvars : Variables base names s)
    (hnames : names ⊆ pool) (hpool : pool.length < 65535 - variableBase)
    (hsymbols : ∀ line name, ⟨line, .symbol name⟩ ∈ lines → base.get? name = none → name ∈ pool) :
    ∃ names', Variables base names' t ∧ names' ⊆ pool := by
  induction lines generalizing words s names with
  | nil =>
      simp only [encodeLines] at h
      cases h
      exact ⟨names, hvars, hnames⟩
  | cons source rest ih =>
      obtain ⟨line, i⟩ := source
      have hrest : ∀ line name, ⟨line, .symbol name⟩ ∈ rest → base.get? name = none →
          name ∈ pool :=
        fun line name hmem => hsymbols line name (List.mem_cons_of_mem _ hmem)
      cases i with
      | constant value => exact ih h hvars hnames hrest
      | symbol name =>
          have hlength : names.length ≤ pool.length :=
            (hvars.nodup.subperm hnames).length_le
          obtain ⟨names', hvars', ⟨-, rfl⟩ | ⟨-, hfree, rfl⟩⟩ := hvars.resolve name (by omega)
          · exact ih h hvars' hnames hrest
          · refine ih h hvars' (List.append_subset.mpr ⟨hnames, ?_⟩) hrest
            simpa using hsymbols line name List.mem_cons_self hfree
      | compute dest comp jump =>
          obtain ⟨word, -, h⟩ := encodeLines_compute h
          exact ih h hvars hnames hrest
      | label name => exact ih h hvars hnames hrest

end JackToolchain.Assembly
