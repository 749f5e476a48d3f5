import JackToolchain.Proofs.Assembly.Binding

/-!
# Words of instructions

The word of a computation has the bits of its parts in fields of their own, so the parts can be
read off the word. A computation without a word names a part that is not known.
-/

namespace JackToolchain.Assembly

open Symbols

/-- What the word of an instruction is made of. The fields of a computation are `111`, the seven
bits of what is computed, three for where it goes and three for when to jump. -/
def Encodes (symbols : Symbols) : Instruction → UInt16 → Prop
  | .constant value, word => word = value
  | .symbol name, word => word.toNat = symbols.address name % 32768
  | .compute dest comp jump, word =>
    word >>> 13 = 0b111 ∧ compBits? comp = some ((word >>> 6) &&& 0b1111111) ∧
      dest.elim (some 0) destBits? = some ((word >>> 3) &&& 0b111) ∧
        jump.elim (some 0) jumpBits? = some (word &&& 0b111)
  | .label _, _ => False

/-! ## Bits of parts -/

theorem compBits?_lt {comp : String} {bits : UInt16} (h : compBits? comp = some bits) :
    bits.toNat < 128 := by
  simp only [compBits?] at h
  split at h
  · cases h
  · obtain ⟨row, hrow, rfl⟩ := Option.map_eq_some_iff.mp h
    have hall : ∀ row ∈ compTable, row.2.toNat < 2 ^ 7 := by decide
    have hbits := hall _ (mem_of_lookup hrow)
    rw [UInt16.toNat_or]
    refine Nat.or_lt_two_pow (n := 7) ?_ hbits
    split <;> decide

theorem destBitsFrom_lt {seen bits : UInt16} {registers : List Char} (hseen : seen.toNat < 8)
    (h : destBitsFrom seen registers = some bits) : bits.toNat < 8 := by
  induction registers generalizing seen with
  | nil =>
      cases h
      exact hseen
  | cons c rest ih =>
      rw [destBitsFrom] at h
      cases hbit : destBit? c with
      | none => simp [hbit] at h
      | some bit =>
          have hlt : bit.toNat < 8 := by
            unfold destBit? at hbit
            split at hbit <;> cases hbit <;> decide
          simp only [hbit] at h
          split at h
          · cases h
          · refine ih ?_ h
            rw [UInt16.toNat_or]
            exact Nat.or_lt_two_pow (n := 3) hseen hlt

theorem jumpBits?_lt {jump : String} {bits : UInt16} (h : jumpBits? jump = some bits) :
    bits.toNat < 8 := by
  have hall : ∀ row ∈ jumpTable, row.2.toNat < 8 := by decide
  exact hall _ (mem_of_lookup h)

/-- The bits of a part that may be absent. -/
theorem toNat_lt_of_elim {bits? : String → Option UInt16} {part : Option String} {bits : UInt16}
    (h : part.elim (some 0) bits? = some bits)
    (hbits : ∀ mnemonic found, bits? mnemonic = some found → found.toNat < 8) : bits.toNat < 8 := by
  cases part with
  | none =>
      cases h
      decide
  | some mnemonic => exact hbits mnemonic bits h

/-! ## Fields -/

section Fields

variable {comp dest jump : UInt16} (hcomp : comp.toNat < 128) (hdest : dest.toNat < 8)
  (hjump : jump.toNat < 8)

include hcomp hdest hjump

theorem toNat_encodeCompute : (encodeCompute comp dest jump).toNat =
    57344 + comp.toNat * 64 + dest.toNat * 8 + jump.toNat := by
  have hc : (comp <<< (6 : UInt16)).toNat = comp.toNat * 64 := by
    rw [UInt16.toNat_shiftLeft, Nat.shiftLeft_eq]
    exact Nat.mod_eq_of_lt (by change comp.toNat * 64 < 65536; omega)
  have hd : (dest <<< (3 : UInt16)).toNat = dest.toNat * 8 := by
    rw [UInt16.toNat_shiftLeft, Nat.shiftLeft_eq]
    exact Nat.mod_eq_of_lt (by change dest.toNat * 8 < 65536; omega)
  rw [encodeCompute, UInt16.toNat_or, UInt16.toNat_or, UInt16.toNat_or, hc, hd]
  have hfirst : 57344 ||| comp.toNat * 64 = 57344 + comp.toNat * 64 :=
    (Nat.two_pow_add_eq_or_of_lt (i := 13) (by omega) 7).symm
  have hsecond : (57344 + comp.toNat * 64) ||| dest.toNat * 8 =
      57344 + comp.toNat * 64 + dest.toNat * 8 := by
    have hor := Nat.two_pow_add_eq_or_of_lt (b := dest.toNat * 8) (i := 6) (by omega)
      (896 + comp.toNat)
    have hleft : 2 ^ 6 * (896 + comp.toNat) = 57344 + comp.toNat * 64 := by omega
    rw [hleft] at hor
    exact hor.symm
  have hthird : (57344 + comp.toNat * 64 + dest.toNat * 8) ||| jump.toNat =
      57344 + comp.toNat * 64 + dest.toNat * 8 + jump.toNat := by
    have hor := Nat.two_pow_add_eq_or_of_lt (b := jump.toNat) (i := 3) (by omega)
      (7168 + comp.toNat * 8 + dest.toNat)
    have hleft : 2 ^ 3 * (7168 + comp.toNat * 8 + dest.toNat) =
        57344 + comp.toNat * 64 + dest.toNat * 8 := by omega
    rw [hleft] at hor
    exact hor.symm
  have hmark : (0xE000 : UInt16).toNat = 57344 := rfl
  rw [hmark, hfirst, hsecond, hthird]

theorem fields_encodeCompute :
    encodeCompute comp dest jump >>> 13 = 0b111 ∧
      (encodeCompute comp dest jump >>> 6) &&& 0b1111111 = comp ∧
        (encodeCompute comp dest jump >>> 3) &&& 0b111 = dest ∧
          encodeCompute comp dest jump &&& 0b111 = jump := by
  have hword := toNat_encodeCompute hcomp hdest hjump
  refine ⟨?_, ?_, ?_, ?_⟩
  · apply UInt16.toNat_inj.mp
    rw [UInt16.toNat_shiftRight, Nat.shiftRight_eq_div_pow, hword]
    change _ / 2 ^ 13 = 7
    omega
  · apply UInt16.toNat_inj.mp
    rw [UInt16.toNat_and, UInt16.toNat_shiftRight, Nat.shiftRight_eq_div_pow, hword]
    change (_ / 2 ^ 6) &&& (2 ^ 7 - 1) = _
    rw [Nat.and_two_pow_sub_one_eq_mod]
    omega
  · apply UInt16.toNat_inj.mp
    rw [UInt16.toNat_and, UInt16.toNat_shiftRight, Nat.shiftRight_eq_div_pow, hword]
    change (_ / 2 ^ 3) &&& (2 ^ 3 - 1) = _
    rw [Nat.and_two_pow_sub_one_eq_mod]
    omega
  · apply UInt16.toNat_inj.mp
    rw [UInt16.toNat_and, hword]
    change _ &&& (2 ^ 3 - 1) = _
    rw [Nat.and_two_pow_sub_one_eq_mod]
    omega

end Fields

/-! ## Computations -/

theorem optionalBits_eq_ok {bits? : String → Option UInt16} {fault : String → Fault}
    {part : Option String} {bits : UInt16} (h : optionalBits bits? fault part = .ok bits) :
    part.elim (some 0) bits? = some bits := by
  cases part with
  | none =>
      cases h
      rfl
  | some mnemonic =>
      rw [optionalBits] at h
      cases hbits : bits? mnemonic with
      | none => simp [hbits] at h
      | some found =>
          simp only [hbits] at h
          cases h
          exact hbits

theorem optionalBits_eq_error {bits? : String → Option UInt16} {fault : String → Fault}
    {part : Option String} {e : Fault} (h : optionalBits bits? fault part = .error e) :
    ∃ mnemonic, e = fault mnemonic := by
  cases part with
  | none => cases h
  | some mnemonic =>
      rw [optionalBits] at h
      cases hbits : bits? mnemonic with
      | none =>
          simp only [hbits] at h
          cases h
          exact ⟨mnemonic, rfl⟩
      | some found => simp [hbits] at h

/-- The three parts of a computation, one after the other. -/
theorem encodeParts_eq (dest : Option String) (comp : String) (jump : Option String) :
    encodeParts dest comp jump =
      match optionalBits compBits? .unknownComp (some comp),
        optionalBits destBits? .unknownDest dest, optionalBits jumpBits? .unknownJump jump with
      | .error e, _, _ => .error e
      | .ok _, .error e, _ => .error e
      | .ok _, .ok _, .error e => .error e
      | .ok c, .ok d, .ok j => .ok (encodeCompute c d j) := by
  rw [encodeParts]
  cases optionalBits compBits? .unknownComp (some comp) with
  | error e => rfl
  | ok c =>
      cases optionalBits destBits? .unknownDest dest with
      | error e => rfl
      | ok d =>
          cases optionalBits jumpBits? .unknownJump jump with
          | error e => rfl
          | ok j => rfl

theorem encodes_of_encodeParts {symbols : Symbols} {dest jump : Option String} {comp : String}
    {word : UInt16} (h : encodeParts dest comp jump = .ok word) :
    Encodes symbols (.compute dest comp jump) word := by
  rw [encodeParts_eq] at h
  split at h
  · cases h
  · cases h
  · cases h
  · rename_i c d j hc hd hj
    cases h
    have hcomp := optionalBits_eq_ok hc
    have hdest := optionalBits_eq_ok hd
    have hjump := optionalBits_eq_ok hj
    have hdestlt : d.toNat < 8 := toNat_lt_of_elim hdest fun _ _ => destBitsFrom_lt (by decide)
    have hjumplt : j.toNat < 8 := toNat_lt_of_elim hjump fun _ _ => jumpBits?_lt
    obtain ⟨hmark, hcbits, hdbits, hjbits⟩ :=
      fields_encodeCompute (compBits?_lt hcomp) hdestlt hjumplt
    rw [Encodes, hcbits, hdbits, hjbits]
    exact ⟨hmark, hcomp, hdest, hjump⟩

theorem unknown_of_encodeParts {dest jump : Option String} {comp : String} {e : Fault}
    (h : encodeParts dest comp jump = .error e) :
    ∃ part, e = .unknownComp part ∨ e = .unknownDest part ∨ e = .unknownJump part := by
  rw [encodeParts_eq] at h
  split at h
  · rename_i hpart
    cases h
    obtain ⟨part, rfl⟩ := optionalBits_eq_error hpart
    exact ⟨part, .inl rfl⟩
  · rename_i hpart
    cases h
    obtain ⟨part, rfl⟩ := optionalBits_eq_error hpart
    exact ⟨part, .inr (.inl rfl)⟩
  · rename_i hpart
    cases h
    obtain ⟨part, rfl⟩ := optionalBits_eq_error hpart
    exact ⟨part, .inr (.inr rfl)⟩
  · cases h

end JackToolchain.Assembly
