import JackToolchain.Text.Blank
import JackToolchain.Text.Name

/-!
# Characters of names

Names and numbers have neither blanks nor slashes in them, and a number is read back from its
digits.
-/

namespace JackToolchain.Text

/-- The range of the characters of a name. -/
theorem range_of_isNameChar {c : Char} (h : isNameChar c = true) :
    36 ≤ c.toNat ∧ c.toNat ≤ 122 ∧ c.toNat ≠ 47 := by
  simp only [isNameChar, isNameStart, isDigit, Bool.or_eq_true, Bool.and_eq_true,
    decide_eq_true_eq, beq_iff_eq, Char.le_def, UInt32.le_iff_toNat_le] at h
  have ha : 'a'.val.toNat = 97 := rfl
  have hz : 'z'.val.toNat = 122 := rfl
  have hA : 'A'.val.toNat = 65 := rfl
  have hZ : 'Z'.val.toNat = 90 := rfl
  have h0 : '0'.val.toNat = 48 := rfl
  have h9 : '9'.val.toNat = 57 := rfl
  have hc : c.val.toNat = c.toNat := rfl
  rcases h with (((((h | h) | rfl) | rfl) | rfl) | rfl) | h
  · omega
  · omega
  · decide
  · decide
  · decide
  · decide
  · omega

/-- A character that is neither blank nor a slash. -/
def Solid (c : Char) : Prop := c ≠ '/' ∧ isBlank c = false ∧ c ≠ '\n' ∧ c ≠ '\r'

theorem solid_of_isNameChar {c : Char} (h : isNameChar c = true) : Solid c := by
  obtain ⟨hlow, hhigh, hslash⟩ := range_of_isNameChar h
  refine ⟨?_, ?_, ?_, ?_⟩
  · rintro rfl
    exact hslash rfl
  · simp only [isBlank, Bool.or_eq_false_iff, Bool.and_eq_false_iff, decide_eq_false_iff_not,
      beq_eq_false_iff_ne]
    omega
  · rintro rfl
    exact absurd hlow (by decide)
  · rintro rfl
    exact absurd hlow (by decide)

theorem isNameChar_of_isName {name : List Char} (h : isName name = true) :
    ∀ c ∈ name, isNameChar c = true := by
  intro c hc
  cases name with
  | nil => cases hc
  | cons d rest =>
      rw [isName_cons, Bool.and_eq_true, List.all_eq_true] at h
      rcases List.mem_cons.mp hc with rfl | hmem
      · simp [isNameChar, h.1]
      · exact h.2 c hmem

/-- Names start with no digit. -/
theorem not_isDigit_of_isNameStart {c : Char} (h : isNameStart c = true) : isDigit c = false := by
  simp only [isNameStart, Bool.or_eq_true, Bool.and_eq_true, decide_eq_true_eq, beq_iff_eq,
    Char.le_def, UInt32.le_iff_toNat_le] at h
  simp only [isDigit, Bool.and_eq_false_iff, decide_eq_false_iff_not, Char.le_def,
    UInt32.le_iff_toNat_le]
  have ha : 'a'.val.toNat = 97 := rfl
  have hA : 'A'.val.toNat = 65 := rfl
  have h9 : '9'.val.toNat = 57 := rfl
  rcases h with ((((h | h) | rfl) | rfl) | rfl) | rfl
  · omega
  · omega
  · decide
  · decide
  · decide
  · decide

theorem isDigit_of_mem_toDigits {n : Nat} {c : Char} (h : c ∈ Nat.toDigits 10 n) :
    isDigit c = true := by
  have hdigit := Nat.isDigit_of_mem_toDigits (by decide) (by decide) h
  simpa [isDigit, Char.isDigit, Char.le_def] using hdigit

theorem readDigits?_toDigits {max n : Nat} (h : n ≤ max) :
    readDigits? max (Nat.toDigits 10 n) = some n := by
  have hall : (Nat.toDigits 10 n).all isDigit = true := by
    rw [List.all_eq_true]
    exact fun c hc => isDigit_of_mem_toDigits hc
  have hempty : (Nat.toDigits 10 n).isEmpty = false := by
    cases hdigits : Nat.toDigits 10 n with
    | nil => exact absurd hdigits Nat.toDigits_ne_nil
    | cons c rest => rfl
  have hvalue : ofDigits (Nat.toDigits 10 n) = n := Nat.ofDigitChars_ten_toDigits
  simp [readDigits?, hall, hempty, hvalue, h]

theorem isName_append {front back : List Char} (hfront : isName front = true)
    (hback : ∀ c ∈ back, isNameChar c = true) : isName (front ++ back) = true := by
  cases front with
  | nil => cases hfront
  | cons c rest =>
      rw [isName_cons, Bool.and_eq_true] at hfront
      rw [List.cons_append, isName_cons, Bool.and_eq_true, List.all_append, Bool.and_eq_true]
      exact ⟨hfront.1, hfront.2, List.all_eq_true.mpr hback⟩

theorem isNameChar_of_mem_toDigits {n : Nat} {c : Char} (h : c ∈ Nat.toDigits 10 n) :
    isNameChar c = true := by
  simp [isNameChar, isDigit_of_mem_toDigits h]

theorem toList_toString (n : Nat) : (toString n).toList = Nat.toDigits 10 n := by
  rw [Nat.toString_eq_ofList_toDigits, String.toList_ofList]

/-- A number behind a name. -/
theorem isName_numbered {front : List Char} (h : isName front = true) (n : Nat) :
    isName (front ++ (toString n).toList) = true := by
  rw [toList_toString]
  exact isName_append h fun c hc => isNameChar_of_mem_toDigits hc

end JackToolchain.Text
