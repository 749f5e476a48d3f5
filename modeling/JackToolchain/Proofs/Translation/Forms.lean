import JackToolchain.Proofs.Lowering.Shape
import JackToolchain.Proofs.Translation.Statics

/-!
# Forms of symbols

The symbols of a program are words with dots between them, and perhaps a suffix behind a dollar
sign. Different forms are written differently.
-/

namespace JackToolchain.Stack

open JackToolchain.Lowering JackToolchain.Text JackToolchain.Token

theorem toString_injective {n n' : Nat} (h : toString n = toString n') : n = n' := by
  have hdigits : Nat.toDigits 10 n = Nat.toDigits 10 n' := by
    rw [← toList_toString, h, toList_toString]
  rw [← Nat.ofDigitChars_ten_toDigits (n := n), hdigits, Nat.ofDigitChars_ten_toDigits]

/-! ## Suffixes -/

/-- What stands behind the dollar sign of a symbol. -/
inductive Suffix
  | branch (label : String)
  | call (number : Nat)
  | comparison (number : Nat)
  deriving DecidableEq

namespace Suffix

def text : Suffix → String
  | branch label => label
  | call number => s!"ret.{number}"
  | comparison number => toString number

/-- Branches have the labels of statements. -/
def Proper : Suffix → Prop
  | branch label => ∃ m : Mark, label = m.text
  | call _ | comparison _ => True

/-- The first character tells what a suffix is. -/
def Starts (c : Char) : Suffix → Prop
  | branch _ => c = 'I' ∨ c = 'W'
  | call _ => c = 'r'
  | comparison _ => isDigit c = true

theorem exists_starts {s : Suffix} (h : s.Proper) :
    ∃ c rest, s.text.toList = c :: rest ∧ s.Starts c := by
  cases s with
  | branch label =>
      obtain ⟨m, rfl⟩ := h
      have hfront : ∃ c rest, m.kind.front.toList = c :: rest ∧ (c = 'I' ∨ c = 'W') := by
        cases m.kind
        all_goals exact ⟨_, _, rfl, by decide⟩
      obtain ⟨c, rest, hfront, hc⟩ := hfront
      rw [text, Mark.toList_text, hfront]
      exact ⟨c, _, rfl, hc⟩
  | call number =>
      refine ⟨'r', 'e' :: 't' :: '.' :: Nat.toDigits 10 number, ?_, rfl⟩
      simp [text]
      rfl
  | comparison number =>
      rw [text, toList_toString]
      cases hdigits : Nat.toDigits 10 number with
      | nil => exact absurd hdigits Nat.toDigits_ne_nil
      | cons c rest =>
          exact ⟨c, rest, rfl, isDigit_of_mem_toDigits (hdigits ▸ List.mem_cons_self)⟩

theorem text_inj {s s' : Suffix} (hs : s.Proper) (hs' : s'.Proper) (h : s.text = s'.text) :
    s = s' := by
  obtain ⟨c, rest, htext, hc⟩ := exists_starts hs
  obtain ⟨c', rest', htext', hc'⟩ := exists_starts hs'
  rw [h, htext'] at htext
  obtain ⟨rfl, -⟩ := List.cons.inj htext
  have hletters (hbranch : c' = 'I' ∨ c' = 'W') : c' ≠ 'r' ∧ isDigit c' = false := by
    rcases hbranch with rfl | rfl <;> decide
  have hr : isDigit 'r' = false := by decide
  cases s with
  | branch label =>
      cases s' with
      | branch label' => exact congrArg branch h
      | call number => exact absurd hc' (hletters hc).1
      | comparison number => simp [Starts, (hletters hc).2] at hc'
  | call number =>
      cases s' with
      | branch label' => exact absurd hc (hletters hc').1
      | call number' =>
          have hnumber : toString number = toString number' := by
            simpa [text] using h
          rw [toString_injective hnumber]
      | comparison number' =>
          rw [Starts] at hc
          simp [Starts, hc, hr] at hc'
  | comparison number =>
      cases s' with
      | branch label' => simp [Starts, (hletters hc').2] at hc
      | call number' =>
          rw [Starts] at hc'
          simp [Starts, hc', hr] at hc
      | comparison number' => rw [toString_injective h]

end Suffix

/-! ## Symbols -/

/-- A symbol in its parts. -/
structure Form where
  words : List String
  suffix : Option Suffix
  deriving DecidableEq

/-- A word of a symbol has neither dots nor dollar signs. -/
def IsPart (word : String) : Prop := ∀ c ∈ word.toList, Rule.isWordChar c = true

instance : DecidablePred IsPart := fun _ =>
  decidable_of_iff (_ = true) List.all_eq_true

theorem isPart_of_isWord {word : String} (h : IsWord word) : IsPart word := h.isWordChar

theorem isPart_toString (n : Nat) : IsPart (toString n) := by
  intro c hc
  rw [toList_toString] at hc
  simp [Rule.isWordChar, isDigit_of_mem_toDigits hc]

theorem IsPart.append {v w : String} (hv : IsPart v) (hw : IsPart w) : IsPart (v ++ w) := by
  intro c hc
  rw [String.toList_append] at hc
  rcases List.mem_append.mp hc with hc | hc
  · exact hv c hc
  · exact hw c hc

namespace Form

/-- The words with dots between them. -/
def path (words : List String) : List Char := ['.'].intercalate (words.map String.toList)

def text (form : Form) : String :=
  String.ofList (path form.words ++ match form.suffix with
    | some suffix => '$' :: suffix.text.toList
    | none => [])

structure Proper (form : Form) : Prop where
  ne_nil : form.words ≠ []
  words : ∀ word ∈ form.words, IsPart word
  suffix : ∀ s, form.suffix = some s → s.Proper

theorem dot_not_mem {word : String} (h : IsPart word) : '.' ∉ word.toList := fun hmem =>
  absurd (h _ hmem) (by decide)

theorem dollar_not_mem {word : String} (h : IsPart word) : '$' ∉ word.toList := fun hmem =>
  absurd (h _ hmem) (by decide)

@[simp] theorem path_singleton (word : String) : path [word] = word.toList := by
  simp [path]

theorem path_cons_cons (word next : String) (words : List String) :
    path (word :: next :: words) = word.toList ++ '.' :: path (next :: words) := by
  simp [path, List.intercalate_cons_cons]

theorem dollar_not_mem_path {words : List String} (h : ∀ word ∈ words, IsPart word) :
    '$' ∉ path words := by
  induction words with
  | nil => simp [path]
  | cons word words ih =>
      have hword := dollar_not_mem (h word List.mem_cons_self)
      have hrest := ih fun other hother => h other (List.mem_cons_of_mem _ hother)
      cases words with
      | nil => simpa using hword
      | cons next words =>
          rw [path_cons_cons, List.mem_append, List.mem_cons]
          rintro (hmem | hmem | hmem)
          · exact hword hmem
          · cases hmem
          · exact hrest hmem

/-- The parts in front of the first separator are the same. -/
theorem append_cons_inj {front front' back back' : List Char} {separator : Char}
    (h : separator ∉ front) (h' : separator ∉ front')
    (heq : front ++ separator :: back = front' ++ separator :: back') :
    front = front' ∧ back = back' := by
  induction front generalizing front' with
  | nil =>
      cases front' with
      | nil => exact ⟨rfl, (List.cons.inj heq).2⟩
      | cons c front' => exact absurd (List.cons.inj heq).1 fun hc => h' (hc ▸ List.mem_cons_self)
  | cons c front ih =>
      cases front' with
      | nil => exact absurd (List.cons.inj heq).1 fun hc => h (hc ▸ List.mem_cons_self)
      | cons c' front' =>
          obtain ⟨rfl, hrest⟩ := List.cons.inj heq
          obtain ⟨rfl, rfl⟩ := ih (fun hmem => h (List.mem_cons_of_mem _ hmem))
            (fun hmem => h' (List.mem_cons_of_mem _ hmem)) hrest
          exact ⟨rfl, rfl⟩

theorem path_inj {words words' : List String} (hne : words ≠ []) (hne' : words' ≠ [])
    (h : ∀ word ∈ words, IsPart word) (h' : ∀ word ∈ words', IsPart word)
    (heq : path words = path words') : words = words' := by
  induction words generalizing words' with
  | nil => exact absurd rfl hne
  | cons word words ih =>
      have hword := dot_not_mem (h word List.mem_cons_self)
      cases words' with
      | nil => exact absurd rfl hne'
      | cons word' words' =>
          have hword' := dot_not_mem (h' word' List.mem_cons_self)
          cases words with
          | nil =>
              cases words' with
              | nil =>
                  rw [path_singleton, path_singleton] at heq
                  rw [String.toList_inj.mp heq]
              | cons next' words' =>
                  rw [path_singleton, path_cons_cons] at heq
                  exact absurd (heq ▸ hword) (by simp)
          | cons next words =>
              cases words' with
              | nil =>
                  rw [path_singleton, path_cons_cons] at heq
                  exact absurd (heq ▸ hword') (by simp)
              | cons next' words' =>
                  rw [path_cons_cons, path_cons_cons] at heq
                  obtain ⟨hfirst, hrest⟩ := append_cons_inj hword hword' heq
                  have htail := ih (by simp) (by simp)
                    (fun other hother => h other (List.mem_cons_of_mem _ hother))
                    (fun other hother => h' other (List.mem_cons_of_mem _ hother)) hrest
                  rw [String.toList_inj.mp hfirst, htail]

/-- Different forms are written differently. -/
theorem text_inj {a b : Form} (ha : a.Proper) (hb : b.Proper) (h : a.text = b.text) : a = b := by
  obtain ⟨words, suffix⟩ := a
  obtain ⟨words', suffix'⟩ := b
  have hdollar : '$' ∉ path words := dollar_not_mem_path ha.words
  have hdollar' : '$' ∉ path words' := dollar_not_mem_path hb.words
  have hwords : path words = path words' → words = words' :=
    path_inj ha.ne_nil hb.ne_nil ha.words hb.words
  have htext := String.ofList_injective h
  cases suffix with
  | none =>
      cases suffix' with
      | none =>
          simp only [List.append_nil] at htext
          rw [hwords htext]
      | some s' =>
          simp only [List.append_nil] at htext
          exact absurd (htext ▸ hdollar) (by simp)
  | some s =>
      cases suffix' with
      | none =>
          simp only [List.append_nil] at htext
          exact absurd (htext ▸ hdollar') (by simp)
      | some s' =>
          obtain ⟨hsame, hsuffix⟩ := append_cons_inj hdollar hdollar' htext
          rw [hwords hsame,
            Suffix.text_inj (ha.suffix s rfl) (hb.suffix s' rfl) (String.toList_inj.mp hsuffix)]

theorem dot_mem_text {word next : String} {words : List String} (suffix : Option Suffix) :
    '.' ∈ (Form.mk (word :: next :: words) suffix).text.toList := by
  simp [text, path_cons_cons]

end Form

end JackToolchain.Stack
