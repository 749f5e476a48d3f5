import Mathlib.Data.List.TakeWhile
import JackToolchain.Proofs.Text.Names

/-!
# Words of a text

The words of fields with blanks between and around them are the fields.
-/

namespace JackToolchain.Text

/-- A text of blanks. -/
def Blanks (text : List Char) : Prop := ∀ c ∈ text, isBlank c = true

/-- A word with neither blanks nor slashes in it. -/
structure Field (word : List Char) : Prop where
  ne_nil : word ≠ []
  solid : ∀ c ∈ word, Solid c

theorem Field.not_blank {word : List Char} (h : Field word) : ∀ c ∈ word, isBlank c = false :=
  fun c hc => (h.solid c hc).2.1

/-- A text of spaces and tabs. -/
def Space (text : List Char) : Prop := ∀ c ∈ text, c = ' ' ∨ c = '\t'

theorem blanks_of_space {text : List Char} (h : Space text) : Blanks text := by
  intro c hc
  rcases h c hc with rfl | rfl <;> rfl

/-- Fields with spaces and tabs between them, and none at the two ends. -/
inductive Row : List (List Char) → List Char → Prop
  | single (field : List Char) : Row [field] field
  | cons {field gap text : List Char} {fields : List (List Char)} (hgap : Space gap)
      (hne : gap ≠ []) (h : Row fields text) : Row (field :: fields) (field ++ gap ++ text)

theorem wordsFrom_done (word : List Char) (done : List (List Char)) (text : List Char) :
    wordsFrom word done text = done.reverse ++ wordsFrom word [] text := by
  induction text generalizing word done with
  | nil =>
      simp only [wordsFrom]
      split <;> simp
  | cons c rest ih =>
      simp only [wordsFrom]
      split
      · rw [ih [] (if word.isEmpty then done else word.reverse :: done),
          ih [] (if word.isEmpty then [] else [word.reverse])]
        cases word <;> simp
      · exact ih (c :: word) done

@[simp] theorem words_nil : words [] = [] := rfl

theorem words_cons_blank {c : Char} (h : isBlank c = true) (text : List Char) :
    words (c :: text) = words text := by
  simp [words, wordsFrom, h]

theorem words_blanks_append {gap : List Char} (h : Blanks gap) (text : List Char) :
    words (gap ++ text) = words text := by
  induction gap with
  | nil => rfl
  | cons c rest ih =>
      rw [List.cons_append, words_cons_blank (h c List.mem_cons_self)]
      exact ih fun d hd => h d (List.mem_cons_of_mem _ hd)

/-- Characters that are not blank add to the word in progress. -/
theorem wordsFrom_append {field : List Char} (hsolid : ∀ c ∈ field, isBlank c = false)
    (word text : List Char) :
    wordsFrom word [] (field ++ text) = wordsFrom (field.reverse ++ word) [] text := by
  induction field generalizing word with
  | nil => rfl
  | cons c rest ih =>
      have hc := hsolid c List.mem_cons_self
      have hrest := ih (fun d hd => hsolid d (List.mem_cons_of_mem _ hd)) (c :: word)
      rw [List.cons_append]
      simp only [wordsFrom, hc, Bool.false_eq_true, if_false]
      rw [hrest]
      simp

theorem words_field {field : List Char} (h : Field field) : words field = [field] := by
  have happend := wordsFrom_append h.not_blank [] []
  rw [List.append_nil, List.append_nil] at happend
  rw [words, happend]
  simp [wordsFrom, h.ne_nil]

theorem words_field_append {field gap : List Char} (h : Field field) (hgap : Blanks gap)
    (hne : gap ≠ []) (text : List Char) : words (field ++ gap ++ text) = field :: words text := by
  cases gap with
  | nil => exact absurd rfl hne
  | cons c rest =>
      have hc := hgap c List.mem_cons_self
      have hrest := words_blanks_append (fun d hd => hgap d (List.mem_cons_of_mem _ hd)) text
      rw [List.append_assoc, words, wordsFrom_append h.not_blank, List.append_nil, List.cons_append]
      simp only [wordsFrom, hc, if_true, List.isEmpty_reverse, List.isEmpty_iff, h.ne_nil, if_false,
        List.reverse_reverse]
      rw [wordsFrom_done, ← words, hrest]
      rfl

theorem words_append_blanks (text : List Char) {gap : List Char} (h : Blanks gap) :
    words (text ++ gap) = words text := by
  have hfrom (word : List Char) :
      wordsFrom word [] (text ++ gap) = wordsFrom word [] text := by
    induction text generalizing word with
    | nil =>
        cases gap with
        | nil => rfl
        | cons c rest =>
            have hrest := words_blanks_append (fun d hd => h d (List.mem_cons_of_mem _ hd)) []
            rw [List.append_nil] at hrest
            simp only [List.nil_append, wordsFrom, h c List.mem_cons_self, if_true]
            rw [wordsFrom_done, ← words, hrest]
            simp
    | cons c rest ih =>
        simp only [List.cons_append, wordsFrom]
        split
        · rw [wordsFrom_done, ih, ← wordsFrom_done]
        · exact ih (c :: word)
  exact hfrom []

theorem words_row {fields : List (List Char)} {text : List Char} (h : Row fields text)
    (hfields : ∀ field ∈ fields, Field field) : words text = fields := by
  induction h with
  | single field => exact words_field (hfields field List.mem_cons_self)
  | cons hgap hne _ ih =>
      rw [words_field_append (hfields _ List.mem_cons_self) (blanks_of_space hgap) hne,
        ih fun field hmem => hfields field (List.mem_cons_of_mem _ hmem)]

/-- The characters of a row are those of its fields, spaces and tabs. -/
theorem Row.forall_mem {P : Char → Prop} {fields : List (List Char)} {text : List Char}
    (h : Row fields text) (hfields : ∀ field ∈ fields, Field field)
    (hsolid : ∀ c, Solid c → P c) (hspace : P ' ' ∧ P '\t') : ∀ c ∈ text, P c := by
  induction h with
  | single field => exact fun c hc => hsolid c ((hfields field List.mem_cons_self).solid c hc)
  | cons hgap _ _ ih =>
      have hrest := ih fun field hmem => hfields field (List.mem_cons_of_mem _ hmem)
      simp only [List.forall_mem_append]
      refine ⟨⟨fun c hc => hsolid c ((hfields _ List.mem_cons_self).solid c hc), fun c hc => ?_⟩,
        hrest⟩
      rcases hgap c hc with rfl | rfl
      · exact hspace.1
      · exact hspace.2

/-! ## The two ends of a text -/

theorem blanks_takeWhile (text : List Char) : Blanks (text.takeWhile isBlank) :=
  fun _ hc => List.mem_takeWhile_imp hc

/-- A text is its trimmed text with blanks around it. -/
theorem exists_blanks_trimChars (text : List Char) :
    ∃ front back, Blanks front ∧ Blanks back ∧ text = front ++ trimChars text ++ back := by
  let back := (text.dropWhile isBlank).reverse.takeWhile isBlank
  have hback : text.dropWhile isBlank = trimChars text ++ back.reverse := by
    rw [trimChars, ← List.reverse_append, List.takeWhile_append_dropWhile, List.reverse_reverse]
  refine ⟨text.takeWhile isBlank, back.reverse, blanks_takeWhile text, ?_, ?_⟩
  · intro c hc
    exact blanks_takeWhile _ c (List.mem_reverse.mp hc)
  · rw [List.append_assoc, ← hback, List.takeWhile_append_dropWhile]

theorem words_trimChars (text : List Char) : words (trimChars text) = words text := by
  obtain ⟨front, back, hfront, hback, htext⟩ := exists_blanks_trimChars text
  calc words (trimChars text) = words (front ++ trimChars text ++ back) := by
        rw [words_append_blanks _ hback, words_blanks_append hfront]
    _ = words text := by rw [← htext]

theorem trimChars_blanks {text : List Char} (h : Blanks text) : trimChars text = [] := by
  have hdrop : text.dropWhile isBlank = [] := List.dropWhile_eq_nil_iff.mpr h
  rw [trimChars, hdrop]
  rfl

end JackToolchain.Text
