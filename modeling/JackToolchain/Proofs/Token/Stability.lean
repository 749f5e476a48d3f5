import JackToolchain.Token.Rule
import Mathlib.Data.List.TakeWhile

/-!
# Final verdicts of the lexical rules

Text that arrives later changes nothing about a lexeme that ends inside the text at hand. What a
rule declines it may still take later, but only if the text at hand is a single slash or one
unfinished word, and then the first rule that does not decline reaches the end of the text.
-/

namespace JackToolchain.Token.Rule

open JackToolchain.Text

variable {a b lexeme rest : List Char} {p : Char → Bool}

/-- Nothing at the front of the text can turn into the front of another lexeme. -/
structure Settled (a : List Char) : Prop where
  ne_nil : a ≠ []
  ne_slash : a ≠ ['/']
  word_ne : word a ≠ .lexeme a []

theorem takeWhile_append_eq (h : a.dropWhile p ≠ []) :
    (a ++ b).takeWhile p = a.takeWhile p := by
  rw [List.takeWhile_append, if_neg]
  intro hlen
  have hsum := congrArg List.length (List.takeWhile_append_dropWhile (p := p) (l := a))
  rw [List.length_append] at hsum
  exact h (List.length_eq_zero_iff.1 (by omega))

theorem dropWhile_append_eq (h : a.dropWhile p ≠ []) :
    (a ++ b).dropWhile p = a.dropWhile p ++ b := by
  rw [List.dropWhile_append, if_neg (by simpa using h)]

theorem run_append (h : run p a = .lexeme lexeme rest) (hr : rest ≠ []) :
    run p (a ++ b) = .lexeme lexeme (rest ++ b) := by
  simp only [run] at h
  split at h
  · simp at h
  · next hne =>
      cases h
      simp only [run, takeWhile_append_eq hr, dropWhile_append_eq hr]
      rw [if_neg hne]

theorem run_cons_declined {c : Char} : run p (c :: a) = .declined ↔ p c = false := by
  cases h : p c <;> simp [run, h]

theorem run_append_declined (ha : a ≠ []) (h : run p a = .declined) :
    run p (a ++ b) = .declined := by
  obtain ⟨c, t, rfl⟩ := List.exists_cons_of_ne_nil ha
  rw [List.cons_append, run_cons_declined]
  exact run_cons_declined.1 h

theorem word_append (h : word a = .lexeme lexeme rest) (hr : rest ≠ []) :
    word (a ++ b) = .lexeme lexeme (rest ++ b) := by
  cases a with
  | nil => simp [word] at h
  | cons c t =>
      by_cases hc : isLetter c = true
      · simp only [word, hc, if_true] at h
        simpa [word, hc] using run_append (b := b) h hr
      · simp [word, hc] at h

theorem word_append_declined (ha : a ≠ []) (h : word a = .declined) :
    word (a ++ b) = .declined := by
  obtain ⟨c, t, rfl⟩ := List.exists_cons_of_ne_nil ha
  by_cases hc : isLetter c = true
  · have hw : isWordChar c = true := by simp [isWordChar, hc]
    simp [word, hc, run, hw] at h
  · simp [word, hc]

theorem closeComment_append {front : List Char} (h : closeComment front a = .lexeme lexeme rest) :
    closeComment front (a ++ b) = .lexeme lexeme (rest ++ b) := by
  fun_induction closeComment front a with
  | case1 front tail =>
      cases h
      rw [List.cons_append, List.cons_append, closeComment]
  | case2 front c tail hne ih =>
      rw [List.cons_append, closeComment]
      · exact ih h
      · rintro rest' rfl hrest
        cases tail with
        | nil =>
            -- the rest of an open comment is empty, so no lexeme was found
            simp [closeComment] at h
        | cons d tail =>
            cases hrest
            exact hne _ rfl rfl
  | case3 => simp at h

theorem closeComment_ne_declined {front : List Char} : closeComment front a ≠ .declined := by
  fun_induction closeComment front a with
  | case1 => simp
  | case2 _ _ _ _ ih => exact ih
  | case3 => simp

theorem closeString_append (h : closeString a = .lexeme lexeme rest) :
    closeString (a ++ b) = .lexeme lexeme (rest ++ b) := by
  simp only [closeString] at h
  split at h
  · next tail heq =>
      cases h
      have hne : (a.dropWhile fun c => c != '"' && c != '\n') ≠ [] := by simp [heq]
      simp only [closeString, takeWhile_append_eq hne, dropWhile_append_eq hne, heq,
        List.cons_append]
  · simp at h
  · simp at h

theorem closeString_append_declined (h : closeString a = .declined) :
    closeString (a ++ b) = .declined := by
  simp only [closeString] at h
  split at h
  · simp at h
  · next c tail hne heq =>
      simp only [closeString, dropWhile_append_eq (b := b) (heq ▸ List.cons_ne_nil c tail), heq,
        List.cons_append]
  · simp at h

/-- A lexeme that ends inside the text is the same in front of more text. -/
theorem apply_append {r : Rule} (h : r.apply a = .lexeme lexeme rest) (hr : rest ≠ []) :
    r.apply (a ++ b) = .lexeme lexeme (rest ++ b) := by
  cases r with
  | blank => exact run_append h hr
  | integer => exact run_append h hr
  | identifier => exact word_append h hr
  | lineComment =>
      simp only [apply] at h
      split at h
      · exact run_append h hr
      · simp at h
  | blockComment =>
      simp only [apply] at h
      split at h
      · exact closeComment_append h
      · simp at h
  | keyword =>
      simp only [apply] at h
      split at h
      · next hw =>
          split at h
          · next hk =>
              cases h
              simp only [apply, word_append hw hr, hk, if_true]
          · simp at h
      · next hw => exact (hw _ _ h).elim
  | symbol =>
      simp only [apply] at h
      split at h
      · cases h
        rfl
      · cases h
        rfl
      · next c tail hless hgreater =>
          split at h
          · next hc =>
              cases h
              obtain ⟨d, rest, rfl⟩ := List.exists_cons_of_ne_nil hr
              simp only [List.cons_append, apply]
              split
              · next heq =>
                  cases heq
                  exact (hless rest rfl rfl).elim
              · next heq =>
                  cases heq
                  exact (hgreater rest rfl rfl).elim
              · next heq =>
                  cases heq
                  rw [if_pos hc]
              · simp_all
          · simp at h
      · simp at h
  | string =>
      simp only [apply] at h
      split at h
      · exact closeString_append h
      · simp at h

/-- What a rule declines for good. -/
theorem apply_append_declined {r : Rule} (hs : Settled a) (h : r.apply a = .declined) :
    r.apply (a ++ b) = .declined := by
  obtain ⟨c, t, rfl⟩ := List.exists_cons_of_ne_nil hs.ne_nil
  cases r with
  | blank => exact run_append_declined hs.ne_nil h
  | integer => exact run_append_declined hs.ne_nil h
  | identifier => exact word_append_declined hs.ne_nil h
  | lineComment =>
      simp only [apply] at h
      split at h
      · next t heq =>
          cases heq
          simp [run_cons_declined] at h
      · next hne =>
          cases t with
          | nil =>
              have hc : c ≠ '/' := fun hc => hs.ne_slash (hc ▸ rfl)
              simp [apply, hc]
          | cons d t => simp_all [apply]
  | blockComment =>
      simp only [apply] at h
      split at h
      · exact (closeComment_ne_declined h).elim
      · next hne =>
          cases t with
          | nil =>
              have hc : c ≠ '/' := fun hc => hs.ne_slash (hc ▸ rfl)
              simp [apply, hc]
          | cons d t => simp_all [apply]
  | keyword =>
      simp only [apply] at h
      split at h
      · next l r hw =>
          split at h
          · simp at h
          · next hk =>
              have hr : r ≠ [] := by
                rintro rfl
                have hl := (word_eq_append hw).1
                rw [List.append_nil] at hl
                exact hs.word_ne (hl ▸ hw)
              simp only [apply, word_append hw hr]
              rw [if_neg hk]
      · simp only [apply, word_append_declined hs.ne_nil h]
  | symbol =>
      simp only [apply] at h
      split at h
      · simp at h
      · simp at h
      · next c' t' _ _ heq =>
          cases heq
          split at h
          · simp at h
          · next hc =>
              have hless : c ≠ '<' := by
                rintro rfl
                exact hc rfl
              have hgreater : c ≠ '>' := by
                rintro rfl
                exact hc rfl
              have hmem : c ∉ symbolChars := by simpa using hc
              simp [apply, hless, hgreater, hmem]
      · next heq => simp at heq
  | string =>
      simp only [apply] at h
      split at h
      · next body heq =>
          cases heq
          exact closeString_append_declined h
      · simp_all [apply]

theorem isLetter_of_word (h : word a = .lexeme lexeme rest) :
    ∃ c t, a = c :: t ∧ isLetter c = true := by
  cases a with
  | nil => simp [word] at h
  | cons c t =>
      refine ⟨c, t, rfl, ?_⟩
      by_contra hc
      simp [word, hc] at h

theorem isAsciiBlank_eq_false {c : Char} (h : isLetter c = true) : isAsciiBlank c = false := by
  by_contra hb
  simp only [isAsciiBlank, Bool.not_eq_false, Bool.or_eq_true, beq_iff_eq] at hb
  rcases hb with (((rfl | rfl) | rfl) | rfl) | rfl <;> simp [isLetter] at h

theorem notMem_symbolChars {c : Char} (h : isLetter c = true) : c ∉ symbolChars := by
  have hall : symbolChars.all (fun d => !isLetter d) = true := by decide
  intro hmem
  have hother := List.all_eq_true.mp hall c hmem
  simp [h] at hother

/-- A word is a reserved word or an identifier. -/
theorem first_word (h : word a = .lexeme lexeme rest) :
    first a = some (if (Keyword.ofText? (String.ofList lexeme)).isSome then .keyword
      else .identifier, .lexeme lexeme rest) := by
  obtain ⟨c, t, rfl, hc⟩ := isLetter_of_word h
  have hmem := notMem_symbolChars hc
  have hslash : c ≠ '/' := by
    rintro rfl
    exact hmem (by decide)
  have hless : c ≠ '<' := by
    rintro rfl
    exact hmem (by decide)
  have hgreater : c ≠ '>' := by
    rintro rfl
    exact hmem (by decide)
  have hblank : blank.apply (c :: t) = .declined :=
    run_cons_declined.2 (isAsciiBlank_eq_false hc)
  have hline : lineComment.apply (c :: t) = .declined := by simp [apply, hslash]
  have hblock : blockComment.apply (c :: t) = .declined := by simp [apply, hslash]
  by_cases hk : (Keyword.ofText? (String.ofList lexeme)).isSome = true
  · have hkeyword : keyword.apply (c :: t) = .lexeme lexeme rest := by simp [apply, h, hk]
    simp [first, order, firstOf, hblank, hline, hblock, hkeyword, hk]
  · have hkeyword : keyword.apply (c :: t) = .declined := by simp [apply, h, hk]
    have hsymbol : symbol.apply (c :: t) = .declined := by simp [apply, hless, hgreater, hmem]
    have hident : identifier.apply (c :: t) = .lexeme lexeme rest := h
    simp [first, order, firstOf, hblank, hline, hblock, hkeyword, hsymbol, hident, hk]

theorem first_ne_declined {r : Rule} : first a ≠ some (r, .declined) := by
  suffices h : ∀ rules, firstOf a rules ≠ some (r, .declined) from h order
  intro rules
  induction rules with
  | nil => simp [firstOf]
  | cons r' rules ih =>
      rw [firstOf]
      split
      · exact ih
      · next hne =>
          intro heq
          exact hne (Prod.mk.inj (Option.some.inj heq)).2

/-- A lexeme in front of more text settles the text. -/
theorem settled_of_lexeme {r : Rule} (h : first a = some (r, .lexeme lexeme rest))
    (hr : rest ≠ []) : Settled a where
  ne_nil := by
    rintro rfl
    exact hr (List.append_eq_nil_iff.1 (first_eq_append h).1.symm).2
  ne_slash := by
    rintro rfl
    have hslash : first ['/'] = some (.symbol, .lexeme ['/'] []) := by decide
    rw [hslash] at h
    cases h
    exact hr rfl
  word_ne := by
    intro hw
    rw [first_word hw] at h
    cases h
    exact hr rfl

theorem settled_of_none (ha : a ≠ []) (h : first a = none) : Settled a where
  ne_nil := ha
  ne_slash := by
    rintro rfl
    revert h
    decide
  word_ne := by
    intro hw
    simp [first_word hw] at h

/-- A lexeme that ends inside the text at hand is final. -/
theorem first_append {r : Rule} (h : first a = some (r, .lexeme lexeme rest)) (hr : rest ≠ []) :
    first (a ++ b) = some (r, .lexeme lexeme (rest ++ b)) := by
  have hs := settled_of_lexeme h hr
  unfold first at h ⊢
  generalize order = rules at h ⊢
  induction rules with
  | nil => simp [firstOf] at h
  | cons r' rules ih =>
      rw [firstOf] at h ⊢
      split at h
      · next hd =>
          rw [apply_append_declined hs hd]
          exact ih h
      · obtain ⟨rfl, ha⟩ := Prod.mk.inj (Option.some.inj h)
        rw [apply_append ha hr]

/-- A front that no rule takes is never taken. -/
theorem first_append_none (ha : a ≠ []) (h : first a = none) : first (a ++ b) = none := by
  have hs := settled_of_none ha h
  unfold first at h ⊢
  generalize order = rules at h ⊢
  induction rules with
  | nil => rfl
  | cons r' rules ih =>
      rw [firstOf] at h ⊢
      split at h
      · next hd =>
          rw [apply_append_declined hs hd]
          exact ih h
      · simp at h

end JackToolchain.Token.Rule
