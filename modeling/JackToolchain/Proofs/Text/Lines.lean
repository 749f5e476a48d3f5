import JackToolchain.Proofs.Text.Names
import JackToolchain.Text.Lines

/-!
# Lines of a text

A line in front of a text is the first one that is read from it.
-/

namespace JackToolchain.Text

/-- No line ends in these characters. -/
def Plain (line : List Char) : Prop := ∀ c ∈ line, c ≠ '\n' ∧ c ≠ '\r'

theorem not_mem_of_plain {line : List Char} (h : Plain line) : '\n' ∉ line :=
  fun hmem => (h _ hmem).1 rfl

theorem linesFrom_append (line : List Char) (done : List String) (text : List Char) :
    linesFrom line done text = done.reverse ++ linesFrom line [] text := by
  induction text generalizing line done with
  | nil =>
      simp only [linesFrom]
      split <;> simp
  | cons c rest ih =>
      simp only [linesFrom]
      split
      · rw [ih _ (_ :: done), ih _ [_]]
        simp
      · exact ih (c :: line) done

theorem linesFrom_line (front line : List Char) (done : List String) (text : List Char)
    (hline : '\n' ∉ line) :
    linesFrom front done (line ++ '\n' :: text) =
      linesFrom [] (String.ofList (dropReturn (line.reverse ++ front)).reverse :: done) text := by
  induction line generalizing front with
  | nil => simp [linesFrom]
  | cons c rest ih =>
      have hc : c ≠ '\n' := fun hc => hline (hc ▸ List.mem_cons_self)
      have hrest := ih (c :: front) fun hmem => hline (List.mem_cons_of_mem _ hmem)
      simp only [List.cons_append, linesFrom, hc, if_false]
      rw [hrest]
      simp

/-- A text of whole lines ends one. -/
def WholeLines (text : String) : Prop := ∃ front, text.toList = front ++ ['\n']

theorem wholeLines_append (front : String) {text : String} (h : WholeLines text) :
    WholeLines (front ++ text) := by
  obtain ⟨line, hline⟩ := h
  exact ⟨front.toList ++ line, by rw [String.toList_append, hline, List.append_assoc]⟩

theorem linesFrom_whole (line : List Char) (done : List String) (front text : List Char) :
    linesFrom line done (front ++ '\n' :: text) =
      linesFrom line done (front ++ ['\n']) ++ linesFrom [] [] text := by
  induction front generalizing line done with
  | nil =>
      simp only [List.nil_append, linesFrom, if_true]
      rw [linesFrom_append]
      rfl
  | cons c rest ih =>
      simp only [List.cons_append, linesFrom]
      split
      · exact ih [] _
      · exact ih (c :: line) done

/-- What is behind whole lines does not change them. -/
theorem lines_append {front : String} (h : WholeLines front) (text : String) :
    lines (front ++ text) = lines front ++ lines text := by
  obtain ⟨line, hline⟩ := h
  rw [lines, lines, String.toList_append, hline, List.append_assoc]
  exact linesFrom_whole [] [] line text.toList

/-- The first line of a text. -/
theorem linesFrom_cons {line : List Char} (text : List Char) (hline : Plain line) :
    linesFrom [] [] (line ++ '\n' :: text) = String.ofList line :: linesFrom [] [] text := by
  have hreturn : dropReturn (line.reverse ++ []) = line.reverse := by
    rw [List.append_nil]
    cases hrev : line.reverse with
    | nil => rfl
    | cons c rest =>
        have hmem : c ∈ line := by
          rw [← List.mem_reverse, hrev]
          exact List.mem_cons_self
        have hc := (hline c hmem).2
        unfold dropReturn
        split
        · rename_i heq
          exact absurd (List.cons.inj heq).1 hc
        · rfl
  rw [linesFrom_line [] line [] text (not_mem_of_plain hline), hreturn, linesFrom_append]
  simp

theorem beforeSlashesFrom_eq (front text : List Char) :
    beforeSlashesFrom front text = front.reverse ++ beforeSlashes text := by
  rw [beforeSlashes]
  induction text generalizing front with
  | nil => simp [beforeSlashesFrom]
  | cons c rest ih =>
      by_cases hslash : ∃ tail, c = '/' ∧ rest = '/' :: tail
      · obtain ⟨tail, rfl, rfl⟩ := hslash
        simp [beforeSlashesFrom]
      · have hnone : ∀ tail, c = '/' → rest = '/' :: tail → False :=
          fun tail hc hrest => hslash ⟨tail, hc, hrest⟩
        rw [beforeSlashesFrom.eq_2 _ _ _ hnone, beforeSlashesFrom.eq_2 _ _ _ hnone, ih, ih [c]]
        simp

theorem beforeSlashes_cons {c : Char} {rest : List Char}
    (h : ∀ tail, c = '/' → rest ≠ '/' :: tail) :
    beforeSlashes (c :: rest) = c :: beforeSlashes rest := by
  rw [beforeSlashes, beforeSlashesFrom.eq_2 _ _ _ h, beforeSlashesFrom_eq]
  rfl

theorem beforeSlashes_of_not_mem {text : List Char} (h : '/' ∉ text) :
    beforeSlashes text = text := by
  induction text with
  | nil => rfl
  | cons c rest ih =>
      have hc : c ≠ '/' := fun hc => h (hc ▸ List.mem_cons_self)
      rw [beforeSlashes_cons fun tail heq => absurd heq hc,
        ih fun hmem => h (List.mem_cons_of_mem _ hmem)]

theorem beforeSlashes_append {code : List Char} (rest : List Char) (h : '/' ∉ code) :
    beforeSlashes (code ++ '/' :: '/' :: rest) = code := by
  induction code with
  | nil => rfl
  | cons c code ih =>
      have hc : c ≠ '/' := fun hc => h (hc ▸ List.mem_cons_self)
      rw [List.cons_append, beforeSlashes_cons fun tail heq => absurd heq hc,
        ih fun hmem => h (List.mem_cons_of_mem _ hmem)]

/-- A character that is no slash, behind a text: it is in a comment, or there is none. -/
theorem beforeSlashes_concat {c : Char} (hc : c ≠ '/') (text : List Char) :
    beforeSlashes (text ++ [c]) = beforeSlashes text ∨
      beforeSlashes text = text ∧ beforeSlashes (text ++ [c]) = text ++ [c] := by
  induction text with
  | nil =>
      refine .inr ⟨rfl, ?_⟩
      rw [List.nil_append, beforeSlashes_cons fun tail heq => absurd heq hc]
      rfl
  | cons d rest ih =>
      by_cases hslash : ∃ tail, d = '/' ∧ rest = '/' :: tail
      · obtain ⟨tail, rfl, rfl⟩ := hslash
        exact .inl rfl
      · have hnone : ∀ tail, d = '/' → rest ≠ '/' :: tail :=
          fun tail hd hrest => hslash ⟨tail, hd, hrest⟩
        have hbehind : ∀ tail, d = '/' → rest ++ [c] ≠ '/' :: tail := by
          intro tail hd heq
          cases rest with
          | nil => exact hc (List.cons.inj heq).1
          | cons e rest => exact hnone rest hd (by rw [(List.cons.inj heq).1])
        rw [List.cons_append, beforeSlashes_cons hnone, beforeSlashes_cons hbehind]
        exact ih.imp (congrArg _) fun h => ⟨congrArg _ h.1, congrArg _ h.2⟩

/-- What may stand behind the code of a line: nothing, or two slashes and a comment. -/
inductive Remark : List Char → Prop
  | none : Remark []
  | slashes {comment : List Char} (h : '\n' ∉ comment) : Remark ('/' :: '/' :: comment)

/-- The carriage return that a line may lose is not one of its first two characters if these are
slashes. -/
theorem exists_dropReturn_comment (code comment : List Char) :
    ∃ kept, dropReturn (code ++ '/' :: '/' :: comment).reverse =
      (code ++ '/' :: '/' :: kept).reverse := by
  cases hback : comment.reverse with
  | nil => exact ⟨[], by simp [List.reverse_eq_nil_iff.mp hback, dropReturn]⟩
  | cons c back =>
      have hcomment : comment = back.reverse ++ [c] := by
        rw [← List.reverse_reverse comment, hback, List.reverse_cons]
      by_cases hc : c = '\r'
      · exact ⟨back.reverse, by simp [hcomment, hc, dropReturn]⟩
      · exact ⟨comment, by simp [hcomment, dropReturn, hc]⟩

/-- The code of the first line of a text. -/
theorem linesFrom_remark {code remark : List Char} (text : List Char) (hcode : Plain code)
    (hslash : '/' ∉ code) (h : Remark remark) :
    ∃ line, linesFrom [] [] (code ++ remark ++ '\n' :: text) =
      String.ofList line :: linesFrom [] [] text ∧ beforeSlashes line = code := by
  cases h with
  | none =>
      refine ⟨code, ?_, beforeSlashes_of_not_mem hslash⟩
      rw [List.append_nil]
      exact linesFrom_cons text hcode
  | @slashes comment hcomment =>
      have hline : '\n' ∉ code ++ '/' :: '/' :: comment := by
        simp [not_mem_of_plain hcode, hcomment]
      obtain ⟨kept, hkept⟩ := exists_dropReturn_comment code comment
      refine ⟨code ++ '/' :: '/' :: kept, ?_, beforeSlashes_append kept hslash⟩
      rw [linesFrom_line [] _ [] text hline, List.append_nil, hkept, List.reverse_reverse,
        linesFrom_append]
      rfl

theorem plain_of_solid {text : List Char} (h : ∀ c ∈ text, Solid c) : Plain text :=
  fun c hc => (h c hc).2.2

theorem plain_of_all {text : List Char} (h : (text.all fun c => c != '\n' && c != '\r') = true) :
    Plain text := by
  intro c hc
  simpa using List.all_eq_true.mp h c hc

theorem plain_cons {c : Char} {rest : List Char} (hc : c ≠ '\n' ∧ c ≠ '\r') (hrest : Plain rest) :
    Plain (c :: rest) := by
  intro d hd
  rcases List.mem_cons.mp hd with rfl | hd
  · exact hc
  · exact hrest d hd

theorem plain_append {front back : List Char} (hfront : Plain front) (hback : Plain back) :
    Plain (front ++ back) := by
  intro c hc
  rcases List.mem_append.mp hc with hc | hc
  · exact hfront c hc
  · exact hback c hc

theorem plain_of_isName {name : List Char} (h : isName name = true) : Plain name :=
  plain_of_solid fun c hc => solid_of_isNameChar (isNameChar_of_isName h c hc)

end JackToolchain.Text
