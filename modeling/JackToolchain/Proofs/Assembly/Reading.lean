import JackToolchain.Proofs.Assembly.Listing

/-!
# Parts of an assembly text

WholeLines lines are read as they are read alone. A name that is written behind an `@` and between
parentheses, whatever characters it has, is read as one and the same symbol, or not at all.
-/

namespace JackToolchain.Assembly

open JackToolchain.Text

variable {source : List SourceLine} {n : Nat} {text text' : String}
  {instructions block : List Instruction}

/-! ## Lines in a row -/

theorem readLines_eq (done : List SourceLine) (line : Nat) (raws : List String) :
    readLines done line raws = (readLines [] line raws).map (done.reverse ++ ·) := by
  induction raws generalizing done line with
  | nil => simp [readLines, Except.map]
  | cons raw rest ih =>
      rw [readLines, readLines]
      cases readLine raw line with
      | error e => rfl
      | ok found =>
          cases found with
          | none => exact ih done (line + 1)
          | some i =>
              dsimp only
              rw [ih (⟨line, i⟩ :: done), ih [⟨line, i⟩]]
              cases readLines [] (line + 1) rest with
              | error e => rfl
              | ok new => simp [Except.map]

/-- Lines are read one after the other, first those in front. -/
theorem readLines_append {done : List SourceLine} {line : Nat} {front back : List String}
    (h : readLines done line (front ++ back) = .ok source) :
    ∃ first rest, readLines done line front = .ok first ∧
      readLines [] (line + front.length) back = .ok rest ∧ source = first ++ rest := by
  induction front generalizing done line with
  | nil =>
      rw [List.nil_append, readLines_eq] at h
      rw [List.length_nil, Nat.add_zero]
      cases hback : readLines [] line back with
      | error e =>
          rw [hback] at h
          cases h
      | ok rest =>
          rw [hback] at h
          cases h
          exact ⟨done.reverse, rest, rfl, rfl, rfl⟩
  | cons raw front ih =>
      rw [List.cons_append, readLines] at h
      rw [readLines, List.length_cons, Nat.add_comm front.length, ← Nat.add_assoc]
      cases hline : readLine raw line with
      | error e =>
          rw [hline] at h
          cases h
      | ok found =>
          rw [hline] at h
          cases found with
          | none => exact ih h
          | some i => exact ih h

/-- Somewhere among other lines, a text is read as some instructions. -/
def Reads (text : String) (instructions : List Instruction) : Prop :=
  ∃ n source, readLines [] n (lines text) = .ok source ∧
    source.map SourceLine.instruction = instructions

/-- Reading a text of two parts, the first one of whole lines. -/
theorem read_append (hwhole : WholeLines text) (h : read (text ++ text') = .ok source) :
    ∃ first rest, read text = .ok first ∧ source = first ++ rest ∧
      Reads text' (rest.map SourceLine.instruction) := by
  rw [read, lines_append hwhole] at h
  obtain ⟨first, rest, hfirst, hrest, rfl⟩ := readLines_append h
  exact ⟨first, rest, hfirst, rfl, _, rest, hrest, rfl⟩

theorem Reads.append (hwhole : WholeLines text) (h : Reads (text ++ text') instructions) :
    ∃ front back, instructions = front ++ back ∧ Reads text front ∧ Reads text' back := by
  obtain ⟨n, source, hsource, rfl⟩ := h
  rw [lines_append hwhole] at hsource
  obtain ⟨first, rest, hfirst, hrest, rfl⟩ := readLines_append hsource
  exact ⟨_, _, List.map_append, ⟨n, first, hfirst, rfl⟩, _, rest, hrest, rfl⟩

/-- A listing is read as its instructions. -/
theorem Reads.eq_of_listing (h : Reads text instructions) (hlisting : Listing text.toList block) :
    instructions = block := by
  obtain ⟨n, source, hsource, rfl⟩ := h
  obtain ⟨new, rfl, hnew⟩ := readLines_listing hlisting hsource
  exact hnew

/-! ## Instructions on lines of their own -/

theorem foldl_text (instructions : List Instruction) (text : String) :
    instructions.foldl (fun text i => text ++ i.text ++ "\n") text =
      text ++ render instructions := by
  induction instructions generalizing text with
  | nil => exact String.append_empty.symm
  | cons i rest ih =>
      rw [render, List.foldl_cons, List.foldl_cons, ih, ih, String.empty_append,
        String.append_assoc, String.append_assoc, String.append_assoc]

theorem render_append (front back : List Instruction) :
    render (front ++ back) = render front ++ render back := by
  rw [render, List.foldl_append, foldl_text]
  rfl

theorem listing_render {instructions : List Instruction} (h : ∀ i ∈ instructions, Readable i) :
    Listing (render instructions).toList instructions := by
  induction instructions with
  | nil => exact .nil
  | cons i rest ih =>
      have hfirst : (render [i]).toList = i.text.toList ++ ['\n'] := by simp [render]
      have hsplit : render (i :: rest) = render [i] ++ render rest := render_append [i] rest
      rw [hsplit, String.toList_append, hfirst, List.append_assoc]
      exact .instruction (h i List.mem_cons_self) (ih fun j hj => h j (List.mem_cons_of_mem i hj))

theorem wholeLines_render {instructions : List Instruction} (h : instructions ≠ []) :
    WholeLines (render instructions) := by
  have hlast : WholeLines (render [instructions.getLast h]) :=
    ⟨(instructions.getLast h).text.toList, by simp [render]⟩
  rw [← List.dropLast_append_getLast h, render_append]
  exact wholeLines_append _ hlast

theorem Reads.render_append {front back : List Instruction} (hfront : front ≠ [])
    (h : Reads (render (front ++ back)) instructions) :
    ∃ first rest, instructions = first ++ rest ∧ Reads (render front) first ∧
      Reads (render back) rest := by
  rw [Assembly.render_append] at h
  exact h.append (wholeLines_render hfront)

/-! ## Names -/

/-- What counts of a line: neither its comment nor its blanks. -/
def codeOf (line : List Char) : List Char := (beforeSlashes line).filter fun c => !isBlank c

theorem codeOf_cons {c : Char} (rest : List Char) (hc : c ≠ '/') (hblank : isBlank c = false) :
    codeOf (c :: rest) = c :: codeOf rest := by
  rw [codeOf, beforeSlashes_cons fun tail heq => absurd heq hc]
  exact List.filter_cons_of_pos (by simp [hblank])

/-- A carriage return at its end does not count of a line. -/
theorem codeOf_dropReturn (line : List Char) :
    codeOf (dropReturn line.reverse).reverse = codeOf line := by
  unfold dropReturn
  split
  · rename_i rest heq
    have hline : line = rest.reverse ++ ['\r'] := by
      rw [← List.reverse_reverse line, heq, List.reverse_cons]
    have hblank : [('\r')].filter (fun c => !isBlank c) = [] := by decide
    rw [hline, codeOf, codeOf]
    rcases beforeSlashes_concat (c := '\r') (by decide) rest.reverse with h | ⟨h, h'⟩
    · rw [h]
    · rw [h, h', List.filter_append, hblank, List.append_nil]
  · rw [List.reverse_reverse]

theorem readLine_of_code {line rest : List Char} {c : Char} (h : codeOf line = c :: rest)
    (n : Nat) :
    readLine (String.ofList line) n =
      match readInstruction (c :: rest) with
      | .ok i => .ok (some i)
      | .error fault => .error (.badLine n fault) := by
  unfold codeOf at h
  simp only [readLine, String.toList_ofList, h]
  rfl

/-- The instruction on the first line of a text. -/
theorem Reads.first (line tail : List Char) {rest : List Char} {c : Char}
    (h : Reads text instructions) (htext : text.toList = line ++ '\n' :: tail) (hline : '\n' ∉ line)
    (hcode : codeOf line = c :: rest) :
    ∃ i, readInstruction (c :: rest) = .ok i ∧ (tail = [] → instructions = [i]) := by
  obtain ⟨n, source, hsource, rfl⟩ := h
  rw [lines, htext, linesFrom_line [] line [] tail hline, List.append_nil, linesFrom_append,
    List.reverse_singleton, List.singleton_append, readLines,
    readLine_of_code ((codeOf_dropReturn line).trans hcode)] at hsource
  cases hi : readInstruction (c :: rest) with
  | error fault =>
      rw [hi] at hsource
      cases hsource
  | ok i =>
      rw [hi] at hsource
      refine ⟨i, rfl, ?_⟩
      rintro rfl
      cases hsource
      rfl

/-- The operand of an address instruction is made of the characters of names. -/
theorem isNameChar_of_readAddress {value : List Char} {i : Instruction}
    (h : readAddress value = .ok i) : ∀ c ∈ value, isNameChar c = true := by
  cases value with
  | nil => simp
  | cons c rest =>
      simp only [readAddress] at h
      split at h
      · cases hdigits : readDigits? Limits.maxWord32 (c :: rest) with
        | none => simp [hdigits] at h
        | some m =>
            unfold readDigits? at hdigits
            split at hdigits
            · cases hdigits
            · rename_i hall
              simp only [Bool.or_eq_true, Bool.not_eq_true', not_or, Bool.not_eq_false,
                List.all_eq_true] at hall
              intro d hd
              simp [isNameChar, hall.2 d hd]
      · split at h
        · rename_i hname
          exact isNameChar_of_isName hname
        · cases h

theorem name_of_readLabel {rest : List Char} {i : Instruction} (h : readLabel rest = .ok i) :
    ∃ name, rest = name ++ [')'] ∧ isName name = true ∧ i = .label (String.ofList name) := by
  simp only [readLabel] at h
  split at h
  · rename_i hclosed
    rw [Bool.and_eq_true, decide_eq_true_eq] at hclosed
    cases h
    exact ⟨rest.dropLast, (List.dropLast_append_getLast? ')' hclosed.1).symm, hclosed.2, rfl⟩
  · cases h

theorem not_mem_of_readAddress {value : List Char} {i : Instruction}
    (h : readAddress value = .ok i) : ')' ∉ value := by
  intro hmem
  have hchar := isNameChar_of_readAddress h _ hmem
  revert hchar
  decide

/-- A name behind an `@` and between parentheses. -/
theorem symbol_and_label {name : String} {first second : List Instruction}
    (hsymbol : Reads (render [.symbol name]) first) (hlabel : Reads (render [.label name]) second) :
    ∃ same, first = [.symbol same] ∧ second = [.label same] := by
  have hat : (render [.symbol name]).toList = '@' :: (name.toList ++ ['\n']) := by
    simp [render, text_symbol]
  have hround : (render [.label name]).toList = '(' :: (name.toList ++ ')' :: ['\n']) := by
    simp [render, text_label]
  by_cases hfeed : '\n' ∈ name.toList
  · -- Only the first line of the name stands behind the `@` and the parenthesis.
    obtain ⟨line, tail, hname, hline⟩ := List.eq_append_cons_of_mem hfeed
    obtain ⟨i, hi, -⟩ := hsymbol.first ('@' :: line) (tail ++ ['\n'])
      (by simp [hat, hname]) (by simpa using hline) (codeOf_cons line (by decide) (by decide))
    obtain ⟨j, hj, -⟩ := hlabel.first ('(' :: line) (tail ++ ')' :: ['\n'])
      (by simp [hround, hname]) (by simpa using hline) (codeOf_cons line (by decide) (by decide))
    obtain ⟨closed, heq, -⟩ := name_of_readLabel hj
    exact absurd (heq ▸ List.mem_append_right closed List.mem_cons_self) (not_mem_of_readAddress hi)
  · obtain ⟨i, hi, hfirst⟩ := hsymbol.first ('@' :: name.toList) []
      (by simp [hat]) (by simpa using hfeed) (codeOf_cons _ (by decide) (by decide))
    obtain ⟨j, hj, hsecond⟩ := hlabel.first ('(' :: (name.toList ++ [')'])) []
      (by simp [hround]) (by simpa using hfeed) (codeOf_cons _ (by decide) (by decide))
    obtain ⟨closed, heq, hclosed, rfl⟩ := name_of_readLabel hj
    rcases beforeSlashes_concat (c := ')') (by decide) name.toList with h | ⟨h, h'⟩
    · -- The parenthesis is in a comment.
      have hsame : codeOf (name.toList ++ [')']) = codeOf name.toList := by rw [codeOf, codeOf, h]
      rw [hsame] at heq
      exact absurd (heq ▸ List.mem_append_right closed List.mem_cons_self)
        (not_mem_of_readAddress hi)
    · have hbehind : codeOf (name.toList ++ [')']) = codeOf name.toList ++ [')'] := by
        rw [codeOf, codeOf, h, h', List.filter_append]
        rfl
      obtain rfl : codeOf name.toList = closed := List.append_cancel_right (hbehind.symm.trans heq)
      have hi' : readAddress (codeOf name.toList) = .ok i := hi
      rw [readAddress_of_isName hclosed] at hi'
      cases hi'
      exact ⟨_, hfirst rfl, hsecond rfl⟩

end JackToolchain.Assembly
