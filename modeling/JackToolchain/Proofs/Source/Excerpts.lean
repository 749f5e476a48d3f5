import JackToolchain.Proofs.Token.Layout
import JackToolchain.Source.Excerpt

/-!
# Excerpts under tokens

The lexer counts lines and columns character by character, a listing cuts the text into lines. Both
agree, so a token stands in its line where its span says, and the carets stand under the token.
-/

namespace JackToolchain.Source

open JackToolchain.Token

/-! ## Positions in a line -/

namespace Position

theorem advance_of_notMem (p : Position) {text : List Char} (h : '\n' ∉ text) :
    (p.advance text).line = p.line ∧ (p.advance text).column = p.column + text.length := by
  induction text generalizing p with
  | nil => exact ⟨rfl, rfl⟩
  | cons c rest ih =>
      obtain ⟨hc, hrest⟩ := not_or.mp (mt List.mem_cons.mpr h)
      obtain ⟨hline, hcolumn⟩ := ih (p.step c) hrest
      have hstep : p.step c = ⟨p.offset + c.utf8Size, p.line, p.column + 1⟩ := if_neg (Ne.symm hc)
      rw [advance_cons, hline, hcolumn, hstep, List.length_cons]
      exact ⟨rfl, by simp only; omega⟩

end Position

/-! ## Lines of a listing -/

namespace Listing

variable {done : Array (List Char)}

theorem getElem?_cutLines_of_lt (line text : List Char) {i : Nat} (hi : i < done.size) :
    (cutLines line done text)[i]? = done[i]? := by
  induction text generalizing line done with
  | nil => simp [cutLines, Array.getElem?_push, Nat.ne_of_lt hi]
  | cons c rest ih =>
      rw [cutLines]
      split
      · rw [ih _ (by simpa using Nat.lt_succ_of_lt hi)]
        simp [Array.getElem?_push, Nat.ne_of_lt hi]
      · exact ih _ hi

theorem getElem?_cutLines_size (line : List Char) (done : Array (List Char)) (text : List Char) :
    (cutLines line done text)[done.size]? = some (line.reverse ++ text.takeWhile (· != '\n')) := by
  induction text generalizing line with
  | nil => simp [cutLines]
  | cons c rest ih =>
      rw [cutLines]
      by_cases hc : c = '\n'
      · rw [if_pos hc, getElem?_cutLines_of_lt _ _ (by simp)]
        simp [hc]
      · rw [if_neg hc, ih]
        simp [hc]

/-- The line on which a text ends has as much in front of that end as its column says. -/
theorem getElem?_cutLines (line : List Char) (done : Array (List Char)) (front back : List Char)
    (p : Position) (hline : p.line = done.size + 1)
    (hcolumn : p.column = line.length + 1) :
    ∃ before, (cutLines line done (front ++ back))[(p.advance front).line - 1]? =
        some (before ++ back.takeWhile (· != '\n')) ∧
      (p.advance front).column = before.length + 1 ∧ 0 < (p.advance front).line ∧
        ('\n' ∉ line → '\n' ∉ before) := by
  induction front generalizing p line done with
  | nil =>
      refine ⟨line.reverse, ?_, by simpa using hcolumn, ?_, by simp⟩
      · rw [Position.advance_nil, hline]
        exact getElem?_cutLines_size line done back
      · rw [Position.advance_nil, hline]
        exact Nat.succ_pos _
  | cons c rest ih =>
      rw [List.cons_append, cutLines, Position.advance_cons]
      by_cases hc : c = '\n'
      · obtain ⟨before, hbefore, hend, hpos, hnone⟩ := ih [] (done.push line.reverse) (p.step c)
          (by simp [Position.step, hc, hline]) (by simp [Position.step, hc])
        rw [if_pos hc]
        exact ⟨before, hbefore, hend, hpos, fun _ => hnone (by simp)⟩
      · obtain ⟨before, hbefore, hend, hpos, hnone⟩ := ih (c :: line) done (p.step c)
          (by simp [Position.step, hc, hline]) (by simp [Position.step, hc, hcolumn])
        rw [if_neg hc]
        exact ⟨before, hbefore, hend, hpos, fun h => hnone (by simp [Ne.symm hc, h])⟩

/-- Carriage returns are only taken away behind the last other character. -/
theorem withoutReturns_append {c : Char} (hc : c ≠ '\r') (front back : List Char) :
    ∃ kept, withoutReturns (front ++ [c] ++ back) = front ++ [c] ++ kept ∧ kept <+: back := by
  have hlast : (front ++ [c]).reverse.dropWhile (· == '\r') = (front ++ [c]).reverse := by
    rw [List.reverse_append, List.reverse_singleton, List.singleton_append,
      List.dropWhile_cons_of_neg (by simpa using hc)]
  rw [withoutReturns, List.reverse_append, List.dropWhile_append, hlast]
  split
  · exact ⟨[], by simp, List.nil_prefix⟩
  · refine ⟨(back.reverse.dropWhile (· == '\r')).reverse, by simp, ?_⟩
    have hsuffix := List.dropWhile_suffix (· == '\r') (l := back.reverse)
    simpa using List.reverse_prefix.mpr hsuffix

theorem pushn_eq_append (text : String) (c : Char) (n : Nat) :
    text.pushn c n = text ++ String.ofList (List.replicate n c) := by
  induction n with
  | zero => simp [String.pushn, Nat.repeat]
  | succ n ih =>
      have hpush : text.pushn c (n + 1) = (text.pushn c n).push c := rfl
      rw [hpush, ih, List.replicate_succ', String.ofList_append, ← String.append_assoc]
      apply String.toList_injective
      simp

end Listing

/-! ## Tokens -/

open JackToolchain.Text in
/-- A token stands on one line and does not end in a carriage return. -/
theorem onLine_of_denotes {k : Kind} {raw : List Char} (h : k.Denotes raw) (hne : raw ≠ []) :
    '\n' ∉ raw ∧ ∃ init c, raw = init ++ [c] ∧ c ≠ '\r' := by
  have hplain (hraw : Plain raw) : '\n' ∉ raw ∧ ∃ init c, raw = init ++ [c] ∧ c ≠ '\r' := by
    refine ⟨not_mem_of_plain hraw, raw.dropLast, raw.getLast hne,
      (List.dropLast_concat_getLast hne).symm, (hraw _ (List.getLast_mem hne)).2⟩
  cases k with
  | keyword word =>
      refine hplain ?_
      rw [show raw = word.text.toList from h]
      exact plain_of_all (by cases word <;> decide)
  | symbol s =>
      refine hplain ?_
      rw [show raw = s.text.toList from h]
      exact plain_of_all (by cases s <;> decide)
  | identifier name =>
      obtain ⟨rfl, hword, -⟩ := h
      exact hplain (plain_of_isName hword.isName)
  | stringLiteral value =>
      obtain ⟨rfl, hinside⟩ := h
      refine ⟨fun hmem => ?_, '"' :: value.toList, '"', rfl, by decide⟩
      simp only [List.mem_cons, List.mem_append, List.not_mem_nil, or_false] at hmem
      rcases hmem with hc | hc | hc
      · exact absurd hc (by decide)
      · exact (hinside _ hc).2 rfl
      · exact absurd hc (by decide)
  | integerLiteral value =>
      refine hplain (plain_of_solid fun c hc => solid_of_isNameChar ?_)
      simp [isNameChar, h.1 c hc]

/-- The line of a text on which a part of it stands, if the part is on one line. -/
theorem line?_of_part (name : String) (front : List Char) {raw : List Char} (back : List Char)
    (hline : '\n' ∉ raw) (hend : ∃ init c, raw = init ++ [c] ∧ c ≠ '\r') :
    ∃ before kept, '\n' ∉ before ++ raw ++ kept ∧
      (Listing.ofText name (front ++ (raw ++ back))).line? (Position.origin.advance front).line =
        some (before ++ raw ++ kept) ∧
      (Position.origin.advance front).column = before.length + 1 := by
  obtain ⟨before, hcut, hcolumn, hpos, hbefore⟩ :=
    Listing.getElem?_cutLines [] #[] front (raw ++ back) Position.origin rfl rfl
  have hraw : (raw ++ back).takeWhile (· != '\n') = raw ++ back.takeWhile (· != '\n') := by
    refine List.takeWhile_append_of_pos fun c hc => ?_
    simpa using fun heq : c = '\n' => hline (heq ▸ hc)
  have hback : '\n' ∉ back.takeWhile (· != '\n') := by
    intro hmem
    have hnot := List.mem_takeWhile_imp hmem
    simp at hnot
  obtain ⟨init, c, rfl, hc⟩ := hend
  obtain ⟨kept, hkept, hfront⟩ :=
    Listing.withoutReturns_append hc (before ++ init) (back.takeWhile (· != '\n'))
  refine ⟨before, kept, ?_, ?_, hcolumn⟩
  · intro hmem
    rcases List.mem_append.mp hmem with hmem | hmem
    · rcases List.mem_append.mp hmem with hmem | hmem
      · exact hbefore List.not_mem_nil hmem
      · exact hline hmem
    · exact hback (hfront.subset hmem)
  · rw [Listing.line?, if_neg (Nat.ne_of_gt hpos), Listing.ofText, hcut, hraw]
    simpa using hkept

/-- The line of a token is in the listing, the token stands in it at its column, and the excerpt
shows the line and under it, behind a margin of the same width, blanks up to that column and a caret
for each character of the token. -/
theorem excerpt_of_token (name message : String) (source : List Char) {t : Token}
    (ht : t ∈ (Lexer.ofText source).drain.1) :
    let listing := Listing.ofText name source
    let number := toString t.span.start.line
    let margin := String.ofList (List.replicate number.length ' ')
    ∃ line, listing.line? t.span.start.line = some line ∧ '\n' ∉ line ∧
      1 ≤ t.span.start.column ∧ t.raw.toList <+: line.drop (t.span.start.column - 1) ∧
      listing.excerpt t.span message =
        "error: " ++ message ++ "\n  --> " ++ name ++ ":" ++ t.span.start.text ++ "\n" ++
        (margin ++ " |\n") ++
        (number ++ " | " ++ String.ofList line ++ "\n") ++
        (margin ++ " | " ++ String.ofList (List.replicate (t.span.start.column - 1) ' ') ++
          String.ofList (List.replicate t.raw.length '^') ++ "\n") := by
  intro listing number margin
  obtain ⟨-, hslice, -⟩ := Lexer.layout_of_drain source
  obtain ⟨front, back, hsource, hstart, hstop, -, -, hless, hkind⟩ := hslice t ht
  have hne : t.raw.toList ≠ [] := by
    intro hnil
    rw [hstart, hstop, hnil, List.append_nil] at hless
    exact Nat.lt_irrefl _ hless
  obtain ⟨hline, hend⟩ := onLine_of_denotes hkind hne
  obtain ⟨before, kept, hnone, hfound, hcolumn⟩ :=
    line?_of_part name front back hline hend
  rw [← hsource, ← hstart] at hfound
  rw [← hstart] at hcolumn
  have hspan : t.span.stop.line = t.span.start.line ∧
      t.span.stop.column = t.span.start.column + t.raw.length := by
    rw [hstop, Position.advance_append, ← hstart, ← String.length_toList]
    exact Position.advance_of_notMem _ hline
  have hcarets : Listing.caretCount t.span (before ++ t.raw.toList ++ kept) = t.raw.length := by
    have hpos := List.length_pos_iff.mpr hne
    rw [String.length_toList] at hpos
    rw [Listing.caretCount, if_pos hspan.1.symm, hspan.2]
    omega
  refine ⟨_, hfound, hnone, by omega, ?_, ?_⟩
  · rw [hcolumn, Nat.add_sub_cancel, List.append_assoc, List.drop_left]
    exact List.prefix_append _ _
  · rw [Listing.excerpt, hfound]
    simp only [hcarets, Listing.pushn_eq_append, String.empty_append, String.append_assoc]
    rfl

/-- A word on the second line, in front of a carriage return. -/
theorem excerpt_of_word :
    let source := ['\n', ' ', 'x', '\r']
    let word : Token := ⟨.identifier "x", "x", ⟨⟨2, 2, 2⟩, ⟨3, 2, 3⟩⟩⟩
    word ∈ (Lexer.ofText source).drain.1 ∧
      (Listing.ofText "Main.jack" source).excerpt word.span "unexpected" =
        "error: unexpected\n  --> Main.jack:2:2\n  |\n2 |  x\n  |  ^\n" := by
  intro source word
  have hnext : (Lexer.ofText source).next = (.ok (some word),
      { buffer := ['\r'], position := ⟨3, 2, 3⟩, finished := true,
        metrics := { total := 1, identifiers := 1, maxIdentifier := 1 } }) :=
    (Lexer.next_of_skipped rfl).trans (Lexer.next_of_token rfl)
  have hmem : word ∈ (Lexer.ofText source).drain.1 := by
    rw [Lexer.drain_of_token hnext]
    exact List.mem_cons_self
  obtain ⟨line, hline, -, -, -, hexcerpt⟩ := excerpt_of_token "Main.jack" "unexpected" source hmem
  obtain rfl : [' ', 'x'] = line := Option.some.inj hline
  exact ⟨hmem, hexcerpt.trans (by decide)⟩

end JackToolchain.Source
