import JackToolchain.Proofs.Syntax.Grammar
import JackToolchain.Proofs.Token.Layout
import JackToolchain.Proofs.Token.Streaming

/-!
# Texts with other spaces

A token in front of a blank, or at the end of a text, is read back from what is written for it. So
the tokens of a text are read again when other blanks and comments stand between them.
-/

namespace JackToolchain

open JackToolchain.Source JackToolchain.Text

namespace Token

def BlankNext (rest : List Char) : Prop := ∀ c ∈ rest.head?, isAsciiBlank c = true

theorem blankNext_nil : BlankNext [] := fun c hc => by cases hc

/-- Tokens one after the other, with gaps behind them that start with a blank. -/
inductive Spaced : List Token → List Char → Prop
  | nil : Spaced [] []
  | last (t : Token) : Spaced [t] t.raw.toList
  | more (t : Token) {tokens : List Token} {c : Char} {gap text : List Char}
      (hc : isAsciiBlank c = true) (hgap : Gap text gap) (h : Spaced tokens text) :
      Spaced (t :: tokens) (t.raw.toList ++ (c :: gap ++ text))

theorem Gap.dropWhile {after gap : List Char} (h : Gap after gap) :
    Gap after (gap.dropWhile isAsciiBlank) := by
  induction h with
  | nil => exact .nil
  | blank hc h ih =>
      rw [List.dropWhile_cons_of_pos hc]
      exact ih
  | lineComment hbody hend h ih => exact .lineComment hbody hend h
  | blockComment hbody h ih => exact .blockComment hbody h

namespace Rule

variable {p : Char → Bool} {lexeme rest : List Char}

/-! ## Lexemes in front of a blank -/

theorem run_of_all (hne : lexeme ≠ []) (hall : ∀ c ∈ lexeme, p c = true)
    (hrest : ∀ c ∈ rest.head?, p c = false) : run p (lexeme ++ rest) = .lexeme lexeme rest := by
  have hstop : rest.takeWhile p = [] ∧ rest.dropWhile p = rest := by
    cases rest with
    | nil => exact ⟨rfl, rfl⟩
    | cons c more => simp [hrest c rfl]
  rw [run, List.takeWhile_append_of_pos hall, List.dropWhile_append_of_pos hall, hstop.1, hstop.2]
  simp [hne]

theorem isAsciiBlank_iff {c : Char} :
    isAsciiBlank c = true ↔ c ∈ [' ', '\t', '\n', '\x0c', '\r'] := by
  simp [isAsciiBlank, or_assoc]

theorem notMem_of_all {c : Char} {chars : List Char} (hchars : (chars.all fun d => !p d) = true)
    (hc : p c = true) : c ∉ chars := by
  intro hmem
  have hnot := List.all_eq_true.mp hchars c hmem
  simp [hc] at hnot

theorem not_of_blankNext (hp : ([' ', '\t', '\n', '\x0c', '\r'].all fun d => !p d) = true)
    (hrest : BlankNext rest) : ∀ c ∈ rest.head?, p c = false := by
  intro c hc
  by_contra htrue
  exact notMem_of_all hp (by simpa using htrue) (isAsciiBlank_iff.mp (hrest c hc))

theorem word_of_isWord {name : String} (h : IsWord name) (hrest : BlankNext rest) :
    word (name.toList ++ rest) = .lexeme name.toList rest := by
  have hall := h.isWordChar
  obtain ⟨c, tail, hname, hc, -⟩ := exists_of_isWord h
  have hrun : run isWordChar (name.toList ++ rest) = .lexeme name.toList rest :=
    run_of_all (by simp [hname]) hall (not_of_blankNext (by decide) hrest)
  rw [hname] at hrun ⊢
  simpa [word, hc] using hrun

/-- What starts neither a gap nor a word nor a symbol is a literal. -/
theorem first_of_literal {c : Char} {text : List Char} (hblank : isAsciiBlank c = false)
    (hletter : isLetter c = false) (hsymbol : c ∉ symbolChars) :
    first (c :: text) = firstOf (c :: text) [.string, .integer] := by
  have hne (d : Char) (hd : d ∈ symbolChars) : c ≠ d := fun heq => hsymbol (heq ▸ hd)
  have hslash := hne '/' (by decide)
  have hless := hne '<' (by decide)
  have hgreater := hne '>' (by decide)
  have hdeclined : ∀ r ∈ [blank, lineComment, blockComment, keyword, symbol, identifier],
      r.apply (c :: text) = .declined := by
    have hrun : run isAsciiBlank (c :: text) = .declined := run_cons_declined.2 hblank
    simp [apply, hrun, hslash, hless, hgreater, hsymbol, word, hletter]
  simp only [List.forall_mem_cons] at hdeclined
  simp only [first, order, firstOf, hdeclined]

theorem first_of_symbol (s : Symbol) (hrest : BlankNext rest) :
    first (s.text.toList ++ rest) = some (.symbol, .lexeme s.text.toList rest) := by
  cases rest with
  | nil => cases s <;> decide
  | cons c more =>
      have hfirst : first (s.text.toList ++ [c]) = some (.symbol, .lexeme s.text.toList [c]) := by
        have hc := isAsciiBlank_iff.mp (hrest c rfl)
        simp only [List.mem_cons, List.not_mem_nil, or_false] at hc
        rcases hc with rfl | rfl | rfl | rfl | rfl <;> cases s <;> decide
      simpa using first_append (b := more) hfirst (List.cons_ne_nil c [])

theorem first_of_string {value : List Char} (h : ∀ c ∈ value, c ≠ '"' ∧ c ≠ '\n') :
    first ('"' :: (value ++ ['"']) ++ rest) =
      some (.string, .lexeme ('"' :: (value ++ ['"'])) rest) := by
  have hinside : ∀ c ∈ value, (c != '"' && c != '\n') = true := by simpa using h
  rw [List.cons_append, first_of_literal (by decide) (by decide) (by decide), List.append_assoc]
  simp [firstOf, apply, closeString, List.takeWhile_append_of_pos hinside,
    List.dropWhile_append_of_pos hinside]

theorem first_of_digits (hne : lexeme ≠ []) (hall : ∀ c ∈ lexeme, isDigit c = true)
    (hrest : BlankNext rest) : first (lexeme ++ rest) = some (.integer, .lexeme lexeme rest) := by
  have hrun : run isDigit (lexeme ++ rest) = .lexeme lexeme rest :=
    run_of_all hne hall (not_of_blankNext (by decide) hrest)
  obtain ⟨c, tail, rfl⟩ := List.exists_cons_of_ne_nil hne
  have hdigit : isDigit c = true := hall c List.mem_cons_self
  have hblank : isAsciiBlank c = false := by
    by_contra hblank
    exact notMem_of_all (by decide) hdigit (isAsciiBlank_iff.mp (by simpa using hblank))
  have hletter : isLetter c = false := by
    by_contra hletter
    have hstart := isNameStart_of_isLetter (by simpa using hletter)
    simp [not_isDigit_of_isNameStart hstart] at hdigit
  have hquote : c ≠ '"' := by
    rintro rfl
    exact absurd hdigit (by decide)
  rw [List.cons_append] at hrun ⊢
  rw [first_of_literal hblank hletter (notMem_of_all (by decide) hdigit)]
  simp [firstOf, apply, hquote, hrun]

/-- A token as it is written is read back in front of a blank. -/
theorem exists_first_of_denotes {k : Kind} {raw : List Char} (hdenotes : k.Denotes raw)
    (hne : raw ≠ []) (hproper : k.Proper)
    (hlength : ∀ name, k = .identifier name → name.utf8ByteSize ≤ Limits.maxIdentifierLength)
    (hrest : BlankNext rest) :
    ∃ r, first (raw ++ rest) = some (r, .lexeme raw rest) ∧
      ∀ start, r.value? raw start = .ok (some k) := by
  cases k with
  | keyword word =>
      obtain rfl : raw = word.text.toList := hdenotes
      have hname : IsWord word.text := by cases word <;> decide
      have hword := first_word (word_of_isWord hname hrest)
      refine ⟨.keyword, ?_, fun start => ?_⟩
      · simpa using hword
      · simp [value?]
  | symbol s =>
      obtain rfl : raw = s.text.toList := hdenotes
      exact ⟨.symbol, first_of_symbol s hrest, fun start => by simp [value?]⟩
  | identifier name =>
      obtain ⟨rfl, hword, hfree⟩ := hdenotes
      refine ⟨.identifier, ?_, fun start => ?_⟩
      · simpa [hfree] using first_word (word_of_isWord hword hrest)
      · simp [value?, Nat.not_lt.mpr (hlength name rfl)]
  | stringLiteral value =>
      obtain ⟨rfl, hinside⟩ := hdenotes
      have hsize : ¬Limits.maxStringSize < value.utf8ByteSize := Nat.not_lt.mpr hproper
      refine ⟨.string, first_of_string hinside, fun start => ?_⟩
      simp [value?, hsize]
  | integerLiteral value =>
      obtain ⟨hdigits, hvalue, hsmall⟩ := hdenotes
      refine ⟨.integer, first_of_digits hne hdigits hrest, fun start => ?_⟩
      have hread : readDigits? Limits.maxIntegerLiteral raw = some value := by
        have hall : raw.all isDigit = true := List.all_eq_true.mpr hdigits
        have hbound : ofDigits raw ≤ Limits.maxIntegerLiteral := hvalue ▸ hsmall
        simp [readDigits?, hne, hall, hbound, hvalue]
      simp only [value?, hread]

/-! ## Gaps -/

/-- A block comment goes on to the first mark that closes it. -/
theorem exists_closeComment (front rest : List Char) {body : List Char}
    (hbody : ¬['*', '/'] <:+: body) :
    ∃ lexeme, closeComment front (body ++ '*' :: '/' :: rest) = .lexeme lexeme rest := by
  induction body generalizing front with
  | nil => exact ⟨_, rfl⟩
  | cons c body ih =>
      have hopen : ∀ tail, c = '*' → body ++ '*' :: '/' :: rest ≠ '/' :: tail := by
        rintro tail rfl heq
        cases body with
        | nil => cases heq
        | cons d body =>
            obtain ⟨rfl, -⟩ := List.cons.inj heq
            exact hbody ⟨[], body, rfl⟩
      obtain ⟨lexeme, hlexeme⟩ := ih (c :: front) fun hinside =>
        hbody (List.infix_cons_iff.mpr (.inr hinside))
      refine ⟨lexeme, ?_⟩
      rw [List.cons_append, closeComment.eq_2 _ _ _ hopen]
      exact hlexeme

theorem blank_apply_declined {c : Char} {text : List Char} (hc : isAsciiBlank c = false) :
    blank.apply (c :: text) = .declined := run_cons_declined.2 hc

theorem first_of_blanks {blanks : List Char} (hne : blanks ≠ [])
    (hall : ∀ c ∈ blanks, isAsciiBlank c = true)
    (hrest : ∀ c ∈ rest.head?, isAsciiBlank c = false) :
    first (blanks ++ rest) = some (.blank, .lexeme blanks rest) := by
  have hblank : blank.apply (blanks ++ rest) = .lexeme blanks rest := run_of_all hne hall hrest
  simp only [first, order, firstOf, hblank]

theorem first_of_lineComment {body : List Char} (hbody : '\n' ∉ body)
    (hend : rest = [] ∨ rest.head? = some '\n') :
    first ('/' :: '/' :: (body ++ rest)) =
      some (.lineComment, .lexeme ('/' :: '/' :: body) rest) := by
  have hall : ∀ c ∈ '/' :: '/' :: body, (c != '\n') = true := by
    intro c hc
    have hne : c ≠ '\n' := by
      rintro rfl
      simp [hbody] at hc
    simpa using hne
  have hrest : ∀ c ∈ rest.head?, (c != '\n') = false := by
    intro c hc
    rcases hend with rfl | hend
    · cases hc
    · rw [hend] at hc
      cases hc
      decide
  have hblank : blank.apply ('/' :: '/' :: (body ++ rest)) = .declined :=
    blank_apply_declined (by decide)
  have hline : lineComment.apply ('/' :: '/' :: (body ++ rest)) =
      .lexeme ('/' :: '/' :: body) rest :=
    run_of_all (List.cons_ne_nil _ _) hall hrest
  simp only [first, order, firstOf, hblank, hline]

theorem exists_first_of_blockComment {body : List Char} (rest : List Char)
    (hbody : ¬['*', '/'] <:+: body) :
    ∃ lexeme, first ('/' :: '*' :: (body ++ '*' :: '/' :: rest)) =
      some (.blockComment, .lexeme lexeme rest) := by
  obtain ⟨lexeme, hclose⟩ := exists_closeComment ['*', '/'] rest hbody
  have hblank : blank.apply ('/' :: '*' :: (body ++ '*' :: '/' :: rest)) = .declined :=
    blank_apply_declined (by decide)
  have hline : lineComment.apply ('/' :: '*' :: (body ++ '*' :: '/' :: rest)) = .declined := rfl
  have hblock : blockComment.apply ('/' :: '*' :: (body ++ '*' :: '/' :: rest)) =
    .lexeme lexeme rest := hclose
  refine ⟨lexeme, ?_⟩
  simp only [first, order, firstOf, hblank, hline, hblock]

/-- The front of a gap is a lexeme without a value, and the rest of the gap follows. -/
theorem exists_first_of_gap {after gap : List Char} (h : Gap after gap) (hne : gap ≠ [])
    (hafter : ∀ c ∈ after.head?, isAsciiBlank c = false) :
    ∃ r lexeme gap', first (gap ++ after) = some (r, .lexeme lexeme (gap' ++ after)) ∧
      (∀ start, r.value? lexeme start = .ok none) ∧ Gap after gap' ∧
        gap'.length < gap.length := by
  cases h with
  | nil => exact absurd rfl hne
  | @blank c gap hc h =>
      have hstop : ∀ d ∈ (gap.dropWhile isAsciiBlank ++ after).head?, isAsciiBlank d = false := by
        intro d hd
        cases hrest : gap.dropWhile isAsciiBlank with
        | nil => exact hafter d (by simpa [hrest] using hd)
        | cons e more =>
            have hhead := List.head?_dropWhile_not isAsciiBlank gap
            simp_all
      have hfirst := first_of_blanks (List.cons_ne_nil c (gap.takeWhile isAsciiBlank))
        (List.forall_mem_cons.mpr ⟨hc, fun d hd => List.mem_takeWhile_imp hd⟩) hstop
      rw [← List.append_assoc, List.cons_append, List.takeWhile_append_dropWhile] at hfirst
      exact ⟨_, _, _, hfirst, fun _ => rfl, h.dropWhile,
        Nat.lt_succ_of_le (List.length_dropWhile_le _ _)⟩
  | @lineComment body gap hbody hend h =>
      have hfirst := first_of_lineComment hbody hend
      rw [← List.append_assoc] at hfirst
      exact ⟨_, _, gap, hfirst, fun _ => rfl, h, by simp; omega⟩
  | @blockComment body gap hbody h =>
      obtain ⟨lexeme, hfirst⟩ := exists_first_of_blockComment (gap ++ after) hbody
      refine ⟨.blockComment, lexeme, gap, ?_, fun _ => rfl, h, by simp; omega⟩
      simpa using hfirst

end Rule

end Token

namespace Lexer

open Token

variable {lx : Lexer} {text lexeme rest : List Char} {count : Nat} {r : Token.Rule}

/-- The lexer has this text left and no more, and it has counted so many tokens. -/
structure Stands (lx : Lexer) (text : List Char) (count : Nat) : Prop where
  finished : lx.finished = true
  buffer : lx.buffer = text
  total : lx.metrics.total = count

namespace Stands

theorem scan_of_first (h : lx.Stands text count)
    (hfirst : Rule.first text = some (r, .lexeme lexeme rest)) :
    lx.scan = lx.consume r lexeme rest := by
  have hne : text ≠ [] := by
    rintro rfl
    cases hfirst
  rw [scan, h.buffer, if_neg (by simpa using hne), hfirst]
  simp [h.finished]

theorem skip (h : lx.Stands text count) (hfirst : Rule.first text = some (r, .lexeme lexeme rest))
    (hvalue : ∀ start, r.value? lexeme start = .ok none) :
    ∃ next : Lexer, lx.next = next.next ∧ next.Stands rest count := by
  have hscan := h.scan_of_first hfirst
  simp only [consume, hvalue] at hscan
  exact ⟨_, next_of_skipped hscan, h.finished, rfl, h.total⟩

theorem take {k : Kind} (h : lx.Stands text count)
    (hfirst : Rule.first text = some (r, .lexeme lexeme rest))
    (hvalue : ∀ start, r.value? lexeme start = .ok (some k))
    (hcount : count < Limits.maxTokenCount) :
    ∃ next span, lx.next = (.ok (some ⟨k, String.ofList lexeme, span⟩), next) ∧
      next.Stands rest (count + 1) := by
  have hscan := h.scan_of_first hfirst
  have hfew : ¬count + 1 > Limits.maxTokenCount := Nat.not_lt.mpr hcount
  simp only [consume, hvalue, Metrics.total_count, h.total, if_neg hfew] at hscan
  exact ⟨_, _, next_of_token hscan, h.finished, rfl, by simp [h.total]⟩

theorem ended (h : lx.Stands [] count) : lx.next = (.ok none, lx) := by
  refine next_of_ended ?_
  rw [scan, h.buffer, h.finished]
  rfl

theorem gap {after gap : List Char} (h : lx.Stands (gap ++ after) count) (hgap : Gap after gap)
    (hafter : ∀ c ∈ after.head?, isAsciiBlank c = false) :
    ∃ next : Lexer, lx.next = next.next ∧ next.Stands after count := by
  -- a lexeme of blanks takes as many of them as there are, so the induction is on the length
  induction hn : gap.length using Nat.strongRecOn generalizing gap lx with
  | _ n ih =>
      by_cases hne : gap = []
      · subst hne
        exact ⟨lx, rfl, h⟩
      · obtain ⟨r, lexeme, gap', hfirst, hvalue, hgap', hless⟩ :=
          Rule.exists_first_of_gap hgap hne hafter
        obtain ⟨next, hnext, hstands⟩ := h.skip hfirst hvalue
        obtain ⟨last, hlast, hend⟩ := ih _ (hn ▸ hless) hstands hgap' rfl
        exact ⟨last, hnext.trans hlast, hend⟩

end Stands

/-! ## Tokens of a text -/

/-- A lexeme of a kind, as a lexer lets it through. -/
structure Written (k : Kind) (raw : List Char) : Prop where
  nonempty : raw ≠ []
  denotes : k.Denotes raw
  proper : k.Proper
  short : ∀ name, k = .identifier name → name.utf8ByteSize ≤ Limits.maxIdentifierLength

theorem Written.exists_first {k : Kind} {raw : List Char} (h : Written k raw)
    (hrest : BlankNext rest) :
    ∃ r, Rule.first (raw ++ rest) = some (r, .lexeme raw rest) ∧
      ∀ start, r.value? raw start = .ok (some k) :=
  Rule.exists_first_of_denotes h.denotes h.nonempty h.proper h.short hrest

theorem Written.head_not_blank {k : Kind} {raw : List Char} (h : Written k raw)
    (text : List Char) : ∀ c ∈ (raw ++ text).head?, isAsciiBlank c = false := by
  intro c hc
  obtain ⟨r, hfirst, hvalue⟩ := h.exists_first blankNext_nil
  obtain ⟨d, tail, rfl⟩ := List.exists_cons_of_ne_nil h.nonempty
  obtain rfl : d = c := by simpa using hc
  by_contra hblank
  have hfound : Rule.first (d :: tail) = some (.blank,
      .lexeme ((d :: tail).takeWhile isAsciiBlank) ((d :: tail).dropWhile isAsciiBlank)) := by
    simp [Rule.first, Rule.order, Rule.firstOf, Rule.apply, Rule.run, hblank]
  rw [List.append_nil, hfound] at hfirst
  obtain ⟨rfl, -⟩ := Prod.mk.inj (Option.some.inj hfirst)
  cases hvalue .origin

theorem ofLexemes_written : OfLexemes Written := by
  intro r text lexeme rest start k htext hvalue
  refine ⟨(Rule.first_eq_append htext).2, Rule.denotes_of_value? htext hvalue,
    Rule.proper_of_value? (Rule.apply_of_firstOf htext) hvalue, ?_⟩
  rintro name rfl
  cases r with
  | identifier =>
      simp only [Rule.value?] at hvalue
      split at hvalue
      · cases hvalue
      · rename_i hfew
        cases hvalue
        exact Nat.le_of_not_lt hfew
  | blank | lineComment | blockComment => cases hvalue
  | keyword | symbol | string | integer =>
      simp only [Rule.value?] at hvalue
      split at hvalue
      all_goals cases hvalue

theorem head_not_blank_of_spaced {tokens : List Token} (h : Spaced tokens text)
    (hwritten : ∀ t ∈ tokens, Written t.kind t.raw.toList) : ∀ c ∈ text.head?, isAsciiBlank c = false := by
  cases h with
  | nil => exact fun c hc => by cases hc
  | last t =>
      have ht := (hwritten t List.mem_cons_self).head_not_blank []
      rwa [List.append_nil] at ht
  | more t hc hgap h => exact (hwritten t List.mem_cons_self).head_not_blank _

/-- A lexer in front of some tokens with gaps between them reads these tokens. -/
theorem Stands.drain {lx : Lexer} {tokens : List Token} (hspaced : Spaced tokens text)
    (h : lx.Stands text count) (hwritten : ∀ t ∈ tokens, Written t.kind t.raw.toList)
    (hcount : count + tokens.length ≤ Limits.maxTokenCount) :
    lx.drain.2.1 = none ∧ lx.drain.1.map Token.bare = tokens.map Token.bare := by
  induction hspaced generalizing lx count with
  | nil =>
      rw [drain_of_none h.ended]
      exact ⟨rfl, rfl⟩
  | last t =>
      rw [List.length_singleton] at hcount
      obtain ⟨r, hfirst, hvalue⟩ := (hwritten t List.mem_cons_self).exists_first blankNext_nil
      rw [List.append_nil] at hfirst
      obtain ⟨next, span, hnext, hstands⟩ := h.take hfirst hvalue hcount
      rw [drain_of_token hnext, drain_of_none hstands.ended]
      exact ⟨rfl, by simp [Token.bare]⟩
  | @more t tokens c gap text hc hgap hspaced ih =>
      rw [List.length_cons] at hcount
      obtain ⟨ht, hrest⟩ := List.forall_mem_cons.mp hwritten
      have hbehind : BlankNext (c :: gap ++ text) := by
        intro d hd
        cases hd
        exact hc
      obtain ⟨r, hfirst, hvalue⟩ := ht.exists_first hbehind
      obtain ⟨next, span, hnext, hstands⟩ := h.take hfirst hvalue (by omega)
      obtain ⟨last, hlast, hend⟩ := hstands.gap (.blank hc hgap)
        (head_not_blank_of_spaced hspaced hrest)
      obtain ⟨hnone, hsame⟩ := ih hend hrest (by omega)
      rw [drain_of_token hnext, drain_congr hlast]
      exact ⟨hnone, by simp [Token.bare, hsame]⟩

/-- The tokens of a lexer are read again from a text with any gaps between them. -/
theorem drain_of_spaced {lx : Lexer} (hspaced : Spaced lx.drain.1 text) (detailed : Bool) :
    (ofText text detailed).drain.2.1 = none ∧
      (ofText text detailed).drain.1.map Token.bare = lx.drain.1.map Token.bare := by
  have hstands : (ofText text detailed).Stands text 0 := ⟨rfl, rfl, rfl⟩
  refine hstands.drain hspaced ofLexemes_written.drain ?_
  rw [Nat.zero_add]
  exact (length_drain_le lx).trans (Nat.sub_le _ _)

end Lexer

end JackToolchain
