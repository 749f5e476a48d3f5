import JackToolchain.Proofs.Text.Lines
import JackToolchain.Proofs.Token.Values

/-!
# The layout of a text

A text is its tokens with gaps between them: blanks and whole comments. Each token is written where
its span says, and its kind is what the text there denotes. When the whole text is consumed, the
lexer has counted its lines and its tokens of each kind.
-/

namespace JackToolchain

open JackToolchain.Source JackToolchain.Text

/-! ## Positions -/

namespace Source.Position

theorem offset_step (p : Position) (c : Char) : (p.step c).offset = p.offset + c.utf8Size := by
  unfold step
  split
  all_goals rfl

/-- Offsets count the bytes of a text. -/
theorem offset_advance (p : Position) (text : List Char) :
    (p.advance text).offset = p.offset + (String.ofList text).utf8ByteSize := by
  induction text generalizing p with
  | nil => rfl
  | cons c rest ih =>
      rw [advance_cons, ih, offset_step, Token.utf8ByteSize_cons, Nat.add_assoc]

theorem offset_lt_advance (p : Position) {text : List Char} (h : text ≠ []) :
    p.offset < (p.advance text).offset := by
  have hlength := Token.length_le_utf8ByteSize (String.ofList text)
  have hpos := List.length_pos_iff.mpr h
  rw [String.toList_ofList] at hlength
  rw [offset_advance]
  omega

/-- The lines of a text, the one in progress included, as the position behind it counts them. -/
theorem length_linesFrom (p : Position) (line : List Char) (done : List String) (text : List Char)
    (hline : p.line = done.length + 1) (hcolumn : p.column = line.length + 1) :
    (linesFrom line done text).length =
      (p.advance text).line - 1 + if (p.advance text).column > 1 then 1 else 0 := by
  induction text generalizing p line done with
  | nil =>
      cases line with
      | nil => simp [linesFrom, hline, hcolumn]
      | cons c rest => simp [linesFrom, hline, hcolumn]
  | cons c rest ih =>
      rw [linesFrom, advance_cons]
      by_cases hc : c = '\n'
      · rw [if_pos hc]
        exact ih _ _ _ (by simp [step, hc, hline]) (by simp [step, hc])
      · rw [if_neg hc]
        exact ih _ _ _ (by simp [step, hc, hline]) (by simp [step, hc, hcolumn])

theorem length_lines (text : List Char) :
    (lines (String.ofList text)).length = (origin.advance text).line - 1 +
      if (origin.advance text).column > 1 then 1 else 0 := by
  rw [lines, String.toList_ofList]
  exact length_linesFrom origin [] [] text rfl rfl

end Source.Position

namespace Token

/-! ## Gaps -/

/-- Blanks and whole comments in front of a text. A comment of a line goes on to its end, any other
one to the first mark that closes it. -/
inductive Gap (after : List Char) : List Char → Prop
  | nil : Gap after []
  | blank {c : Char} {gap : List Char} (hc : isAsciiBlank c = true) (h : Gap after gap) :
    Gap after (c :: gap)
  | lineComment {body gap : List Char} (hbody : '\n' ∉ body)
      (hend : gap ++ after = [] ∨ (gap ++ after).head? = some '\n') (h : Gap after gap) :
    Gap after ('/' :: '/' :: (body ++ gap))
  | blockComment {body gap : List Char} (hbody : ¬['*', '/'] <:+: body) (h : Gap after gap) :
    Gap after ('/' :: '*' :: (body ++ '*' :: '/' :: gap))

theorem Gap.blanks {after blanks gap : List Char} (hblanks : ∀ c ∈ blanks, isAsciiBlank c = true)
    (h : Gap after gap) : Gap after (blanks ++ gap) := by
  induction blanks with
  | nil => exact h
  | cons c rest ih =>
      obtain ⟨hc, hrest⟩ := List.forall_mem_cons.mp hblanks
      exact .blank hc (ih hrest)

namespace Rule

theorem run_eq_lexeme {p : Char → Bool} {text lexeme rest : List Char}
    (h : run p text = .lexeme lexeme rest) :
    lexeme = text.takeWhile p ∧ rest = text.dropWhile p := by
  simp only [run] at h
  split at h
  · cases h
  · cases h
    exact ⟨rfl, rfl⟩

/-- A block comment ends at the first mark that closes it. -/
theorem closeComment_eq_lexeme {front text lexeme rest : List Char}
    (h : closeComment front text = .lexeme lexeme rest) :
    ∃ body, text = body ++ '*' :: '/' :: rest ∧ lexeme = front.reverse ++ body ++ ['*', '/'] ∧
      ¬['*', '/'] <:+: body := by
  fun_induction closeComment front text with
  | case1 front tail =>
      cases h
      exact ⟨[], rfl, by simp, by simp⟩
  | case2 front c tail hopen ih =>
      obtain ⟨body, rfl, rfl, hbody⟩ := ih h
      refine ⟨c :: body, rfl, by simp, ?_⟩
      rw [List.infix_cons_iff]
      rintro (⟨more, hmore⟩ | hinside)
      · obtain ⟨rfl, hbody⟩ := List.cons.inj hmore
        exact hopen (more ++ '*' :: '/' :: rest) rfl (by rw [← hbody]; rfl)
      · exact hbody hinside
  | case3 => cases h

/-- A lexeme without a value lies in a gap. -/
theorem gap_of_value?_none {r : Rule} {text lexeme rest : List Char} {start : Position}
    (htext : r.apply text = .lexeme lexeme rest) (h : r.value? lexeme start = .ok none)
    {after gap : List Char} (hrest : rest = gap ++ after) (hgap : Gap after gap) :
    Gap after (lexeme ++ gap) := by
  cases r with
  | blank =>
      obtain ⟨rfl, -⟩ := run_eq_lexeme htext
      exact hgap.blanks fun c hc => List.mem_takeWhile_imp hc
  | lineComment =>
      simp only [apply] at htext
      split at htext
      · rename_i tail
        obtain ⟨hlexeme, hdrop⟩ := run_eq_lexeme htext
        have hbody : lexeme = '/' :: '/' :: tail.takeWhile (· != '\n') := by
          rw [hlexeme]
          rfl
        have hend : rest = [] ∨ rest.head? = some '\n' := by
          have hafter : rest = tail.dropWhile (· != '\n') := by
            rw [hdrop]
            rfl
          cases hcases : tail.dropWhile (· != '\n') with
          | nil => exact .inl (hafter.trans hcases)
          | cons c more =>
              have hstop : (c != '\n') = false := by
                have hhead := List.head?_dropWhile_not (· != '\n') tail
                simpa [hcases] using hhead
              refine .inr ?_
              rw [hafter, hcases]
              simpa using hstop
        rw [hbody]
        refine .lineComment (fun hmem => ?_) (hrest ▸ hend) hgap
        have hnot := List.mem_takeWhile_imp hmem
        simp at hnot
      · cases htext
  | blockComment =>
      simp only [apply] at htext
      split at htext
      · obtain ⟨body, -, rfl, hbody⟩ := closeComment_eq_lexeme htext
        have hcomment := Gap.blockComment hbody hgap
        simpa using hcomment
      · cases htext
  | keyword | symbol =>
      simp only [value?] at h
      split at h
      all_goals cases h
  | identifier | string =>
      simp only [value?] at h
      split at h
      all_goals cases h
  | integer =>
      simp only [value?] at h
      split at h
      all_goals cases h

end Rule

/-! ## Kinds -/

/-- What a text denotes. The zeros in front of a number do not matter. -/
def Kind.Denotes (raw : List Char) : Kind → Prop
  | .keyword word => raw = word.text.toList
  | .symbol s => raw = s.text.toList
  | .identifier name => raw = name.toList ∧ IsWord name ∧ Keyword.ofText? name = none
  | .stringLiteral value =>
    raw = '"' :: (value.toList ++ ['"']) ∧ ∀ c ∈ value.toList, c ≠ '"' ∧ c ≠ '\n'
  | .integerLiteral value =>
    (∀ c ∈ raw, isDigit c = true) ∧ value = ofDigits raw ∧ value ≤ 32767

theorem Keyword.text_of_ofText? {text : String} {word : Keyword} (h : ofText? text = some word) :
    word.text = text := by
  simpa using List.find?_some h

theorem Symbol.text_of_ofText? {text : String} {s : Symbol} (h : ofText? text = some s) :
    s.text = text := by
  simpa using List.find?_some h

/-- The kind of a lexeme is what it denotes. -/
theorem Rule.denotes_of_value? {r : Rule} {text lexeme rest : List Char} {start : Position}
    {k : Kind} (htext : first text = some (r, .lexeme lexeme rest))
    (h : r.value? lexeme start = .ok (some k)) : k.Denotes lexeme := by
  have happly := apply_of_firstOf htext
  have hproper := proper_of_value? happly h
  cases r with
  | blank | lineComment | blockComment => cases h
  | keyword =>
      simp only [value?] at h
      split at h
      · rename_i word hword
        cases h
        rw [Kind.Denotes, Keyword.text_of_ofText? hword, String.toList_ofList]
      · cases h
  | symbol =>
      simp only [value?] at h
      split at h
      · rename_i s hs
        cases h
        rw [Kind.Denotes, Symbol.text_of_ofText? hs, String.toList_ofList]
      · cases h
  | identifier =>
      have hvalue := h
      simp only [value?] at h
      split at h
      · cases h
      · cases h
        exact ⟨String.toList_ofList.symm, hproper, not_reserved_of_value? htext hvalue⟩
  | string =>
      simp only [value?] at h
      split at h
      · cases h
      · cases h
        simp only [apply] at happly
        split at happly
        · rename_i body
          simp only [closeString] at happly
          split at happly
          · cases happly
            refine ⟨by simp, fun c hc => ?_⟩
            simp only [List.drop_succ_cons, List.drop_zero, List.dropLast_concat,
              String.toList_ofList] at hc
            simpa using List.mem_takeWhile_imp hc
          · cases happly
          · cases happly
        · cases happly
  | integer =>
      simp only [value?] at h
      split at h
      · rename_i n hdigits
        cases h
        refine ⟨fun c hc => ?_, ?_, hproper⟩
        · obtain ⟨rfl, -⟩ := run_eq_lexeme happly
          exact List.mem_takeWhile_imp hc
        · unfold readDigits? at hdigits
          split at hdigits
          · cases hdigits
          · simp only at hdigits
            split at hdigits
            · exact (Option.some.inj hdigits).symm
            · cases hdigits
      · cases h

/-! ## Laid texts -/

/-- From a position on, a text is laid out as some tokens, each behind a gap; what is left of it
starts at another position. -/
inductive Laid : Position → List Char → List Token → Position → List Char → Prop
  | nil (p : Position) (text : List Char) : Laid p text [] p text
  | cons {p stop : Position} {gap text rest : List Char} {t : Token} {tokens : List Token}
      (hgap : Gap (t.raw.toList ++ text) gap) (hraw : t.raw.toList ≠ [])
      (hkind : t.kind.Denotes t.raw.toList) (hstart : t.span.start = p.advance gap)
      (hstop : t.span.stop = t.span.start.advance t.raw.toList)
      (h : Laid t.span.stop text tokens stop rest) :
    Laid p (gap ++ (t.raw.toList ++ text)) (t :: tokens) stop rest

section Slices

variable {p stop : Position} {text rest : List Char} {tokens : List Token}

/-- A token stands in the text where its span says. -/
theorem Laid.slice (h : Laid p text tokens stop rest) : ∀ t ∈ tokens, ∃ front back,
    text = front ++ (t.raw.toList ++ back) ∧ t.span.start = p.advance front ∧
      t.span.stop = p.advance (front ++ t.raw.toList) ∧
        t.span.start.offset < t.span.stop.offset ∧ t.kind.Denotes t.raw.toList := by
  induction h with
  | nil => simp
  | @cons p stop gap text rest t tokens hgap hraw hkind hstart hstop h ih =>
      intro u hu
      rcases List.mem_cons.mp hu with rfl | hu
      · refine ⟨gap, text, rfl, hstart, ?_, ?_, hkind⟩
        · rw [hstop, hstart, Position.advance_append]
        · rw [hstop]
          exact Position.offset_lt_advance _ hraw
      · obtain ⟨front, back, rfl, hfrom, hto, hspan⟩ := ih u hu
        have hbefore : t.span.stop = p.advance (gap ++ t.raw.toList) := by
          rw [hstop, hstart, Position.advance_append]
        refine ⟨gap ++ (t.raw.toList ++ front), back, by simp, ?_, ?_, hspan⟩
        · rw [hfrom, hbefore, ← Position.advance_append, List.append_assoc]
        · rw [hto, hbefore, ← Position.advance_append]
          simp

/-- Spans come one after the other. -/
theorem Laid.ordered (h : Laid p text tokens stop rest) :
    tokens.Pairwise fun t u => t.span.stop.offset ≤ u.span.start.offset := by
  induction h with
  | nil => exact .nil
  | @cons p stop gap text rest t tokens hgap hraw hkind hstart hstop h ih =>
      refine .cons (fun u hu => ?_) ih
      obtain ⟨front, back, -, hfrom, -⟩ := h.slice u hu
      rw [hfrom, Position.offset_advance]
      exact Nat.le_add_right _ _

end Slices

end Token

/-! ## Lexers -/

open Token

namespace Metrics

/-- The tokens of a kind, by its label. -/
def labelled (label : String) (tokens : List Token) : Nat :=
  tokens.countP fun t => Rule.label t.kind == label

/-- What is counted for some tokens. -/
structure Counted (m : Metrics) (tokens : List Token) (m' : Metrics) : Prop where
  total : m'.total = m.total + tokens.length
  keywords : m'.keywords = m.keywords + labelled "keyword" tokens
  symbols : m'.symbols = m.symbols + labelled "symbol" tokens
  identifiers : m'.identifiers = m.identifiers + labelled "identifier" tokens
  strings : m'.strings = m.strings + labelled "string" tokens
  integers : m'.integers = m.integers + labelled "integer" tokens

theorem labelled_append (label : String) (front back : List Token) :
    labelled label (front ++ back) = labelled label front + labelled label back :=
  List.countP_append

theorem Counted.of_comments (m : Metrics) (comments : Nat) :
    Counted m [] { m with comments } where
  total := rfl
  keywords := rfl
  symbols := rfl
  identifiers := rfl
  strings := rfl
  integers := rfl

theorem Counted.of_count (m : Metrics) (t : Token) : Counted m [t] (m.count true t.kind) := by
  cases hkind : t.kind
  all_goals
    constructor
    all_goals simp [count, labelled, Rule.label, hkind]

theorem Counted.trans {m m' m'' : Metrics} {front back : List Token} (h : Counted m front m')
    (h' : Counted m' back m'') : Counted m (front ++ back) m'' where
  total := by rw [h'.total, h.total, List.length_append, Nat.add_assoc]
  keywords := by rw [h'.keywords, h.keywords, labelled_append, Nat.add_assoc]
  symbols := by rw [h'.symbols, h.symbols, labelled_append, Nat.add_assoc]
  identifiers := by rw [h'.identifiers, h.identifiers, labelled_append, Nat.add_assoc]
  strings := by rw [h'.strings, h.strings, labelled_append, Nat.add_assoc]
  integers := by rw [h'.integers, h.integers, labelled_append, Nat.add_assoc]

end Metrics

namespace Lexer

variable {lx next : Lexer}

/-- A lexer that has all its text and counts the kinds of tokens. -/
structure Whole (lx : Lexer) : Prop where
  finished : lx.finished = true
  detailed : lx.detailed = true

/-- A lexer that has taken a lexeme off its text and counted some tokens. -/
structure Took (lx : Lexer) (lexeme : List Char) (tokens : List Token) (next : Lexer) : Prop where
  whole : next.Whole
  buffer : lx.buffer = lexeme ++ next.buffer
  position : next.position = lx.position.advance lexeme
  counted : lx.metrics.Counted tokens next.metrics

theorem Took.trans {last : Lexer} {a b : List Char} {front back : List Token}
    (h : lx.Took a front next) (h' : next.Took b back last) :
    lx.Took (a ++ b) (front ++ back) last where
  whole := h'.whole
  buffer := by rw [h.buffer, h'.buffer, List.append_assoc]
  position := by rw [h'.position, h.position, Position.advance_append]
  counted := h.counted.trans h'.counted

/-- The scan that takes a lexeme, by its rule and its value. -/
theorem exists_of_scan {s : Scan} (hs : lx.scan = s) (htaken : s.taken? = some next) :
    ∃ rule lexeme rest, Rule.first lx.buffer = some (rule, .lexeme lexeme rest) ∧
      lx.consume rule lexeme rest = s := by
  unfold scan at hs
  split at hs
  · split at hs <;> (subst hs; cases htaken)
  · split at hs
    · rename_i rule lexeme rest hfirst
      split at hs
      · subst hs
        cases htaken
      · exact ⟨rule, lexeme, rest, hfirst, hs⟩
    · split at hs <;> (subst hs; cases htaken)
    · subst hs
      cases htaken

theorem took_of_token {t : Token} (h : lx.Whole) (hs : lx.scan = .token t next) :
    lx.Took t.raw.toList [t] next ∧ t.raw.toList ≠ [] ∧ t.kind.Denotes t.raw.toList ∧
      t.span = ⟨lx.position, lx.position.advance t.raw.toList⟩ := by
  obtain ⟨rule, lexeme, rest, hfirst, hconsume⟩ := exists_of_scan hs rfl
  obtain ⟨happend, hne⟩ := Rule.first_eq_append hfirst
  simp only [consume] at hconsume
  split at hconsume
  · cases hconsume
  · cases hconsume
  · rename_i kind hvalue
    split at hconsume
    · cases hconsume
    · cases hconsume
      have hcounted := Metrics.Counted.of_count lx.metrics
        ⟨kind, String.ofList lexeme, ⟨lx.position, lx.position.advance lexeme⟩⟩
      simp only [String.toList_ofList, and_true]
      refine ⟨⟨⟨h.finished, h.detailed⟩, happend, rfl, ?_⟩, hne,
        Rule.denotes_of_value? hfirst hvalue⟩
      rw [← h.detailed] at hcounted
      exact hcounted

theorem took_of_skipped (h : lx.Whole) (hs : lx.scan = .skipped next) :
    ∃ lexeme, lx.Took lexeme [] next ∧ ∀ after gap, next.buffer = gap ++ after → Gap after gap →
      Gap after (lexeme ++ gap) := by
  obtain ⟨rule, lexeme, rest, hfirst, hconsume⟩ := exists_of_scan hs rfl
  obtain ⟨happend, -⟩ := Rule.first_eq_append hfirst
  simp only [consume] at hconsume
  split at hconsume
  · cases hconsume
  · rename_i hvalue
    cases hconsume
    refine ⟨lexeme, ⟨⟨h.finished, h.detailed⟩, happend, rfl, .of_comments _ _⟩,
      fun after gap hrest hgap => ?_⟩
    exact Rule.gap_of_value?_none (Rule.apply_of_firstOf hfirst) hvalue hrest hgap
  · split at hconsume
    all_goals cases hconsume

theorem buffer_of_ended (hs : lx.scan = .ended) : lx.buffer = [] := by
  unfold scan at hs
  split at hs
  · rename_i hempty
    simpa using hempty
  · split at hs
    · split at hs
      · cases hs
      · exact (consume_ne_ended hs).elim
    · split at hs <;> cases hs
    · cases hs

/-- The next token stands behind a gap; if there is none, a gap is left. -/
theorem took_of_next (h : lx.Whole) :
    (∀ t next, lx.next = (.ok (some t), next) → ∃ gap, Gap (t.raw.toList ++ next.buffer) gap ∧
      lx.Took (gap ++ t.raw.toList) [t] next ∧ t.raw.toList ≠ [] ∧ t.kind.Denotes t.raw.toList ∧
        t.span = ⟨lx.position.advance gap, next.position⟩) ∧
    ∀ next, lx.next = (.ok none, next) → Gap [] lx.buffer ∧ lx.Took lx.buffer [] next := by
  induction lx using Lexer.next.induct with
  | case1 lx t after hs =>
      rw [next_of_token hs]
      refine ⟨fun u next heq => ?_, fun next heq => (by cases heq)⟩
      cases heq
      obtain ⟨htook, hraw, hkind, hspan⟩ := took_of_token h hs
      exact ⟨[], .nil, htook, hraw, hkind, by rw [hspan, htook.position]; rfl⟩
  | case2 lx e after hs =>
      rw [next_of_failed hs]
      exact ⟨fun u next heq => (by cases heq), fun next heq => (by cases heq)⟩
  | case3 lx hs =>
      rw [next_of_ended hs]
      refine ⟨fun u next heq => (by cases heq), fun next heq => ?_⟩
      cases heq
      have hempty := buffer_of_ended hs
      rw [hempty]
      exact ⟨.nil, h, rfl, rfl, .of_comments _ _⟩
  | case4 lx after hs _ ih =>
      obtain ⟨lexeme, htook, hgap⟩ := took_of_skipped h hs
      obtain ⟨htoken, hend⟩ := ih htook.whole
      rw [next_of_skipped hs]
      refine ⟨fun t next heq => ?_, fun next heq => ?_⟩
      · obtain ⟨gap, hbehind, hnext, hraw, hkind, hspan⟩ := htoken t next heq
        refine ⟨lexeme ++ gap, hgap _ gap ?_ hbehind, ?_, hraw, hkind, ?_⟩
        · rw [hnext.buffer, List.append_assoc]
        · rw [List.append_assoc]
          exact htook.trans hnext
        · rw [hspan, htook.position, ← Position.advance_append]
      · obtain ⟨hleft, hnext⟩ := hend next heq
        have hall := htook.trans hnext
        rw [← htook.buffer] at hall
        refine ⟨?_, hall⟩
        rw [htook.buffer]
        exact hgap [] after.buffer (List.append_nil _).symm hleft
  | case5 lx hs hp => exact absurd h.finished (by simp [finished_of_needsInput hs])
  | case6 lx hs e after hp => exact absurd h.finished (by simp [finished_of_needsInput hs])
  | case7 lx hs after hp _ ih => exact absurd h.finished (by simp [finished_of_needsInput hs])

/-- All tokens of a text are laid out in it; if no error stopped the lexer, a gap is left, and the
lexer has consumed and counted everything. -/
theorem laid_of_drain (h : lx.Whole) :
    ∃ stop rest, Laid lx.position lx.buffer lx.drain.1 stop rest ∧
      (lx.drain.2.1 = none → Gap [] rest ∧ lx.Took lx.buffer lx.drain.1 lx.drain.2.2) := by
  induction lx using drain_induct with
  | ended lx next hr hdrain =>
      obtain ⟨hgap, htook⟩ := (took_of_next h).2 next hr
      rw [hdrain]
      exact ⟨lx.position, lx.buffer, .nil _ _, fun _ => ⟨hgap, htook⟩⟩
  | failed lx e next hr hdrain =>
      rw [hdrain]
      exact ⟨lx.position, lx.buffer, .nil _ _, fun hnone => by cases hnone⟩
  | token lx t next hr hdrain ih =>
      obtain ⟨gap, hgap, htook, hraw, hkind, hspan⟩ := (took_of_next h).1 t next hr
      obtain ⟨stop, rest, hlaid, hend⟩ := ih htook.whole
      have hposition : next.position = (lx.position.advance gap).advance t.raw.toList := by
        rw [htook.position, Position.advance_append]
      rw [hdrain]
      refine ⟨stop, rest, ?_, fun hnone => ?_⟩
      · rw [htook.buffer, List.append_assoc]
        refine .cons hgap hraw hkind (by rw [hspan]) (by rw [hspan, hposition]) ?_
        rw [hspan]
        exact hlaid
      · obtain ⟨hleft, hall⟩ := hend hnone
        have hwhole := htook.trans hall
        rw [← htook.buffer] at hwhole
        exact ⟨hleft, hwhole⟩

/-- The tokens of a text are laid out in it: each is written where its span says, spans are not
empty and follow one another, and only blanks and whole comments stand in front of tokens. If no
error stops the lexer, there is nothing but a gap behind the last token, the lexer ends where the
text ends, and it has counted the lines of the text and the tokens of each kind. -/
theorem layout_of_drain (source : List Char) :
    (∃ stop rest, Laid .origin source (ofText source).drain.1 stop rest ∧
      ((ofText source).drain.2.1 = none → Gap [] rest)) ∧
    (∀ t ∈ (ofText source).drain.1, ∃ front back,
      source = front ++ (t.raw.toList ++ back) ∧
        t.span.start = Position.origin.advance front ∧
        t.span.stop = Position.origin.advance (front ++ t.raw.toList) ∧
        t.span.start.offset = (String.ofList front).utf8ByteSize ∧
        t.span.stop.offset = (String.ofList (front ++ t.raw.toList)).utf8ByteSize ∧
        t.span.start.offset < t.span.stop.offset ∧ t.kind.Denotes t.raw.toList) ∧
    ((ofText source).drain.1.Pairwise fun t u => t.span.stop.offset ≤ u.span.start.offset) ∧
    ((ofText source).drain.2.1 = none →
      (ofText source).drain.2.2.position = Position.origin.advance source ∧
        (ofText source).drain.2.2.linesRead = (lines (String.ofList source)).length ∧
          Metrics.Counted {} (ofText source).drain.1 (ofText source).drain.2.2.metrics) := by
  have hwhole : (ofText source).Whole := ⟨rfl, rfl⟩
  obtain ⟨stop, rest, hlaid, hend⟩ := laid_of_drain hwhole
  refine ⟨⟨stop, rest, hlaid, fun hnone => (hend hnone).1⟩, fun t ht => ?_, hlaid.ordered,
    fun hnone => ?_⟩
  · obtain ⟨front, back, hsource, hstart, hstop, hspan, hkind⟩ := hlaid.slice t ht
    refine ⟨front, back, hsource, hstart, hstop, ?_, ?_, hspan, hkind⟩
    · rw [hstart, Position.offset_advance]
      exact Nat.zero_add _
    · rw [hstop, Position.offset_advance]
      exact Nat.zero_add _
  · obtain ⟨-, htook⟩ := hend hnone
    refine ⟨htook.position, ?_, htook.counted⟩
    rw [linesRead, htook.position, Position.length_lines]
    rfl

/-- A class whose objects count up to a limit, behind a comment with a letter of two bytes. -/
def counterSource : List Char :=
  ["// Zähler\nclass Counter \x7b\n",
    "  static int made; field int value, limit;\n",
    "  constructor Counter new(int top) \x7b\n",
    "    let made = made + 1; let limit = top;\n",
    "    return this;\n  \x7d\n",
    "  method boolean step(int by) \x7b\n",
    "    let value = value + by;\n",
    "    return value < limit;\n  \x7d\n\x7d\n"].flatMap String.toList

/-- The first token stands on the second line, one byte further than characters. -/
theorem layout_of_counter :
    let whole := (ofText counterSource).drain
    (∃ stop rest, Laid .origin counterSource whole.1 stop rest ∧ Gap [] rest) ∧
      whole.1.length = 59 ∧ whole.1.head?.map Token.span = some ⟨⟨11, 2, 1⟩, ⟨16, 2, 6⟩⟩ ∧
      whole.2.2.position = Position.origin.advance counterSource ∧ whole.2.2.linesRead = 12 ∧
      Metrics.Counted {} whole.1 whole.2.2.metrics := by
  obtain ⟨outcome, hscanned, hcount, hfirst, hends, hlines⟩ :
      ∃ outcome ∈ (ofText counterSource).scanned 200, outcome.1.length = 59 ∧
        outcome.1.head?.map Token.span = some ⟨⟨11, 2, 1⟩, ⟨16, 2, 6⟩⟩ ∧ outcome.2.1 = none ∧
          outcome.2.2.linesRead = 12 := by
    decide +kernel
  obtain rfl : (ofText counterSource).drain = outcome := drain_of_scanned hscanned
  obtain ⟨⟨stop, rest, hlaid, hgap⟩, -, -, hcounts⟩ := layout_of_drain counterSource
  obtain ⟨hposition, -, hcounted⟩ := hcounts hends
  exact ⟨⟨stop, rest, hlaid, hgap hends⟩, hcount, hfirst, hposition, hlines, hcounted⟩

end Lexer

end JackToolchain
