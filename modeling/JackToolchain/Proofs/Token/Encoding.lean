import JackToolchain.Proofs.Token.Feeding
import JackToolchain.Proofs.Token.Layout
import JackToolchain.Proofs.Token.Reading
import Mathlib.Data.List.DropRight

/-!
# Lines that are not UTF-8

A lexer that reads lines holds the blanks at the end of a line back, the line feed among them,
until it has seen what follows. So the line on which it stops in front of a line that cannot be
delivered is not that line, but the last one above it that has more than blanks.
-/

namespace JackToolchain

open JackToolchain.Source JackToolchain.Token JackToolchain.Text

theorem Source.Position.line_advance (p : Position) (text : List Char) :
    (p.advance text).line = p.line + text.count '\n' := by
  induction text generalizing p with
  | nil => rfl
  | cons c text ih =>
      rw [Position.advance_cons, ih, List.count_cons]
      by_cases hc : c = '\n'
      · simp [Position.step, hc]
        omega
      · simp [Position.step, hc]

/-! ## Line feeds at the end of a text -/

namespace Text

variable {front back : List Char}

/-- A line feed of the text has only blanks behind it if it is one of the last blanks. -/
def Inner (text : List Char) : Prop :=
  (text.rdropWhile isAsciiBlank).count '\n' = text.count '\n'

theorem rdropWhile_append_of_blank (h : ∀ c ∈ back, isAsciiBlank c = true) :
    (front ++ back).rdropWhile isAsciiBlank = front.rdropWhile isAsciiBlank := by
  have hall : back.reverse.dropWhile isAsciiBlank = [] := by simpa using h
  rw [List.rdropWhile, List.reverse_append, List.dropWhile_append, hall]
  rfl

theorem rdropWhile_append_of_not_blank (h : ∃ c ∈ back, isAsciiBlank c = false) :
    (front ++ back).rdropWhile isAsciiBlank = front ++ back.rdropWhile isAsciiBlank := by
  have hsome : back.reverse.dropWhile isAsciiBlank ≠ [] := by simpa using h
  rw [List.rdropWhile, List.reverse_append, List.dropWhile_append, if_neg (by simpa using hsome)]
  simp [List.rdropWhile]

theorem inner_nil : Inner [] := rfl

theorem inner_of_notMem (h : '\n' ∉ back) : Inner back := by
  have hless := (List.rdropWhile_prefix isAsciiBlank back).sublist.count_le '\n'
  rw [List.count_eq_zero_of_not_mem h] at hless
  rw [Inner, List.count_eq_zero_of_not_mem h]
  omega

theorem inner_of_last {c : Char} (h : back.getLast? = some c) (hc : isAsciiBlank c = false) :
    Inner back := by
  obtain ⟨front, rfl⟩ := List.getLast?_eq_some_iff.mp h
  rw [Inner, List.rdropWhile_concat_neg _ _ _ (by simp [hc])]

theorem Inner.append (hblank : ∃ c ∈ back, isAsciiBlank c = false) (h : Inner back) :
    Inner (front ++ back) := by
  rw [Inner, rdropWhile_append_of_not_blank hblank, List.count_append, List.count_append, h]

end Text

/-! ## Lexemes and the ends of lines -/

namespace Token.Rule

variable {r : Rule} {text lexeme rest : List Char}

theorem blank_of_first (h : first text = some (.blank, .lexeme lexeme rest)) :
    (∀ c ∈ lexeme, isAsciiBlank c = true) ∧ ∀ c, rest.head? = some c → isAsciiBlank c = false := by
  obtain ⟨rfl, rfl⟩ := run_eq_lexeme (apply_of_firstOf h)
  refine ⟨fun c hc => List.mem_takeWhile_imp hc, fun c hc => ?_⟩
  have hhead := List.head?_dropWhile_not isAsciiBlank text
  rw [hc] at hhead
  exact hhead

theorem not_blank_of_first (h : first text = some (r, .lexeme lexeme rest)) (hr : r ≠ .blank) :
    ∃ c more, lexeme = c :: more ∧ isAsciiBlank c = false := by
  obtain ⟨rfl, hne⟩ := first_eq_append h
  obtain ⟨c, more, rfl⟩ := List.exists_cons_of_ne_nil hne
  refine ⟨c, more, rfl, ?_⟩
  by_contra hblank
  have happly : apply .blank (c :: more ++ rest) ≠ .declined := by
    rw [List.cons_append, apply, Ne, run_cons_declined]
    exact hblank
  rw [first, order, firstOf] at h
  split at h
  · exact happly (by assumption)
  · exact hr (Prod.mk.inj (Option.some.inj h)).1.symm

theorem lineFeed_notMem_run {p : Char → Bool} (hp : p '\n' = false)
    (h : run p text = .lexeme lexeme rest) : '\n' ∉ lexeme := by
  rw [(run_eq_lexeme h).1]
  intro hmem
  have htrue := List.mem_takeWhile_imp hmem
  simp [hp] at htrue

theorem lineFeed_notMem_word (h : word text = .lexeme lexeme rest) : '\n' ∉ lexeme := by
  unfold word at h
  split at h
  · split at h
    · exact lineFeed_notMem_run (by decide) h
    · cases h
  · cases h

theorem lineFeed_notMem_closeString (h : closeString text = .lexeme lexeme rest) :
    '\n' ∉ lexeme := by
  simp only [closeString] at h
  split at h
  · cases h
    intro hmem
    simp only [List.mem_cons, List.mem_append, List.not_mem_nil, or_false] at hmem
    rcases hmem with hquote | hinside | hquote
    · cases hquote
    · have htrue := List.mem_takeWhile_imp hinside
      simp at htrue
    · cases hquote
  · cases h
  · cases h

/-- No lexeme but a blank one ends in a line feed, and only in a block comment is there one. -/
theorem lineFeed_of_apply (h : r.apply text = .lexeme lexeme rest) (hr : r ≠ .blank) :
    '\n' ∉ lexeme ∨ lexeme.getLast? = some '/' := by
  cases r with
  | blank => exact absurd rfl hr
  | lineComment =>
      simp only [apply] at h
      split at h
      · exact .inl (lineFeed_notMem_run (by decide) h)
      · cases h
  | blockComment =>
      simp only [apply] at h
      split at h
      · obtain ⟨body, -, rfl, -⟩ := closeComment_eq_lexeme h
        refine .inr ?_
        rw [show ['*', '/'] = ['*'] ++ ['/'] from rfl, ← List.append_assoc]
        exact List.getLast?_concat
      · cases h
  | keyword =>
      simp only [apply] at h
      split at h
      · rename_i hword
        split at h
        · cases h
          exact .inl (lineFeed_notMem_word hword)
        · cases h
      · exact .inl (lineFeed_notMem_word h)
  | symbol =>
      simp only [apply] at h
      split at h
      · cases h
        exact .inl (by decide)
      · cases h
        exact .inl (by decide)
      · rename_i c more _ _
        split at h
        · rename_i hsymbol
          cases h
          refine .inl fun hmem => ?_
          rw [← List.mem_singleton.mp hmem] at hsymbol
          revert hsymbol
          decide
        · cases h
      · cases h
  | identifier => exact .inl (lineFeed_notMem_word h)
  | string =>
      simp only [apply] at h
      split at h
      · exact .inl (lineFeed_notMem_closeString h)
      · cases h
  | integer => exact .inl (lineFeed_notMem_run (by decide) h)

theorem inner_of_first (h : first text = some (r, .lexeme lexeme rest)) (hr : r ≠ .blank) :
    Inner lexeme := by
  rcases lineFeed_of_apply (apply_of_firstOf h) hr with hnone | hlast
  · exact inner_of_notMem hnone
  · exact inner_of_last hlast (by decide)

theorem last_of_first (h : first text = some (r, .lexeme lexeme rest)) (hr : r ≠ .blank) :
    lexeme.getLast? ≠ some '\n' := by
  intro hfeed
  rcases lineFeed_of_apply (apply_of_firstOf h) hr with hnone | hlast
  · exact hnone (List.mem_of_getLast? hfeed)
  · rw [hfeed] at hlast
    cases hlast

end Token.Rule

namespace Lexer

variable {lx next : Lexer} {source : List Char} {texts : List (List Char)} {later : List Chunk}

/-! ## In front of a line that cannot be delivered -/

/-- The text is empty or ends with a line. -/
def EndsLine (text : List Char) : Prop := text = [] ∨ text.getLast? = some '\n'

theorem EndsLine.append {front back : List Char} (hf : EndsLine front) (hb : EndsLine back) :
    EndsLine (front ++ back) := by
  rcases hb with rfl | hlast
  · rwa [List.append_nil]
  · exact .inr (by rw [List.getLast?_append, hlast, Option.some_or])

theorem EndsLine.of_append {front back : List Char} (h : EndsLine (front ++ back)) :
    EndsLine back := by
  by_cases hback : back = []
  · exact .inl hback
  · rcases h with hnil | hlast
    · exact .inl (List.append_eq_nil_iff.mp hnil).2
    · rw [List.getLast?_append, List.getLast?_eq_some_getLast hback, Option.some_or] at hlast
      exact .inr ((List.getLast?_eq_some_getLast hback).trans hlast)

/-- The lexer has consumed the front of a source. It pulls the lines of the rest, and then one that
cannot be delivered. Line feeds that it has consumed stand in front of something that is not
blank. -/
structure Before (source : List Char) (lx : Lexer) (texts : List (List Char))
    (later : List Chunk) : Prop where
  chunks : lx.chunks = some (texts.map .ok ++ .error .invalidEncoding :: later)
  finished : lx.finished = false
  ends : EndsLine lx.buffer ∧ ∀ text ∈ texts, EndsLine text
  consumed : ∃ front, source = front ++ lx.buffer ++ texts.flatten ∧
    lx.position.line = 1 + front.count '\n' ∧
      (Inner front ∨ ∃ c, lx.buffer.head? = some c ∧ isAsciiBlank c = false)

/-- A lexeme that is taken before the end of input does not reach the end of the text. -/
theorem exists_of_taken (hf : lx.finished = false) (h : lx.scan.taken? = some next) :
    ∃ rule lexeme, Rule.first lx.buffer = some (rule, .lexeme lexeme next.buffer) ∧
      next.buffer ≠ [] ∧ next.chunks = lx.chunks ∧ next.finished = lx.finished ∧
      next.position = lx.position.advance lexeme := by
  obtain ⟨rule, lexeme, rest, hfirst, hconsume⟩ := exists_of_scan rfl h
  have hrest : rest ≠ [] := by
    rintro rfl
    obtain ⟨happend, hne⟩ := Rule.first_eq_append hfirst
    have hempty : lx.buffer ≠ [] := by simpa [happend] using hne
    have hwaits : lx.scan = .needsInput := by simp [scan, hempty, hfirst, hf]
    rw [hwaits] at h
    cases h
  rw [← hconsume] at h
  simp only [consume] at h
  split at h
  · cases h
  · cases h
    exact ⟨rule, lexeme, hfirst, hrest, rfl, rfl, rfl⟩
  · split at h
    · cases h
    · cases h
      exact ⟨rule, lexeme, hfirst, hrest, rfl, rfl, rfl⟩

theorem Before.of_taken (h : Before source lx texts later) (htaken : lx.scan.taken? = some next) :
    Before source next texts later := by
  obtain ⟨rule, lexeme, hfirst, hrest, hchunks, hfinished, hposition⟩ :=
    exists_of_taken h.finished htaken
  obtain ⟨happend, -⟩ := Rule.first_eq_append hfirst
  obtain ⟨front, hsource, hline, hinner⟩ := h.consumed
  refine ⟨hchunks.trans h.chunks, hfinished.trans h.finished, ⟨?_, h.ends.2⟩,
    front ++ lexeme, ?_, ?_, ?_⟩
  · have hends := h.ends.1
    rw [happend] at hends
    exact hends.of_append
  · rw [hsource, happend]
    simp
  · rw [hposition, Position.line_advance, hline, List.count_append, Nat.add_assoc]
  · by_cases hr : rule = .blank
    · subst hr
      obtain ⟨c, more, hbuffer⟩ := List.exists_cons_of_ne_nil hrest
      refine .inr ⟨c, by rw [hbuffer]; rfl, ?_⟩
      exact (Rule.blank_of_first hfirst).2 c (by rw [hbuffer]; rfl)
    · obtain ⟨c, more, hlexeme, hc⟩ := Rule.not_blank_of_first hfirst hr
      refine .inl ((Rule.inner_of_first hfirst hr).append ⟨c, ?_, hc⟩)
      rw [hlexeme]
      exact List.mem_cons_self

theorem Before.pull {text : List Char} (h : Before source lx (text :: texts) later) :
    lx.pull = .more { lx with
      chunks := some (texts.map .ok ++ .error .invalidEncoding :: later)
      buffer := lx.buffer ++ text } ∧
    Before source { lx with
      chunks := some (texts.map .ok ++ .error .invalidEncoding :: later)
      buffer := lx.buffer ++ text } texts later := by
  obtain ⟨hends, hfront, htexts⟩ := h.ends.imp_right List.forall_mem_cons.mp
  obtain ⟨front, hsource, hline, hinner⟩ := h.consumed
  refine ⟨by rw [Lexer.pull, h.chunks]; rfl, rfl, h.finished, ⟨hends.append hfront, htexts⟩,
    front, ?_, hline, hinner.imp_right ?_⟩
  · rw [hsource]
    simp
  · rintro ⟨c, hhead, hc⟩
    exact ⟨c, by rw [List.head?_append, hhead]; rfl, hc⟩

/-- A lexeme that is held back at the end of a line is all that is left of it, and blank. -/
theorem Before.blank_of_held {rule : Rule} {lexeme rest : List Char}
    (h : Before source lx [] later) (hs : lx.scan = .needsInput) (hempty : lx.buffer ≠ [])
    (hfirst : Rule.first lx.buffer = some (rule, .lexeme lexeme rest)) :
    rule = .blank ∧ rest = [] ∧ lx.buffer = lexeme := by
  obtain ⟨happend, -⟩ := Rule.first_eq_append hfirst
  have hrest : rest = [] := by
    by_contra hrest
    have hscan : lx.scan = lx.consume rule lexeme rest := by
      simp [scan, hempty, hfirst, hrest]
    exact consume_ne_needsInput (hscan.symm.trans hs)
  subst hrest
  rw [List.append_nil] at happend
  refine ⟨?_, rfl, happend⟩
  by_contra hr
  have hlast := h.ends.1.resolve_left hempty
  rw [happend] at hlast
  exact Rule.last_of_first hfirst hr hlast

/-- Only blanks are held back when the next line cannot be delivered. -/
theorem Before.held (h : Before source lx [] later) (hs : lx.scan = .needsInput)
    (hquiet : ∀ e next, (lx.complete []).next ≠ (.error e, next)) :
    lx.position.line = 1 + (source.rdropWhile isAsciiBlank).count '\n' ∧
      ∃ next, (lx.complete []).next = (.ok none, next) := by
  obtain ⟨front, hsource, hline, hinner⟩ := h.consumed
  simp only [List.flatten_nil, List.append_nil] at hsource
  by_cases hempty : lx.buffer = []
  · have hfront : Inner front := hinner.resolve_right (by simp [hempty])
    rw [hempty, List.append_nil] at hsource
    subst hsource
    exact ⟨by rw [hline, hfront], _, next_of_ended (by simp [scan, complete, hempty])⟩
  · cases hfirst : Rule.first lx.buffer with
    | none => simp [scan, hempty, hfirst] at hs
    | some found =>
        obtain ⟨rule, outcome⟩ := found
        cases outcome with
        | declined => exact absurd hfirst Rule.first_ne_declined
        | unfinished =>
            have hfailed : (lx.complete []).scan =
                .failed (Rule.unmatched lx.buffer lx.position) (lx.complete []) := by
              simp [scan, complete, hempty, hfirst]
            exact absurd (next_of_failed hfailed) (hquiet _ _)
        | lexeme lexeme rest =>
            obtain ⟨rfl, rfl, happend⟩ := h.blank_of_held hs hempty hfirst
            obtain ⟨hblanks, -⟩ := Rule.blank_of_first hfirst
            have hfront : Inner front := by
              refine hinner.resolve_right ?_
              rintro ⟨c, hhead, hc⟩
              have hmem : c ∈ lexeme := by
                rw [← happend]
                exact List.mem_of_head? hhead
              simp [hblanks c hmem] at hc
            have hskipped : (lx.complete []).scan = (lx.complete []).consume .blank lexeme [] :=
              scan_complete_of_first (by rw [List.append_nil, hfirst])
            refine ⟨?_, _, (next_of_skipped hskipped).trans (next_of_ended rfl)⟩
            rw [hline, hsource, happend, rdropWhile_append_of_blank hblanks, hfront]

/-- What a lexer delivers before such a line, and what the lines above it have. -/
inductive Reached (source : List Char) (later : List Chunk) :
    Except LexError (Option Token) × Lexer → Except LexError (Option Token) × Lexer → Prop
  | token {t : Token} {next : Lexer} {texts : List (List Char)}
      (h : Before source next texts later) :
      Reached source later (.ok (some t), next) (.ok (some t), next.complete texts.flatten)
  | failed {next last : Lexer} :
      Reached source later
        (.error (.invalidEncoding (1 + (source.rdropWhile isAsciiBlank).count '\n')), next)
        (.ok none, last)

theorem Before.reached (h : Before source lx texts later)
    (hquiet : ∀ e next, (lx.complete texts.flatten).next ≠ (.error e, next)) :
    Reached source later lx.next (lx.complete texts.flatten).next := by
  have hscan {lx : Lexer} {texts} (h : Before source lx texts later) :
      SameScan lx texts.flatten lx.scan (lx.complete texts.flatten).scan :=
    scan_complete fun hf => by simp [h.finished] at hf
  induction lx using Lexer.next.induct generalizing texts with
  | case1 lx t after hs =>
      have hs' := hscan h
      rw [hs] at hs'
      rw [next_of_token hs, next_of_token hs'.eq_token]
      exact .token (h.of_taken (by rw [hs]; rfl))
  | case2 lx e after hs =>
      have hs' := hscan h
      rw [hs] at hs'
      obtain ⟨e', hs', -, -⟩ := hs'.eq_failed
      exact absurd (next_of_failed hs') (hquiet _ _)
  | case3 lx hs => exact absurd (finished_of_ended hs) (by simp [h.finished])
  | case4 lx after hs _ ih =>
      have hs' := hscan h
      rw [hs] at hs'
      rw [next_of_skipped hs'.eq_skipped] at hquiet
      rw [next_of_skipped hs, next_of_skipped hs'.eq_skipped]
      exact ih (h.of_taken (by rw [hs]; rfl)) hquiet
  | case5 lx hs hp =>
      cases texts with
      | nil => simp [Lexer.pull, h.chunks] at hp
      | cons text texts => simp [h.pull.1] at hp
  | case6 lx hs e after hp =>
      cases texts with
      | nil =>
          obtain ⟨hline, last, hlast⟩ := h.held hs hquiet
          have hfailed : lx.pull =
              .failed (.invalidEncoding lx.position.line) { lx with chunks := none } := by
            simp [Lexer.pull, h.chunks]
          rw [next_of_undelivered hs hfailed, List.flatten_nil, hlast, hline]
          exact .failed
      | cons text texts => simp [h.pull.1] at hp
  | case7 lx hs after hp _ ih =>
      cases texts with
      | nil => simp [Lexer.pull, h.chunks] at hp
      | cons text texts =>
          obtain ⟨hpull, hbefore⟩ := h.pull
          obtain rfl := Pull.more.inj (hpull.symm.trans hp)
          rw [next_of_more hs hp]
          have hreached := ih hbefore
          simp only [complete, List.append_assoc] at hreached
          simp only [complete, List.flatten_cons] at hquiet ⊢
          exact hreached hquiet

theorem Before.drain (h : Before source lx texts later)
    (hquiet : (lx.complete texts.flatten).drain.2.1 = none) :
    lx.drain.1 = (lx.complete texts.flatten).drain.1 ∧
      lx.drain.2.1 =
        some (.invalidEncoding (1 + (source.rdropWhile isAsciiBlank).count '\n')) := by
  induction hn : lx.room using Nat.strong_induction_on generalizing lx texts with
  | _ n ih =>
      have hreached := h.reached fun e next hnext => by
        rw [drain_of_error hnext] at hquiet
        cases hquiet
      generalize hr : lx.next = r at hreached
      generalize hr' : (lx.complete texts.flatten).next = r' at hreached
      cases hreached with
      | token hnext =>
          rw [drain_of_token hr'] at hquiet
          obtain ⟨htokens, herror⟩ := ih _ (hn ▸ room_of_next hr) hnext hquiet rfl
          rw [drain_of_token hr, drain_of_token hr']
          exact ⟨congrArg (List.cons _) htokens, herror⟩
      | failed =>
          rw [drain_of_error hr, drain_of_none hr']
          exact ⟨rfl, rfl⟩

/-! ## Lines of bytes -/

/-- A text that is one line, its line feed included. -/
def OneLine (text : List Char) : Prop := ∃ line, text = line ++ ['\n'] ∧ '\n' ∉ line

theorem OneLine.endsLine {text : List Char} (h : OneLine text) : EndsLine text := by
  obtain ⟨line, rfl, -⟩ := h
  exact .inr List.getLast?_concat

/-- Every part but the last one ends where it may and nowhere else. -/
theorem breakAfter_front {α : Type} {p : α → Bool} {text : List α} {front back : List (List α)}
    (h : breakAfter p text = front ++ back) (hback : back ≠ []) :
    ∀ part ∈ front, ∃ line a, part = line ++ [a] ∧ p a = true ∧ ∀ b ∈ line, p b = false := by
  induction text generalizing front with
  | nil => simp_all
  | cons a rest ih =>
      cases front with
      | nil => simp
      | cons part front =>
          rw [breakAfter] at h
          split at h
          · rename_i ha
            obtain ⟨rfl, hrest⟩ := List.cons.inj h
            exact List.forall_mem_cons.mpr ⟨⟨[], a, rfl, ha, by simp⟩, ih hrest⟩
          · rename_i ha
            split at h
            · exact absurd (List.append_eq_nil_iff.mp (List.cons.inj h).2.symm).2 hback
            · rename_i part' parts hparts
              obtain ⟨rfl, rfl⟩ := List.cons.inj h
              have hends := ih (show breakAfter p rest = part' :: front ++ back from hparts)
              obtain ⟨⟨line, b, rfl, hb, hline⟩, hfront⟩ := List.forall_mem_cons.mp hends
              refine List.forall_mem_cons.mpr ⟨⟨a :: line, b, rfl, hb, ?_⟩, hfront⟩
              exact List.forall_mem_cons.mpr ⟨by simpa using ha, hline⟩

theorem encode_of_chunkOfBytes {bytes : List UInt8} {text : List Char}
    (h : chunkOfBytes bytes = .ok text) : bytes = encode text := by
  unfold chunkOfBytes at h
  split at h
  · rename_i found hfound
    cases h
    rw [String.fromUTF8?] at hfound
    split at hfound
    · cases hfound
      rw [← data_toUTF8, String.toUTF8_eq_toByteArray]
      rfl
    · cases hfound
  · cases h

/-- The last byte of a line is its line feed. -/
theorem oneLine_of_encode {text : List Char} {line : List UInt8} (h : encode text = line ++ [10])
    (hline : ∀ b ∈ line, (b == 10) = false) : OneLine text := by
  obtain rfl | ⟨front, c, rfl⟩ := List.eq_nil_or_concat' text
  · simp [encode] at h
  · rw [encode, List.flatMap_append, List.flatMap_singleton] at h
    by_cases hc : c = '\n'
    · subst hc
      rw [encode_lineFeed] at h
      obtain ⟨rfl, -⟩ := List.append_inj' h rfl
      refine ⟨front, rfl, fun hmem => ?_⟩
      have hfeed : (10 : UInt8) ∈ front.flatMap String.utf8EncodeChar :=
        List.mem_flatMap.mpr ⟨'\n', hmem, by rw [encode_lineFeed]; exact List.mem_singleton_self _⟩
      simpa using hline 10 hfeed
    · have hne : String.utf8EncodeChar c ≠ [] := by
        rw [← List.length_pos_iff, String.length_utf8EncodeChar]
        exact c.utf8Size_pos
      have hlast := congrArg List.getLast? h
      rw [List.getLast?_append, List.getLast?_eq_some_getLast hne, Option.some_or,
        List.getLast?_concat] at hlast
      have hfalse := lineFeed_notMem_encode hc _ (List.getLast_mem hne)
      simp [Option.some.inj hlast] at hfalse

theorem count_flatten (h : ∀ text ∈ texts, OneLine text) :
    texts.flatten.count '\n' = texts.length := by
  induction texts with
  | nil => rfl
  | cons text texts ih =>
      obtain ⟨⟨line, rfl, hline⟩, hrest⟩ := List.forall_mem_cons.mp h
      rw [List.flatten_cons, List.count_append, List.count_append, ih hrest,
        List.count_eq_zero_of_not_mem hline, List.length_cons]
      simp
      omega

/-- The line on which the text ends that is in front of the blanks at the end of some lines. -/
theorem count_rdropWhile_flatten (h : ∀ text ∈ texts, OneLine text) :
    1 + (texts.flatten.rdropWhile isAsciiBlank).count '\n' =
      max 1 (texts.rdropWhile (·.all isAsciiBlank)).length := by
  induction texts using List.reverseRecOn with
  | nil => rfl
  | append_singleton texts text ih =>
      obtain ⟨htexts, htext⟩ := List.forall_mem_append.mp h
      rw [List.flatten_append, List.flatten_singleton]
      by_cases hblank : text.all isAsciiBlank = true
      · rw [rdropWhile_append_of_blank (by simpa using hblank),
          List.rdropWhile_concat_pos (·.all isAsciiBlank) texts text hblank]
        exact ih htexts
      · obtain ⟨line, rfl, hline⟩ := htext text (List.mem_singleton_self text)
        have hfeeds : ((line ++ ['\n']).rdropWhile isAsciiBlank).count '\n' = 0 := by
          rw [List.rdropWhile_concat_pos isAsciiBlank line '\n' (by decide)]
          exact List.count_eq_zero_of_not_mem fun hmem =>
            hline ((List.rdropWhile_prefix isAsciiBlank line).subset hmem)
        have hsome : ∃ c ∈ line ++ ['\n'], isAsciiBlank c = false := by
          rw [List.all_eq_true] at hblank
          push Not at hblank
          simpa using hblank
        rw [rdropWhile_append_of_not_blank hsome,
          List.rdropWhile_concat_neg (·.all isAsciiBlank) texts _ hblank, List.count_append,
          count_flatten htexts, hfeeds, List.length_append, List.length_singleton]
        omega

/-- What is read in front of a line that cannot be delivered are lines. -/
theorem oneLine_of_chunks {bytes : List UInt8}
    (h : (byteLines bytes).map chunkOfBytes = texts.map .ok ++ .error .invalidEncoding :: later) :
    ∀ text ∈ texts, OneLine text := by
  rw [byteLines_eq, List.map_eq_append_iff] at h
  obtain ⟨front, back, hlines, hfront, hback⟩ := h
  have hends := breakAfter_front hlines (by rintro rfl; cases hback)
  intro text htext
  have hchunk : Except.ok text ∈ front.map chunkOfBytes := hfront ▸ List.mem_map_of_mem htext
  obtain ⟨bytes, hbytes, hok⟩ := List.mem_map.mp hchunk
  obtain ⟨line, b, rfl, hb, hline⟩ := hends bytes hbytes
  obtain rfl : b = 10 := by simpa using hb
  exact oneLine_of_encode (encode_of_chunkOfBytes hok).symm hline

/-- Bytes whose first lines are UTF-8 and have no error, and whose next line is not UTF-8, give the
tokens of the first lines and then the error. It names the last of these lines that has more than
blanks, or line 1: never the line itself, unless that is line 1. -/
theorem drain_of_invalid_line {bytes : ByteArray} {detailed : Bool}
    (hlines : (byteLines bytes.data.toList).map chunkOfBytes =
      texts.map .ok ++ .error .invalidEncoding :: later)
    (hquiet : (ofText texts.flatten detailed).drain.2.1 = none) :
    let read := (ofBytes bytes detailed).drain
    read.1 = (ofText texts.flatten detailed).drain.1 ∧
      read.2.1 = some (.invalidEncoding
        (max 1 (texts.rdropWhile (·.all isAsciiBlank)).length)) ∧
      (read.2.1 = some (.invalidEncoding (texts.length + 1)) ↔ texts = []) := by
  have honeLine := oneLine_of_chunks hlines
  have hbefore : Before texts.flatten (ofBytes bytes detailed) texts later := by
    refine ⟨congrArg some hlines, rfl, ⟨.inl rfl, fun text ht => (honeLine text ht).endsLine⟩,
      [], rfl, rfl, .inl inner_nil⟩
  obtain ⟨htokens, herror⟩ := hbefore.drain hquiet
  rw [count_rdropWhile_flatten honeLine] at herror
  refine ⟨htokens, herror, ?_⟩
  have hless := (List.rdropWhile_prefix (·.all isAsciiBlank) texts).length_le
  rw [herror, Option.some.injEq, LexError.invalidEncoding.injEq, ← List.length_eq_zero_iff]
  omega

/-- A word on line 1 and a byte that is no UTF-8 on line 2: the error names line 1. -/
theorem drain_of_invalid_second_line :
    let bytes : ByteArray := ⟨#[0x78, 0x0A, 0xFF, 0x0A]⟩
    (byteLines bytes.data.toList).map chunkOfBytes = [.ok ['x', '\n'], .error .invalidEncoding] ∧
      (ofText ['x', '\n']).drain.2.1 = none ∧
      (ofBytes bytes).drain.2.1 = some (.invalidEncoding 1) := by
  have hlines : (byteLines [0x78, 0x0A, 0xFF, 0x0A]).map chunkOfBytes =
      [['x', '\n']].map .ok ++ .error .invalidEncoding :: [] := by
    have hinvalid : chunkOfBytes [0xFF, 0x0A] = .error .invalidEncoding := by
      rw [chunkOfBytes, String.fromUTF8?, dif_neg (by decide)]
    change [chunkOfBytes (encode ['x', '\n']), chunkOfBytes [0xFF, 0x0A]] = _
    rw [chunkOfBytes_encode, hinvalid]
    rfl
  have hword : (ofText ['x', '\n']).next =
      (.ok (some ⟨.identifier "x", "x", ⟨.origin, ⟨1, 1, 2⟩⟩⟩),
        { buffer := ['\n'], position := ⟨1, 1, 2⟩, finished := true,
          metrics := { total := 1, identifiers := 1, maxIdentifier := 1 } }) :=
    next_of_token rfl
  have hquiet : (ofText [['x', '\n']].flatten).drain.2.1 = none := by
    change (ofText ['x', '\n']).drain.2.1 = none
    rw [drain_of_token hword,
      drain_of_none ((next_of_skipped rfl).trans (next_of_ended rfl))]
  exact ⟨hlines, hquiet, (drain_of_invalid_line hlines hquiet).2.1⟩

end Lexer

end JackToolchain
