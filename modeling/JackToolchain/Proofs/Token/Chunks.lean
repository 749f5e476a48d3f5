import JackToolchain.Proofs.Token.Stability
import JackToolchain.Token.Lexer

/-!
# Chunks of a text

A lexer that gets its text in chunks delivers what a lexer over the whole text delivers. The view
that carries the argument is the lexer after all its text and the end of input have arrived: a step
of the lexer that does not wait for input is the same step of that view.
-/

namespace JackToolchain

open JackToolchain.Source JackToolchain.Token JackToolchain.Text

namespace LexError

/-- The first error is the second one, met before the whole text had arrived. -/
def CutOf (e e' : LexError) : Prop :=
  e = e' ∨ ∃ shown more line column,
    e = .unrecognized shown line column ∧ e' = .unrecognized (shown ++ more) line column

theorem CutOf.refl (e : LexError) : e.CutOf e := .inl rfl

end LexError

namespace Token.Rule

theorem take_takeWhile_append {p : Char → Bool} (n : Nat) (a b : List Char) :
    ∃ more, ((a ++ b).take n).takeWhile p = (a.take n).takeWhile p ++ more := by
  rw [List.take_append, List.takeWhile_append]
  split
  · next hlen =>
      have hself : (a.take n).takeWhile p = a.take n :=
        List.IsPrefix.eq_of_length (List.takeWhile_prefix p) hlen
      exact ⟨_, by rw [hself]⟩
  · exact ⟨[], by simp⟩

theorem take_takeWhile_append_of_mem {p : Char → Bool} (n : Nat) {a : List Char} (b : List Char)
    (h : ∃ c ∈ a, p c = false) :
    ((a ++ b).take n).takeWhile p = (a.take n).takeWhile p := by
  obtain ⟨c, hc, hp⟩ := h
  rw [List.take_append, List.takeWhile_append]
  split
  · next hlen =>
      have hself : (a.take n).takeWhile p = a.take n :=
        List.IsPrefix.eq_of_length (List.takeWhile_prefix p) hlen
      by_cases hn : a.length ≤ n
      · rw [List.take_of_length_le hn] at hself
        simp [List.takeWhile_eq_self_iff.1 hself c hc] at hp
      · rw [Nat.sub_eq_zero_of_le (by omega), List.take_zero, List.takeWhile_nil, List.append_nil,
          hself]
  · rfl

/-- What a message shows of a text that no rule takes. -/
def shown (text : List Char) : String :=
  String.ofList ((text.take 16).takeWhile fun c => !isBlank c)

/-- Which error a settled text gives does not depend on what follows it. -/
theorem unmatched_append_cases {a : List Char} (ha : Settled a) (p : Position) :
    (∀ b, unmatched (a ++ b) p = unmatched a p) ∨
      ∀ b, unmatched (a ++ b) p = .unrecognized (shown (a ++ b)) p.line p.column := by
  obtain ⟨c, t, rfl⟩ := List.exists_cons_of_ne_nil ha.ne_nil
  by_cases hquote : c = '"'
  · subst hquote
    exact .inl fun _ => rfl
  cases t with
  | nil =>
      have hslash : c ≠ '/' := fun hc => ha.ne_slash (hc ▸ rfl)
      exact .inr fun b => by simp [unmatched, shown, hquote, hslash]
  | cons d t =>
      by_cases hopen : c = '/' ∧ d = '*'
      · obtain ⟨rfl, rfl⟩ := hopen
        exact .inl fun _ => rfl
      · exact .inr fun b => by simp_all [unmatched, shown]

theorem unmatched_cutOf {a : List Char} (ha : Settled a) (b : List Char) (p : Position) :
    (unmatched a p).CutOf (unmatched (a ++ b) p) := by
  rcases unmatched_append_cases ha p with h | h
  · rw [h b]
    exact .refl _
  · obtain ⟨more, hmore⟩ := take_takeWhile_append (p := fun c => !isBlank c) 16 a b
    refine .inr ⟨shown a, String.ofList more, p.line, p.column, by simpa using h [], ?_⟩
    rw [h b, shown, hmore, String.ofList_append, shown]

/-- The blank that ends the shown text is already there. -/
theorem unmatched_append_of_blank {a : List Char} (ha : Settled a) (b : List Char) (p : Position)
    (hblank : ∃ c ∈ a, isBlank c = true) : unmatched (a ++ b) p = unmatched a p := by
  rcases unmatched_append_cases ha p with h | h
  · exact h b
  · have hself := h []
    rw [List.append_nil] at hself
    rw [h b, hself, shown, take_takeWhile_append_of_mem 16 b (by simpa using hblank), shown]

end Token.Rule

namespace Lexer

variable {lx next : Lexer} {text : List Char}

/-- The lexer when some more text and then the end of input have arrived. -/
def complete (lx : Lexer) (text : List Char) : Lexer :=
  { lx with chunks := none, buffer := lx.buffer ++ text, finished := true }

@[simp] theorem complete_position : (lx.complete text).position = lx.position := rfl

@[simp] theorem complete_metrics : (lx.complete text).metrics = lx.metrics := rfl

@[simp] theorem complete_detailed : (lx.complete text).detailed = lx.detailed := rfl

@[simp] theorem complete_room : (lx.complete text).room = lx.room := rfl

/-- What happens at the front of the text at hand is what happens at the front of the whole. -/
inductive SameScan (lx : Lexer) (text : List Char) : Scan → Scan → Prop
  | token (t : Token) (next : Lexer) :
      SameScan lx text (.token t next) (.token t (next.complete text))
  | skipped (next : Lexer) : SameScan lx text (.skipped next) (.skipped (next.complete text))
  | ended : SameScan lx text .ended .ended
  | failed {e e' : LexError} (next : Lexer) (he : e.CutOf e')
      (hblank : (text = [] ∨ ∃ c ∈ lx.buffer, isBlank c = true) → e = e') :
      SameScan lx text (.failed e next) (.failed e' (next.complete text))
  | needsInput (s : Scan) : SameScan lx text .needsInput s

namespace SameScan

variable {s : Scan}

theorem eq_token {t : Token} (h : SameScan lx text (.token t next) s) :
    s = .token t (next.complete text) := by
  cases h
  rfl

theorem eq_skipped (h : SameScan lx text (.skipped next) s) : s = .skipped (next.complete text) := by
  cases h
  rfl

theorem eq_failed {e : LexError} (h : SameScan lx text (.failed e next) s) :
    ∃ e', s = .failed e' (next.complete text) ∧ e.CutOf e' ∧
      ((text = [] ∨ ∃ c ∈ lx.buffer, isBlank c = true) → e = e') := by
  cases h with
  | failed _ he hblank => exact ⟨_, rfl, he, hblank⟩

end SameScan

theorem consume_complete (rule : Rule) (lexeme rest : List Char) :
    SameScan lx text (lx.consume rule lexeme rest)
      ((lx.complete text).consume rule lexeme (rest ++ text)) := by
  cases hv : rule.value? lexeme lx.position with
  | error e =>
      simp only [consume, complete_position, hv]
      exact .failed _ (.refl _) fun _ => rfl
  | ok kind? =>
      cases kind? with
      | none =>
          simp only [consume, complete_position, complete_metrics, hv]
          exact .skipped _
      | some kind =>
          by_cases hroom : (lx.metrics.count lx.detailed kind).total > Limits.maxTokenCount
          · simp only [consume, complete_position, complete_metrics, complete_detailed, hv, hroom,
              if_true]
            exact .failed _ (.refl _) fun _ => rfl
          · simp only [consume, complete_position, complete_metrics, complete_detailed, hv, hroom,
              if_false]
            exact .token _ _

theorem scan_complete_of_first {rule : Rule} {lexeme rest : List Char}
    (h : Rule.first (lx.buffer ++ text) = some (rule, .lexeme lexeme rest)) :
    (lx.complete text).scan = (lx.complete text).consume rule lexeme rest := by
  have hne : lx.buffer ++ text ≠ [] := by
    intro hnil
    obtain ⟨happend, hlexeme⟩ := Rule.first_eq_append h
    rw [hnil] at happend
    exact hlexeme (List.append_eq_nil_iff.1 happend.symm).1
  simp only [scan, complete]
  rw [if_neg (by simpa using hne), h]
  simp

theorem scan_complete_of_none (hne : lx.buffer ≠ [])
    (h : Rule.first (lx.buffer ++ text) = none) :
    (lx.complete text).scan =
      .failed (Rule.unmatched (lx.buffer ++ text) lx.position) (lx.complete text) := by
  simp only [scan, complete]
  rw [if_neg (by simp [hne]), h]

theorem scan_complete (hf : lx.finished = true → text = []) :
    SameScan lx text lx.scan (lx.complete text).scan := by
  by_cases hne : lx.buffer = []
  · by_cases hfin : lx.finished = true
    · have hended : lx.scan = .ended := by simp [scan, hne, hfin]
      have hended' : (lx.complete text).scan = .ended := by simp [scan, complete, hne, hf hfin]
      rw [hended, hended']
      exact .ended
    · have hwaits : lx.scan = .needsInput := by simp [scan, hne, hfin]
      rw [hwaits]
      exact .needsInput _
  · simp only [scan]
    rw [if_neg (by simpa using hne)]
    split
    · next rule lexeme rest hfirst =>
        split
        · exact .needsInput _
        · next hends =>
            have hfirst' : Rule.first (lx.buffer ++ text) =
                some (rule, .lexeme lexeme (rest ++ text)) := by
              by_cases hfin : lx.finished = true
              · rw [hf hfin, List.append_nil, List.append_nil, hfirst]
              · exact Rule.first_append hfirst (by simpa [hfin] using hends)
            have hscan := scan_complete_of_first hfirst'
            simp only [scan] at hscan
            rw [hscan]
            exact consume_complete rule lexeme rest
    · next rule hfirst =>
        split
        · next hfin =>
            obtain rfl := hf hfin
            have hscan : (lx.complete []).scan =
                .failed (Rule.unmatched lx.buffer lx.position) (lx.complete []) := by
              simp [scan, complete, hne, hfirst]
            simp only [scan] at hscan
            rw [hscan]
            exact .failed _ (.refl _) fun _ => rfl
        · exact .needsInput _
    · next hlexeme hunfinished =>
        have hnone : Rule.first lx.buffer = none := by
          cases hfirst : Rule.first lx.buffer with
          | none => rfl
          | some verdict =>
              obtain ⟨rule, _ | ⟨lexeme, rest⟩ | _⟩ := verdict
              · exact (Rule.first_ne_declined hfirst).elim
              · exact (hlexeme _ _ _ hfirst).elim
              · exact (hunfinished _ hfirst).elim
        have hs := Rule.settled_of_none hne hnone
        have hscan := scan_complete_of_none hne (Rule.first_append_none (b := text) hne hnone)
        simp only [scan] at hscan
        rw [hscan]
        refine .failed _ (Rule.unmatched_cutOf hs text _) ?_
        rintro (rfl | hblank)
        · rw [List.append_nil]
        · exact (Rule.unmatched_append_of_blank hs text _ hblank).symm

/-! ## The next token -/

theorem next_of_token {t : Token} (h : lx.scan = .token t next) :
    lx.next = (.ok (some t), next) := by
  rw [Lexer.next]
  split <;> simp_all

theorem next_of_failed {e : LexError} (h : lx.scan = .failed e next) :
    lx.next = (.error e, next) := by
  rw [Lexer.next]
  split <;> simp_all

theorem next_of_ended (h : lx.scan = .ended) : lx.next = (.ok none, lx) := by
  rw [Lexer.next]
  split <;> simp_all

theorem next_of_skipped (h : lx.scan = .skipped next) : lx.next = next.next := by
  rw [Lexer.next]
  split <;> simp_all

theorem next_of_dry (h : lx.scan = .needsInput) (hp : lx.pull = .dry) :
    lx.next = (.ok none, lx) := by
  rw [Lexer.next]
  split <;> simp_all
  split <;> simp_all

theorem next_of_more (h : lx.scan = .needsInput) (hp : lx.pull = .more next) :
    lx.next = next.next := by
  rw [Lexer.next]
  split <;> simp_all
  split <;> simp_all

theorem next_of_undelivered {e : LexError} (h : lx.scan = .needsInput)
    (hp : lx.pull = .failed e next) : lx.next = (.error e, next) := by
  rw [Lexer.next]
  split <;> simp_all
  split <;> simp_all

/-- A lexer after a lexeme was taken off its text. -/
structure Consumed (lx next : Lexer) : Prop where
  chunks : next.chunks = lx.chunks
  finished : next.finished = lx.finished
  buffer : ∃ lexeme, lx.buffer = lexeme ++ next.buffer

/-- The lexer after a lexeme, if one was taken. -/
def Scan.taken? : Scan → Option Lexer
  | .token _ next | .skipped next => some next
  | _ => none

theorem consumed_of_consume {rule : Rule} {lexeme rest : List Char}
    (hb : lx.buffer = lexeme ++ rest) (h : (lx.consume rule lexeme rest).taken? = some next) :
    Consumed lx next := by
  simp only [consume] at h
  split at h
  · simp [Scan.taken?] at h
  · cases h
    exact ⟨rfl, rfl, lexeme, hb⟩
  · split at h
    · simp [Scan.taken?] at h
    · cases h
      exact ⟨rfl, rfl, lexeme, hb⟩

theorem consumed_of_scan (h : lx.scan.taken? = some next) : Consumed lx next := by
  unfold scan at h
  split at h
  · split at h <;> simp [Scan.taken?] at h
  · split at h
    · next hfirst =>
        split at h
        · simp [Scan.taken?] at h
        · exact consumed_of_consume (Rule.first_eq_append hfirst).1 h
    · split at h <;> simp [Scan.taken?] at h
    · simp [Scan.taken?] at h

/-- The texts that a lexer still pulls. -/
inductive Awaits : Lexer → List (List Char) → Prop
  | pulling {lx : Lexer} {texts : List (List Char)} (hc : lx.chunks = some (texts.map .ok))
      (hf : lx.finished = false) : Awaits lx texts
  | ended {lx : Lexer} (hc : lx.chunks = none) (hf : lx.finished = true) : Awaits lx []

/-- Each text ends with a line when the next one arrives. -/
def Lined : List Char → List (List Char) → Prop
  | _, [] => True
  | front, text :: texts =>
      (front = [] ∨ front.getLast? = some '\n') ∧ Lined (front ++ text) texts

theorem Lined.of_append {front back : List Char} {texts : List (List Char)}
    (h : Lined (front ++ back) texts) : Lined back texts := by
  induction texts generalizing back with
  | nil => exact trivial
  | cons text texts ih =>
      obtain ⟨hends, hrest⟩ := h
      refine ⟨?_, ih (by simpa using hrest)⟩
      by_cases hback : back = []
      · exact .inl hback
      · refine .inr ?_
        have hlast := hends.resolve_left (by simp [hback])
        rwa [List.getLast?_append, List.getLast?_eq_some_getLast hback, Option.some_or,
          ← List.getLast?_eq_some_getLast hback] at hlast

theorem Lined.blank {front : List Char} {texts : List (List Char)} (h : Lined front texts)
    (hne : front ≠ []) : texts.flatten = [] ∨ ∃ c ∈ front, isBlank c = true := by
  cases texts with
  | nil => exact .inl rfl
  | cons text texts =>
      have hlast := h.1.resolve_left hne
      exact .inr ⟨'\n', List.mem_of_getLast? hlast, by decide⟩

theorem Awaits.complete_nil (h : lx.Awaits []) (hf : lx.finished = true) : lx.complete [] = lx := by
  cases h with
  | pulling _ hf' => simp [hf] at hf'
  | ended hc _ =>
      cases lx
      simp_all [complete]

/-- The same answer, from a lexer that waits for more text and from one that has it all. -/
inductive SameNext (lined : Prop) :
    Except LexError (Option Token) × Lexer → Except LexError (Option Token) × Lexer → Prop
  | token {t : Token} {next : Lexer} {texts : List (List Char)} (h : next.Awaits texts)
      (hl : lined → Lined next.buffer texts) :
      SameNext lined (.ok (some t), next) (.ok (some t), next.complete texts.flatten)
  | ended {next : Lexer} (h : next.Awaits []) : SameNext lined (.ok none, next) (.ok none, next)
  | failed {e e' : LexError} {next : Lexer} {text : List Char} (he : e.CutOf e')
      (hl : lined → e = e') : SameNext lined (.error e, next) (.error e', next.complete text)

theorem SameNext.imp {p q : Prop} (hpq : q → p)
    {r r' : Except LexError (Option Token) × Lexer} (h : SameNext p r r') : SameNext q r r' := by
  cases h with
  | token h hl => exact .token h (hl ∘ hpq)
  | ended h => exact .ended h
  | failed he hl => exact .failed he (hl ∘ hpq)

theorem Awaits.of_consumed {texts : List (List Char)} (h : lx.Awaits texts)
    (hc : Consumed lx next) : next.Awaits texts := by
  cases h with
  | pulling hchunks hf => exact .pulling (hc.chunks.trans hchunks) (hc.finished.trans hf)
  | ended hchunks hf => exact .ended (hc.chunks.trans hchunks) (hc.finished.trans hf)

theorem Awaits.finished {texts : List (List Char)} (h : lx.Awaits texts)
    (hf : lx.finished = true) : texts = [] := by
  cases h with
  | pulling _ hf' => simp [hf] at hf'
  | ended _ _ => rfl

theorem Awaits.scan {texts : List (List Char)} (h : lx.Awaits texts) :
    SameScan lx texts.flatten lx.scan (lx.complete texts.flatten).scan :=
  scan_complete fun hf => by simp [h.finished hf]

theorem Lined.of_consumed {texts : List (List Char)} (h : Lined lx.buffer texts)
    (hc : Consumed lx next) : Lined next.buffer texts := by
  obtain ⟨lexeme, hb⟩ := hc.buffer
  rw [hb] at h
  exact h.of_append

theorem Awaits.pull {texts : List (List Char)} (h : lx.Awaits texts) (hf : lx.finished = false) :
    (texts = [] ∧ lx.pull = .more (lx.complete [])) ∨
      ∃ text rest, texts = text :: rest ∧
        lx.pull = .more
          { lx with chunks := some (rest.map .ok), buffer := lx.buffer ++ text } := by
  cases h with
  | ended _ hf' => simp [hf] at hf'
  | pulling hc _ =>
      cases texts with
      | nil => exact .inl ⟨rfl, by simp [Lexer.pull, hc, complete]⟩
      | cons text rest => exact .inr ⟨text, rest, rfl, by simp [Lexer.pull, hc]⟩

theorem consume_ne_needsInput {rule : Rule} {lexeme rest : List Char} :
    lx.consume rule lexeme rest ≠ .needsInput := by
  simp only [consume]
  split
  · simp
  · simp
  · split <;> simp

theorem finished_of_needsInput (hs : lx.scan = .needsInput) : lx.finished = false := by
  by_contra hf
  simp only [Bool.not_eq_false] at hf
  unfold scan at hs
  split at hs
  · simp at hs
  · split at hs
    · simp only [hf, Bool.not_true, Bool.and_false, Bool.false_eq_true, if_false] at hs
      exact consume_ne_needsInput hs
    · simp at hs
    · simp at hs

theorem consume_ne_ended {rule : Rule} {lexeme rest : List Char} :
    lx.consume rule lexeme rest ≠ .ended := by
  simp only [consume]
  split
  · simp
  · simp
  · split <;> simp

theorem finished_of_ended (hs : lx.scan = .ended) : lx.finished = true := by
  unfold scan at hs
  split at hs
  · split at hs
    · assumption
    · simp at hs
  · split at hs
    · split at hs
      · simp at hs
      · exact (consume_ne_ended hs).elim
    · split at hs <;> simp at hs
    · simp at hs

theorem buffer_ne_nil_of_failed {e : LexError} (hs : lx.scan = .failed e next) :
    lx.buffer ≠ [] := by
  intro hnil
  simp only [scan, hnil, List.isEmpty_nil, if_true] at hs
  split at hs <;> simp at hs

theorem next_complete {texts : List (List Char)} (h : lx.Awaits texts) :
    SameNext (Lined lx.buffer texts) lx.next (lx.complete texts.flatten).next := by
  induction lx using Lexer.next.induct generalizing texts with
  | case1 lx t after hs =>
      have hs' := h.scan
      rw [hs] at hs'
      have hc : Consumed lx after := consumed_of_scan (by rw [hs]; rfl)
      rw [next_of_token hs, next_of_token hs'.eq_token]
      exact .token (h.of_consumed hc) fun hl => hl.of_consumed hc
  | case2 lx e after hs =>
      have hs' := h.scan
      rw [hs] at hs'
      obtain ⟨e', hs', he, hblank⟩ := hs'.eq_failed
      rw [next_of_failed hs, next_of_failed hs']
      exact .failed he fun hl => hblank (hl.blank (buffer_ne_nil_of_failed hs))
  | case3 lx hs =>
      have hf := finished_of_ended hs
      obtain rfl := h.finished hf
      rw [List.flatten_nil, h.complete_nil hf, next_of_ended hs]
      exact .ended h
  | case4 lx after hs _ ih =>
      have hs' := h.scan
      rw [hs] at hs'
      have hc : Consumed lx after := consumed_of_scan (by rw [hs]; rfl)
      rw [next_of_skipped hs, next_of_skipped hs'.eq_skipped]
      exact (ih (h.of_consumed hc)).imp fun hl => hl.of_consumed hc
  | case5 lx hs hp =>
      rcases h.pull (finished_of_needsInput hs) with ⟨-, hmore⟩ | ⟨text, rest, -, hmore⟩ <;>
        simp [hp] at hmore
  | case6 lx hs e after hp =>
      rcases h.pull (finished_of_needsInput hs) with ⟨-, hmore⟩ | ⟨text, rest, -, hmore⟩ <;>
        simp [hp] at hmore
  | case7 lx hs after hp _ ih =>
      rw [next_of_more hs hp]
      rcases h.pull (finished_of_needsInput hs) with ⟨rfl, hmore⟩ | ⟨text, rest, rfl, hmore⟩
      · obtain rfl : lx.complete [] = after := Pull.more.inj (hmore.symm.trans hp)
        have hover : (lx.complete []).Awaits [] := .ended rfl rfl
        have hsame := ih hover
        rw [List.flatten_nil, hover.complete_nil rfl] at hsame
        exact hsame.imp fun _ => trivial
      · obtain rfl := Pull.more.inj (hmore.symm.trans hp)
        have hf := finished_of_needsInput hs
        have hsame := ih (.pulling rfl hf)
        simp only [complete, List.append_assoc] at hsame
        simp only [complete, List.flatten_cons]
        exact hsame.imp fun hl => hl.2

/-- A lexer that is fed: the same answer, or none before the whole text has arrived. -/
inductive FedNext (text : List Char) :
    Except LexError (Option Token) × Lexer → Except LexError (Option Token) × Lexer → Prop
  | token {t : Token} {next : Lexer} (hc : next.chunks = none) (hf : next.finished = false) :
      FedNext text (.ok (some t), next) (.ok (some t), next.complete text)
  | dry {next : Lexer} (hc : next.chunks = none) (hf : next.finished = false) :
      FedNext text (.ok none, next) (next.complete text).next
  | failed {e e' : LexError} {next : Lexer} :
      FedNext text (.error e, next) (.error e', next.complete text)

theorem next_fed (hc : lx.chunks = none) (hf : lx.finished = false) (text : List Char) :
    FedNext text lx.next (lx.complete text).next := by
  have hscan : ∀ lx : Lexer, lx.finished = false → SameScan lx text lx.scan (lx.complete text).scan :=
    fun lx hf => scan_complete fun hf' => by simp [hf] at hf'
  induction lx using Lexer.next.induct with
  | case1 lx t after hs =>
      have hs' := hscan lx hf
      rw [hs] at hs'
      have htaken : Consumed lx after := consumed_of_scan (by rw [hs]; rfl)
      rw [next_of_token hs, next_of_token hs'.eq_token]
      exact .token (htaken.chunks.trans hc) (htaken.finished.trans hf)
  | case2 lx e after hs =>
      have hs' := hscan lx hf
      rw [hs] at hs'
      obtain ⟨e', hs', -, -⟩ := hs'.eq_failed
      rw [next_of_failed hs, next_of_failed hs']
      exact .failed
  | case3 lx hs => simp [finished_of_ended hs] at hf
  | case4 lx after hs _ ih =>
      have hs' := hscan lx hf
      rw [hs] at hs'
      have htaken : Consumed lx after := consumed_of_scan (by rw [hs]; rfl)
      rw [next_of_skipped hs, next_of_skipped hs'.eq_skipped]
      exact ih (htaken.chunks.trans hc) (htaken.finished.trans hf)
  | case5 lx hs hp =>
      rw [next_of_dry hs hp]
      exact .dry hc hf
  | case6 lx hs e after hp => simp [Lexer.pull, hc] at hp
  | case7 lx hs after hp _ ih => simp [Lexer.pull, hc] at hp

/-! ## All tokens -/

variable {taken : List Token}

theorem drainFrom_of_token {t : Token} (h : lx.next = (.ok (some t), next)) :
    drainFrom taken lx = drainFrom (t :: taken) next := by
  rw [drainFrom]
  split <;> simp_all

theorem drainFrom_of_none (h : lx.next = (.ok none, next)) :
    drainFrom taken lx = (taken.reverse, none, next) := by
  rw [drainFrom]
  split <;> simp_all

theorem drainFrom_of_error {e : LexError} (h : lx.next = (.error e, next)) :
    drainFrom taken lx = (taken.reverse, some e, next) := by
  rw [drainFrom]
  split <;> simp_all

/-- The same tokens, the same end, and the same lexer but for what it still waits for. -/
structure SameDrain (lined : Prop) (r r' : List Token × Option LexError × Lexer) : Prop where
  tokens : r.1 = r'.1
  error : Option.Rel LexError.CutOf r.2.1 r'.2.1
  exact : lined → r.2.1 = r'.2.1
  position : r.2.2.position = r'.2.2.position
  metrics : r.2.2.metrics = r'.2.2.metrics

theorem drainFrom_complete {texts : List (List Char)} (h : lx.Awaits texts) (taken : List Token) :
    SameDrain (Lined lx.buffer texts) (drainFrom taken lx)
      (drainFrom taken (lx.complete texts.flatten)) := by
  induction hn : lx.room using Nat.strong_induction_on generalizing lx texts taken with
  | _ n ih =>
      have hsame := next_complete h
      generalize hr : lx.next = r at hsame
      generalize hr' : (lx.complete texts.flatten).next = r' at hsame
      cases hsame with
      | @token t next texts hawaits hlined =>
          rw [drainFrom_of_token hr, drainFrom_of_token hr']
          have hdrain := ih _ (hn ▸ room_of_next hr) hawaits (t :: taken) rfl
          exact ⟨hdrain.tokens, hdrain.error, fun hl => hdrain.exact (hlined hl), hdrain.position,
            hdrain.metrics⟩
      | ended _ =>
          rw [drainFrom_of_none hr, drainFrom_of_none hr']
          exact ⟨rfl, .none, fun _ => rfl, rfl, rfl⟩
      | failed he hlined =>
          rw [drainFrom_of_error hr, drainFrom_of_error hr']
          exact ⟨rfl, .some he, fun hl => congrArg some (hlined hl), rfl, rfl⟩

theorem drain_complete {texts : List (List Char)} (h : lx.Awaits texts) :
    SameDrain (Lined lx.buffer texts) lx.drain (lx.complete texts.flatten).drain :=
  drainFrom_complete h []

/-! ## Feeding -/

theorem drainFrom_eq (taken : List Token) (lx : Lexer) :
    drainFrom taken lx = (taken.reverse ++ lx.drain.1, lx.drain.2) := by
  induction hn : lx.room using Nat.strong_induction_on generalizing lx taken with
  | _ n ih =>
      unfold drain
      match hr : lx.next with
      | (.ok none, next) => simp [drainFrom_of_none hr]
      | (.error e, next) => simp [drainFrom_of_error hr]
      | (.ok (some t), next) =>
          have hroom := hn ▸ room_of_next hr
          rw [drainFrom_of_token hr, drainFrom_of_token hr, ih _ hroom (t :: taken) next rfl,
            ih _ hroom [t] next rfl]
          simp

theorem drain_of_token {t : Token} (h : lx.next = (.ok (some t), next)) :
    lx.drain = (t :: next.drain.1, next.drain.2) := by
  rw [drain, drainFrom_of_token h, drainFrom_eq]
  rfl

theorem drain_of_none (h : lx.next = (.ok none, next)) : lx.drain = ([], none, next) :=
  drainFrom_of_none h

theorem drain_of_error {e : LexError} (h : lx.next = (.error e, next)) :
    lx.drain = ([], some e, next) :=
  drainFrom_of_error h

/-- A drain ends, or it goes on from the lexer behind its first token. -/
theorem drain_induct {motive : Lexer → Prop}
    (ended : ∀ lx next, lx.next = (.ok none, next) → lx.drain = ([], none, next) → motive lx)
    (failed : ∀ lx e next, lx.next = (.error e, next) → lx.drain = ([], some e, next) → motive lx)
    (token : ∀ lx t next, lx.next = (.ok (some t), next) →
      lx.drain = (t :: next.drain.1, next.drain.2) → motive next → motive lx)
    (lx : Lexer) : motive lx := by
  induction hn : lx.room using Nat.strong_induction_on generalizing lx with
  | _ n ih =>
      match hr : lx.next with
      | (.ok none, next) => exact ended lx next hr (drain_of_none hr)
      | (.error e, next) => exact failed lx e next hr (drain_of_error hr)
      | (.ok (some t), next) =>
          exact token lx t next hr (drain_of_token hr) (ih _ (hn ▸ room_of_next hr) next rfl)

theorem drain_congr {lx' : Lexer} (h : lx.next = lx'.next) : lx.drain = lx'.drain := by
  induction lx' using drain_induct with
  | ended lx' next hr hdrain => rw [hdrain, drain_of_none (h.trans hr)]
  | failed lx' e next hr hdrain => rw [hdrain, drain_of_error (h.trans hr)]
  | token lx' t next hr hdrain => rw [hdrain, drain_of_token (h.trans hr)]

/-- The drain of a lexer by its scans alone: `none` if it waits for input or fuel runs out. -/
def scanned : Nat → Lexer → Option (List Token × Option LexError × Lexer)
  | 0, _ => none
  | fuel + 1, lx =>
    match lx.scan with
    | .token t next => (scanned fuel next).map fun (tokens, outcome) => (t :: tokens, outcome)
    | .skipped next => scanned fuel next
    | .failed e next => some ([], some e, next)
    | .ended => some ([], none, lx)
    | .needsInput => none

theorem drain_of_scanned {fuel : Nat} {outcome : List Token × Option LexError × Lexer}
    (h : lx.scanned fuel = some outcome) : lx.drain = outcome := by
  induction fuel generalizing lx outcome with
  | zero => cases h
  | succ fuel ih =>
      unfold scanned at h
      split at h
      · rename_i t next hscan
        obtain ⟨⟨tokens, rest⟩, hrest, rfl⟩ := Option.map_eq_some_iff.mp h
        rw [drain_of_token (next_of_token hscan), ih hrest]
      · rename_i next hscan
        rw [drain_congr (next_of_skipped hscan), ih h]
      · rename_i e next hscan
        cases h
        exact drain_of_error (next_of_failed hscan)
      · rename_i hscan
        cases h
        exact drain_of_none (next_of_ended hscan)
      · cases h

/-- What a lexer that is fed delivers now is what the whole text starts with. -/
theorem drain_fed (hc : lx.chunks = none) (hf : lx.finished = false) (text : List Char)
    (hok : (lx.complete text).drain.2.1 = none) :
    ∃ next : Lexer, lx.drain = (lx.drain.1, none, next) ∧ next.chunks = none ∧
      next.finished = false ∧ (next.complete text).drain.2.1 = none ∧
        (lx.complete text).drain.1 = lx.drain.1 ++ (next.complete text).drain.1 := by
  induction hn : lx.room using Nat.strong_induction_on generalizing lx with
  | _ n ih =>
      have hsame := next_fed hc hf text
      generalize hr : lx.next = r at hsame
      generalize hr' : (lx.complete text).next = r' at hsame
      cases hsame with
      | @token t next hc' hf' =>
          rw [drain_of_token hr'] at hok
          obtain ⟨last, hlast, hlc, hlf, hlok, happend⟩ :=
            ih _ (hn ▸ room_of_next hr) hc' hf' hok rfl
          refine ⟨last, ?_, hlc, hlf, hlok, ?_⟩
          · rw [drain_of_token hr, hlast]
          · rw [drain_of_token hr, drain_of_token hr', happend, List.cons_append]
      | @dry next hc' hf' =>
          have hdrain := drain_of_none hr
          have hwhole : (lx.complete text).drain = (next.complete text).drain := drain_congr hr'
          refine ⟨next, by rw [hdrain], hc', hf', hwhole ▸ hok, ?_⟩
          rw [hwhole, hdrain, List.nil_append]
      | failed =>
          rw [drain_of_error hr'] at hok
          cases hok

/-- The lexer when some more text has arrived. -/
def arrive (lx : Lexer) (text : List Char) : Lexer :=
  { lx with buffer := lx.buffer ++ text }

theorem complete_append (text more : List Char) :
    lx.complete (text ++ more) = (lx.arrive text).complete more := by
  simp [complete, arrive]

/-- Feeds texts one after the other and then ends the input. -/
def feedAll (lx : Lexer) : List (List Char) → Except LexError (List Token)
  | [] => lx.finish.1
  | text :: texts =>
      match lx.feed text with
      | (.error e, _) => .error e
      | (.ok tokens, next) => (feedAll next texts).map (tokens ++ ·)

theorem drained_of_none (h : lx.drain.2.1 = none) :
    lx.drained = (.ok lx.drain.1, lx.drain.2.2) := by
  unfold drained
  split <;> simp_all

theorem feedAll_complete (hc : lx.chunks = none) (hf : lx.finished = false)
    (texts : List (List Char)) (hok : (lx.complete texts.flatten).drain.2.1 = none) :
    lx.feedAll texts = .ok (lx.complete texts.flatten).drain.1 := by
  induction texts generalizing lx with
  | nil =>
      have hfinish : lx.finish = (lx.complete [].flatten).drained := by simp [finish, complete]
      rw [feedAll, hfinish, drained_of_none hok]
  | cons text texts ih =>
      rw [List.flatten_cons, complete_append] at hok ⊢
      have hchunks : (lx.arrive text).chunks = none := hc
      obtain ⟨next, hdrain, hnc, hnf, hnok, happend⟩ := drain_fed hchunks hf texts.flatten hok
      have hdrained := drained_of_none (by rw [hdrain])
      have hfeed : lx.feed text = (.ok (lx.arrive text).drain.1, next) := by
        rw [hdrain] at hdrained
        rw [feed, if_neg (by simp [hf])]
        exact hdrained
      rw [feedAll, hfeed, happend]
      simp only [ih hnc hnf hnok]
      rfl

end Lexer

end JackToolchain
