import JackToolchain.Proofs.Syntax.Delivery

/-!
# Tokens of a stream and tokens of its lexer

A stream asks its lexer for one token more than were asked of it. What the stream has returned, with
the lookahead behind it, is what the lexer has returned, whichever calls have failed.
-/

namespace JackToolchain

open JackToolchain.Source JackToolchain.Token

/-- The answers to a number of calls, one after the other, and the state after them. -/
def calls {σ α : Type} (f : σ → α × σ) : Nat → σ → List α × σ
  | 0, s => ([], s)
  | n + 1, s => ((calls f n s).1 ++ [(f (calls f n s).2).1], (f (calls f n s).2).2)

def answered : Except LexError (Option Token) → List Token
  | .ok t? => t?.toList
  | .error _ => []

@[simp] theorem answered_ok (t? : Option Token) : answered (.ok t?) = t?.toList := rfl

@[simp] theorem answered_error (e : LexError) : answered (.error e) = [] := rfl

def delivered (answers : List (Except LexError (Option Token))) : List Token :=
  answers.flatMap answered

theorem delivered_snoc (answers : List (Except LexError (Option Token)))
    (answer : Except LexError (Option Token)) :
    delivered (answers ++ [answer]) = delivered answers ++ answered answer := by
  simp [delivered]

/-! ## The count of a lexer -/

namespace Lexer

variable {lx next : Lexer}

/-- What a scan adds to a count of tokens, unless the count runs over its limit. -/
def Scan.Counts (total : Nat) : Scan → Prop
  | .token _ next => next.metrics.total = total + 1
  | .skipped next => next.metrics.total = total
  | .failed e next => (∀ count, e ≠ .tooManyTokens count) → next.metrics.total = total
  | .needsInput | .ended => True

theorem counts_consume (lx : Lexer) (rule : Rule) (lexeme rest : List Char) :
    (lx.consume rule lexeme rest).Counts lx.metrics.total := by
  simp only [consume]
  split
  · exact fun _ => rfl
  · rfl
  · split
    · exact fun hlimit => absurd rfl (hlimit _)
    · exact Metrics.total_count _ _ _

theorem counts_scan (lx : Lexer) : lx.scan.Counts lx.metrics.total := by
  unfold scan
  split
  · split
    all_goals trivial
  · split
    · split
      · trivial
      · exact counts_consume lx _ _ _
    · split
      · exact fun _ => rfl
      · trivial
    · exact fun _ => rfl

theorem metrics_of_pull {e : LexError} (h : lx.pull = .more next ∨ lx.pull = .failed e next) :
    next.metrics = lx.metrics := by
  unfold pull at h
  split at h
  · rcases h with h | h <;> cases h
  · rcases h with h | h <;> cases h
    rfl
  · rcases h with h | h <;> cases h
    rfl
  · rcases h with h | h <;> cases h
    rfl

/-- A call counts the token that it returns. -/
theorem total_of_next (lx : Lexer) (hlimit : ∀ count, lx.next.1 ≠ .error (.tooManyTokens count)) :
    lx.next.2.metrics.total =
      lx.metrics.total + (answered lx.next.1).length := by
  induction lx using Lexer.next.induct with
  | case1 lx t after hs =>
      have hcounts := counts_scan lx
      rw [hs] at hcounts
      rw [next_of_token hs]
      exact hcounts
  | case2 lx e after hs =>
      have hcounts := counts_scan lx
      rw [hs] at hcounts
      rw [next_of_failed hs] at hlimit ⊢
      exact hcounts fun count he => hlimit count (congrArg Except.error he)
  | case3 lx hs =>
      rw [next_of_ended hs]
      rfl
  | case4 lx after hs _ ih =>
      have hcounts : after.metrics.total = lx.metrics.total := by
        have hcounts := counts_scan lx
        rw [hs] at hcounts
        exact hcounts
      rw [next_of_skipped hs] at hlimit ⊢
      rw [ih hlimit, hcounts]
  | case5 lx hs hp =>
      rw [next_of_dry hs hp]
      rfl
  | case6 lx hs e after hp =>
      rw [next_of_undelivered hs hp]
      exact congrArg Metrics.total (metrics_of_pull (.inr hp))
  | case7 lx hs after hp _ ih =>
      rw [next_of_more hs hp] at hlimit ⊢
      rw [ih hlimit, metrics_of_pull (e := .inputClosed) (.inl hp)]

theorem length_drain_le (lx : Lexer) : lx.drain.1.length ≤ lx.room := by
  induction lx using drain_induct with
  | ended lx next hr hdrain | failed lx e next hr hdrain =>
      rw [hdrain]
      exact Nat.zero_le _
  | token lx t next hr hdrain ih =>
      have hroom := room_of_next hr
      rw [hdrain, List.length_cons]
      omega

theorem total_of_calls (lx : Lexer) (n : Nat)
    (hlimit : ∀ count, .error (.tooManyTokens count) ∉ (calls Lexer.next n lx).1) :
    (calls Lexer.next n lx).2.metrics.total =
      lx.metrics.total + (delivered (calls Lexer.next n lx).1).length := by
  induction n with
  | zero => rfl
  | succ n ih =>
      simp only [calls] at hlimit ⊢
      have hbefore := ih fun count hmem => hlimit count (List.mem_append_left _ hmem)
      have hlast := total_of_next (calls Lexer.next n lx).2 fun count heq =>
        hlimit count (List.mem_append_right _ (by simp [heq]))
      rw [hlast, hbefore, delivered_snoc, List.length_append, Nat.add_assoc]

end Lexer

/-! ## Streams -/

namespace TokenStream

variable {σ : Type} [TokenSource σ] {s : TokenStream σ} {asked taken : List Token}

/-- A stream that holds back the last of the tokens that it has asked for. -/
structure Holds (s : TokenStream σ) (asked taken : List Token) : Prop where
  tokens : taken ++ s.lookahead.toList = asked
  consumed : s.consumed = taken.length
  lastSpan : s.lastSpan = (taken.getLast?.map Token.span).getD .zero

theorem source_advance (s : TokenStream σ) :
    s.advance.2.source = (TokenSource.next s.source).2 := by
  unfold advance
  split
  · simp only [*]
  · split <;> simp only [*]

theorem advance_of_error {e : LexError} (h : s.advance.1 = .error e) :
    s.advance.2 = { s with source := (TokenSource.next s.source).2 } := by
  unfold advance at h ⊢
  match hnext : TokenSource.next s.source with
  | (.error e', source) => rfl
  | (.ok lookahead, source) =>
      rw [hnext] at h
      cases hheld : s.lookahead with
      | none => simp [hheld] at h
      | some t => simp [hheld] at h

/-- The step: one more token is asked for, and the lookahead is returned unless that fails. -/
theorem Holds.advance (h : s.Holds asked taken) :
    s.advance.2.Holds (asked ++ answered (TokenSource.next s.source).1)
      (taken ++ answered s.advance.1) := by
  have htokens := h.tokens
  unfold TokenStream.advance
  match hnext : TokenSource.next s.source with
  | (.error e, source) =>
      refine ⟨?_, ?_, ?_⟩
      · simpa using htokens
      · simpa using h.consumed
      · simpa using h.lastSpan
  | (.ok lookahead, source) =>
      match hheld : s.lookahead with
      | none =>
          rw [hheld] at htokens
          refine ⟨?_, ?_, ?_⟩
          · simpa using htokens
          · simpa using h.consumed
          · simpa using h.lastSpan
      | some t =>
          rw [hheld] at htokens
          refine ⟨?_, ?_, ?_⟩
          · simp [← htokens]
          · simpa using h.consumed
          · simp

/-- The run: after any number of calls, the source was asked once for each of them. -/
theorem holds_of_calls {first : σ} (hs : ofSource first = .ok s) (n : Nat) :
    (calls advance n s).2.source = (calls TokenSource.next (n + 1) first).2 ∧
      (calls advance n s).2.Holds (delivered (calls TokenSource.next (n + 1) first).1)
        (delivered (calls advance n s).1) := by
  induction n with
  | zero =>
      obtain ⟨lookahead, next, hnext, rfl⟩ := exists_next_of_ofSource hs
      simp only [calls, hnext]
      refine ⟨trivial, ?_, rfl, rfl⟩
      simp [delivered]
  | succ n ih =>
      obtain ⟨hsource, hholds⟩ := ih
      have hstep := hholds.advance
      rw [hsource] at hstep
      rw [calls, calls, delivered_snoc, delivered_snoc]
      exact ⟨(source_advance _).trans (by rw [hsource]), hstep⟩

end TokenStream

/-- A stream over a fresh lexer starts with the first answer of the lexer, if it is no error. After
any number of calls the lexer was asked once more than the stream, and the tokens that the stream
has returned are all but the lookahead of those that the lexer has returned. A call that fails
keeps the lookahead. -/
theorem tokens_of_advances {lx : Lexer} (hown : lx.canPull = true)
    (hfresh : lx.metrics.total = 0) :
    (∀ e next, TokenStream.ofSource lx = .error (e, next) ↔ lx.next = (.error e, next)) ∧
    ∀ s, TokenStream.ofSource lx = .ok s → ∀ n,
      let asked := calls Lexer.next (n + 1) lx
      let now := (calls TokenStream.advance n s).2
      let taken := delivered (calls TokenStream.advance n s).1
      now.source = asked.2 ∧
        taken ++ now.lookahead.toList = delivered asked.1 ∧
        now.consumed = taken.length ∧
        now.lastSpan = (taken.getLast?.map Token.span).getD .zero ∧
        ((∀ count, .error (.tooManyTokens count) ∉ asked.1) →
          now.lexer.metrics.total = now.consumed + if now.lookahead.isSome then 1 else 0) ∧
        ∀ e, now.advance.1 = .error e →
          now.advance.2.lookahead = now.lookahead ∧ now.advance.2.consumed = now.consumed ∧
            now.advance.2.lastSpan = now.lastSpan := by
  refine ⟨fun e next => ?_, fun s hs n => ?_⟩
  · have hcan : (TokenSource.lexer lx).canPull = true := hown
    have hnext : TokenSource.next lx = lx.next := rfl
    rw [TokenStream.ofSource, if_pos hcan, hnext]
    rcases lx.next with ⟨e' | lookahead, next'⟩
    · simp
    · simp
  · obtain ⟨hsource, hholds⟩ := TokenStream.holds_of_calls hs n
    refine ⟨hsource, hholds.tokens, hholds.consumed, hholds.lastSpan, fun hlimit => ?_,
      fun e he => ?_⟩
    · have htotal := Lexer.total_of_calls lx (n + 1) hlimit
      have hlookahead : (calls TokenStream.advance n s).2.lookahead.toList.length =
          if (calls TokenStream.advance n s).2.lookahead.isSome then 1 else 0 := by
        cases (calls TokenStream.advance n s).2.lookahead <;> rfl
      have htokens : _ = delivered (calls Lexer.next (n + 1) lx).1 := hholds.tokens
      have hmetrics := congrArg (fun lexer : Lexer => lexer.metrics.total) hsource
      rw [hfresh, Nat.zero_add, ← htokens, List.length_append, ← hholds.consumed,
        hlookahead] at htotal
      exact hmetrics.trans htotal
    · rw [TokenStream.advance_of_error he]
      exact ⟨rfl, rfl, rfl⟩

/-- The lexer fails behind the word, and the word is still there. -/
theorem word_not_lost :
    let lx := Lexer.ofText ['x', ' ', '$']
    let word : Token := ⟨.identifier "x", "x", ⟨.origin, ⟨1, 1, 2⟩⟩⟩
    lx.canPull = true ∧ lx.metrics.total = 0 ∧ ∃ s, TokenStream.ofSource lx = .ok s ∧
      s.advance.1 = .error (.unrecognized "$" 1 3) ∧ s.advance.2.lookahead = some word ∧
        s.advance.2.consumed = 0 := by
  intro lx word
  let behind : Lexer := {
    buffer := [' ', '$'], position := ⟨1, 1, 2⟩, finished := true,
    metrics := { total := 1, identifiers := 1, maxIdentifier := 1 } }
  have hword : lx.next = (.ok (some word), behind) := Lexer.next_of_token rfl
  have hfails : ∃ next, behind.next = (.error (.unrecognized "$" 1 3), next) :=
    ⟨_, (Lexer.next_of_skipped rfl).trans (Lexer.next_of_failed rfl)⟩
  obtain ⟨last, hlast⟩ := hfails
  let s : TokenStream Lexer := { source := behind, lookahead := some word }
  have hstream : TokenStream.ofSource lx = .ok s := by
    have hnext : TokenSource.next lx = lx.next := rfl
    rw [TokenStream.ofSource, if_pos (by rfl), hnext, hword]
  have hadvance : s.advance.1 = .error (.unrecognized "$" 1 3) := by
    have hnext : TokenSource.next s.source = behind.next := rfl
    rw [TokenStream.advance, hnext, hlast]
  obtain ⟨-, hstart⟩ := @tokens_of_advances lx rfl rfl
  obtain ⟨-, -, -, -, -, hkept⟩ := hstart s hstream 0
  obtain ⟨hlookahead, hconsumed, -⟩ := hkept _ hadvance
  exact ⟨rfl, rfl, s, hstream, hadvance, hlookahead, hconsumed⟩

end JackToolchain
