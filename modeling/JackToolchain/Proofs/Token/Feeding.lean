import JackToolchain.Proofs.Token.Chunks

/-!
# Lexers that are fed

What a lexer delivers of the text at hand is what it delivers of a longer text, so a lexer that is
fed passes from one text to the next. After an error of the text nothing that arrives later gives
it another token.
-/

namespace JackToolchain

open JackToolchain.Source JackToolchain.Token

namespace Token.Rule

theorem not_misuse_of_value? {r : Rule} {lexeme : List Char} {start : Position} {e : LexError}
    (h : r.value? lexeme start = .error e) : e.isMisuse = false := by
  cases r with
  | blank | lineComment | blockComment => cases h
  | keyword | symbol | identifier | string | integer =>
      simp only [value?] at h
      split at h
      all_goals
        cases h
        try rfl

theorem not_misuse_unmatched (text : List Char) (p : Position) :
    (unmatched text p).isMisuse = false := by
  unfold unmatched
  split
  all_goals rfl

end Token.Rule

namespace Lexer

variable {lx next last : Lexer} {text : List Char} {e : LexError}

/-! ## Failures -/

/-- A failure leaves the lexer where it is, unless it has taken one token too many. -/
structure Fails (lx : Lexer) (e : LexError) (next : Lexer) : Prop where
  state : next = lx ∨ next.chunks = lx.chunks ∧ next.finished = lx.finished ∧ next.room = 0
  lexical : e.isMisuse = false

theorem fails_of_scan (hs : lx.scan = .failed e next) : Fails lx e next := by
  unfold scan at hs
  split at hs
  · split at hs
    all_goals cases hs
  · split at hs
    · split at hs
      · cases hs
      · simp only [consume] at hs
        split at hs
        · rename_i hvalue
          cases hs
          exact ⟨.inl rfl, Rule.not_misuse_of_value? hvalue⟩
        · cases hs
        · split at hs
          · rename_i hmany
            cases hs
            exact ⟨.inr ⟨rfl, rfl, Nat.sub_eq_zero_of_le (Nat.le_of_lt hmany)⟩, rfl⟩
          · cases hs
    · split at hs
      all_goals cases hs
      exact ⟨.inl rfl, Rule.not_misuse_unmatched _ _⟩
    · cases hs
      exact ⟨.inl rfl, Rule.not_misuse_unmatched _ _⟩

/-- What a lexer that nothing is pulled from keeps. -/
theorem kept_of_next {answer : Except LexError (Option Token)} (hc : lx.chunks = none)
    (h : lx.next = (answer, next)) :
    next.chunks = none ∧ next.finished = lx.finished ∧
      ∀ e, answer = .error e → e.isMisuse = false := by
  induction lx using Lexer.next.induct with
  | case1 lx t after hs =>
      have htaken : Consumed lx after := consumed_of_scan (by rw [hs]; rfl)
      rw [next_of_token hs] at h
      cases h
      exact ⟨htaken.chunks.trans hc, htaken.finished, fun e he => by cases he⟩
  | case2 lx e' after hs =>
      rw [next_of_failed hs] at h
      cases h
      have hfails := fails_of_scan hs
      refine ⟨?_, ?_, fun e he => ?_⟩
      · rcases hfails.state with heq | ⟨hchunks, -⟩
        · rw [heq, hc]
        · exact hchunks.trans hc
      · rcases hfails.state with heq | ⟨-, hfinished, -⟩
        · rw [heq]
        · exact hfinished
      · cases he
        exact hfails.lexical
  | case3 lx hs =>
      rw [next_of_ended hs] at h
      cases h
      exact ⟨hc, rfl, fun e he => by cases he⟩
  | case4 lx after hs _ ih =>
      have htaken : Consumed lx after := consumed_of_scan (by rw [hs]; rfl)
      rw [next_of_skipped hs] at h
      obtain ⟨hchunks, hfinished, hlexical⟩ := ih (htaken.chunks.trans hc) h
      exact ⟨hchunks, hfinished.trans htaken.finished, hlexical⟩
  | case5 lx hs hp =>
      rw [next_of_dry hs hp] at h
      cases h
      exact ⟨hc, rfl, fun e he => by cases he⟩
  | case6 lx hs e' after hp => simp [Lexer.pull, hc] at hp
  | case7 lx hs after hp _ ih => simp [Lexer.pull, hc] at hp

theorem complete_nil (hc : lx.chunks = none) (hf : lx.finished = true) : lx.complete [] = lx :=
  (Awaits.ended hc hf).complete_nil hf

/-- An error that is met before the whole text has arrived is met in the whole text. -/
theorem next_error_complete (hc : lx.chunks = none) (hf : lx.finished = true → text = [])
    (h : lx.next = (.error e, next)) :
    ∃ e', e.CutOf e' ∧ (lx.complete text).next = (.error e', next.complete text) := by
  induction lx using Lexer.next.induct with
  | case1 lx t after hs => simp [next_of_token hs] at h
  | case2 lx e₀ after hs =>
      have hsame := scan_complete hf
      rw [hs] at hsame
      obtain ⟨e', hs', he, -⟩ := hsame.eq_failed
      rw [next_of_failed hs] at h
      cases h
      exact ⟨e', he, next_of_failed hs'⟩
  | case3 lx hs => simp [next_of_ended hs] at h
  | case4 lx after hs _ ih =>
      have hs' := scan_complete hf
      rw [hs] at hs'
      have htaken : Consumed lx after := consumed_of_scan (by rw [hs]; rfl)
      rw [next_of_skipped hs] at h
      rw [next_of_skipped hs'.eq_skipped]
      exact ih (htaken.chunks.trans hc) (fun hfin => hf (htaken.finished ▸ hfin)) h
  | case5 lx hs hp => simp [next_of_dry hs hp] at h
  | case6 lx hs e' after hp => simp [Lexer.pull, hc] at hp
  | case7 lx hs after hp _ ih => simp [Lexer.pull, hc] at hp

/-- A lexer that has no token has none until more text arrives. -/
theorem next_again (h : lx.next = (.ok none, next)) : next.next = (.ok none, next) := by
  induction lx using Lexer.next.induct with
  | case1 lx t after hs => simp [next_of_token hs] at h
  | case2 lx e after hs => simp [next_of_failed hs] at h
  | case3 lx hs =>
      rw [next_of_ended hs] at h
      cases h
      exact next_of_ended hs
  | case4 lx after hs _ ih => exact ih (next_of_skipped hs ▸ h)
  | case5 lx hs hp =>
      rw [next_of_dry hs hp] at h
      cases h
      exact next_of_dry hs hp
  | case6 lx hs e after hp => simp [next_of_undelivered hs hp] at h
  | case7 lx hs after hp _ ih => exact ih (next_of_more hs hp ▸ h)

section Arrivals

variable (hc : lx.chunks = none) (hf : lx.finished = true → text = [])

include hc hf

/-- A token that is there before the whole text has arrived is a token of the whole text. -/
theorem next_token_complete {t : Token} (h : lx.next = (.ok (some t), next)) :
    (lx.complete text).next = (.ok (some t), next.complete text) := by
  obtain ⟨hchunks, hfinished, -⟩ := kept_of_next hc h
  by_cases hfin : lx.finished = true
  · obtain rfl := hf hfin
    rw [complete_nil hc hfin, complete_nil hchunks (hfinished.trans hfin), h]
  · have hsame := next_fed hc (by simpa using hfin) text
    rw [h] at hsame
    generalize (lx.complete text).next = r at hsame
    cases hsame
    rfl

theorem next_none_complete (h : lx.next = (.ok none, next)) :
    (lx.complete text).next = (next.complete text).next := by
  obtain ⟨hchunks, hfinished, -⟩ := kept_of_next hc h
  by_cases hfin : lx.finished = true
  · obtain rfl := hf hfin
    rw [complete_nil hc hfin, complete_nil hchunks (hfinished.trans hfin), h, next_again h]
  · have hsame := next_fed hc (by simpa using hfin) text
    rw [h] at hsame
    generalize (lx.complete text).next = r at hsame
    cases hsame
    rfl

end Arrivals

/-! ## What is delivered of a text -/

/-- A lexer that gets a text delivers some tokens and becomes another one: whatever text arrives
later, the tokens of all of it are these and then those of the other lexer. -/
structure Passes (lx : Lexer) (arrived : List Char) (tokens : List Token) (next : Lexer) :
    Prop where
  chunks : next.chunks = none
  closed : lx.finished = true → next.finished = true ∧ arrived = []
  drain : ∀ text, (next.finished = true → text = []) →
    (lx.complete (arrived ++ text)).drain =
      (tokens ++ (next.complete text).drain.1, (next.complete text).drain.2)

namespace Passes

theorem refl (hc : lx.chunks = none) : Passes lx [] [] lx where
  chunks := hc
  closed := fun hf => ⟨hf, rfl⟩
  drain := fun _ _ => rfl

theorem trans {a b : List Char} {front back : List Token} (h : Passes lx a front next)
    (h' : Passes next b back last) : Passes lx (a ++ b) (front ++ back) last where
  chunks := h'.chunks
  closed := fun hf => by
    obtain ⟨hfin, rfl⟩ := h.closed hf
    obtain ⟨hfin, rfl⟩ := h'.closed hfin
    exact ⟨hfin, rfl⟩
  drain := fun text ht => by
    have hrest : next.finished = true → b ++ text = [] := fun hf => by
      obtain ⟨hfin, rfl⟩ := h'.closed hf
      exact ht hfin
    rw [List.append_assoc, h.drain _ hrest, h'.drain _ ht, List.append_assoc]

theorem arrive (hc : lx.chunks = none) (hf : lx.finished = false) (text : List Char) :
    Passes lx text [] (lx.arrive text) where
  chunks := hc
  closed := fun hfin => by simp [hf] at hfin
  drain := fun more _ => by rw [complete_append, List.nil_append]

/-- The lexer when no more text can arrive. -/
theorem close (lx : Lexer) : Passes lx [] [] { lx with chunks := none, finished := true } where
  chunks := rfl
  closed := fun _ => ⟨rfl, rfl⟩
  drain := fun text ht => by
    obtain rfl := ht rfl
    simp [complete]

theorem of_token {t : Token} (hc : lx.chunks = none) (h : lx.next = (.ok (some t), next)) :
    Passes lx [] [t] next := by
  obtain ⟨hchunks, hfinished, -⟩ := kept_of_next hc h
  refine ⟨hchunks, fun hf => ⟨hfinished.trans hf, rfl⟩, fun text ht => ?_⟩
  exact drain_of_token (next_token_complete hc (fun hf => ht (hfinished.trans hf)) h)

theorem of_none (hc : lx.chunks = none) (h : lx.next = (.ok none, next)) :
    Passes lx [] [] next := by
  obtain ⟨hchunks, hfinished, -⟩ := kept_of_next hc h
  refine ⟨hchunks, fun hf => ⟨hfinished.trans hf, rfl⟩, fun text ht => ?_⟩
  exact drain_congr (next_none_complete hc (fun hf => ht (hfinished.trans hf)) h)

theorem of_drain (hc : lx.chunks = none) (h : lx.drain.2.1 = none) :
    Passes lx [] lx.drain.1 lx.drain.2.2 := by
  induction lx using drain_induct with
  | ended lx next hr hdrain =>
      rw [hdrain]
      exact of_none hc hr
  | failed lx e next hr hdrain =>
      rw [hdrain] at h
      cases h
  | token lx t next hr hdrain ih =>
      rw [hdrain] at h ⊢
      exact (of_token hc hr).trans (ih (kept_of_next hc hr).1 h)

end Passes

/-- An error that ends a drain ends the drain of the whole text. -/
theorem drain_error_complete {tokens : List Token} (hc : lx.chunks = none)
    (hf : lx.finished = true → text = []) (h : lx.drain = (tokens, some e, next)) :
    ∃ e', e.CutOf e' ∧ (lx.complete text).drain = (tokens, some e', next.complete text) := by
  induction lx using drain_induct generalizing tokens with
  | ended lx after hr hdrain => cases hdrain.symm.trans h
  | failed lx e₀ after hr hdrain =>
      cases hdrain.symm.trans h
      obtain ⟨e', he, hwhole⟩ := next_error_complete hc hf hr
      exact ⟨e', he, drain_of_error hwhole⟩
  | token lx t after hr hdrain ih =>
      obtain ⟨hchunks, hfinished, -⟩ := kept_of_next hc hr
      obtain ⟨rfl, hrest⟩ := Prod.mk.inj (hdrain.symm.trans h)
      obtain ⟨e', he, hwhole⟩ :=
        ih hchunks (fun hfin => hf (hfinished ▸ hfin)) (Prod.ext rfl hrest)
      refine ⟨e', he, ?_⟩
      rw [drain_of_token (next_token_complete hc hf hr), hwhole]

/-! ## After a failure -/

/-- No text that arrives later gives the lexer another token. -/
structure Stuck (lx : Lexer) : Prop where
  chunks : lx.chunks = none
  silent : ∀ text, (lx.finished = true → text = []) →
    ∀ t next, (lx.complete text).next ≠ (.ok (some t), next)

namespace Stuck

theorem of_error (hc : lx.chunks = none) (h : lx.next = (.error e, next)) : Stuck next := by
  refine ⟨(kept_of_next hc h).1, fun text ht t last hlast => ?_⟩
  induction lx using Lexer.next.induct with
  | case1 lx t' after hs => simp [next_of_token hs] at h
  | case2 lx e' after hs =>
      rw [next_of_failed hs] at h
      cases h
      rcases (fails_of_scan hs).state with heq | ⟨-, -, hroom⟩
      · subst heq
        have hsame := scan_complete ht
        rw [hs] at hsame
        obtain ⟨e'', hs', -, -⟩ := hsame.eq_failed
        simp [next_of_failed hs'] at hlast
      · have hless := room_of_next hlast
        rw [complete_room, hroom] at hless
        exact absurd hless (Nat.not_lt_zero _)
  | case3 lx hs => simp [next_of_ended hs] at h
  | case4 lx after hs _ ih =>
      have htaken : Consumed lx after := consumed_of_scan (by rw [hs]; rfl)
      exact ih (htaken.chunks.trans hc) (next_of_skipped hs ▸ h)
  | case5 lx hs hp => simp [next_of_dry hs hp] at h
  | case6 lx hs e' after hp => simp [Lexer.pull, hc] at hp
  | case7 lx hs after hp _ ih => simp [Lexer.pull, hc] at hp

theorem asked (h : Stuck lx) :
    ∃ answer after, lx.next = (answer, after) ∧ Stuck after ∧ ∀ t, answer ≠ .ok (some t) := by
  match hr : lx.next with
  | (.ok (some t), after) =>
      exact absurd (next_token_complete h.chunks (fun _ => rfl) hr)
        (h.silent [] (fun _ => rfl) t _)
  | (.error e, after) => exact ⟨_, _, rfl, of_error h.chunks hr, fun t ht => by cases ht⟩
  | (.ok none, after) =>
      obtain ⟨hchunks, hfinished, -⟩ := kept_of_next h.chunks hr
      refine ⟨_, _, rfl, ⟨hchunks, fun text ht t last hlast => ?_⟩, fun t ht => by cases ht⟩
      have hf : lx.finished = true → text = [] := fun hfin => ht (hfinished.trans hfin)
      exact h.silent text hf t last ((next_none_complete h.chunks hf hr).trans hlast)

theorem drain (h : Stuck lx) : lx.drain.1 = [] ∧ Stuck lx.drain.2.2 := by
  obtain ⟨answer, after, hnext, hafter, htoken⟩ := h.asked
  match answer, hnext, htoken with
  | .error e, hnext, _ =>
      rw [drain_of_error hnext]
      exact ⟨rfl, hafter⟩
  | .ok none, hnext, _ =>
      rw [drain_of_none hnext]
      exact ⟨rfl, hafter⟩
  | .ok (some t), _, htoken => exact absurd rfl (htoken t)

theorem arrive (h : Stuck lx) (hf : lx.finished = false) (text : List Char) :
    Stuck (lx.arrive text) := by
  refine ⟨h.chunks, fun more _ t next hnext => ?_⟩
  rw [← complete_append] at hnext
  exact h.silent (text ++ more) (fun hfin => by simp [hf] at hfin) t next hnext

theorem close (h : Stuck lx) : Stuck { lx with chunks := none, finished := true } := by
  refine ⟨rfl, fun text ht t next hnext => ?_⟩
  obtain rfl := ht rfl
  exact h.silent [] (fun _ => rfl) t next (by simpa [complete] using hnext)

end Stuck

/-! ## Drains of a lexer that is fed -/

theorem kept_of_drain (hc : lx.chunks = none) :
    lx.drain.2.2.chunks = none ∧ lx.drain.2.2.finished = lx.finished := by
  induction lx using drain_induct with
  | ended lx after hr hdrain | failed lx e after hr hdrain =>
      rw [hdrain]
      exact ⟨(kept_of_next hc hr).1, (kept_of_next hc hr).2.1⟩
  | token lx t after hr hdrain ih =>
      obtain ⟨hchunks, hfinished, -⟩ := kept_of_next hc hr
      obtain ⟨hlast, hfin⟩ := ih hchunks
      rw [hdrain]
      exact ⟨hlast, hfin.trans hfinished⟩

theorem stuck_of_drain {tokens : List Token} (hc : lx.chunks = none)
    (h : lx.drain = (tokens, some e, next)) : Stuck next ∧ e.isMisuse = false := by
  induction lx using drain_induct generalizing tokens with
  | ended lx after hr hdrain => cases hdrain.symm.trans h
  | failed lx e₀ after hr hdrain =>
      cases hdrain.symm.trans h
      exact ⟨.of_error hc hr, (kept_of_next hc hr).2.2 e rfl⟩
  | token lx t after hr hdrain ih =>
      obtain ⟨-, hrest⟩ := Prod.mk.inj (hdrain.symm.trans h)
      exact ih (kept_of_next hc hr).1 (Prod.ext rfl hrest)

/-- An error of the text ends what is delivered: the whole text has some tokens and then this
error, and the lexer is stuck. -/
structure Breaks (lx : Lexer) (arrived : List Char) (tokens : List Token) (e : LexError)
    (next : Lexer) : Prop where
  stuck : Stuck next
  lexical : e.isMisuse = false
  drain : ∀ text, (next.finished = true → text = []) → ∃ e', e.CutOf e' ∧
    (lx.complete (arrived ++ text)).drain = (tokens, some e', next.complete text)

theorem Passes.breaks {a b : List Char} {front back : List Token} (h : Passes lx a front next)
    (h' : Breaks next b back e last) (hb : next.finished = true → last.finished = true ∧ b = []) :
    Breaks lx (a ++ b) (front ++ back) e last where
  stuck := h'.stuck
  lexical := h'.lexical
  drain := fun text ht => by
    obtain ⟨e', he, hdrain⟩ := h'.drain text ht
    have hrest : next.finished = true → b ++ text = [] := fun hf => by
      obtain ⟨hfin, rfl⟩ := hb hf
      exact ht hfin
    exact ⟨e', he, by rw [List.append_assoc, h.drain _ hrest, hdrain]⟩

/-- A drain delivers tokens, or an error breaks it off. -/
theorem drained_cases (hc : lx.chunks = none) :
    (lx.drained = (.ok lx.drain.1, lx.drain.2.2) ∧ Passes lx [] lx.drain.1 lx.drain.2.2) ∨
      ∃ e, lx.drained = (.error e, lx.drain.2.2) ∧ Breaks lx [] lx.drain.1 e lx.drain.2.2 := by
  have hfinished := (kept_of_drain hc).2
  match h : lx.drain with
  | (tokens, none, next) =>
      have hpasses := Passes.of_drain hc (by rw [h])
      rw [h] at hpasses
      exact .inl ⟨by rw [drained, h], hpasses⟩
  | (tokens, some e, next) =>
      rw [h] at hfinished
      obtain ⟨hstuck, hlexical⟩ := stuck_of_drain hc h
      refine .inr ⟨e, by rw [drained, h], hstuck, hlexical, fun text ht => ?_⟩
      exact drain_error_complete hc (fun hf => ht (hfinished.trans hf)) h

theorem drained_snd : lx.drained.2 = lx.drain.2.2 := by
  match h : lx.drain with
  | (tokens, none, next) => rw [drained, h]
  | (tokens, some e, next) => rw [drained, h]

end Lexer

end JackToolchain
