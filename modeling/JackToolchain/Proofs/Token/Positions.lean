import JackToolchain.Proofs.Token.Layout

/-!
# Positions of tokens

A lexer never goes back, however its text arrives: its tokens are not empty, and each one starts
where the one before it ends or later.
-/

namespace JackToolchain

open JackToolchain.Source JackToolchain.Token

/-- Tokens that are not empty and stand one after the other. -/
structure Token.Ordered (tokens : List Token) : Prop where
  nonempty : ∀ t ∈ tokens, t.span.start.offset < t.span.stop.offset
  apart : tokens.Pairwise fun t u => t.span.stop.offset ≤ u.span.start.offset

theorem Token.Ordered.sublist {part tokens : List Token} (h : Token.Ordered tokens)
    (hsub : part.Sublist tokens) : Token.Ordered part where
  nonempty t ht := h.nonempty t (hsub.subset ht)
  apart := h.apart.sublist hsub

namespace Lexer

variable {lx next : Lexer}

theorem position_of_taken (h : lx.scan.taken? = some next) :
    lx.position.offset < next.position.offset ∧
      ∀ t, lx.scan = .token t next → t.span = ⟨lx.position, next.position⟩ := by
  obtain ⟨rule, lexeme, rest, hfirst, hconsume⟩ := exists_of_scan rfl h
  have hless := Position.offset_lt_advance lx.position (Rule.first_eq_append hfirst).2
  rw [← hconsume] at h ⊢
  simp only [consume] at h ⊢
  split at h
  · cases h
  · cases h
    exact ⟨hless, fun t ht => by cases ht⟩
  · split at h
    · cases h
    · rename_i hfew
      cases h
      refine ⟨hless, fun t ht => ?_⟩
      rw [if_neg hfew] at ht
      cases ht
      rfl

theorem position_of_pull (h : lx.pull = .more next) : next.position = lx.position := by
  unfold Lexer.pull at h
  split at h
  · cases h
  · cases h
    rfl
  · cases h
    rfl
  · cases h

/-- A lexer never goes back, and a token lies between where it was and where it is. -/
theorem position_of_next {t? : Option Token} (h : lx.next = (.ok t?, next)) :
    lx.position.offset ≤ next.position.offset ∧ ∀ t, t? = some t →
      lx.position.offset ≤ t.span.start.offset ∧ t.span.start.offset < t.span.stop.offset ∧
        t.span.stop = next.position := by
  induction lx using Lexer.next.induct with
  | case1 lx t' after hs =>
      obtain ⟨hless, hspan⟩ := position_of_taken (by rw [hs]; rfl)
      rw [next_of_token hs] at h
      cases h
      refine ⟨hless.le, fun t ht => ?_⟩
      cases ht
      rw [hspan t' hs]
      exact ⟨Nat.le_refl _, hless, rfl⟩
  | case2 lx e after hs => simp [next_of_failed hs] at h
  | case3 lx hs =>
      rw [next_of_ended hs] at h
      cases h
      exact ⟨Nat.le_refl _, fun t ht => by cases ht⟩
  | case4 lx after hs _ ih =>
      obtain ⟨hless, -⟩ := position_of_taken (by rw [hs]; rfl)
      obtain ⟨hafter, htoken⟩ := ih (next_of_skipped hs ▸ h)
      refine ⟨hless.le.trans hafter, fun t ht => ?_⟩
      obtain ⟨hstart, hspan⟩ := htoken t ht
      exact ⟨hless.le.trans hstart, hspan⟩
  | case5 lx hs hp =>
      rw [next_of_dry hs hp] at h
      cases h
      exact ⟨Nat.le_refl _, fun t ht => by cases ht⟩
  | case6 lx hs e after hp => simp [next_of_undelivered hs hp] at h
  | case7 lx hs after hp _ ih =>
      rw [← position_of_pull hp]
      exact ih (next_of_more hs hp ▸ h)

/-- The tokens of a lexer are ordered, and none starts before the place where the lexer is. -/
theorem ordered_drain_from (lx : Lexer) :
    Token.Ordered lx.drain.1 ∧ ∀ t ∈ lx.drain.1, lx.position.offset ≤ t.span.start.offset := by
  induction lx using drain_induct with
  | ended lx next hr hdrain | failed lx e next hr hdrain =>
      rw [hdrain]
      exact ⟨⟨by simp, .nil⟩, by simp⟩
  | token lx t next hr hdrain ih =>
      obtain ⟨hposition, hspan⟩ := position_of_next hr
      obtain ⟨hstart, hless, hstop⟩ := hspan t rfl
      obtain ⟨hrest, hbehind⟩ := ih
      rw [hdrain]
      refine ⟨⟨?_, ?_⟩, ?_⟩
      · exact List.forall_mem_cons.mpr ⟨hless, hrest.nonempty⟩
      · refine List.pairwise_cons.mpr ⟨fun u hu => ?_, hrest.apart⟩
        rw [hstop]
        exact hbehind u hu
      · exact List.forall_mem_cons.mpr ⟨hstart, fun u hu => hposition.trans (hbehind u hu)⟩

theorem ordered_drain (lx : Lexer) : Token.Ordered lx.drain.1 := (ordered_drain_from lx).1

end Lexer

end JackToolchain
