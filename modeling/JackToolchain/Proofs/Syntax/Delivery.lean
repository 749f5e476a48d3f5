import JackToolchain.Proofs.Token.Chunks
import JackToolchain.Token.Stream

/-!
# The tokens of a stream

Which tokens a stream delivers before its end, whatever it hears in between.
-/

namespace JackToolchain

open JackToolchain.Source JackToolchain.Diagnostics

theorem eq_ok_of_toOption {ε α : Type} {r : Except ε α} {a : α} (h : r.toOption = some a) :
    r = .ok a := by
  cases r with
  | error e => cases h
  | ok b =>
      cases h
      rfl

variable {σ : Type} [TokenSource σ]

namespace TokenSource

/-- The source after it has heard of some events. -/
def noted (events : List Event) (s : σ) : σ := events.foldl (fun s e => note e s) s

/-- The source delivers these tokens and then ends. -/
def Delivers : σ → List Token → Prop
  | s, [] => ∀ events, ∃ s', next (noted events s) = (.ok none, s')
  | s, t :: ts => ∀ events, ∃ s', next (noted events s) = (.ok (some t), s') ∧ Delivers s' ts

theorem Delivers.note {s : σ} {ts : List Token} (h : Delivers s ts) (e : Event) :
    Delivers (note e s) ts := by
  cases ts with
  | nil => exact fun events => h (e :: events)
  | cons t ts => exact fun events => h (e :: events)

theorem Delivers.next {s : σ} {ts : List Token} (h : Delivers s ts) :
    ∃ s', next s = (.ok ts.head?, s') ∧ (ts ≠ [] → Delivers s' ts.tail) := by
  cases ts with
  | nil =>
      obtain ⟨s', hs'⟩ := h []
      exact ⟨s', hs', fun hne => (hne rfl).elim⟩
  | cons t ts =>
      obtain ⟨s', hs', hrest⟩ := h []
      exact ⟨s', hs', fun _ => hrest⟩

end TokenSource

namespace TokenStream

/-- A stream starts with what its source delivers first. -/
theorem exists_next_of_ofSource {source : σ} {s : TokenStream σ} (h : ofSource source = .ok s) :
    ∃ lookahead next, TokenSource.next source = (.ok lookahead, next) ∧
      s = { source := next, lookahead } := by
  unfold ofSource at h
  split at h
  · split at h
    · rename_i lookahead next hnext
      cases h
      exact ⟨lookahead, next, hnext, rfl⟩
    · cases h
  · cases h

/-- The stream holds the first of these tokens and delivers the others. -/
def Delivers (s : TokenStream σ) : List Token → Prop
  | [] => s.lookahead = none
  | t :: ts => s.lookahead = some t ∧ TokenSource.Delivers s.source ts

variable {s : TokenStream σ} {t : Token} {ts : List Token}

theorem Delivers.lookahead (h : s.Delivers ts) : s.lookahead = ts.head? := by
  cases ts with
  | nil => exact h
  | cons t ts => exact h.1

theorem delivers_of_next {source : σ} (h : ts ≠ [] → TokenSource.Delivers source ts.tail)
    (s : TokenStream σ) : { s with source, lookahead := ts.head? : TokenStream σ }.Delivers ts := by
  cases ts with
  | nil => rfl
  | cons t ts => exact ⟨rfl, h (List.cons_ne_nil t ts)⟩

theorem Delivers.advance (h : s.Delivers (t :: ts)) :
    ∃ s', s.advance = (.ok (some t), s') ∧ s'.Delivers ts ∧ s'.room < s.room := by
  obtain ⟨source, hnext, hrest⟩ := h.2.next
  refine ⟨{ source, lookahead := ts.head?, consumed := s.consumed + 1, lastSpan := t.span }, ?_,
    delivers_of_next hrest { s with consumed := s.consumed + 1, lastSpan := t.span }, ?_⟩
  · simp only [TokenStream.advance, hnext, h.1]
  · simp only [room, h.1, Option.isSome_some, if_true]
    cases ts with
    | nil =>
        have hroom := TokenSource.room_of_end hnext
        simpa using Nat.lt_succ_of_le hroom
    | cons t' ts =>
        have hroom := TokenSource.room_of_next hnext
        simpa using hroom

end TokenStream

/-! ## Lists of tokens -/

/-- A source that delivers the tokens of a list. -/
structure TokenList where
  tokens : List Token

instance : TokenSource TokenList where
  next s := (.ok s.tokens.head?, ⟨s.tokens.tail⟩)
  lexer _ := .ofText []
  room s := s.tokens.length
  room_of_next := by
    rintro ⟨_ | ⟨t, ts⟩⟩ s' t' h <;> cases h
    exact Nat.lt_succ_self ts.length
  room_of_end := by
    rintro ⟨_ | ⟨t, ts⟩⟩ s' h <;> cases h
    exact Nat.le_refl 0
  note _ s := s
  room_note := rfl
  trace _ := #[]

theorem TokenList.noted_eq (events : List Event) (s : TokenList) :
    TokenSource.noted events s = s := by
  induction events with
  | nil => rfl
  | cons e events ih => exact ih

theorem TokenList.delivers (ts : List Token) : TokenSource.Delivers (TokenList.mk ts) ts := by
  induction ts with
  | nil => exact fun events => ⟨⟨[]⟩, by rw [noted_eq]; rfl⟩
  | cons t ts ih => exact fun events => ⟨⟨ts⟩, by rw [noted_eq]; rfl, ih⟩

/-- A stream of the tokens of a list. -/
def TokenStream.ofList (ts : List Token) : TokenStream TokenList :=
  { source := ⟨ts.tail⟩, lookahead := ts.head? }

theorem TokenStream.delivers_ofList (ts : List Token) : (ofList ts).Delivers ts := by
  cases ts with
  | nil => rfl
  | cons t ts => exact ⟨rfl, TokenList.delivers ts⟩

/-! ## Lexers -/

theorem Lexer.noted_eq (events : List Event) (lx : Lexer) : TokenSource.noted events lx = lx := by
  induction events with
  | nil => rfl
  | cons e events ih => exact ih

/-- A lexer without errors delivers what a drain of it takes. -/
theorem Lexer.delivers_drain {lx : Lexer} (h : lx.drain.2.1 = none) :
    TokenSource.Delivers lx lx.drain.1 := by
  induction lx using drain_induct with
  | ended lx next hr hdrain =>
      rw [hdrain]
      exact fun events => ⟨next, by rw [noted_eq]; exact hr⟩
  | failed lx e next hr hdrain =>
      rw [hdrain] at h
      cases h
  | token lx t next hr hdrain ih =>
      rw [hdrain] at h ⊢
      exact fun events => ⟨next, by rw [noted_eq]; exact hr, ih h⟩

/-- The stream over a lexer without errors delivers the tokens of the lexer. -/
theorem TokenStream.exists_ofSource_delivers {lx : Lexer} (hpull : lx.canPull = true)
    (h : lx.drain.2.1 = none) :
    ∃ s, TokenStream.ofSource lx = .ok s ∧ s.Delivers lx.drain.1 := by
  obtain ⟨source, hnext, hrest⟩ := (Lexer.delivers_drain h).next
  refine ⟨{ source, lookahead := lx.drain.1.head? }, ?_, ?_⟩
  · have hcan : (TokenSource.lexer lx).canPull = true := hpull
    rw [ofSource, if_pos hcan, hnext]
  · exact delivers_of_next hrest { source, lookahead := none }

end JackToolchain
