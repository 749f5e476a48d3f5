import JackToolchain.Token.Lexer

/-!
# Token streams

A source of tokens with one token of lookahead. The next token is asked for only when the
lookahead is taken, and an error leaves the lookahead where it is.
-/

namespace JackToolchain

open JackToolchain.Source JackToolchain.Diagnostics

/-- Something that delivers the tokens of a lexer one at a time. -/
class TokenSource (σ : Type) where
  next : σ → Except LexError (Option Token) × σ
  /-- The lexer as it is now. -/
  lexer : σ → Lexer
  /-- How many more tokens can be delivered at most. -/
  room : σ → Nat
  room_of_next : ∀ {s s' : σ} {t : Token}, next s = (.ok (some t), s') → room s' < room s
  room_of_end : ∀ {s s' : σ}, next s = (.ok none, s') → room s' ≤ room s
  /-- Hears of what is built from the tokens. -/
  note : Event → σ → σ
  room_note : ∀ {e : Event} {s : σ}, room (note e s) = room s
  /-- What was heard, and the tokens in between. -/
  trace : σ → Array Event

instance : TokenSource Lexer where
  next := Lexer.next
  lexer := id
  room := Lexer.room
  room_of_next := Lexer.room_of_next
  room_of_end := Lexer.room_of_end
  note _ lx := lx
  room_note := rfl
  trace _ := #[]

/-- A lexer that keeps a trace of its tokens and of what is built from them. -/
structure TracedLexer where
  lexer : Lexer
  trace : Array Event := #[]

namespace TracedLexer

def tokenEvent (t : Token) : Event :=
  .debug "Token matched"
    [("rule", Token.Rule.label t.kind), ("lexeme", t.raw), ("at", t.span.start.text)]

def next (tl : TracedLexer) : Except LexError (Option Token) × TracedLexer :=
  match tl.lexer.next with
  | (.ok (some t), lx) => (.ok (some t), ⟨lx, tl.trace.push (tokenEvent t)⟩)
  | (answer, lx) => (answer, ⟨lx, tl.trace⟩)

theorem room_of_next {tl tl' : TracedLexer} {t : Token} (h : tl.next = (.ok (some t), tl')) :
    tl'.lexer.room < tl.lexer.room := by
  unfold next at h
  split at h
  · next heq =>
    cases h
    exact Lexer.room_of_next heq
  · next hne _ =>
    cases h
    exact (hne _ rfl).elim

theorem room_of_end {tl tl' : TracedLexer} (h : tl.next = (.ok none, tl')) :
    tl'.lexer.room ≤ tl.lexer.room := by
  unfold next at h
  split at h
  · simp at h
  · next hne heq =>
    cases h
    exact Lexer.room_of_end heq

end TracedLexer

instance : TokenSource TracedLexer where
  next := TracedLexer.next
  lexer := TracedLexer.lexer
  room tl := tl.lexer.room
  room_of_next := TracedLexer.room_of_next
  room_of_end := TracedLexer.room_of_end
  note e tl := { tl with trace := tl.trace.push e }
  room_note := rfl
  trace := TracedLexer.trace

structure TokenStream (σ : Type) where
  source : σ
  lookahead : Option Token
  /-- Tokens taken so far. -/
  consumed : Nat := 0
  /-- The span of the token taken last. -/
  lastSpan : Span := .zero

namespace TokenStream

variable {σ : Type} [TokenSource σ]

/-- A stream over a lexer that owns its input, with the first lookahead. -/
def ofSource (s : σ) : Except (LexError × σ) (TokenStream σ) :=
  if (TokenSource.lexer s).canPull then
    match TokenSource.next s with
    | (.ok lookahead, s') => .ok { source := s', lookahead }
    | (.error e, s') => .error (e, s')
  else .error (.noInputSource, s)

/-- Takes the lookahead and asks for the next one. -/
def advance (s : TokenStream σ) : Except LexError (Option Token) × TokenStream σ :=
  match TokenSource.next s.source with
  | (.error e, source) => (.error e, { s with source })
  | (.ok lookahead, source) =>
    match s.lookahead with
    | none => (.ok none, { s with source, lookahead })
    | some t =>
      (.ok (some t), { source, lookahead, consumed := s.consumed + 1, lastSpan := t.span })

/-- The lexer behind the stream. -/
def lexer (s : TokenStream σ) : Lexer := TokenSource.lexer s.source

/-- Where the lexer stands. -/
def endPosition (s : TokenStream σ) : Position := s.lexer.position

/-- The span of the lookahead, or the point where the lexer stands. -/
def currentSpan (s : TokenStream σ) : Span :=
  match s.lookahead with
  | some t => t.span
  | none => .point s.endPosition

def isKeyword (s : TokenStream σ) (word : Token.Keyword) : Bool :=
  s.lookahead.any fun t => t.keyword? == some word

def isSymbol (s : TokenStream σ) (symbol : Token.Symbol) : Bool :=
  s.lookahead.any fun t => t.symbol? == some symbol

/-- How many more tokens can be taken. -/
def room (s : TokenStream σ) : Nat :=
  TokenSource.room s.source + if s.lookahead.isSome then 1 else 0

end TokenStream

end JackToolchain
