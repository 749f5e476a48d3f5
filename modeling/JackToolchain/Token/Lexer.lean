import JackToolchain.Token.Rule

/-!
# Lexers

A lexer holds the text that has arrived and is not consumed. More text comes from chunks that it
pulls when it needs them, or is fed to it. A lexeme that reaches the end of the text at hand is
held back until more text or the end of input has arrived.
-/

namespace JackToolchain

open JackToolchain.Source JackToolchain.Token

/-- Why a chunk cannot be delivered. -/
inductive ReadFailure
  | invalidEncoding
  | other (message : String)
  deriving DecidableEq, Repr

abbrev Chunk := Except ReadFailure (List Char)

/-- Counts of what a lexer has consumed. -/
structure Metrics where
  total : Nat := 0
  keywords : Nat := 0
  symbols : Nat := 0
  identifiers : Nat := 0
  strings : Nat := 0
  integers : Nat := 0
  comments : Nat := 0
  maxString : Nat := 0
  maxIdentifier : Nat := 0
  deriving DecidableEq, Repr

namespace Metrics

/-- Counts a token, and its kind if `detailed`. -/
def count (m : Metrics) (detailed : Bool) (kind : Kind) : Metrics :=
  let m := { m with total := m.total + 1 }
  if detailed then
    match kind with
    | .keyword _ => { m with keywords := m.keywords + 1 }
    | .symbol _ => { m with symbols := m.symbols + 1 }
    | .identifier name =>
      { m with
        identifiers := m.identifiers + 1
        maxIdentifier := max m.maxIdentifier name.utf8ByteSize }
    | .stringLiteral value =>
      { m with strings := m.strings + 1, maxString := max m.maxString value.utf8ByteSize }
    | .integerLiteral _ => { m with integers := m.integers + 1 }
  else m

@[simp] theorem total_count (m : Metrics) (detailed : Bool) (kind : Kind) :
    (m.count detailed kind).total = m.total + 1 := by
  unfold count
  cases detailed <;> cases kind <;> rfl

end Metrics

structure Lexer where
  /-- The chunks to come, if the lexer pulls its text. -/
  chunks : Option (List Chunk) := none
  /-- The text that has arrived and is not consumed. -/
  buffer : List Char := []
  position : Position := .origin
  /-- No more text will arrive. -/
  finished : Bool := false
  metrics : Metrics := {}
  detailed : Bool := true

namespace Lexer

/-- A lexer over a whole text. -/
def ofText (text : List Char) (detailed : Bool := true) : Lexer :=
  { buffer := text, finished := true, detailed }

/-- A lexer that pulls chunks. -/
def ofChunks (chunks : List Chunk) (detailed : Bool := true) : Lexer :=
  { chunks := some chunks, detailed }

/-- A lexer that waits to be fed. -/
def fed (detailed : Bool := true) : Lexer := { detailed }

/-- What happens at the front of the text at hand. -/
inductive Scan
  | token (t : Token) (next : Lexer)
  /-- A blank or a comment was consumed. -/
  | skipped (next : Lexer)
  | needsInput
  | ended
  | failed (e : LexError) (next : Lexer)

/-- Consumes the lexeme that a rule takes. -/
def consume (lx : Lexer) (rule : Rule) (lexeme rest : List Char) : Scan :=
  let stop := lx.position.advance lexeme
  match rule.value? lexeme lx.position with
  | .error e => .failed e lx
  | .ok none =>
    let comments :=
      if rule = .blank then lx.metrics.comments else lx.metrics.comments + 1
    .skipped
      { lx with buffer := rest, position := stop, metrics := { lx.metrics with comments } }
  | .ok (some kind) =>
    let next :=
      { lx with buffer := rest, position := stop, metrics := lx.metrics.count lx.detailed kind }
    if next.metrics.total > Limits.maxTokenCount then .failed (.tooManyTokens next.metrics.total) next
    else .token ⟨kind, String.ofList lexeme, ⟨lx.position, stop⟩⟩ next

def scan (lx : Lexer) : Scan :=
  if lx.buffer.isEmpty then if lx.finished then .ended else .needsInput
  else
    match Rule.first lx.buffer with
    | some (rule, .lexeme lexeme rest) =>
      if rest.isEmpty && !lx.finished then .needsInput else lx.consume rule lexeme rest
    | some (_, .unfinished) =>
      if lx.finished then .failed (Rule.unmatched lx.buffer lx.position) lx else .needsInput
    | _ => .failed (Rule.unmatched lx.buffer lx.position) lx

/-- The outcome of asking for one more chunk. -/
inductive Pull
  /-- There is nothing to pull from. -/
  | dry
  | more (next : Lexer)
  | failed (e : LexError) (next : Lexer)

def pull (lx : Lexer) : Pull :=
  match lx.chunks with
  | none => .dry
  | some [] => .more { lx with chunks := none, finished := true }
  | some (.ok text :: chunks) =>
    .more { lx with chunks := some chunks, buffer := lx.buffer ++ text }
  | some (.error failure :: _) =>
    let line := lx.position.line
    let e :=
      match failure with
      | .invalidEncoding => .invalidEncoding line
      | .other message => .readFailed message line
    .failed e { lx with chunks := none }

/-- How often the lexer can still pull. -/
def pulls (lx : Lexer) : Nat :=
  match lx.chunks with
  | none => 0
  | some chunks => chunks.length + 1

theorem pulls_of_pull {lx next : Lexer} (h : lx.pull = .more next) : next.pulls < lx.pulls := by
  unfold pull at h
  split at h
  · simp at h
  · next hc => cases h; simp [pulls, hc]
  · next hc => cases h; simp [pulls, hc]
  · simp at h

theorem consume_skipped {lx next : Lexer} {rule : Rule} {lexeme rest : List Char}
    (h : lx.consume rule lexeme rest = .skipped next) :
    next.chunks = lx.chunks ∧ next.buffer = rest := by
  simp only [consume] at h
  split at h
  · simp at h
  · cases h; exact ⟨rfl, rfl⟩
  · split at h <;> simp at h

theorem scan_skipped {lx next : Lexer} (h : lx.scan = .skipped next) :
    next.pulls = lx.pulls ∧ next.buffer.length < lx.buffer.length := by
  unfold scan at h
  split at h
  · split at h <;> simp at h
  · split at h
    · next hf =>
      split at h
      · simp at h
      · obtain ⟨hc, hb⟩ := consume_skipped h
        obtain ⟨ht, hne⟩ := Rule.first_eq_append hf
        refine ⟨by simp [pulls, hc], ?_⟩
        rw [hb, ht, List.length_append]
        have := List.length_pos_iff.2 hne
        omega
    · split at h <;> simp at h
    · simp at h

/-- The next token. `none` is the end of input, or for a lexer that is fed, that the text at hand
has run dry. -/
def next (lx : Lexer) : Except LexError (Option Token) × Lexer :=
  match hs : lx.scan with
  | .token t lx' => (.ok (some t), lx')
  | .failed e lx' => (.error e, lx')
  | .ended => (.ok none, lx)
  | .skipped lx' =>
    have := scan_skipped hs
    lx'.next
  | .needsInput =>
    match hp : lx.pull with
    | .dry => (.ok none, lx)
    | .failed e lx' => (.error e, lx')
    | .more lx' =>
      have := pulls_of_pull hp
      lx'.next
termination_by (lx.pulls, lx.buffer.length)
decreasing_by
  · rw [this.1]
    exact Prod.Lex.right _ this.2
  · exact Prod.Lex.left _ _ this

/-- How many more tokens the lexer can deliver at most. -/
def room (lx : Lexer) : Nat := Limits.maxTokenCount - lx.metrics.total

theorem consume_token {lx next : Lexer} {rule : Rule} {lexeme rest : List Char} {t : Token}
    (h : lx.consume rule lexeme rest = .token t next) : next.room < lx.room := by
  simp only [consume] at h
  split at h
  · simp at h
  · simp at h
  · split at h
    · simp at h
    · next hle =>
      cases h
      simp only [Metrics.total_count] at hle
      simp only [room, Metrics.total_count]
      omega

theorem consume_skipped_room {lx next : Lexer} {rule : Rule} {lexeme rest : List Char}
    (h : lx.consume rule lexeme rest = .skipped next) : next.room = lx.room := by
  simp only [consume] at h
  split at h
  · simp at h
  · cases h; rfl
  · split at h <;> simp at h

theorem scan_token_room {lx next : Lexer} {t : Token} (h : lx.scan = .token t next) :
    next.room < lx.room := by
  unfold scan at h
  split at h
  · split at h <;> simp at h
  · split at h
    · split at h
      · simp at h
      · exact consume_token h
    · split at h <;> simp at h
    · simp at h

theorem scan_skipped_room {lx next : Lexer} (h : lx.scan = .skipped next) :
    next.room = lx.room := by
  unfold scan at h
  split at h
  · split at h <;> simp at h
  · split at h
    · split at h
      · simp at h
      · exact consume_skipped_room h
    · split at h <;> simp at h
    · simp at h

theorem pull_room {lx next : Lexer} (h : lx.pull = .more next) : next.room = lx.room := by
  unfold pull at h
  split at h
  · simp at h
  · cases h; rfl
  · cases h; rfl
  · simp at h

/-- A delivered token leaves room for fewer. -/
theorem room_of_next {lx lx' : Lexer} {t : Token} (h : lx.next = (.ok (some t), lx')) :
    lx'.room < lx.room := by
  fun_induction next lx with
  | case1 lx t' after hs =>
    cases h
    exact scan_token_room hs
  | case2 => simp at h
  | case3 => simp at h
  | case4 lx after hs _ ih => exact scan_skipped_room hs ▸ ih h
  | case5 => simp at h
  | case6 => simp at h
  | case7 lx hs after hp _ ih => exact pull_room hp ▸ ih h

theorem room_of_end {lx lx' : Lexer} (h : lx.next = (.ok none, lx')) : lx'.room ≤ lx.room := by
  fun_induction next lx with
  | case1 => simp at h
  | case2 => simp at h
  | case3 => cases h; exact Nat.le_refl _
  | case4 lx after hs _ ih => exact scan_skipped_room hs ▸ ih h
  | case5 => cases h; exact Nat.le_refl _
  | case6 => simp at h
  | case7 lx hs after hp _ ih => exact pull_room hp ▸ ih h

/-- Takes tokens until there is none; `taken` holds the tokens before, reversed. -/
def drainFrom (taken : List Token) (lx : Lexer) :
    List Token × Option LexError × Lexer :=
  match h : lx.next with
  | (.ok none, lx') => (taken.reverse, none, lx')
  | (.error e, lx') => (taken.reverse, some e, lx')
  | (.ok (some t), lx') =>
    have := room_of_next h
    drainFrom (t :: taken) lx'
termination_by lx.room

/-- All tokens that can be had now, and the error that stopped them. -/
def drain (lx : Lexer) : List Token × Option LexError × Lexer :=
  drainFrom [] lx

/-- The tokens of a drain, unless an error stopped it. -/
def drained (lx : Lexer) : Except LexError (List Token) × Lexer :=
  match lx.drain with
  | (tokens, none, lx') => (.ok tokens, lx')
  | (_, some e, lx') => (.error e, lx')

/-- Adds text and takes the tokens that are complete now. -/
def feed (lx : Lexer) (text : List Char) : Except LexError (List Token) × Lexer :=
  if lx.finished then (.error .inputClosed, lx)
  else { lx with buffer := lx.buffer ++ text }.drained

/-- Signals the end of input and takes the tokens that were held back. -/
def finish (lx : Lexer) : Except LexError (List Token) × Lexer :=
  { lx with chunks := none, finished := true }.drained

/-- The end of tokens can only be the end of input. -/
def canPull (lx : Lexer) : Bool := lx.finished || lx.chunks.isSome

def isExhausted (lx : Lexer) : Bool := lx.finished && lx.buffer.isEmpty

/-- Lines consumed, a last one without line feed included. -/
def linesRead (lx : Lexer) : Nat :=
  lx.position.line - 1 + if lx.position.column > 1 then 1 else 0

end Lexer

end JackToolchain
