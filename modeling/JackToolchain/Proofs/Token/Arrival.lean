import JackToolchain.Proofs.Syntax.Agreement
import JackToolchain.Proofs.Token.Reading

/-!
# However a text arrives

A text that is pulled in chunks, fed in chunks or read line by line gives the tokens of the whole
text. Only what an error shows of text that has not arrived can differ, and lines show it all.
-/

namespace JackToolchain

open JackToolchain.Source JackToolchain.Token

namespace Lexer

variable {lx lx' : Lexer}

/-- The second lexer has all the text that the first one gets in lines. -/
def Ahead (lx lx' : Lexer) : Prop :=
  lx = lx' ∨
    ∃ texts, lx.Awaits texts ∧ Lined lx.buffer texts ∧ lx' = lx.complete texts.flatten

theorem Awaits.canPull {texts : List (List Char)} (h : lx.Awaits texts) : lx.canPull = true := by
  cases h with
  | pulling hc _ => simp [Lexer.canPull, hc]
  | ended _ hf => simp [Lexer.canPull, hf]

theorem ahead_next (h : Ahead lx lx') :
    SameAnswer False Ahead SameView (TokenSource.next lx) (TokenSource.next lx') := by
  change SameAnswer False Ahead SameView lx.next lx'.next
  obtain rfl | ⟨texts, hawaits, hlined, rfl⟩ := h
  · match lx.next with
    | (.ok answer, next) => exact .ok answer (.inl rfl)
    | (.error e, next) => exact .error e ⟨rfl, rfl, rfl⟩
  · have hsame := next_complete hawaits
    generalize lx.next = r at hsame
    generalize (lx.complete texts.flatten).next = r' at hsame
    cases hsame with
    | token hawaits' hlined' => exact .ok _ (.inr ⟨_, hawaits', hlined' hlined, rfl⟩)
    | ended _ => exact .ok none (.inl rfl)
    | failed _ he =>
        obtain rfl := he hlined
        exact .error _ ⟨rfl, rfl, rfl⟩

theorem ahead_bisimulation : Bisimulation False Ahead where
  view := by
    rintro lx lx' (rfl | ⟨texts, -, -, rfl⟩)
    · exact ⟨rfl, rfl, rfl⟩
    · exact ⟨rfl, rfl, rfl⟩
  canPull := by
    rintro lx lx' (rfl | ⟨texts, hawaits, -, rfl⟩)
    · rfl
    · exact hawaits.canPull.trans rfl
  room := by
    rintro lx lx' (rfl | ⟨texts, -, -, rfl⟩)
    · rfl
    · rfl
  note h _ := h
  next := ahead_next

theorem awaits_ofChunks (texts : List (List Char)) (detailed : Bool) :
    (ofChunks (texts.map .ok) detailed).Awaits texts :=
  .pulling rfl rfl

theorem complete_ofChunks (texts : List (List Char)) (detailed : Bool) :
    (ofChunks (texts.map .ok) detailed).complete texts.flatten = ofText texts.flatten detailed := rfl

theorem ahead_ofBytes (text : String) (detailed : Bool) :
    Ahead (ofBytes text.toUTF8 detailed) (ofText text.toList detailed) := by
  refine .inr ⟨breakAfter (· == '\n') text.toList, ?_, lined_breakAfter _ (.inl ?_), ?_⟩
  · rw [ofBytes_toUTF8]
    exact awaits_ofChunks _ detailed
  · rw [ofBytes_toUTF8]
    rfl
  · rw [ofBytes_toUTF8, complete_ofChunks, flatten_breakAfter]

/-- Chunks that are pulled, chunks that are fed and lines that are read give the tokens of the
whole text and compile to the same. -/
theorem drain_independent_of_arrival :
    (∀ (texts : List (List Char)) (detailed : Bool),
      let pulled := (ofChunks (texts.map .ok) detailed).drain
      let whole := (ofText texts.flatten detailed).drain
      pulled.1 = whole.1 ∧ pulled.2.2.position = whole.2.2.position ∧
        pulled.2.2.metrics = whole.2.2.metrics ∧
        Option.Rel LexError.CutOf pulled.2.1 whole.2.1 ∧
        (whole.2.1 = none → (fed detailed).feedAll texts = .ok whole.1)) ∧
    (∀ (text : String) (detailed : Bool),
      let read := (ofBytes text.toUTF8 detailed).drain
      let whole := (ofText text.toList detailed).drain
      read.1 = whole.1 ∧ read.2.2.position = whole.2.2.position ∧
        read.2.2.metrics = whole.2.2.metrics ∧ read.2.1 = whole.2.1) ∧
    ∀ name text : String,
      Compilation.ofLexer name (ofBytes text.toUTF8) =
        Compilation.ofLexer name (ofText text.toList) := by
  refine ⟨fun texts detailed => ?_, fun text detailed => ?_, fun name text => ?_⟩
  · have hsame := drain_complete (awaits_ofChunks texts detailed)
    rw [complete_ofChunks] at hsame
    refine ⟨hsame.tokens, hsame.position, hsame.metrics, hsame.error, fun hok => ?_⟩
    exact feedAll_complete rfl rfl texts hok
  · have hlined : Lined [] (breakAfter (· == '\n') text.toList) := lined_breakAfter _ (.inl rfl)
    have hsame := drain_complete (awaits_ofChunks (breakAfter (· == '\n') text.toList) detailed)
    rw [complete_ofChunks, flatten_breakAfter, ← ofBytes_toUTF8] at hsame
    refine ⟨hsame.tokens, hsame.position, hsame.metrics, hsame.exact ?_⟩
    rw [ofBytes_toUTF8]
    exact hlined
  · exact Compilation.ofSource_eq ahead_bisimulation (ahead_ofBytes text true) name

/-- A reserved word whose letters arrive in different chunks. -/
theorem drain_of_split_word :
    let whole := (ofText ['i', 'f']).drain
    whole.2.1 = none ∧ fed.feedAll [['i'], [], ['f']] = .ok whole.1 := by
  have hnext : (ofText ['i', 'f']).next =
      (.ok (some ⟨.keyword .ifWord, "if", ⟨.origin, ⟨2, 1, 3⟩⟩⟩),
        { position := ⟨2, 1, 3⟩, finished := true, metrics := { total := 1, keywords := 1 } }) :=
    next_of_token rfl
  have hend : (ofText ['i', 'f']).drain.2.1 = none := by
    rw [drain_of_token hnext, drain_of_none (next_of_ended rfl)]
  exact ⟨hend, (drain_independent_of_arrival.1 [['i'], [], ['f']] true).2.2.2.2 hend⟩

end Lexer

end JackToolchain
