import JackToolchain.Compilation
import JackToolchain.Proofs.Lowering.Spanless
import JackToolchain.Proofs.Syntax.Spanless
import JackToolchain.Proofs.Token.Respacing

/-!
# Compilations of the same tokens

What a class is compiled to depends on its tokens, and on their places only where lines are counted
or an error is placed. So a text is compiled as any text that has other gaps between the tokens.
-/

namespace JackToolchain

open JackToolchain.Source JackToolchain.Diagnostics JackToolchain.Syntax

/-- The error without its place in the tokens. -/
def CompileError.bare : CompileError → CompileError
  | lexing e => .lexing e
  | parsing e => .parsing e.bare
  | lowering e => .lowering e.bare

theorem CompileError.bare_ofSyntax (e : SyntaxError) : (ofSyntax e).bare = ofSyntax e.bare := by
  cases e <;> rfl

namespace Compilation

/-- What a compilation comes to, but for the count of lines and the place of an error. -/
def bareResult (c : Compilation) : Except CompileError CompiledClass :=
  (c.result.map fun compiled => { compiled with lines := 0 }).mapError CompileError.bare

def compiledOf (tree : ClassTree) (consumed lines : Nat) (commands : List Stack.Command) :
    CompiledClass :=
  { className := tree.name
    commands
    text := Stack.render commands
    tokens := consumed
    lines
    subroutines := tree.subroutines.length }

theorem result_lower (tree : ClassTree) (consumed : Nat) (lx : Lexer) (events : Array Event) :
    (lower tree consumed lx events).result =
      ((Lowering.lowerClass tree).result.map (compiledOf tree consumed lx.linesRead)).mapError
        .lowering := by
  unfold lower
  generalize Lowering.lowerClass tree = outcome
  rcases outcome with ⟨e | commands, reported⟩ <;> rfl

theorem bareResult_lower (tree : ClassTree) (consumed : Nat) (lx lx' : Lexer)
    (events events' : Array Event) :
    (lower tree.bare consumed lx' events').bareResult =
      (lower tree consumed lx events).bareResult := by
  have hsubroutines : tree.bare.subroutines.length = tree.subroutines.length :=
    List.length_map _
  rw [bareResult, bareResult, result_lower, result_lower, Lowering.lowerClass_bare]
  cases (Lowering.lowerClass tree).result with
  | error e => cases e <;> rfl
  | ok commands =>
      simp only [Except.mapError, Except.map, compiledOf, hsubroutines]
      rfl

theorem bareResult_failed (e : SyntaxError) (events : Array Event) :
    (⟨.error (.ofSyntax e), events⟩ : Compilation).bareResult = .error (.ofSyntax e.bare) :=
  congrArg Except.error (CompileError.bare_ofSyntax e)

/-- A lexer is compiled as the list of its tokens without spans is. -/
theorem bareResult_ofLexer {lx : Lexer} (hpull : lx.canPull = true) (h : lx.drain.2.1 = none)
    (name : String) :
    (ofLexer name lx).bareResult =
      (ofSource name (TokenList.mk (lx.drain.1.map Token.bare))).bareResult := by
  obtain ⟨s, hs, hparse⟩ := ClassTree.ofStream_of_drain hpull h
  have hlist : TokenStream.ofSource (TokenList.mk (lx.drain.1.map Token.bare)) =
      .ok (TokenStream.ofList (lx.drain.1.map Token.bare)) := rfl
  simp only [ofLexer, ofSource, hs, hlist]
  -- from here on only what the two parses come to counts
  generalize ClassTree.ofStream s = r at hparse ⊢
  generalize ClassTree.ofStream (TokenStream.ofList _) = r' at hparse ⊢
  obtain ⟨hparse, hconsumed⟩ := hparse
  match r, r' with
  | (.error e, rest), (.error e', rest') =>
      have he : e.bare = e'.bare := Except.error.inj hparse
      simp only [bareResult_failed, he]
  | (.ok tree, rest), (.ok tree', rest') =>
      obtain rfl : tree.bare = tree' := Except.ok.inj hparse
      have hcount : rest'.consumed = rest.consumed := (hconsumed tree rfl).symm
      simp only [hcount]
      exact (bareResult_lower tree _ _ _ _ _).symm
  | (.error e, rest), (.ok tree', rest') => cases hparse
  | (.ok tree, rest), (.error e', rest') => cases hparse

/-- From a text with any gaps between the tokens of a lexer the same tokens are read; they are
parsed as the same tree and compiled to the same commands, or refused for the same reason. -/
theorem bareResult_of_spaced {lx : Lexer} {text : List Char} (hpull : lx.canPull = true)
    (hends : lx.drain.2.1 = none) (hspaced : Token.Spaced lx.drain.1 text) (detailed : Bool) :
    let respaced := Lexer.ofText text detailed
    respaced.drain.2.1 = none ∧
      respaced.drain.1.map Token.bare = lx.drain.1.map Token.bare ∧
      (∃ s s', TokenStream.ofSource lx = .ok s ∧ TokenStream.ofSource respaced = .ok s' ∧
        bareParse (ClassTree.ofStream s').1 = bareParse (ClassTree.ofStream s).1) ∧
      ∀ name, (ofLexer name respaced).bareResult = (ofLexer name lx).bareResult := by
  intro respaced
  obtain ⟨hends', htokens⟩ := Lexer.drain_of_spaced hspaced detailed
  refine ⟨hends', htokens, ?_, fun name => ?_⟩
  · obtain ⟨s, hs, hparse, -⟩ := ClassTree.ofStream_of_drain hpull hends
    obtain ⟨s', hs', hparse', -⟩ := ClassTree.ofStream_of_drain rfl hends'
    rw [htokens] at hparse'
    exact ⟨s, s', hs, hs', hparse'.trans hparse.symm⟩
  · rw [bareResult_ofLexer rfl hends', bareResult_ofLexer hpull hends, htokens]

/-- An empty class, and the class with a comment in two of its gaps. -/
theorem bareResult_of_spaced_class :
    let source := ['c', 'l', 'a', 's', 's', ' ', 'A', '{', '}']
    let text := ['c', 'l', 'a', 's', 's', ' ', '/', '/', '\n', 'A', '\t', '{', ' ', '/', '*',
      '*', '/', '}']
    (Lexer.ofText source).drain.2.1 = none ∧
      Token.Spaced (Lexer.ofText source).drain.1 text ∧
      ∀ name, (ofLexer name (.ofText text)).bareResult =
        (ofLexer name (.ofText source)).bareResult := by
  intro source text
  let word : Token := ⟨.keyword .classWord, "class", ⟨.origin, ⟨5, 1, 6⟩⟩⟩
  let name : Token := ⟨.identifier "A", "A", ⟨⟨6, 1, 7⟩, ⟨7, 1, 8⟩⟩⟩
  let left : Token := ⟨.symbol .leftBrace, "\x7b", ⟨⟨7, 1, 8⟩, ⟨8, 1, 9⟩⟩⟩
  let right : Token := ⟨.symbol .rightBrace, "\x7d", ⟨⟨8, 1, 9⟩, ⟨9, 1, 10⟩⟩⟩
  let behind (buffer : List Char) (position : Position) (keywords identifiers symbols : Nat) :
      Lexer :=
    { buffer, position, finished := true
      metrics :=
        { total := keywords + identifiers + symbols, keywords, identifiers, symbols
          maxIdentifier := identifiers } }
  have hword : (Lexer.ofText source).next =
      (.ok (some word), behind [' ', 'A', '{', '}'] ⟨5, 1, 6⟩ 1 0 0) := Lexer.next_of_token rfl
  have hname : (behind [' ', 'A', '{', '}'] ⟨5, 1, 6⟩ 1 0 0).next =
      (.ok (some name), behind ['{', '}'] ⟨7, 1, 8⟩ 1 1 0) :=
    (Lexer.next_of_skipped rfl).trans (Lexer.next_of_token rfl)
  have hleft : (behind ['{', '}'] ⟨7, 1, 8⟩ 1 1 0).next =
      (.ok (some left), behind ['}'] ⟨8, 1, 9⟩ 1 1 1) := Lexer.next_of_token rfl
  have hright : (behind ['}'] ⟨8, 1, 9⟩ 1 1 1).next =
      (.ok (some right), behind [] ⟨9, 1, 10⟩ 1 1 2) := Lexer.next_of_token rfl
  have hend : (behind [] ⟨9, 1, 10⟩ 1 1 2).next = (.ok none, behind [] ⟨9, 1, 10⟩ 1 1 2) :=
    Lexer.next_of_ended rfl
  have hdrain : (Lexer.ofText source).drain =
      ([word, name, left, right], none, behind [] ⟨9, 1, 10⟩ 1 1 2) := by
    rw [Lexer.drain_of_token hword, Lexer.drain_of_token hname, Lexer.drain_of_token hleft,
      Lexer.drain_of_token hright, Lexer.drain_of_none hend]
  have hends : (Lexer.ofText source).drain.2.1 = none := by rw [hdrain]
  have hspaced : Token.Spaced (Lexer.ofText source).drain.1 text := by
    have hline (after : List Char) : Token.Gap after ['/', '/', '\n'] :=
      .lineComment List.not_mem_nil (.inr rfl) (.blank rfl .nil)
    have hopen : ¬['*', '/'] <:+: ([] : List Char) := by simp
    have hblock (after : List Char) : Token.Gap after ['/', '*', '*', '/'] :=
      .blockComment hopen .nil
    rw [hdrain]
    simpa [word, name, left, right] using
      Token.Spaced.more word (c := ' ') rfl (hline _) <|
        .more name (c := '\t') rfl .nil <| .more left (c := ' ') rfl (hblock _) <| .last right
  obtain ⟨-, -, -, hcompiled⟩ := bareResult_of_spaced rfl hends hspaced true
  exact ⟨hends, hspaced, hcompiled⟩

end Compilation

end JackToolchain
