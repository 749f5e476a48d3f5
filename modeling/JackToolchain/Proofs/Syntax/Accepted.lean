import JackToolchain.Proofs.Syntax.Agreement
import JackToolchain.Proofs.Syntax.Declarations
import JackToolchain.Proofs.Token.Values

/-!
# Accepted sources

A class that is parsed from a lexer is derived by the grammar from the tokens that the lexer
delivers, even if an error would come behind them.
-/

namespace JackToolchain

open JackToolchain.Source JackToolchain.Diagnostics JackToolchain.Syntax

/-- A lexer whose errors count as the end of its input. -/
structure Mended where
  lexer : Lexer

namespace Mended

def next (m : Mended) : Except LexError (Option Token) × Mended :=
  match m.lexer.next with
  | (.ok answer, lx) => (.ok answer, ⟨lx⟩)
  | (.error _, _) => (.ok none, m)

theorem next_of_ok {m : Mended} {answer : Option Token} {lx : Lexer}
    (h : m.lexer.next = (.ok answer, lx)) : m.next = (.ok answer, ⟨lx⟩) := by
  rw [next, h]

theorem next_of_error {m : Mended} {e : LexError} {lx : Lexer}
    (h : m.lexer.next = (.error e, lx)) : m.next = (.ok none, m) := by
  rw [next, h]

theorem room_of_next {m m' : Mended} {t : Token} (h : m.next = (.ok (some t), m')) :
    m'.lexer.room < m.lexer.room := by
  match hr : m.lexer.next with
  | (.ok answer, lx) =>
      rw [next_of_ok hr] at h
      cases h
      exact Lexer.room_of_next hr
  | (.error e, lx) =>
      rw [next_of_error hr] at h
      cases h

theorem room_of_end {m m' : Mended} (h : m.next = (.ok none, m')) :
    m'.lexer.room ≤ m.lexer.room := by
  match hr : m.lexer.next with
  | (.ok answer, lx) =>
      rw [next_of_ok hr] at h
      cases h
      exact Lexer.room_of_end hr
  | (.error e, lx) =>
      rw [next_of_error hr] at h
      cases h
      exact Nat.le_refl _

end Mended

instance : TokenSource Mended where
  next := Mended.next
  lexer := Mended.lexer
  room m := m.lexer.room
  room_of_next := Mended.room_of_next
  room_of_end := Mended.room_of_end
  note _ m := m
  room_note := rfl
  trace _ := #[]

namespace Mended

theorem noted_eq (events : List Event) (m : Mended) : TokenSource.noted events m = m := by
  induction events with
  | nil => rfl
  | cons e events ih => exact ih

/-- What succeeds over a lexer succeeds when its errors count as the end. -/
theorem bisimulation : Bisimulation True fun (lx : Lexer) (m : Mended) => lx = m.lexer where
  view := by
    rintro _ m rfl
    exact ⟨rfl, rfl, rfl⟩
  canPull := by
    rintro _ m rfl
    rfl
  room := by
    rintro _ m rfl
    rfl
  note := fun h _ => h
  next := by
    rintro _ m rfl
    change SameAnswer True _ SameView m.lexer.next m.next
    match hr : m.lexer.next with
    | (.ok answer, lx) =>
        rw [next_of_ok hr]
        exact .ok answer rfl
    | (.error e, lx) => exact .lost trivial e lx _

theorem delivers_drain (lx : Lexer) : TokenSource.Delivers (Mended.mk lx) lx.drain.1 := by
  induction lx using Lexer.drain_induct with
  | ended lx next hr hdrain =>
      rw [hdrain]
      exact fun events => ⟨⟨next⟩, by rw [noted_eq]; exact next_of_ok hr⟩
  | failed lx e next hr hdrain =>
      rw [hdrain]
      exact fun events => ⟨⟨lx⟩, by rw [noted_eq]; exact next_of_error hr⟩
  | token lx t next hr hdrain ih =>
      rw [hdrain]
      exact fun events => ⟨⟨next⟩, by rw [noted_eq]; exact next_of_ok hr, ih⟩

end Mended

namespace Syntax

/-- What is parsed over a lexer is parsed when its errors count as the end. -/
theorem Parser.program_mended {source : Lexer} {lookahead : Option Token} {s : State Lexer}
    {tree : ClassTree}
    (h : program { source, lookahead : State Lexer } = (.ok tree, s)) :
    ∃ t, program { source := Mended.mk source, lookahead : State Mended } = (.ok tree, t) := by
  have hanswer := agree_program Mended.bisimulation { source, lookahead }
    { source := Mended.mk source, lookahead } ⟨rfl, rfl, rfl, rfl, rfl⟩
  rw [h] at hanswer
  generalize (program : Parser Mended ClassTree) _ = answer at hanswer ⊢
  cases hanswer with
  | ok _ h' => exact ⟨_, rfl⟩

namespace ClassTree

variable {lx : Lexer} {s s' : TokenStream Lexer} {tree : ClassTree}

/-- A class that is parsed from a lexer is parsed from a stream of the tokens of the lexer. -/
theorem exists_program_of_ofStream (hs : TokenStream.ofSource lx = .ok s)
    (h : ofStream s = (.ok tree, s')) :
    ∃ m m' : Parser.State Mended, m.Delivers lx.drain.1 ∧ m.depth = 0 ∧
      Parser.program m = (.ok tree, m') := by
  obtain ⟨lookahead, source, hnext, rfl⟩ := TokenStream.exists_next_of_ofSource hs
  have hlexer : lx.next = (.ok lookahead, source) := hnext
  obtain ⟨m, hmended, hrest⟩ := (Mended.delivers_drain lx).next
  have hsame : TokenSource.next (Mended.mk lx) = (.ok lookahead, ⟨source⟩) :=
    Mended.next_of_ok hlexer
  rw [hsame] at hmended
  cases hmended
  cases hprogram : Parser.program { source, lookahead := lx.drain.1.head? : Parser.State Lexer } with
  | mk result t =>
      simp only [ofStream, Parser.run, hprogram] at h
      cases h
      obtain ⟨m', hm'⟩ := Parser.program_mended hprogram
      refine ⟨_, m', ?_, rfl, hm'⟩
      exact TokenStream.delivers_of_next hrest { source := Mended.mk source, lookahead := none }

/-- A class that is parsed from a lexer is derived from the tokens of the lexer. -/
theorem isClass_of_ofStream (hs : TokenStream.ofSource lx = .ok s)
    (h : ofStream s = (.ok tree, s')) :
    IsClass Limits.maxParseDepth (lx.drain.1.map Token.kind) tree.bare := by
  obtain ⟨m, m', hdelivers, hdepth, hprogram⟩ := exists_program_of_ofStream hs h
  have hclass := (Parser.program_sound hdelivers hprogram).1
  rwa [hdepth] at hclass

end ClassTree

end Syntax

end JackToolchain
