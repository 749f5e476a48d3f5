import JackToolchain.Proofs.Syntax.Congruence
import JackToolchain.Proofs.Token.Feeding
import JackToolchain.Proofs.Token.Streaming

/-!
# Parsing tokens of a list

The grammar decides by kinds. What it makes of the tokens of a lexer is therefore what it makes of a
list of these tokens. From tokens without their spans it makes the same up to spans: the same tree,
or the same error.
-/

namespace JackToolchain

open JackToolchain.Source JackToolchain.Diagnostics JackToolchain.Token JackToolchain.Syntax
open Spanned (view view_true)

/-- The error without its place. -/
def SyntaxError.bare : SyntaxError → SyntaxError
  | unexpectedToken expected found _ => .unexpectedToken expected found .zero
  | unexpectedEnd expected _ => .unexpectedEnd expected .origin
  | trailingInput found _ => .trailingInput found .zero
  | tooDeep _ => .tooDeep .zero
  | lexical e => .lexical e

/-! ## Lexers and lists -/

/-- A lexer that still has the tokens of a list to deliver, and room for `spare` more. The list has
them with their spans or without. -/
structure Lexer.Lists (keep : Bool) (spare : Nat) (lx : Lexer) (list : TokenList) : Prop where
  ends : lx.drain.2.1 = none
  tokens : list.tokens = view keep lx.drain.1
  room : lx.room = list.tokens.length + spare

/-- The step: both deliver the same token, or both are at their end. -/
theorem Lexer.Lists.next {keep : Bool} {spare : Nat} {lx : Lexer} {list : TokenList}
    (h : lx.Lists keep spare list) :
    ∃ t? next, lx.next = (.ok t?, next) ∧ list.tokens.head? = view keep t? ∧
      next.Lists keep spare ⟨list.tokens.tail⟩ := by
  have hends := h.ends
  have htokens := h.tokens
  have hroom := h.room
  have htotal := total_of_next lx
  match hr : lx.next with
  | (.error e, next) =>
      rw [drain_of_error hr] at hends
      cases hends
  | (.ok none, next) =>
      rw [drain_of_none hr] at htokens
      change list.tokens = [] at htokens
      have hend := drain_of_none (next_again hr)
      rw [hr] at htotal
      have hkept : next.room = lx.room :=
        congrArg (Limits.maxTokenCount - ·) (htotal fun count hmany => by cases hmany)
      refine ⟨none, next, rfl, by rw [htokens]; rfl, by rw [hend], ?_, ?_⟩
      · rw [hend, htokens]
        rfl
      · rw [hkept, hroom, htokens]
        rfl
  | (.ok (some t), next) =>
      rw [drain_of_token hr] at hends htokens
      rw [hr] at htotal
      have hcount : next.metrics.total = lx.metrics.total + 1 :=
        htotal fun count hmany => by cases hmany
      refine ⟨some t, next, rfl, by rw [htokens]; rfl, hends, by rw [htokens]; rfl, ?_⟩
      rw [htokens] at hroom ⊢
      change Limits.maxTokenCount - lx.metrics.total =
        (view keep next.drain.1).length + 1 + spare at hroom
      change Limits.maxTokenCount - next.metrics.total = (view keep next.drain.1).length + spare
      omega

namespace Syntax.Parser

variable {keep : Bool} {spare : Nat} {s : State Lexer} {t : State TokenList} {α β : Type}

/-- The same state, as the list shows it. -/
structure Alike (keep : Bool) (spare : Nat) (s : State Lexer) (t : State TokenList) : Prop where
  source : s.source.Lists keep spare t.source
  lookahead : t.lookahead = view keep s.lookahead
  consumed : t.consumed = s.consumed
  depth : t.depth = s.depth

namespace Alike

theorem withDepth (h : Alike keep spare s t) (depth : Nat) :
    Alike keep spare { s with depth } { t with depth } :=
  { h with depth := rfl }

theorem room (h : Alike keep spare s t) : s.room = t.room + spare := by
  have hsource : TokenSource.room s.source = TokenSource.room t.source + spare := h.source.room
  have hlookahead : t.lookahead.isSome = s.lookahead.isSome := by
    rw [h.lookahead]
    cases s.lookahead <;> rfl
  rw [TokenStream.room, TokenStream.room, hsource, hlookahead]
  omega

end Alike

/-- The same tree, as the list shows it, or the same error but for its place. -/
inductive SameButSpans [Spanned α] (keep : Bool) (spare : Nat) :
    Except SyntaxError α × State Lexer → Except SyntaxError α × State TokenList → Prop
  | ok (a : α) {s : State Lexer} {t : State TokenList} (h : Alike keep spare s t) :
    SameButSpans keep spare (.ok a, s) (.ok (view keep a), t)
  | error {e e' : SyntaxError} (h : e.bare = e'.bare) (s : State Lexer) (t : State TokenList) :
    SameButSpans keep spare (.error e, s) (.error e', t)

/-- Both parsers give the same answers. -/
def Matches [Spanned α] (keep : Bool) (spare : Nat) (p : Parser Lexer α)
    (q : Parser TokenList α) : Prop :=
  ∀ s t, Alike keep spare s t → SameButSpans keep spare (p s) (q t)

namespace Matches

variable [Spanned α] [Spanned β]

theorem bind {p : Parser Lexer α} {q : Parser TokenList α} {f : α → Parser Lexer β}
    {g : α → Parser TokenList β} (hp : Matches keep spare p q)
    (hf : ∀ a, Matches keep spare (f a) (g (view keep a))) :
    Matches keep spare (p >>= f) (q >>= g) := by
  intro s t h
  have hanswer := hp s t h
  rw [bind_apply, bind_apply]
  generalize p s = r at hanswer
  generalize q t = r' at hanswer
  cases hanswer with
  | ok a h' => exact hf a _ _ h'
  | error he s' t' => exact .error he s' t'

theorem throw {e e' : SyntaxError} (h : e.bare = e'.bare) :
    Matches keep spare (throw e : Parser Lexer α) (throw e') :=
  fun s t _ => .error h s t

theorem unexpected (expected : Expected) :
    Matches keep spare (unexpected expected : Parser Lexer α) (unexpected expected) := by
  intro s t h
  simp only [Parser.unexpected, bind_apply, get_apply, h.lookahead]
  cases s.lookahead with
  | none | some token =>
      refine throw ?_ s t h
      rfl

theorem tooDeep : Matches keep spare (tooDeep : Parser Lexer α) tooDeep := by
  intro s t h
  refine throw ?_ s t h
  rfl

theorem advance : Matches keep spare advance advance := by
  intro s t h
  obtain ⟨next?, source, hnext, hhead, hrest⟩ := h.source.next
  have hlexer : TokenSource.next s.source = (.ok next?, source) := hnext
  have hlist : TokenSource.next t.source =
      (.ok t.source.tokens.head?, ⟨t.source.tokens.tail⟩) := rfl
  simp only [Parser.advance, TokenStream.advance, bind_apply, get_apply, hlexer, hlist, h.lookahead]
  cases s.lookahead with
  | none => exact unexpected .token _ _ ⟨hrest, hhead, h.consumed, h.depth⟩
  | some token => exact .ok token ⟨hrest, hhead, congrArg (· + 1) h.consumed, h.depth⟩

theorem ending (tree : ClassTree) : Matches keep spare (ending tree) (ending (view keep tree)) := by
  intro s t h
  simp only [Parser.ending, bind_apply, get_apply, h.lookahead]
  cases s.lookahead with
  | none => exact .ok tree h
  | some token =>
      refine throw ?_ s t h
      rfl

theorem nested {p : Parser Lexer α} {q : Parser TokenList α} (hp : Matches keep spare p q) :
    Matches keep spare (nested p) (nested q) := by
  intro s t h
  have hopened : Alike keep spare { s with depth := s.depth + 1 } { t with depth := s.depth + 1 } :=
    h.withDepth _
  simp only [Parser.nested, h.depth]
  split
  · exact tooDeep _ _ hopened
  · have hanswer := hp _ _ hopened
    generalize p _ = r at hanswer
    generalize q _ = r' at hanswer
    cases hanswer with
    | ok a h' => exact .ok a (h'.depth ▸ h'.withDepth _)
    | error he s' t' => exact .error he _ _

theorem iterate {step : α → Parser Lexer (Option α)}
    {step' : α → Parser TokenList (Option α)}
    (hstep : ∀ a, Matches keep spare (step a) (step' (view keep a))) (a : α) :
    Matches keep spare (iterate step a) (iterate step' (view keep a)) := by
  intro s t h
  induction hn : s.room using Nat.strongRecOn generalizing s t a with
  | _ n ih =>
      have hanswer := hstep a s t h
      rw [Parser.iterate, Parser.iterate]
      generalize step a s = r at hanswer
      generalize step' (view keep a) t = r' at hanswer
      cases hanswer with
      | error he s' t' => exact .error he s' t'
      | ok a? h' =>
          cases a? with
          | none => exact .ok a h'
          | some a' =>
              -- `spare` is on both sides, so both go on or neither does
              simp only [h'.room, h.room, Nat.add_lt_add_iff_right]
              change SameButSpans keep spare _ (if _ then _ else _)
              split
              · next hlt => exact ih _ (by rw [← hn, h'.room, h.room]; omega) a' _ _ h' rfl
              · exact .ok a' h'

end Matches

theorem matches_congruence (keep : Bool) (spare : Nat) :
    Congruence keep fun _ _ p q => Matches keep spare p q where
  pure a := fun _ _ h => .ok a h
  bind hp hf := .bind hp hf
  look h := fun s t hst => h s t hst.lookahead s t hst
  advance := .advance
  unexpected := .unexpected
  tooDeep := .tooDeep
  ending := .ending
  note _ := fun _ _ h => .ok () { h with }
  nested := .nested
  iterate hstep a := .iterate hstep a

end Syntax.Parser

/-! ## Streams -/

theorem Lexer.lists_drain {lx : Lexer} (keep : Bool) (h : lx.drain.2.1 = none) :
    lx.Lists keep (lx.room - lx.drain.1.length) ⟨view keep lx.drain.1⟩ where
  ends := h
  tokens := rfl
  room := by
    have hroom := length_drain_le lx
    have hlength : (view keep lx.drain.1).length = lx.drain.1.length := List.length_map _
    change lx.room = (view keep lx.drain.1).length + (lx.room - lx.drain.1.length)
    omega

namespace Syntax

/-- What a parse comes to, without spans. -/
def bareParse (parsed : Except SyntaxError ClassTree) : Except SyntaxError ClassTree :=
  (parsed.map ClassTree.bare).mapError SyntaxError.bare

namespace ClassTree

variable {lx : Lexer}

/-- A stream over a lexer is parsed as the list of its tokens is. -/
theorem exists_same_parse (keep : Bool) (hpull : lx.canPull = true) (h : lx.drain.2.1 = none) :
    ∃ s, TokenStream.ofSource lx = .ok s ∧ ∃ spare,
      Parser.SameButSpans keep spare (Parser.program { s with })
        (Parser.program { TokenStream.ofList (view keep lx.drain.1) with }) := by
  obtain ⟨s, hs, -⟩ := TokenStream.exists_ofSource_delivers hpull h
  obtain ⟨lookahead, source, hnext, rfl⟩ := TokenStream.exists_next_of_ofSource hs
  obtain ⟨_, _, hfirst, hhead, hrest⟩ := (Lexer.lists_drain keep h).next
  cases hnext.symm.trans hfirst
  exact ⟨_, hs, _, Parser.relates_program (Parser.matches_congruence keep _) _ _
    ⟨hrest, hhead, rfl, rfl⟩⟩

/-- A stream over a lexer is parsed as the list of its tokens without spans is. -/
theorem ofStream_of_drain (hpull : lx.canPull = true) (h : lx.drain.2.1 = none) :
    ∃ s, TokenStream.ofSource lx = .ok s ∧
      let (parsed, rest) := ofStream s
      let (parsed', rest') := ofStream (TokenStream.ofList (lx.drain.1.map Token.bare))
      bareParse parsed = parsed'.mapError SyntaxError.bare ∧
        ∀ tree, parsed = .ok tree → rest.consumed = rest'.consumed := by
  obtain ⟨s, hs, spare, hparse⟩ := exists_same_parse false hpull h
  have hbare : view false lx.drain.1 = lx.drain.1.map Token.bare := rfl
  rw [hbare] at hparse
  refine ⟨s, hs, ?_⟩
  simp only [ofStream, Parser.run]
  generalize (Parser.program : Parser Lexer ClassTree) _ = r at hparse
  generalize (Parser.program : Parser TokenList ClassTree) _ = r' at hparse
  cases hparse with
  | ok tree h' => exact ⟨rfl, fun _ _ => h'.consumed.symm⟩
  | error he s t => exact ⟨congrArg Except.error he, fun tree hok => by cases hok⟩

/-- The tree of a list of tokens is the tree, spans included, of a lexer that delivers them. -/
theorem ofStream_of_tokens {tree : ClassTree} (hpull : lx.canPull = true)
    (h : lx.drain.2.1 = none)
    (htree : (ofStream (TokenStream.ofList lx.drain.1)).1 = .ok tree) :
    ∃ s s', TokenStream.ofSource lx = .ok s ∧ ofStream s = (.ok tree, s') := by
  obtain ⟨s, hs, spare, hparse⟩ := exists_same_parse true hpull h
  rw [view_true] at hparse
  refine ⟨s, ?_⟩
  simp only [ofStream, Parser.run] at htree ⊢
  generalize (Parser.program : Parser Lexer ClassTree) _ = r at hparse
  generalize (Parser.program : Parser TokenList ClassTree) _ = r' at hparse htree
  cases hparse with
  | ok parsed h' =>
      obtain rfl : parsed = tree := (view_true parsed).symm.trans (Except.ok.inj htree)
      exact ⟨_, hs, rfl⟩
  | error he s t => cases htree

/-- The tree of a whole text, as long as fuel is left to read it. -/
def parsed? (fuel : Nat) (lx : Lexer) : Option ClassTree :=
  match lx.scanned fuel with
  | some (tokens, none, _) => (ofStream (TokenStream.ofList tokens)).1.toOption
  | _ => none

theorem exists_ofStream_of_parsed {fuel : Nat} {tree : ClassTree} (hpull : lx.canPull = true)
    (h : parsed? fuel lx = some tree) :
    ∃ s s', TokenStream.ofSource lx = .ok s ∧ ofStream s = (.ok tree, s') := by
  unfold parsed? at h
  split at h
  · rename_i tokens rest hscanned
    have hdrain := Lexer.drain_of_scanned hscanned
    refine ofStream_of_tokens hpull (by rw [hdrain]) ?_
    rw [hdrain]
    exact eq_ok_of_toOption h
  · cases h

end ClassTree

end Syntax

end JackToolchain
