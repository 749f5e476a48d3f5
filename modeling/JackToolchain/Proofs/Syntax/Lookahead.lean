import JackToolchain.Proofs.Syntax.Congruence
import JackToolchain.Proofs.Syntax.Delivery
import JackToolchain.Proofs.Token.Positions

/-!
# One token of lookahead

Two lexers whose tokens start alike are parsed in step for as long as the lookahead is a common
token: what happens there is the same over both. Behind the last common token the two parses have
nothing to do with each other, but neither goes back: an error is never placed in front of what
has been taken.
-/

namespace JackToolchain

open JackToolchain.Source JackToolchain.Diagnostics JackToolchain.Token

/-! ## Lexers whose tokens start alike -/

namespace Lexer

variable {lx next : Lexer} {bound : Nat} {t : Token} {tokens later : List Token}

/-- The lexer delivers some tokens; what comes behind them starts at a place or later. -/
inductive Opens (bound : Nat) : List Token → Lexer → Prop
  | nil {lx : Lexer}
      (h : ∀ t? next, lx.next = (.ok t?, next) → bound ≤ next.position.offset ∧
        ∀ t, t? = some t → bound ≤ t.span.start.offset) :
      Opens bound [] lx
  | cons {lx next : Lexer} {t : Token} {tokens : List Token} (h : lx.next = (.ok (some t), next))
      (hrest : Opens bound tokens next) : Opens bound (t :: tokens) lx

theorem next_of_drain_cons (h : lx.drain.1 = t :: tokens) :
    ∃ next, lx.next = (.ok (some t), next) ∧ next.drain = (tokens, lx.drain.2) := by
  induction lx using drain_induct with
  | ended lx next hr hdrain | failed lx e next hr hdrain =>
      rw [hdrain] at h
      cases h
  | token lx u next hr hdrain =>
      rw [hdrain] at h
      obtain ⟨rfl, rfl⟩ := List.cons.inj h
      exact ⟨next, hr, by rw [hdrain]⟩

theorem next_of_drain_error {e : LexError} (h : lx.drain = ([], some e, next)) :
    lx.next = (.error e, next) := by
  induction lx using drain_induct with
  | ended lx next hr hdrain =>
      rw [hdrain] at h
      cases h
  | failed lx e next hr hdrain =>
      rw [hdrain] at h
      cases h
      exact hr
  | token lx u next hr hdrain =>
      rw [hdrain] at h
      cases h

/-- What comes behind some tokens starts behind each of them, and no earlier than the first token
that follows. -/
theorem opens_of_drain (h : lx.drain.1 = tokens ++ later)
    (hbound : bound ≤ lx.position.offset ∨ (∃ t ∈ tokens, bound ≤ t.span.stop.offset) ∨
      ∃ u, later.head? = some u ∧ bound ≤ u.span.start.offset) : Opens bound tokens lx := by
  induction tokens generalizing lx with
  | nil =>
      refine .nil fun t? next hnext => ?_
      obtain ⟨hposition, hspan⟩ := position_of_next hnext
      rcases hbound with hbehind | ⟨t, ht, -⟩ | ⟨u, hu, hbefore⟩
      · refine ⟨hbehind.trans hposition, fun t ht => ?_⟩
        exact hbehind.trans (hspan t ht).1
      · cases ht
      · obtain ⟨rest, rfl⟩ : ∃ rest, later = u :: rest := by
          cases later with
          | nil => cases hu
          | cons v rest =>
              cases hu
              exact ⟨rest, rfl⟩
        obtain ⟨next', hnext', -⟩ := next_of_drain_cons h
        rw [hnext'] at hnext
        cases hnext
        obtain ⟨-, hspan, hstop⟩ := hspan u rfl
        rw [hstop] at hspan
        refine ⟨hbefore.trans hspan.le, fun t ht => ?_⟩
        cases ht
        exact hbefore
  | cons t tokens ih =>
      obtain ⟨next, hnext, hrest⟩ := next_of_drain_cons h
      obtain ⟨hposition, hspan⟩ := position_of_next hnext
      refine .cons hnext (ih (congrArg Prod.fst hrest) ?_)
      rcases hbound with hbehind | ⟨u, hu, hbehind⟩ | hbefore
      · exact .inl (hbehind.trans hposition)
      · rcases List.mem_cons.mp hu with rfl | hu
        · exact .inl (by rwa [← (hspan u rfl).2.2])
        · exact .inr (.inl ⟨u, hu, hbehind⟩)
      · exact .inr (.inr hbefore)

end Lexer

namespace Syntax.Parser

open Lexer
open Spanned (view_true)

variable {α β : Type} {bound bound' : Nat} {t : Token} {tokens : List Token}
  {s s' r r' : State Lexer}

/-! ## Behind the last common token -/

/-- Neither the lookahead nor anything to come starts before a place. -/
structure Beyond (bound : Nat) (s : State Lexer) : Prop where
  position : bound ≤ s.source.position.offset
  lookahead : ∀ t, s.lookahead = some t → bound ≤ t.span.start.offset

/-- What a rule ends with: a state beyond a place, or an error that is placed there. -/
def EndsBeyond (bound : Nat) : Except SyntaxError α × State Lexer → Prop
  | (.ok _, s) => Beyond bound s
  | (.error e, _) => ∀ span, e.span? = some span → bound ≤ span.start.offset

/-- The rule never goes back. -/
def Onward (bound : Nat) (p : Parser Lexer α) : Prop :=
  ∀ s, Beyond bound s → EndsBeyond bound (p s)

theorem Beyond.currentSpan (h : Beyond bound s) : bound ≤ s.currentSpan.start.offset := by
  rw [TokenStream.currentSpan]
  split
  · exact h.lookahead _ (by assumption)
  · exact h.position

namespace Onward

variable {p : Parser Lexer α} {f : α → Parser Lexer β}

theorem bind_of_ends (h : EndsBeyond bound (p s)) (hf : ∀ a, Onward bound (f a)) :
    EndsBeyond bound ((p >>= f) s) := by
  rw [bind_apply]
  generalize p s = answer at h
  match answer with
  | (.ok a, s') => exact hf a s' h
  | (.error e, s') => exact h

theorem bind (hp : Onward bound p) (hf : ∀ a, Onward bound (f a)) : Onward bound (p >>= f) :=
  fun s h => bind_of_ends (hp s h) hf

theorem unexpected (expected : Expected) :
    Onward bound (unexpected expected : Parser Lexer α) := by
  intro s h
  simp only [Parser.unexpected, bind_apply, get_apply]
  cases hl : s.lookahead with
  | some t =>
      intro span hspan
      cases hspan
      exact h.lookahead t hl
  | none =>
      intro span hspan
      cases hspan
      exact h.position

theorem tooDeep : Onward bound (tooDeep : Parser Lexer α) := by
  intro s h span hspan
  cases hspan
  exact h.currentSpan

theorem ending (tree : ClassTree) : Onward bound (ending tree : Parser Lexer ClassTree) := by
  intro s h
  simp only [Parser.ending, bind_apply, get_apply]
  cases hl : s.lookahead with
  | some t =>
      intro span hspan
      cases hspan
      exact h.lookahead t hl
  | none => exact h

/-- The next lookahead starts behind the place where the lexer is. -/
theorem advance : Onward bound (advance : Parser Lexer Token) := by
  intro s h
  simp only [Parser.advance, TokenStream.advance, bind_apply, get_apply, set_apply]
  cases hnext : TokenSource.next s.source with
  | mk answer source =>
      cases answer with
      | error e =>
          intro span hspan
          cases hspan
      | ok lookahead =>
          obtain ⟨hposition, hspan⟩ := position_of_next hnext
          have hbeyond (consumed : Nat) (lastSpan : Span) :
              Beyond bound { source, lookahead, consumed, lastSpan, depth := s.depth } :=
            ⟨h.position.trans hposition, fun t ht => h.position.trans (hspan t ht).1⟩
          cases s.lookahead with
          | none => exact unexpected _ _ (hbeyond _ _)
          | some t => exact hbeyond _ _

theorem withDepth_of_ends {answer : Except SyntaxError α × State Lexer}
    (h : EndsBeyond bound answer) (depth : State Lexer → Nat) :
    EndsBeyond bound (answer.1, { answer.2 with depth := depth answer.2 }) := by
  match answer with
  | (.ok a, s) => exact ⟨h.position, h.lookahead⟩
  | (.error e, s) => exact h

theorem nested (hp : Onward bound p) : Onward bound (nested p) := by
  intro s h
  have hopened : Beyond bound { s with depth := s.depth + 1 } := ⟨h.position, h.lookahead⟩
  simp only [Parser.nested]
  split
  · exact tooDeep _ hopened
  · exact withDepth_of_ends (hp _ hopened) fun s => s.depth - 1

theorem iterate_of_ends {step : α → Parser Lexer (Option α)} (hstep : ∀ a, Onward bound (step a))
    {a : α} (h : EndsBeyond bound (step a s)) : EndsBeyond bound (iterate step a s) := by
  induction hn : s.room using Nat.strongRecOn generalizing s a with
  | _ n ih =>
      rw [Parser.iterate]
      generalize step a s = answer at h
      match answer with
      | (.error e, s') => exact h
      | (.ok none, s') => exact h
      | (.ok (some a'), s') =>
          simp only
          split
          · exact ih _ (by omega) (hstep a' s' h) rfl
          · exact h

theorem iterate {step : α → Parser Lexer (Option α)} (hstep : ∀ a, Onward bound (step a)) (a : α) :
    Onward bound (iterate step a) :=
  fun s h => iterate_of_ends hstep (hstep a s h)

end Onward

/-! ## In step -/

/-- Two states that have the same token in hand and get the same tokens next. -/
structure InStep (bound bound' : Nat) (t : Token) (tokens : List Token) (s s' : State Lexer) :
    Prop where
  lookahead : s.lookahead = some t
  lookahead' : s'.lookahead = some t
  depth : s.depth = s'.depth
  opens : Opens bound tokens s.source
  opens' : Opens bound' tokens s'.source

/-- As many tokens are left of some over both, or fewer over both. -/
def TakesAlike (left left' room room' : Nat) : Prop :=
  left = room ∧ left' = room' ∨ left < room ∧ left' < room'

/-- What the same rule does over both: the same, or both leave the common tokens behind. -/
inductive Outcome (bound bound' room room' : Nat) :
    Except SyntaxError α × State Lexer → Except SyntaxError α × State Lexer → Prop
  | ok (a : α) {t : Token} {tokens : List Token} {r r' : State Lexer}
      (h : InStep bound bound' t tokens r r') (hroom : TakesAlike r.room r'.room room room') :
      Outcome bound bound' room room' (.ok a, r) (.ok a, r')
  | error (e : SyntaxError) (h : ∀ l, e ≠ .lexical l) {r r' : State Lexer} :
      Outcome bound bound' room room' (.error e, r) (.error e, r')
  | past {answer answer' : Except SyntaxError α × State Lexer} (h : EndsBeyond bound answer)
      (h' : EndsBeyond bound' answer') : Outcome bound bound' room room' answer answer'

theorem Outcome.of_alike {left left' room room' : Nat}
    {answer answer' : Except SyntaxError α × State Lexer} (h : TakesAlike left left' room room')
    (houtcome : Outcome bound bound' left left' answer answer') :
    Outcome bound bound' room room' answer answer' := by
  cases houtcome with
  | ok a hstep hroom =>
      refine .ok a hstep ?_
      unfold TakesAlike at *
      omega
  | error e he => exact .error e he
  | past hends hends' => exact .past hends hends'

/-- The lookahead is taken and the next one follows. -/
theorem advance_of_next {source : Lexer} {u? : Option Token} (hs : s.lookahead = some t)
    (hnext : s.source.next = (.ok u?, source)) :
    advance s = (.ok t,
      { source, lookahead := u?, consumed := s.consumed + 1, lastSpan := t.span
        depth := s.depth }) := by
  have hsource : TokenSource.next s.source = (.ok u?, source) := hnext
  simp [Parser.advance, TokenStream.advance, bind_apply, hs, hsource]

theorem advance_of_last (hs : s.lookahead = some t)
    (hbehind : ∀ u? next, s.source.next = (.ok u?, next) → bound ≤ next.position.offset ∧
      ∀ u, u? = some u → bound ≤ u.span.start.offset) : EndsBeyond bound (advance s) := by
  match hnext : s.source.next with
  | (.ok u?, source) =>
      rw [advance_of_next hs hnext]
      exact ⟨(hbehind u? source hnext).1, (hbehind u? source hnext).2⟩
  | (.error e, source) =>
      have hsource : TokenSource.next s.source = (.error e, source) := hnext
      simp only [Parser.advance, TokenStream.advance, bind_apply, get_apply, set_apply, hsource]
      intro span hspan
      cases hspan

/-- The same rule over both lexers. -/
structure Together (bound bound' : Nat) (p q : Parser Lexer α) : Prop where
  onward : Onward bound p
  onward' : Onward bound' q
  outcome : ∀ {t tokens s s'}, InStep bound bound' t tokens s s' →
    Outcome bound bound' s.room s'.room (p s) (q s')

namespace Together

variable {p q : Parser Lexer α} {f g : α → Parser Lexer β}

theorem pure (a : α) : Together bound bound' (pure a : Parser Lexer α) (pure a) where
  onward _ h := h
  onward' _ h := h
  outcome h := .ok a h (.inl ⟨rfl, rfl⟩)

theorem bind (hp : Together bound bound' p q) (hf : ∀ a, Together bound bound' (f a) (g a)) :
    Together bound bound' (p >>= f) (q >>= g) where
  onward := hp.onward.bind fun a => (hf a).onward
  onward' := hp.onward'.bind fun a => (hf a).onward'
  outcome {t tokens s s'} h := by
    have houtcome := hp.outcome h
    generalize hanswer : p s = answer at houtcome
    generalize hanswer' : q s' = answer' at houtcome
    cases houtcome with
    | ok a hstep hroom =>
        rw [bind_apply, bind_apply, hanswer, hanswer']
        exact ((hf a).outcome hstep).of_alike hroom
    | error e he =>
        rw [bind_apply, bind_apply, hanswer, hanswer']
        exact .error e he
    | past hends hends' =>
        exact .past (Onward.bind_of_ends (hanswer ▸ hends) fun a => (hf a).onward)
          (Onward.bind_of_ends (hanswer' ▸ hends') fun a => (hf a).onward')

theorem look {f g : State Lexer → Parser Lexer α}
    (h : ∀ s s', s.lookahead = s'.lookahead → Together bound bound' (f s) (g s')) :
    Together bound bound' (get >>= f) (get >>= g) where
  onward s hs := (h s s rfl).onward s hs
  onward' s hs := (h s s rfl).onward' s hs
  outcome {_ _ s s'} hstep :=
    (h s s' (hstep.lookahead.trans hstep.lookahead'.symm)).outcome hstep

theorem unexpected (expected : Expected) :
    Together bound bound' (unexpected expected : Parser Lexer α) (unexpected expected) where
  onward := .unexpected expected
  onward' := .unexpected expected
  outcome h := by
    simp only [Parser.unexpected, bind_apply, get_apply, h.lookahead, h.lookahead']
    exact .error _ fun l he => by cases he

theorem tooDeep :
    Together bound bound' (tooDeep : Parser Lexer α) tooDeep where
  onward := .tooDeep
  onward' := .tooDeep
  outcome h := by
    simp only [Parser.tooDeep, bind_apply, get_apply, TokenStream.currentSpan, h.lookahead,
      h.lookahead']
    exact .error _ fun l he => by cases he

theorem ending (tree : ClassTree) :
    Together bound bound' (ending tree) (ending tree) where
  onward := .ending tree
  onward' := .ending tree
  outcome h := by
    simp only [Parser.ending, bind_apply, get_apply, h.lookahead, h.lookahead']
    exact .error _ fun l he => by cases he

theorem advance : Together bound bound' advance advance where
  onward := .advance
  onward' := .advance
  outcome {t tokens s s'} h := by
    obtain ⟨hlookahead, hlookahead', hdepth, hopens, hopens'⟩ := h
    cases hopens with
    | nil hbehind =>
        cases hopens' with
        | nil hbehind' =>
            exact .past (advance_of_last hlookahead hbehind) (advance_of_last hlookahead' hbehind')
    | @cons _ source u tokens hnext hrest =>
        cases hopens' with
        | @cons _ source' _ _ hnext' hrest' =>
            rw [advance_of_next hlookahead hnext, advance_of_next hlookahead' hnext']
            refine .ok t ⟨rfl, rfl, hdepth, hrest, hrest'⟩ (.inr ⟨?_, ?_⟩)
            · have hroom : TokenSource.room source < TokenSource.room s.source := room_of_next hnext
              simpa [TokenStream.room, hlookahead] using hroom
            · have hroom : TokenSource.room source' < TokenSource.room s'.source :=
                room_of_next hnext'
              simpa [TokenStream.room, hlookahead'] using hroom

theorem note (e : Event) : Together bound bound' (note e) (note e) where
  onward _ h := ⟨h.position, h.lookahead⟩
  onward' _ h := ⟨h.position, h.lookahead⟩
  outcome h := .ok () { h with } (.inl ⟨rfl, rfl⟩)

theorem nested (hp : Together bound bound' p q) : Together bound bound' (nested p) (nested q) where
  onward := hp.onward.nested
  onward' := hp.onward'.nested
  outcome {t tokens s s'} h := by
    have hopened : InStep bound bound' t tokens { s with depth := s'.depth + 1 }
        { s' with depth := s'.depth + 1 } :=
      { h with depth := rfl }
    simp only [Parser.nested, h.depth]
    split
    · exact tooDeep.outcome hopened
    · have houtcome := hp.outcome hopened
      generalize p _ = answer at houtcome
      generalize q _ = answer' at houtcome
      cases houtcome with
      | ok a hstep hroom => exact .ok a { hstep with depth := congrArg (· - 1) hstep.depth } hroom
      | error e he => exact .error e he
      | past hends hends' =>
          exact .past (Onward.withDepth_of_ends hends fun s => s.depth - 1)
            (Onward.withDepth_of_ends hends' fun s => s.depth - 1)

/-- The two repetitions end together, since they take tokens together. -/
theorem iterate {step step' : α → Parser Lexer (Option α)}
    (hstep : ∀ a, Together bound bound' (step a) (step' a)) (a : α) :
    Together bound bound' (iterate step a) (iterate step' a) where
  onward := .iterate (fun a => (hstep a).onward) a
  onward' := .iterate (fun a => (hstep a).onward') a
  outcome {t tokens s s'} h := by
    induction hn : s.room using Nat.strongRecOn generalizing t tokens s s' a with
    | _ n ih =>
        subst hn
        have houtcome := (hstep a).outcome h
        generalize hanswer : step a s = answer at houtcome
        generalize hanswer' : step' a s' = answer' at houtcome
        cases houtcome with
        | error e he =>
            rw [Parser.iterate, Parser.iterate, hanswer, hanswer']
            exact .error e he
        | @ok a? u rest r r' hnext hroom =>
            rw [Parser.iterate, Parser.iterate, hanswer, hanswer']
            cases a? with
            | none => exact .ok a hnext hroom
            | some a' =>
                simp only
                rcases hroom with ⟨heq, heq'⟩ | ⟨hless, hless'⟩
                · rw [if_neg (by omega), if_neg (by omega)]
                  exact .ok a' hnext (.inl ⟨heq, heq'⟩)
                · rw [if_pos hless, if_pos hless']
                  exact (ih _ hless a' hnext rfl).of_alike (.inr ⟨hless, hless'⟩)
        | past hends hends' =>
            exact .past (Onward.iterate_of_ends (fun a => (hstep a).onward) (hanswer ▸ hends))
              (Onward.iterate_of_ends (fun a => (hstep a).onward') (hanswer' ▸ hends'))

theorem congruence : Congruence true fun _ _ p q => Together bound bound' p q where
  pure a := (view_true a).symm ▸ .pure a
  bind hp hf := .bind hp fun a => by simpa only [view_true] using hf a
  look h := .look fun s s' hs => h s s' (hs.symm.trans (view_true _).symm)
  advance := .advance
  unexpected := .unexpected
  tooDeep := .tooDeep
  ending tree := (view_true tree).symm ▸ .ending tree
  note := .note
  nested := .nested
  iterate hstep a := (view_true a).symm ▸ .iterate (fun a => by simpa only [view_true] using hstep a) a

theorem program : Together bound bound' program program :=
  relates_program congruence

end Together

/-! ## The header of a class -/

section Header

variable {p : Parser Lexer α} {f : α → Parser Lexer β}

theorem fst_bind_of_error {e : SyntaxError} (h : (p s).1 = .error e) :
    ((p >>= f) s).1 = .error e := by
  rw [bind_apply]
  generalize p s = answer at h
  obtain ⟨result, s'⟩ := answer
  subst h
  rfl

theorem fst_bind_of_ok {a : α} {result : Except SyntaxError β} (h : p s = (.ok a, s'))
    (hf : (f a s').1 = result) : ((p >>= f) s).1 = result := by
  rw [bind_apply, h]
  exact hf

theorem fst_advance_of_error {e : LexError} (h : s.source.next.1 = .error e) :
    (advance s).1 = .error (.lexical e) := by
  have hsource : (TokenSource.next s.source).1 = .error e := h
  simp only [Parser.advance, TokenStream.advance, bind_apply, get_apply, set_apply]
  generalize TokenSource.next s.source = answer at hsource
  obtain ⟨result, source⟩ := answer
  subst hsource
  rfl

theorem expectKeyword_of_advance {word : Keyword} (hs : s.isKeyword word)
    (h : advance s = (.ok t, s')) : expectKeyword word s = (.ok t.span, s') := by
  simp only [expectKeyword, bind_apply, isKeyword_apply, hs, if_true, h, pure_apply]

theorem expectIdentifier_of_lookahead {text : String} (hs : s.lookahead = some t)
    (ht : t.kind = .identifier text) :
    expectIdentifier s = (advance >>= fun t => pure (text, t.span) : Parser Lexer _) s := by
  simp only [expectIdentifier, bind_apply, get_apply, hs, Option.bind_some, Token.identifier?, ht]

theorem fst_expectSymbol_of_ne {symbol : Symbol} (hs : s.lookahead = some t)
    (ht : t.kind ≠ .symbol symbol) :
    (expectSymbol symbol s).1 = .error (.unexpectedToken (.symbol symbol) t.raw t.span) := by
  have hother : s.isSymbol symbol = false := by
    rw [TokenStream.isSymbol, hs]
    cases hk : t.kind <;> simp_all [Token.symbol?]
  simp [expectSymbol, bind_apply, hother, Parser.unexpected, hs]

/-- Behind the name of a class only a brace is accepted. -/
theorem program_of_header {word name : Token} {text : String} {next : Lexer}
    (hword : word.kind = .keyword .classWord) (hname : name.kind = .identifier text)
    (hs : s.lookahead = some word) (hnext : s.source.next = (.ok (some name), next)) :
    (∀ e, next.next.1 = .error e → (program s).1 = .error (.lexical e)) ∧
    ∀ t source, next.next = (.ok (some t), source) → t.kind ≠ .symbol .leftBrace →
      (program s).1 = .error (.unexpectedToken (.symbol .leftBrace) t.raw t.span) := by
  have hstarts : s.isKeyword .classWord = true := by
    simp [TokenStream.isKeyword, hs, Token.keyword?, hword]
  obtain ⟨r, hclass, hr, hsource⟩ : ∃ r : State Lexer,
      expectKeyword .classWord s = (.ok word.span, r) ∧ r.lookahead = some name ∧
        r.source = next :=
    ⟨_, expectKeyword_of_advance hstarts (advance_of_next hs hnext), rfl, rfl⟩
  have hidentifier := expectIdentifier_of_lookahead hr hname
  refine ⟨fun e he => ?_, fun t source ht hkind => ?_⟩
  · refine fst_bind_of_error (fst_bind_of_ok hclass (fst_bind_of_error ?_))
    rw [hidentifier]
    exact fst_bind_of_error (fst_advance_of_error (hsource ▸ he))
  · rw [bind_apply, advance_of_next hr (hsource ▸ ht)] at hidentifier
    refine fst_bind_of_error (fst_bind_of_ok hclass (fst_bind_of_ok hidentifier ?_))
    exact fst_bind_of_error (fst_expectSymbol_of_ne rfl hkind)

end Header

end Syntax.Parser

/-! ## Two parses -/

namespace Syntax.ClassTree

open JackToolchain.Lexer JackToolchain.Syntax.Parser

variable {lx lx' : Lexer} {s s' : TokenStream Lexer} {bound bound' : Nat} {t : Token}
  {tokens : List Token}

theorem next_of_ofSource (hs : TokenStream.ofSource lx = .ok s) :
    lx.next = (.ok s.lookahead, s.source) := by
  obtain ⟨lookahead, source, hnext, rfl⟩ := TokenStream.exists_next_of_ofSource hs
  exact hnext

theorem ofStream_fst (s : TokenStream Lexer) : (ofStream s).1 = (program { s with }).1 := by
  rw [ofStream, run]
  rfl

/-- Streams whose tokens start alike are parsed alike until a parse has left these tokens behind. -/
theorem outcome_of_opens (hs : TokenStream.ofSource lx = .ok s)
    (hs' : TokenStream.ofSource lx' = .ok s') (h : Opens bound (t :: tokens) lx)
    (h' : Opens bound' (t :: tokens) lx') :
    Outcome bound bound' s.room s'.room (program { s with }) (program { s' with }) := by
  have hnext := next_of_ofSource hs
  have hnext' := next_of_ofSource hs'
  cases h with
  | cons hfirst hrest =>
      cases h' with
      | cons hfirst' hrest' =>
          obtain ⟨hlookahead, rfl⟩ := Prod.mk.inj (hfirst.symm.trans hnext)
          obtain ⟨hlookahead', rfl⟩ := Prod.mk.inj (hfirst'.symm.trans hnext')
          have hstep : InStep bound bound' t tokens { s with } { s' with } :=
            ⟨(Except.ok.inj hlookahead).symm, (Except.ok.inj hlookahead').symm, rfl, hrest, hrest'⟩
          exact Together.program.outcome hstep

/-- An error is never placed in front of the first token. -/
theorem ends_of_nil (hs : TokenStream.ofSource lx = .ok s) (h : Opens bound [] lx) :
    EndsBeyond bound (program { s with }) := by
  cases h with
  | nil hbehind =>
      obtain ⟨hposition, hlookahead⟩ := hbehind _ _ (next_of_ofSource hs)
      have hprogram : Together bound bound Parser.program Parser.program := .program
      exact hprogram.onward _ ⟨hposition, hlookahead⟩

/-- An error at a common token is an error of both parses. -/
theorem error_of_token (hs : TokenStream.ofSource lx = .ok s)
    (hs' : TokenStream.ofSource lx' = .ok s') {k : Nat} {e : SyntaxError}
    (ht : lx.drain.1[k]? = some t) (hshared : lx'.drain.1.take (k + 1) = lx.drain.1.take (k + 1))
    (he : (ofStream s).1 = .error e) (hspan : e.span? = some t.span) :
    (ofStream s').1 = .error e := by
  have hmem : t ∈ lx.drain.1.take (k + 1) :=
    List.mem_of_getElem? (by rw [List.getElem?_take_of_lt (Nat.lt_succ_self k), ht])
  have hopens : Opens t.span.stop.offset (lx.drain.1.take (k + 1)) lx :=
    opens_of_drain (List.take_append_drop _ _).symm (.inr (.inl ⟨t, hmem, Nat.le_refl _⟩))
  have hopens' : Opens 0 (lx.drain.1.take (k + 1)) lx' :=
    opens_of_drain (hshared ▸ (List.take_append_drop (k + 1) lx'.drain.1).symm)
      (.inl (Nat.zero_le _))
  obtain ⟨first, rest, hfirst⟩ := List.exists_cons_of_ne_nil (List.ne_nil_of_mem hmem)
  rw [hfirst] at hopens hopens'
  have houtcome := outcome_of_opens hs hs' hopens hopens'
  rw [ofStream_fst] at he ⊢
  generalize program { s with } = answer at houtcome he
  generalize program { s' with } = answer' at houtcome
  cases houtcome with
  | ok tree _ _ => cases he
  | error e' _ => exact he
  | past hends _ =>
      obtain ⟨result, r⟩ := answer
      obtain rfl : result = .error e := he
      have hstop := hends t.span hspan
      have hless := (ordered_drain lx).nonempty t (List.mem_of_getElem? ht)
      omega

/-- An error of the text is only met when the common tokens are left behind. -/
theorem bound_of_lexical (hs : TokenStream.ofSource lx = .ok s)
    (hs' : TokenStream.ofSource lx' = .ok s') {l : LexError} {e : SyntaxError} {span : Span}
    (hl : (ofStream s).1 = .error (.lexical l)) (hopens : Opens bound lx.drain.1 lx)
    (hopens' : Opens bound' lx.drain.1 lx') (he : (ofStream s').1 = .error e)
    (hspan : e.span? = some span) : bound' ≤ span.start.offset := by
  have hends' : EndsBeyond bound' (program { s' with }) := by
    match htokens : lx.drain.1 with
    | [] =>
        rw [htokens] at hopens'
        exact ends_of_nil hs' hopens'
    | first :: rest =>
        rw [htokens] at hopens hopens'
        have houtcome := outcome_of_opens hs hs' hopens hopens'
        rw [ofStream_fst] at hl
        generalize program { s with } = answer at houtcome hl
        generalize program { s' with } = answer' at houtcome
        cases houtcome with
        | ok tree _ _ => cases hl
        | error e' hlexical => exact absurd (Except.error.inj hl) (hlexical l)
        | past _ hends' => exact hends'
  rw [ofStream_fst] at he
  generalize program { s' with } = answer at hends' he
  obtain ⟨result, r⟩ := answer
  obtain rfl : result = .error e := he
  exact hends' span hspan

/-- Over two streams with the same first `k + 1` tokens, an error of the first parse that is placed
at token `k` is the error of the second parse. If the first parse meets an error of the text, then
over any stream with the tokens in front of it no error is placed before the next token. -/
theorem error_of_shared_tokens (hs : TokenStream.ofSource lx = .ok s)
    (hs' : TokenStream.ofSource lx' = .ok s') :
    (∀ k t e, lx.drain.1[k]? = some t → lx'.drain.1.take (k + 1) = lx.drain.1.take (k + 1) →
      (ofStream s).1 = .error e → e.span? = some t.span → (ofStream s').1 = .error e) ∧
    ∀ e, (ofStream s).1 = .error (.lexical e) → lx.drain.1 <+: lx'.drain.1 →
      ∀ e' span, (ofStream s').1 = .error e' → e'.span? = some span →
        (∀ t ∈ lx.drain.1, t.span.stop.offset ≤ span.start.offset) ∧
        ∀ t, lx'.drain.1[lx.drain.1.length]? = some t →
          t.span.start.offset ≤ span.start.offset := by
  refine ⟨fun k t e => error_of_token hs hs', fun e he hshared e' span he' hspan => ?_⟩
  obtain ⟨later, hlater⟩ := hshared
  have hopens : Opens 0 lx.drain.1 lx :=
    opens_of_drain (List.append_nil _).symm (.inl (Nat.zero_le _))
  refine ⟨fun t ht => ?_, fun t ht => ?_⟩
  · have hopens' := opens_of_drain hlater.symm (.inr (.inl ⟨t, ht, Nat.le_refl _⟩))
    exact bound_of_lexical hs hs' he hopens hopens' he' hspan
  · have hnext : later.head? = some t := by
      rw [← hlater, List.getElem?_append_right (Nat.le_refl _), Nat.sub_self] at ht
      rw [List.head?_eq_getElem?, ht]
    have hopens' := opens_of_drain hlater.symm (.inr (.inr ⟨t, hnext, Nat.le_refl _⟩))
    exact bound_of_lexical hs hs' he hopens hopens' he' hspan

/-- The parse of a text that starts like a class stops behind the name, unless a brace follows. -/
theorem exists_error_of_header {word name : Token} {text : String} {rest : List Token}
    {refused : Option LexError} {final : Lexer} (hpull : lx.canPull = true)
    (hdrain : lx.drain = (word :: name :: rest, refused, final))
    (hword : word.kind = .keyword .classWord) (hname : name.kind = .identifier text) :
    ∃ s, TokenStream.ofSource lx = .ok s ∧
      (∀ t ∈ rest.head?, t.kind ≠ .symbol .leftBrace →
        (ofStream s).1 = .error (.unexpectedToken (.symbol .leftBrace) t.raw t.span)) ∧
      (rest = [] → ∀ e ∈ refused, (ofStream s).1 = .error (.lexical e)) := by
  obtain ⟨source, hfirst, hsource⟩ := next_of_drain_cons (congrArg Prod.fst hdrain)
  obtain ⟨next, hsecond, hnext⟩ := next_of_drain_cons (congrArg Prod.fst hsource)
  have hstream : TokenStream.ofSource lx = .ok { source, lookahead := some word } := by
    have hlexer : TokenSource.next lx = (.ok (some word), source) := hfirst
    have hcan : (TokenSource.lexer lx).canPull = true := hpull
    simp [TokenStream.ofSource, hcan, hlexer]
  refine ⟨_, hstream, fun t ht hkind => ?_, fun hrest e he => ?_⟩
  · obtain ⟨later, rfl⟩ := List.head?_eq_some_iff.mp ht
    obtain ⟨behind, hthird, -⟩ := next_of_drain_cons (congrArg Prod.fst hnext)
    rw [ofStream_fst]
    exact (program_of_header hword hname rfl hsecond).2 t behind hthird hkind
  · subst hrest
    cases he
    have hrefused : next.drain = ([], some e, final) := by
      rw [hnext, hsource, hdrain]
    rw [ofStream_fst]
    refine (program_of_header hword hname rfl hsecond).1 e ?_
    rw [next_of_drain_error hrefused]

def headerText : List Char := "class A(".toList

def longerText : List Char := "class A(?".toList

def brokenText : List Char := "class A?".toList

def headerError : SyntaxError :=
  .unexpectedToken (.symbol .leftBrace) "(" ⟨⟨7, 1, 8⟩, ⟨8, 1, 9⟩⟩

/-- A parenthesis behind the name of a class is refused, whatever follows it. If something else that
is no token stands in its place, the parse that meets this has come as far. -/
theorem error_of_shared_header : ∃ s s' s'',
    TokenStream.ofSource (ofText headerText) = .ok s ∧
    TokenStream.ofSource (ofText longerText) = .ok s' ∧
    TokenStream.ofSource (ofText brokenText) = .ok s'' ∧
    (ofStream s).1 = .error headerError ∧ (ofStream s').1 = .error headerError ∧
    (ofStream s'').1 = .error (.lexical (.unrecognized "?" 1 8)) ∧
    ∀ t ∈ (ofText brokenText).drain.1, t.span.stop.offset ≤ 7 := by
  have hdrain {text : List Char} {tokens : List Token} {refused : Option LexError}
      (h : ((ofText text).scanned 10).map (fun outcome => (outcome.1, outcome.2.1)) =
        some (tokens, refused)) : ∃ final, (ofText text).drain = (tokens, refused, final) := by
    obtain ⟨⟨_, _, final⟩, hscanned, heq⟩ := Option.map_eq_some_iff.mp h
    cases heq
    exact ⟨final, drain_of_scanned hscanned⟩
  let word : Token := ⟨.keyword .classWord, "class", ⟨.origin, ⟨5, 1, 6⟩⟩⟩
  let name : Token := ⟨.identifier "A", "A", ⟨⟨6, 1, 7⟩, ⟨7, 1, 8⟩⟩⟩
  let paren : Token := ⟨.symbol .leftParen, "(", ⟨⟨7, 1, 8⟩, ⟨8, 1, 9⟩⟩⟩
  obtain ⟨final, hheader⟩ : ∃ final, (ofText headerText).drain = ([word, name, paren], none, final) :=
    hdrain (by decide +kernel)
  obtain ⟨final', hlonger⟩ : ∃ final, (ofText longerText).drain =
      ([word, name, paren], some (.unrecognized "?" 1 9), final) := hdrain (by decide +kernel)
  obtain ⟨final'', hbroken⟩ : ∃ final, (ofText brokenText).drain =
      ([word, name], some (.unrecognized "?" 1 8), final) := hdrain (by decide +kernel)
  obtain ⟨s, hs, he, -⟩ := exists_error_of_header rfl hheader rfl rfl
  obtain ⟨s', hs', -⟩ := exists_error_of_header rfl hlonger rfl rfl
  obtain ⟨s'', hs'', -, hl⟩ := exists_error_of_header rfl hbroken rfl rfl
  replace he : (ofStream s).1 = .error headerError := he paren rfl (by decide)
  replace hl : (ofStream s'').1 = .error (.lexical (.unrecognized "?" 1 8)) := hl rfl _ rfl
  refine ⟨s, s', s'', hs, hs', hs'', he, ?_, hl, ?_⟩
  · refine (error_of_shared_tokens hs hs').1 2 paren headerError ?_ ?_ he rfl
    · rw [hheader]
      rfl
    · rw [hheader, hlonger]
  · have hshared : (ofText brokenText).drain.1 <+: (ofText headerText).drain.1 := by
      rw [hbroken, hheader]
      exact ⟨[paren], rfl⟩
    exact ((error_of_shared_tokens hs'' hs).2 _ hl hshared headerError _ he rfl).1

end Syntax.ClassTree

end JackToolchain
