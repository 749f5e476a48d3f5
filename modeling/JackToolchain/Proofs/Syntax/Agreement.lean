import JackToolchain.Compilation
import JackToolchain.Proofs.Syntax.Congruence

/-!
# Parsers over sources that deliver the same

Two kinds of source deliver the same tokens when a relation between them survives every token. Over
related sources every rule of the grammar gives the same answer, so a class compiles the same from
either. A relation may also be lossy: then a failure of the first source may show on the second one
as anything, and only what succeeds over the first one is known to succeed over the second one.
-/

namespace JackToolchain

open JackToolchain.Source JackToolchain.Diagnostics JackToolchain.Token

variable {σ τ : Type}

/-- The same answer; `R` relates what is left after a success and `E` what is left after a
failure. A failure may be lost if `lossy` says so. -/
inductive SameAnswer {ε α : Type} (lossy : Prop) (R E : σ → τ → Prop) :
    Except ε α × σ → Except ε α × τ → Prop
  | ok (a : α) {s : σ} {t : τ} (h : R s t) : SameAnswer lossy R E (.ok a, s) (.ok a, t)
  | error (e : ε) {s : σ} {t : τ} (h : E s t) : SameAnswer lossy R E (.error e, s) (.error e, t)
  | lost (h : lossy) (e : ε) (s : σ) (answer : Except ε α × τ) :
    SameAnswer lossy R E (.error e, s) answer

namespace Syntax.Parser

/-- The same state but for the sources. -/
structure Lift (P : σ → τ → Prop) (s : State σ) (t : State τ) : Prop where
  source : P s.source t.source
  lookahead : s.lookahead = t.lookahead
  consumed : s.consumed = t.consumed
  lastSpan : s.lastSpan = t.lastSpan
  depth : s.depth = t.depth

theorem Lift.withDepth {P : σ → τ → Prop} {s : State σ} {t : State τ} (h : Lift P s t)
    (depth : Nat) : Lift P { s with depth } { t with depth } :=
  { h with depth := rfl }

end Syntax.Parser

variable [TokenSource σ] [TokenSource τ]

/-- Two sources that show the same of what they have delivered. -/
structure SameView (s : σ) (t : τ) : Prop where
  position : (TokenSource.lexer s).position = (TokenSource.lexer t).position
  metrics : (TokenSource.lexer s).metrics = (TokenSource.lexer t).metrics
  trace : TokenSource.trace s = TokenSource.trace t

/-- A relation between sources that survives whatever is asked of them. -/
structure Bisimulation (lossy : Prop) (R : σ → τ → Prop) : Prop where
  view : ∀ {s t}, R s t → SameView s t
  canPull : ∀ {s t}, R s t → (TokenSource.lexer s).canPull = (TokenSource.lexer t).canPull
  room : ∀ {s t}, R s t → TokenSource.room s = TokenSource.room t
  note : ∀ {s t}, R s t → ∀ e, R (TokenSource.note e s) (TokenSource.note e t)
  next : ∀ {s t}, R s t → SameAnswer lossy R SameView (TokenSource.next s) (TokenSource.next t)

namespace Syntax.Parser

namespace Lift

variable {lossy : Prop} {R : σ → τ → Prop} {s : State σ} {t : State τ}

theorem view (hR : Bisimulation lossy R) (h : Lift R s t) : Lift SameView s t :=
  { h with source := hR.view h.source }

theorem endPosition (h : Lift SameView s t) : s.endPosition = t.endPosition := h.source.position

theorem currentSpan (h : Lift SameView s t) : s.currentSpan = t.currentSpan := by
  rw [TokenStream.currentSpan, TokenStream.currentSpan, h.lookahead, h.endPosition]

theorem room (hR : Bisimulation lossy R) (h : Lift R s t) : s.room = t.room := by
  rw [TokenStream.room, TokenStream.room, hR.room h.source, h.lookahead]

end Lift

/-- The same answer from all states that differ in related sources only. -/
def Agree {α : Type} (lossy : Prop) (R : σ → τ → Prop) (p : Parser σ α) (q : Parser τ α) :
    Prop :=
  ∀ s t, Lift R s t → SameAnswer lossy (Lift R) (Lift SameView) (p s) (q t)

namespace Agree

variable {lossy : Prop} {R : σ → τ → Prop} {α β : Type}

theorem pure (a : α) : Agree lossy R (pure a) (pure a) :=
  fun _ _ h => .ok a h

theorem bind {p : Parser σ α} {q : Parser τ α} {f : α → Parser σ β} {g : α → Parser τ β}
    (hp : Agree lossy R p q) (hf : ∀ a, Agree lossy R (f a) (g a)) :
    Agree lossy R (p >>= f) (q >>= g) := by
  intro s t h
  have hanswer := hp s t h
  rw [bind_apply, bind_apply]
  generalize p s = r at hanswer
  generalize q t = r' at hanswer
  cases hanswer with
  | ok a h' => exact hf a _ _ h'
  | error e h' => exact .error e h'
  | lost hlossy e s' => exact .lost hlossy e s' _

/-- What a rule sees of its state does not tell the sources apart. -/
theorem get {f : State σ → Parser σ α} {g : State τ → Parser τ α}
    (h : ∀ s t, Lift R s t → Agree lossy R (f s) (g t)) :
    Agree lossy R (get >>= f) (get >>= g) :=
  fun s t hst => h s t hst s t hst

variable (hR : Bisimulation lossy R)

include hR

theorem unexpected (expected : Expected) :
    Agree lossy R (unexpected expected : Parser σ α) (unexpected expected) := by
  intro s t h
  simp only [Parser.unexpected, bind_apply, get_apply, h.lookahead, (h.view hR).endPosition]
  cases t.lookahead <;> exact .error _ (h.view hR)

theorem tooDeep : Agree lossy R (tooDeep : Parser σ α) tooDeep := by
  intro s t h
  simp only [Parser.tooDeep, bind_apply, get_apply, (h.view hR).currentSpan]
  exact .error _ (h.view hR)

theorem advance : Agree lossy R advance advance := by
  intro s t h
  have hnext := hR.next h.source
  simp only [Parser.advance, TokenStream.advance, bind_apply, get_apply, h.lookahead]
  generalize TokenSource.next s.source = r at hnext
  generalize TokenSource.next t.source = r' at hnext
  cases hnext with
  | ok lookahead h' =>
      cases t.lookahead with
      | none => exact unexpected hR _ _ _ { h with source := h', lookahead := rfl }
      | some token =>
          exact .ok _
            { source := h', lookahead := rfl, consumed := congrArg (· + 1) h.consumed
              lastSpan := rfl, depth := h.depth }
  | error e h' =>
      exact .error _
        { source := h', lookahead := rfl, consumed := h.consumed, lastSpan := h.lastSpan
          depth := h.depth }
  | lost hlossy e s' => exact .lost hlossy _ _ _

theorem note (e : Event) : Agree lossy R (note e) (note e) :=
  fun _ _ h => .ok () { h with source := hR.note h.source e }

theorem nested {p : Parser σ α} {q : Parser τ α} (hp : Agree lossy R p q) :
    Agree lossy R (nested p) (nested q) := by
  intro s t h
  have hopened : Lift R { s with depth := s.depth + 1 } { t with depth := s.depth + 1 } :=
    h.withDepth _
  simp only [Parser.nested, ← h.depth]
  split
  · exact tooDeep hR _ _ hopened
  · have hanswer := hp _ _ hopened
    generalize p _ = r at hanswer
    generalize q _ = r' at hanswer
    cases hanswer with
    | ok a h' => exact .ok a (h'.depth ▸ h'.withDepth _)
    | error e h' => exact .error e (h'.depth ▸ h'.withDepth _)
    | lost hlossy e s' => exact .lost hlossy e _ _

theorem iterate {step : α → Parser σ (Option α)} {step' : α → Parser τ (Option α)}
    (hstep : ∀ a, Agree lossy R (step a) (step' a)) (a : α) :
    Agree lossy R (iterate step a) (iterate step' a) := by
  intro s t h
  induction hn : s.room using Nat.strongRecOn generalizing s t a with
  | _ n ih =>
      have hanswer := hstep a s t h
      rw [Parser.iterate, Parser.iterate]
      generalize step a s = r at hanswer
      generalize step' a t = r' at hanswer
      cases hanswer with
      | error e h' => exact .error e h'
      | lost hlossy e s' => exact .lost hlossy e s' _
      | ok a? h' =>
          cases a? with
          | none => exact .ok a h'
          | some a' =>
              simp only [h'.room hR, h.room hR]
              split
              · next hlt => exact ih _ (by rw [← hn, h'.room hR, h.room hR]; exact hlt) a' _ _ h' rfl
              · exact .ok a' h'

end Agree

theorem agree_ending {lossy : Prop} {R : σ → τ → Prop} (hR : Bisimulation lossy R)
    (tree : ClassTree) : Agree lossy R (ending tree) (ending tree) := by
  intro s t h
  simp only [ending, bind_apply, get_apply, h.lookahead]
  cases t.lookahead with
  | none => exact .ok tree h
  | some token => exact .error _ (h.view hR)

open Spanned (view_true) in
theorem agree_congruence {lossy : Prop} {R : σ → τ → Prop} (hR : Bisimulation lossy R) :
    Congruence true fun _ _ p q => Agree lossy R p q where
  pure a := (view_true a).symm ▸ .pure a
  bind hp hf := .bind hp fun a => by simpa only [view_true] using hf a
  look h := .get fun s t hst => h s t (hst.lookahead.symm.trans (view_true _).symm)
  advance := .advance hR
  unexpected := .unexpected hR
  tooDeep := .tooDeep hR
  ending tree := (view_true tree).symm ▸ agree_ending hR tree
  note := .note hR
  nested := .nested hR
  iterate hstep a := (view_true a).symm ▸
    .iterate hR (fun a => by simpa only [view_true] using hstep a) a

theorem agree_program {lossy : Prop} {R : σ → τ → Prop} (hR : Bisimulation lossy R) :
    Agree lossy R program program :=
  relates_program (agree_congruence hR)

end Syntax.Parser

open JackToolchain.Syntax

namespace Compilation

theorem lower_eq {lx lx' : Lexer} (h : lx.position = lx'.position) (tree : ClassTree)
    (consumed : Nat) (events : Array Event) :
    lower tree consumed lx events = lower tree consumed lx' events := by
  have hlines : lx.linesRead = lx'.linesRead := by rw [Lexer.linesRead, Lexer.linesRead, h]
  simp only [lower, hlines]

/-- A class compiles the same from sources that deliver the same. -/
theorem ofSource_eq {R : σ → τ → Prop} (hR : Bisimulation False R) {s : σ} {t : τ} (h : R s t)
    (name : String) : ofSource name s = ofSource name t := by
  have hnext := hR.next h
  by_cases hpull : (TokenSource.lexer t).canPull = true
  · simp only [ofSource, TokenStream.ofSource, hR.canPull h, hpull, if_true]
    generalize TokenSource.next s = r at hnext
    generalize TokenSource.next t = r' at hnext
    cases hnext with
    | lost hlossy => exact hlossy.elim
    | error e h' => simp only [h'.trace, h'.position]
    | @ok lookahead s' t' h' =>
        have hparse := Parser.agree_program hR { source := s', lookahead } { source := t', lookahead }
          ⟨h', rfl, rfl, rfl, rfl⟩
        simp only [ClassTree.ofStream, Parser.run]
        generalize (Parser.program : Parser σ ClassTree) _ = r at hparse
        generalize (Parser.program : Parser τ ClassTree) _ = r' at hparse
        cases hparse with
        | lost hlossy => exact hlossy.elim
        | error e h'' => simp only [h''.source.trace, h''.endPosition]
        | ok tree h'' =>
            have hview := hR.view h''.source
            have hmetrics := hview.metrics
            simp only [hview.trace, h''.consumed, TokenStream.lexer, hmetrics]
            exact lower_eq hview.position _ _ _
  · simp only [ofSource, TokenStream.ofSource, hR.canPull h, hpull, Bool.false_eq_true, if_false,
      (hR.view h).trace, (hR.view h).position]

end Compilation

end JackToolchain
