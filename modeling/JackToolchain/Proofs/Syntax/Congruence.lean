import JackToolchain.Proofs.Syntax.Views

/-!
# Relations between parsers

The grammar is built from a few steps: it hands on a value, runs one rule after the other, decides
by the lookahead, takes it, fails at it, opens a level, or repeats a rule. A relation between the
parsers over two sources that survives each of these steps relates the whole grammar over one
source with the grammar over the other one. The second parser may see all values without spans.
-/

namespace JackToolchain.Syntax.Parser

open JackToolchain.Source JackToolchain.Diagnostics JackToolchain.Token
open Spanned (view view_true)

section Views

variable {σ τ : Type} {s : State σ} {t : State τ} {keep : Bool}

theorem isKeyword_congr (h : t.lookahead = view keep s.lookahead) (word : Keyword) :
    t.isKeyword word = s.isKeyword word := by
  rw [TokenStream.isKeyword, TokenStream.isKeyword, h]
  cases s.lookahead <;> rfl

theorem isSymbol_congr (h : t.lookahead = view keep s.lookahead) (symbol : Symbol) :
    t.isSymbol symbol = s.isSymbol symbol := by
  rw [TokenStream.isSymbol, TokenStream.isSymbol, h]
  cases s.lookahead <;> rfl

theorem bind_congr {β : Type} {f : Token → Option β} (h : t.lookahead = view keep s.lookahead)
    (hf : ∀ u, f (view keep u) = f u) : t.lookahead.bind f = s.lookahead.bind f := by
  rw [h, bind_view keep hf]

end Views

variable {σ τ : Type} [TokenSource σ] [TokenSource τ]

/-- Nothing may follow a class. -/
def ending (tree : ClassTree) : Parser σ ClassTree := do
  match (← get).lookahead with
  | some t => throw (.trailingInput t.raw t.span)
  | none => return tree

/-- A type, a name, and the span from a start to the name. -/
def parameterFrom (start : Span) : Parser σ Parameter := do
  let type ← typeName
  let (name, stop) ← expectIdentifier
  return { type, name, span := start.merge stop }

/-- A parameter starts at its first token; without one it is no parameter. -/
theorem parameter_eq : (parameter : Parser σ Parameter) =
    get >>= fun s =>
      match s.lookahead with
      | some t => parameterFrom t.span
      | none => unexpected .type := by
  funext s
  cases h : s.lookahead with
  | none => simp [parameter, typeName, unexpected, bind_apply, h]
  | some t => simp [parameter, parameterFrom, bind_apply, TokenStream.currentSpan, h]

/-- A relation between parsers that survives the steps of the grammar. What the first parser hands
on is seen by the second one with or without spans. -/
structure Congruence (keep : Bool)
    (R : ∀ ⦃α : Type⦄ [Spanned α], Parser σ α → Parser τ α → Prop) : Prop where
  pure : ∀ {α : Type} [Spanned α] (a : α), R (pure a) (pure (view keep a))
  bind : ∀ {α β : Type} [Spanned α] [Spanned β] {p : Parser σ α} {q : Parser τ α}
    {f : α → Parser σ β} {g : α → Parser τ β},
    R p q → (∀ a, R (f a) (g (view keep a))) → R (p >>= f) (q >>= g)
  look : ∀ {α : Type} [Spanned α] {f : State σ → Parser σ α} {g : State τ → Parser τ α},
    (∀ s t, t.lookahead = view keep s.lookahead → R (f s) (g t)) → R (get >>= f) (get >>= g)
  advance : R advance advance
  unexpected : ∀ {α : Type} [Spanned α] (expected : Expected),
    R (unexpected expected : Parser σ α) (unexpected expected)
  tooDeep : ∀ {α : Type} [Spanned α], R (tooDeep : Parser σ α) tooDeep
  ending : ∀ tree, R (ending tree) (ending (view keep tree))
  note : ∀ e, R (note e) (note e)
  nested : ∀ {α : Type} [Spanned α] {p : Parser σ α} {q : Parser τ α},
    R p q → R (nested p) (nested q)
  iterate : ∀ {α : Type} [Spanned α] {step : α → Parser σ (Option α)}
    {step' : α → Parser τ (Option α)}, (∀ a, R (step a) (step' (view keep a))) →
      ∀ a, R (iterate step a) (iterate step' (view keep a))

variable {keep : Bool} {R : ∀ ⦃α : Type⦄ [Spanned α], Parser σ α → Parser τ α → Prop}
  (K : Congruence keep R)

include K

theorem Congruence.done {α : Type} [Spanned α] {a b : α} (h : b = view keep a) :
    R (Pure.pure a) (Pure.pure b) := h ▸ K.pure a

theorem Congruence.noted {e e' : Event} (h : e' = e) : R (Parser.note e) (Parser.note e') :=
  h ▸ K.note e

theorem Congruence.map {α β : Type} [Spanned α] [Spanned β] {p : Parser σ α} {q : Parser τ α}
    (h : R p q) {f g : α → β} (hf : ∀ a, g (view keep a) = view keep (f a)) :
    R (f <$> p) (g <$> q) := by
  rw [map_eq_pure_bind, map_eq_pure_bind]
  exact K.bind h fun a => K.done (hf a)

omit [TokenSource σ] [TokenSource τ] K in
theorem relates_ite {α : Type} [Spanned α] {c d : Prop} [Decidable c] [Decidable d] (hcd : c ↔ d)
    {p p' : Parser σ α} {q q' : Parser τ α} (hthen : R p q) (helse : R p' q') :
    R (if c then p else p') (if d then q else q') := by
  by_cases hc : c
  · rw [if_pos hc, if_pos (hcd.1 hc)]
    exact hthen
  · rw [if_neg hc, if_neg (mt hcd.2 hc)]
    exact helse

theorem relates_isKeyword (word : Keyword) : R (isKeyword word) (isKeyword word) :=
  K.look fun _ _ h => K.done (isKeyword_congr h word)

theorem relates_isSymbol (symbol : Symbol) : R (isSymbol symbol) (isSymbol symbol) :=
  K.look fun _ _ h => K.done (isSymbol_congr h symbol)

theorem relates_eatSymbol (symbol : Symbol) : R (eatSymbol symbol) (eatSymbol symbol) := by
  refine K.bind (relates_isSymbol K symbol) fun found => ?_
  exact relates_ite .rfl (K.bind K.advance fun _ => K.pure true) (K.pure false)

theorem relates_expectKeyword (word : Keyword) :
    R (expectKeyword word) (expectKeyword word) := by
  refine K.bind (relates_isKeyword K word) fun found => ?_
  exact relates_ite .rfl (K.bind K.advance fun t => K.pure t.span) (K.unexpected _)

theorem relates_expectSymbol (symbol : Symbol) :
    R (expectSymbol symbol) (expectSymbol symbol) := by
  refine K.bind (relates_isSymbol K symbol) fun found => ?_
  exact relates_ite .rfl (K.bind K.advance fun t => K.pure t.span) (K.unexpected _)

theorem relates_expectIdentifier : R expectIdentifier expectIdentifier := by
  refine K.look fun s t h => ?_
  rw [bind_congr h fun _ => rfl]
  cases s.lookahead.bind Token.identifier? with
  | none => exact K.unexpected _
  | some name => exact K.bind K.advance fun t => K.pure (name, t.span)

section Lists

variable {α : Type} [Spanned α] {item : Parser σ α} {item' : Parser τ α} (hitem : R item item')

include hitem

theorem relates_many {starts : State σ → Bool} {starts' : State τ → Bool}
    (hstarts : ∀ s t, t.lookahead = view keep s.lookahead → starts' t = starts s) :
    R (many starts item) (many starts' item') := by
  have hstep : ∀ items,
      R (oneMore starts item items) (oneMore starts' item' (view keep items)) := by
    intro items
    refine K.look fun s t h => relates_ite (by rw [hstarts s t h]) ?_ (K.pure none)
    exact K.bind hitem fun a => K.pure (some (a :: items))
  exact K.bind (K.iterate hstep []) fun items => K.done (view_reverse keep items).symm

theorem relates_separated : R (separated item) (separated item') := by
  have hstep : ∀ items, R (afterComma item items) (afterComma item' (view keep items)) := by
    intro items
    refine K.bind (relates_eatSymbol K .comma) fun found => relates_ite .rfl ?_ (K.pure none)
    exact K.bind hitem fun a => K.pure (some (a :: items))
  exact K.bind hitem fun a => K.bind (K.iterate hstep [a]) fun items =>
    K.done (view_reverse keep items).symm

theorem relates_listed : R (listed item) (listed item') :=
  K.bind (relates_isSymbol K .rightParen) fun _ =>
    relates_ite .rfl (K.pure []) (relates_separated K hitem)

end Lists

section Expressions

variable {expression term : Parser σ Expression} {expression' term' : Parser τ Expression}
  (hexpression : R expression expression')

theorem relates_level (precedence : Nat) (hterm : R term term') :
    R (level precedence term) (level precedence term') := by
  refine K.bind hterm fun first => K.iterate (fun left => ?_) first
  refine K.look fun s t h => ?_
  rw [operator?, operator?, bind_congr h fun _ => rfl]
  split
  · refine K.bind K.advance fun _ => K.bind hterm fun right => K.done ?_
    exact congrArg some (view_join keep _ left right).symm
  · exact K.pure none

theorem relates_levels (hterm : R term term') (count : Nat) :
    R (levels term count) (levels term' count) := by
  induction count with
  | zero => exact hterm
  | succ count ih => exact relates_level K _ ih

include hexpression

theorem relates_callRest (first : String) (start : Span) :
    R (callRest expression first start) (callRest expression' first (view keep start)) := by
  refine K.bind (relates_eatSymbol K .dot) fun dotted => ?_
  refine relates_ite .rfl (K.bind (relates_expectIdentifier K) fun name => ?_) ?_ <;>
    exact K.bind (K.pure _) fun name => K.bind (relates_expectSymbol K .leftParen) fun _ =>
      K.bind (relates_listed K hexpression) fun arguments =>
        K.bind (relates_expectSymbol K .rightParen) fun stop =>
          K.done (by rw [← view_merge, view_name?]; rfl)

theorem relates_nameTerm (name : String) (start : Span) :
    R (nameTerm expression name start) (nameTerm expression' name (view keep start)) := by
  refine K.bind (relates_eatSymbol K .leftBracket) fun bracketed => relates_ite .rfl ?_ ?_
  · refine K.bind hexpression fun index => ?_
    refine K.bind (relates_expectSymbol K .rightBracket) fun stop => K.done ?_
    cases keep <;> rfl
  · refine K.look fun s t h => ?_
    refine relates_ite (by rw [isSymbol_congr h, isSymbol_congr h]) ?_ (K.done ?_)
    · refine K.bind (relates_callRest K hexpression name start) fun call => ?_
      exact K.done (view_toExpression keep call).symm
    · cases keep <;> rfl

theorem relates_termOf (hterm : R term term') :
    R (termOf expression term) (termOf expression' term') := by
  refine K.look fun s t h => ?_
  rw [h, map_kind_view]
  split
  · refine K.bind K.advance fun _ => K.done ?_
    cases keep <;> rfl
  · refine K.bind K.advance fun _ => K.done ?_
    cases keep <;> rfl
  · split
    · rename_i hconstant
      exact K.bind K.advance fun t => K.done (view_constant keep hconstant t.span)
    · exact K.unexpected _
  · refine relates_ite .rfl ?_ ?_
    · refine K.bind K.advance fun _ => K.bind hexpression fun inner => ?_
      exact K.bind (relates_expectSymbol K .rightParen) fun _ => K.pure inner
    · split
      · refine K.bind K.advance fun start => ?_
        refine K.bind (K.nested hterm) fun inner => K.done ?_
        cases keep
        · rw [span_view]
          rfl
        · rfl
      · exact K.unexpected _
  · exact K.bind K.advance fun t => relates_nameTerm K hexpression _ _
  · exact K.unexpected _

end Expressions

theorem relates_term (room : Nat) : R (term room) (term room) := by
  induction room with
  | zero => exact relates_termOf K (K.nested (K.tooDeep)) (K.tooDeep)
  | succ room ih => exact relates_termOf K (K.nested (relates_levels K ih _)) ih

theorem relates_expression (room : Nat) : R (expression room) (expression room) := by
  cases room with
  | zero => exact K.nested (K.tooDeep)
  | succ room =>
      rw [expression, expression]
      exact K.nested (relates_levels K (relates_term K room) _)

section Statements

variable {expression : Parser σ Expression} {expression' : Parser τ Expression}
  {statements : Parser σ (List Statement)} {statements' : Parser τ (List Statement)}
  (hexpression : R expression expression')
  (hstatements : R statements statements')

include hexpression in
theorem relates_condition : R (condition expression) (condition expression') := by
  refine K.bind (relates_expectSymbol K .leftParen) fun _ => K.bind hexpression fun e => ?_
  exact K.bind (relates_expectSymbol K .rightParen) fun _ => K.pure e

include hstatements in
theorem relates_block : R (block statements) (block statements') := by
  refine K.bind (relates_expectSymbol K .leftBrace) fun _ => K.bind hstatements fun body => ?_
  exact K.bind (relates_expectSymbol K .rightBrace) fun stop => K.pure (body, stop)

include hexpression

theorem relates_letStatement :
    R (letStatement expression) (letStatement expression') := by
  refine K.bind (relates_expectKeyword K .letWord) fun start => ?_
  refine K.bind (relates_expectIdentifier K) fun target => ?_
  refine K.bind (relates_eatSymbol K .leftBracket) fun bracketed => ?_
  refine relates_ite .rfl ?_ (K.bind (K.pure none) fun index? => ?_)
  · refine K.bind hexpression fun index => ?_
    refine K.bind (relates_expectSymbol K .rightBracket) fun _ => ?_
    refine K.bind (K.pure (some index)) fun index? => ?_
    refine K.bind (relates_expectSymbol K .equal) fun _ => K.bind hexpression fun value => ?_
    refine K.bind (relates_expectSymbol K .semicolon) fun stop => ?_
    cases index? <;> exact K.done (by cases keep <;> rfl)
  · refine K.bind (relates_expectSymbol K .equal) fun _ => K.bind hexpression fun value => ?_
    refine K.bind (relates_expectSymbol K .semicolon) fun stop => ?_
    cases index? <;> exact K.done (by cases keep <;> rfl)

theorem relates_doStatement : R (doStatement expression) (doStatement expression') := by
  refine K.bind (relates_expectKeyword K .doWord) fun start => ?_
  refine K.bind (relates_expectIdentifier K) fun name => ?_
  refine K.bind (relates_callRest K hexpression _ _) fun call => ?_
  refine K.bind (relates_expectSymbol K .semicolon) fun stop => K.done ?_
  cases keep
  · rfl
  · rw [view_true, view_true]
    rfl

theorem relates_returnStatement :
    R (returnStatement expression) (returnStatement expression') := by
  refine K.bind (relates_expectKeyword K .returnWord) fun start => ?_
  refine K.bind (relates_isSymbol K .semicolon) fun bare => ?_
  refine relates_ite .rfl (K.bind (K.pure none) fun value => ?_)
    (K.bind (K.map hexpression (f := some) (g := some) fun _ => rfl) fun value => ?_) <;>
    refine K.bind (relates_expectSymbol K .semicolon) fun stop => K.done ?_ <;>
    cases keep <;> cases value <;> rfl

include hstatements

theorem relates_ifStatement :
    R (ifStatement expression statements) (ifStatement expression' statements') := by
  refine K.bind (relates_expectKeyword K .ifWord) fun start => ?_
  refine K.bind (relates_condition K hexpression) fun test => ?_
  refine K.bind (relates_block K hstatements) fun consequent => ?_
  refine K.bind (relates_isKeyword K .elseWord) fun found => relates_ite .rfl ?_ (K.done ?_)
  · refine K.bind K.advance fun _ => ?_
    refine K.bind (relates_block K hstatements) fun alternate => K.done ?_
    rw [view_ifElse, view_merge]
  · rw [view_ifThen, view_merge]

theorem relates_whileStatement :
    R (whileStatement expression statements)
      (whileStatement expression' statements') := by
  refine K.bind (relates_expectKeyword K .whileWord) fun start => ?_
  refine K.bind (relates_condition K hexpression) fun test => ?_
  refine K.bind (relates_block K hstatements) fun body => K.done ?_
  rw [view_whileLoop, view_merge]

theorem relates_statementOf :
    R (statementOf expression statements) (statementOf expression' statements') := by
  refine K.look fun s t h => ?_
  rw [bind_congr h fun _ => rfl]
  split
  · exact relates_letStatement K hexpression
  · exact relates_ifStatement K hexpression hstatements
  · exact relates_whileStatement K hexpression hstatements
  · exact relates_doStatement K hexpression
  · exact relates_returnStatement K hexpression
  · exact K.unexpected _

end Statements

theorem relates_statements (room : Nat) : R (statements room) (statements room) := by
  induction room with
  | zero => exact K.nested (K.tooDeep)
  | succ room ih =>
      refine K.nested (relates_many K ?_ fun s t h => ?_)
      · exact relates_statementOf K (relates_expression K room) ih
      · rw [atStatement, atStatement, bind_congr h fun _ => rfl]

theorem relates_typeName : R typeName typeName := by
  refine K.look fun s t h => ?_
  rw [bind_congr h fun _ => rfl]
  split
  · rename_i type _
    exact K.bind K.advance fun _ => K.pure type
  · exact K.unexpected _

theorem relates_nameList : R nameList nameList :=
  relates_separated K (K.map (relates_expectIdentifier K) fun _ => rfl)

theorem relates_classVars : R classVars classVars := by
  refine K.bind K.advance fun word => K.bind (relates_typeName K) fun type => ?_
  refine K.bind (relates_nameList K) fun names => ?_
  refine K.bind (relates_expectSymbol K .semicolon) fun stop => K.done ?_
  rw [view_names]
  cases keep <;> rfl

theorem relates_parameter : R parameter parameter := by
  rw [parameter_eq, parameter_eq]
  refine K.look fun s t h => ?_
  rw [h]
  cases s.lookahead with
  | none => exact K.unexpected _
  | some u =>
      refine K.bind (relates_typeName K) fun type => ?_
      refine K.bind (relates_expectIdentifier K) fun name => K.done ?_
      cases keep <;> rfl

theorem relates_localVars : R localVars localVars := by
  refine K.bind (relates_expectKeyword K .varWord) fun start => ?_
  refine K.bind (relates_typeName K) fun type => K.bind (relates_nameList K) fun names => ?_
  refine K.bind (relates_expectSymbol K .semicolon) fun stop => K.done ?_
  rw [view_names]
  cases keep <;> rfl

theorem relates_returnType : R returnType returnType := by
  refine K.bind (relates_isKeyword K .voidWord) fun void => relates_ite .rfl ?_ ?_
  · exact K.bind K.advance fun _ => K.pure none
  · exact K.map (relates_typeName K) fun _ => rfl

theorem relates_subroutineBody : R subroutineBody subroutineBody := by
  refine K.bind (relates_expectSymbol K .leftBrace) fun _ => ?_
  have hlocals := relates_many K (relates_localVars K) fun s t h => isKeyword_congr h .varWord
  refine K.bind hlocals fun locals => ?_
  refine K.bind (relates_statements K _) fun body => ?_
  exact K.bind (relates_expectSymbol K .rightBrace) fun stop => K.pure (locals, body, stop)

theorem relates_subroutine : R subroutine subroutine := by
  refine K.look fun s t h => ?_
  rw [subroutineKind?, subroutineKind?, bind_congr h fun _ => rfl]
  refine K.bind K.advance fun start => K.bind (relates_returnType K) fun type => ?_
  refine K.bind (relates_expectIdentifier K) fun name => ?_
  refine K.bind (relates_expectSymbol K .leftParen) fun _ => ?_
  refine K.bind (relates_listed K (relates_parameter K)) fun parameters => ?_
  refine K.bind (relates_expectSymbol K .rightParen) fun _ => ?_
  refine K.bind (relates_subroutineBody K) fun ⟨locals, body, stop⟩ => ?_
  refine K.bind (K.noted ?_) fun _ => K.done ?_
  · rw [length_view]
    rfl
  · rw [view_type?]
    cases keep <;> rfl

theorem relates_classTree : R classTree classTree := by
  refine K.bind (relates_expectKeyword K .classWord) fun start => ?_
  refine K.bind (relates_expectIdentifier K) fun name => ?_
  refine K.bind (relates_expectSymbol K .leftBrace) fun _ => ?_
  refine K.bind (relates_many K (relates_classVars K) fun s t h => ?_) fun vars => ?_
  · rw [atClassVars, atClassVars, isKeyword_congr h, isKeyword_congr h]
  refine K.bind (relates_many K (relates_subroutine K) fun s t h => ?_) fun subroutines => ?_
  · rw [subroutineKind?, subroutineKind?, bind_congr h fun _ => rfl]
  refine K.bind (relates_isSymbol K .rightBrace) fun closes => ?_
  refine relates_ite .rfl (K.bind (K.unexpected _) fun (_ : Unit) => ?_) ?_ <;>
    refine K.bind (relates_expectSymbol K .rightBrace) fun stop =>
      K.bind (K.noted ?_) fun _ => K.done ?_
  · rw [length_view, length_view]
    rfl
  · cases keep <;> rfl
  · rw [length_view, length_view]
    rfl
  · cases keep <;> rfl

theorem relates_program : R program program :=
  K.bind (relates_classTree K) K.ending

end JackToolchain.Syntax.Parser
