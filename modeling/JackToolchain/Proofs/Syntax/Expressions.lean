import JackToolchain.Proofs.Syntax.Recognizer

/-!
# Expressions of the grammar

The rules for expressions recognize the words of the grammar. One token after a word is enough to
see that the word is over.
-/

namespace JackToolchain.Syntax

open JackToolchain.Source JackToolchain.Diagnostics JackToolchain.Token

namespace BinaryOp

theorem ofSymbol?_eq_some_iff {symbol : Symbol} {op : BinaryOp} :
    ofSymbol? symbol = some op ↔ symbol = op.symbol := by
  constructor
  · intro h
    cases symbol <;> simp only [ofSymbol?, Option.some.injEq, reduceCtorEq] at h <;> subst h <;> rfl
  · rintro rfl
    exact ofSymbol?_symbol op

theorem symbol_injective {op op' : BinaryOp} (h : op.symbol = op'.symbol) : op = op' := by
  have hsome := ofSymbol?_symbol op
  rw [h, ofSymbol?_symbol] at hsome
  exact (Option.some.inj hsome).symm

end BinaryOp

/-- The token is an operator of the precedence. -/
def isOperator (precedence : Nat) : Kind → Bool
  | .symbol symbol => (BinaryOp.ofSymbol? symbol).any (·.precedence == precedence)
  | _ => false

/-- The token goes on with an expression of operators of at least the precedence. -/
def continues (precedence : Nat) : Kind → Bool
  | .symbol .leftBracket | .symbol .leftParen | .symbol .dot => true
  | .symbol symbol => (BinaryOp.ofSymbol? symbol).any (precedence ≤ ·.precedence)
  | _ => false

/-- What comes next does not go on with the expression. -/
def Ends (precedence : Nat) : Follow := fun next => next.any (continues precedence) = false

theorem isOperator_iff {p : Nat} {k : Kind} :
    isOperator p k = true ↔ ∃ op : BinaryOp, k = .symbol op.symbol ∧ op.precedence = p := by
  cases k <;> simp [isOperator, Option.any_eq_true, BinaryOp.ofSymbol?_eq_some_iff]

theorem continues_iff {p : Nat} {k : Kind} :
    continues p k = true ↔
      k = .symbol .leftBracket ∨ k = .symbol .leftParen ∨ k = .symbol .dot ∨
        ∃ op : BinaryOp, k = .symbol op.symbol ∧ p ≤ op.precedence := by
  cases k with
  | symbol symbol =>
      have hop : (∃ op : BinaryOp, symbol = op.symbol ∧ p ≤ op.precedence) ↔
          (BinaryOp.ofSymbol? symbol).any (p ≤ ·.precedence) = true := by
        simp [Option.any_eq_true, BinaryOp.ofSymbol?_eq_some_iff]
      simp only [Kind.symbol.injEq, hop]
      cases symbol <;> simp [continues, BinaryOp.ofSymbol?]
  | _ => simp [continues]

theorem ends_iff {p : Nat} {next : Option Kind} :
    Ends p next ↔ ∀ k, next = some k → continues p k = false := by
  cases next <;> simp [Ends]

theorem Ends.mono {p q : Nat} {next : Option Kind} (h : Ends p next) (hpq : p ≤ q) :
    Ends q next := by
  rw [ends_iff] at h ⊢
  intro k hk
  have hfalse := h k hk
  rw [← Bool.not_eq_true, continues_iff] at hfalse ⊢
  rintro (h | h | h | ⟨op, h, hq⟩)
  · exact hfalse (.inl h)
  · exact hfalse (.inr (.inl h))
  · exact hfalse (.inr (.inr (.inl h)))
  · exact hfalse (.inr (.inr (.inr ⟨op, h, hpq.trans hq⟩)))

theorem Ends.not_operator {p : Nat} {next : Option Kind} (h : Ends p next) :
    next.any (isOperator p) = false := by
  cases next with
  | none => rfl
  | some k =>
      rw [Option.any_some, ← Bool.not_eq_true, isOperator_iff]
      rintro ⟨op, rfl, rfl⟩
      have hfalse := ends_iff.1 h _ rfl
      rw [← Bool.not_eq_true, continues_iff] at hfalse
      exact hfalse (.inr (.inr (.inr ⟨op, rfl, Nat.le_refl _⟩)))

theorem ends_of_isOperator {p : Nat} {k : Kind} (h : isOperator p k = true) :
    Ends (p + 1) (some k) := by
  obtain ⟨op, rfl, rfl⟩ := isOperator_iff.1 h
  cases op <;> rfl

/-- An operator and its right operand, after the left one. -/
def Operation (precedence : Nat) (L : Language Expression) (left : Expression) :
    Language Expression :=
  fun w e => ∃ op v right, w = .symbol op.symbol :: v ∧ op.precedence = precedence ∧ L v right ∧
    e = .binary op left right .zero

/-- Operands of a language with operators of a precedence between them. -/
def Chain (precedence : Nat) (L : Language Expression) : Language Expression :=
  L.bind (Language.Loop (Operation precedence L))

theorem IsLevel.chain {n p : Nat} {w : Word} {e : Expression} (h : IsLevel n p w e)
    (hp : p ≤ BinaryOp.levels) : Chain p (IsLevel n (p + 1)) w e := by
  induction hw : w.length using Nat.strong_induction_on generalizing w e with
  | _ k ih =>
      cases h with
      | term h => simp [BinaryOp.levels] at hp
      | operand _ h => exact ⟨w, [], e, by simp, h, .stop⟩
      | join hl hr =>
          have hlt : ∀ v w' : Word, ∀ k' : Kind, v.length < (v ++ k' :: w').length := by simp
          obtain ⟨u, v, first, rfl, hfirst, hloop⟩ := ih _ (hw ▸ hlt _ _ _) hl rfl
          refine ⟨u, _, first, ?_, hfirst, hloop.snoc ⟨_, _, _, rfl, rfl, hr, rfl⟩⟩
          rw [List.append_assoc]

theorem chain_iff {n p : Nat} (hp : p ≤ BinaryOp.levels) {w : Word} {e : Expression} :
    Chain p (IsLevel n (p + 1)) w e ↔ IsLevel n p w e := by
  refine ⟨?_, fun h => h.chain hp⟩
  rintro ⟨u, v, first, rfl, hfirst, hloop⟩
  have hleft : IsLevel n p u first := .operand hp hfirst
  clear hfirst
  induction hloop generalizing u with
  | stop => simpa using hleft
  | more h hs ih =>
      obtain ⟨op, v, right, rfl, rfl, hright, rfl⟩ := h
      have hjoin := ih _ (.join hleft hright)
      simpa using hjoin

theorem isLevel_top_iff {n : Nat} {w : Word} {e : Expression} :
    IsTerm n w e ↔ IsLevel n (BinaryOp.levels + 1) w e := by
  refine ⟨.term, fun h => ?_⟩
  generalize hp : BinaryOp.levels + 1 = p at h
  cases h with
  | term h => exact h
  | operand hle h => omega
  | @join n op v w left right hl hr =>
      have hle := op.precedence_le_levels
      omega

namespace Parser

open JackToolchain.Syntax.Language

variable {σ : Type} {n : Nat}

theorem operator?_eq_some_iff {p : Nat} {s : State σ} {op : BinaryOp} :
    operator? p s = some op ↔ s.front = some (.symbol op.symbol) ∧ op.precedence = p := by
  rw [operator?, State.front]
  cases s.lookahead with
  | none => simp
  | some t => cases hk : t.kind <;> simp [Token.symbol?, hk, BinaryOp.ofSymbol?_eq_some_iff]

variable [TokenSource σ]

theorem recognizes_operation {p : Nat} {operand : Parser σ Expression} {L : Language Expression}
    (hoperand : Recognizes n Expression.bare operand L (Ends (p + 1))) (left : Expression)
    {s : State σ} (hn : Limits.maxParseDepth - s.depth = n)
    (hs : s.front.any (isOperator p) = true) :
    RecognizesAt (Option.map Expression.bare) (operation p operand left)
      (fun w e? => ∃ e, e? = some e ∧ Operation p L left.bare w e) (Ends (p + 1)) s := by
  obtain ⟨k, hk, hop⟩ := (Option.any_eq_true _ _).1 hs
  obtain ⟨op, rfl, hp⟩ := isOperator_iff.1 hop
  have hoperator : operator? p s = some op := operator?_eq_some_iff.2 ⟨hk, hp⟩
  have heq : operation p operand left s =
      (advance >>= fun _ => do return some (.join op left (← operand))) s := by
    rw [operation, bind_apply, get_apply]
    simp only [hoperator]
  have hright : Recognizes n (Option.map Expression.bare)
      (do return some (.join op left (← operand)))
      (fun w e? => ∃ right, L w right ∧ e? = some (.binary op left.bare right .zero))
      (Ends (p + 1)) := by
    refine hoperand.map_result fun right => ?_
    rfl
  refine (RecognizesAt.of_eq heq (.take hn hk fun _ _ => hright)).congr ?_ ?_
  · rintro w e? next ⟨v, rfl, right, hL, rfl⟩ -
    exact ⟨_, rfl, op, v, right, rfl, hp, hL, rfl⟩
  · rintro w e? next ⟨e, rfl, op', v, right, rfl, -, hL, rfl⟩ hfront hnext
    rw [Word.front_cons, hk] at hfront
    obtain rfl : op' = op := BinaryOp.symbol_injective (by simpa using hfront)
    exact ⟨⟨v, rfl, right, hL, rfl⟩, hnext⟩

theorem recognizes_level {p : Nat} {operand : Parser σ Expression} {L : Language Expression}
    (hoperand : Recognizes n Expression.bare operand L (Ends (p + 1))) :
    Recognizes n Expression.bare (level p operand) (Chain p L) (Ends p) := by
  refine hoperand.bind (fun first => ?_) ?_
  · refine .iterate (isOperator p) (fun left s hs => ?_)
      (fun left s hn hs => recognizes_operation hoperand left hn hs) ?_
      (fun k hk => ends_of_isOperator hk) (fun next h => ⟨h.mono (Nat.le_succ p), h.not_operator⟩)
      first
    · have hnone : operator? p s = none := by
        rw [Option.eq_none_iff_forall_ne_some]
        intro op hop
        obtain ⟨hfront, hp⟩ := operator?_eq_some_iff.1 hop
        rw [hfront, Option.any_some, ← Bool.not_eq_true, isOperator_iff] at hs
        exact hs ⟨op, rfl, hp⟩
      rw [operation, bind_apply, get_apply]
      simp only [hnone, pure_apply]
    · rintro left w e ⟨op, v, right, rfl, hp, -, -⟩
      exact ⟨_, v, rfl, isOperator_iff.2 ⟨op, rfl, hp⟩⟩
  · rintro first w e next hloop hnext
    cases hloop with
    | stop => exact hnext.mono (Nat.le_succ p)
    | more h hs =>
        obtain ⟨op, v, right, rfl, hp, -, -⟩ := h
        exact ends_of_isOperator (isOperator_iff.2 ⟨op, rfl, hp⟩)

theorem recognizes_levels {term : Parser σ Expression}
    (hterm : Recognizes n Expression.bare term (IsTerm n) (Ends (BinaryOp.levels + 1)))
    {count : Nat} (hcount : count ≤ BinaryOp.levels) :
    Recognizes n Expression.bare (levels term count) (IsLevel n (BinaryOp.levels + 1 - count))
      (Ends (BinaryOp.levels + 1 - count)) := by
  induction count with
  | zero => exact hterm.congr fun w e => isLevel_top_iff
  | succ count ih =>
      have htighter : BinaryOp.levels + 1 - count = BinaryOp.levels - count + 1 := by omega
      have hhere : BinaryOp.levels + 1 - (count + 1) = BinaryOp.levels - count := by omega
      rw [hhere]
      have hoperand := ih (by omega)
      rw [htighter] at hoperand
      exact (recognizes_level hoperand).congr fun w e => chain_iff (Nat.sub_le _ _)

/-- What follows the name in a call. -/
def CallTail (n : Nat) (receiver : Option String) (name : String) : Language Call :=
  after (.symbol .leftParen) <| Language.bind (IsArguments n) fun arguments =>
    after (.symbol .rightParen) <| done ⟨receiver, name, arguments, .zero⟩

/-- What follows the first name in a call. -/
def CallRest (n : Nat) (first : String) : Language Call :=
  (after (.symbol .dot) <| named fun name => CallTail n (some first) name).or
    (CallTail n none first)

/-- What follows the name in a term that starts with one. -/
def NameRest (n : Nat) (name : String) : Language Expression :=
  (after (.symbol .leftBracket) <| Language.bind (IsExpression n) fun index =>
      after (.symbol .rightBracket) <| done (.element name index .zero)).or <|
    Language.or (fun w e => ∃ c, CallRest n name w c ∧ e = c.toExpression)
      (done (.var name .zero))

/-- What follows the first token of a term. -/
def TermRest (n : Nat) : Kind → Language Expression
  | .integerLiteral value => done (.integer value .zero)
  | .stringLiteral value => done (.string value .zero)
  | .keyword .trueWord => done (.boolean true .zero)
  | .keyword .falseWord => done (.boolean false .zero)
  | .keyword .nullWord => done (.null .zero)
  | .keyword .thisWord => done (.this .zero)
  | .symbol .leftParen =>
    Language.bind (IsExpression n) fun e => after (.symbol .rightParen) <| done e
  | .symbol .minus => fun w e => ∃ e', opened IsTerm n w e' ∧ e = .unary .negate e' .zero
  | .symbol .tilde => fun w e => ∃ e', opened IsTerm n w e' ∧ e = .unary .not e' .zero
  | .identifier name => NameRest n name
  | _ => fun _ _ => False

theorem callTail_iff {receiver : Option String} {name : String} {w : Word} {c : Call} :
    CallTail n receiver name w c ↔
      ∃ v arguments, w = v.inParens ∧ IsArguments n v arguments ∧
        c = ⟨receiver, name, arguments, .zero⟩ := by
  constructor
  · rintro ⟨v, rfl, u, w, arguments, rfl, h, w', rfl, rfl, rfl⟩
    exact ⟨u, arguments, rfl, h, rfl⟩
  · rintro ⟨v, arguments, rfl, h, rfl⟩
    exact ⟨_, rfl, v, _, arguments, rfl, h, _, rfl, rfl, rfl⟩

theorem isCall_iff {w : Word} {c : Call} :
    IsCall n w c ↔ ∃ name v, w = .identifier name :: v ∧ CallRest n name v c := by
  constructor
  · intro h
    cases h with
    | bare h => exact ⟨_, _, rfl, .inr (callTail_iff.2 ⟨_, _, rfl, h, rfl⟩)⟩
    | dotted h =>
        exact ⟨_, _, rfl, .inl ⟨_, rfl, _, _, rfl, callTail_iff.2 ⟨_, _, rfl, h, rfl⟩⟩⟩
  · rintro ⟨name, v, rfl, ⟨v, rfl, name', v, rfl, h⟩ | h⟩
    · obtain ⟨v, arguments, rfl, harguments, rfl⟩ := callTail_iff.1 h
      exact .dotted harguments
    · obtain ⟨v, arguments, rfl, harguments, rfl⟩ := callTail_iff.1 h
      exact .bare harguments

theorem isTerm_iff (w : Word) (e : Expression) :
    IsTerm n w e ↔ ∃ k, after k (TermRest n k) w e := by
  constructor
  · intro h
    cases h with
    | integer => exact ⟨.integerLiteral _, [], rfl, rfl, rfl⟩
    | string => exact ⟨.stringLiteral _, [], rfl, rfl, rfl⟩
    | true => exact ⟨.keyword .trueWord, [], rfl, rfl, rfl⟩
    | false => exact ⟨.keyword .falseWord, [], rfl, rfl, rfl⟩
    | null => exact ⟨.keyword .nullWord, [], rfl, rfl, rfl⟩
    | this => exact ⟨.keyword .thisWord, [], rfl, rfl, rfl⟩
    | parenthesized h => exact ⟨.symbol .leftParen, _, rfl, _, _, e, rfl, h, _, rfl, rfl, rfl⟩
    | negate h => exact ⟨.symbol .minus, _, rfl, _, h, rfl⟩
    | not h => exact ⟨.symbol .tilde, _, rfl, _, h, rfl⟩
    | var => exact ⟨.identifier _, [], rfl, .inr (.inr ⟨rfl, rfl⟩)⟩
    | element h =>
        exact ⟨.identifier _, _, rfl, .inl ⟨_, rfl, _, _, _, rfl, h, _, rfl, rfl, rfl⟩⟩
    | call h =>
        obtain ⟨name, v, rfl, hrest⟩ := isCall_iff.1 h
        exact ⟨.identifier name, v, rfl, .inr (.inl ⟨_, hrest, rfl⟩)⟩
  · rintro ⟨k, v, rfl, h⟩
    unfold TermRest at h
    split at h
    · obtain ⟨rfl, rfl⟩ := h
      exact .integer
    · obtain ⟨rfl, rfl⟩ := h
      exact .string
    · obtain ⟨rfl, rfl⟩ := h
      exact .true
    · obtain ⟨rfl, rfl⟩ := h
      exact .false
    · obtain ⟨rfl, rfl⟩ := h
      exact .null
    · obtain ⟨rfl, rfl⟩ := h
      exact .this
    · obtain ⟨u, v, e, rfl, h, v, rfl, rfl, rfl⟩ := h
      exact .parenthesized h
    · obtain ⟨e, h, rfl⟩ := h
      cases n with
      | zero => exact h.elim
      | succ n => exact .negate h
    · obtain ⟨e, h, rfl⟩ := h
      cases n with
      | zero => exact h.elim
      | succ n => exact .not h
    · obtain ⟨v, rfl, u, w, index, rfl, h, v, rfl, rfl, rfl⟩ | ⟨c, h, rfl⟩ | ⟨rfl, rfl⟩ := h
      · exact .element h
      · exact .call (isCall_iff.2 ⟨_, _, rfl, h⟩)
      · exact .var
    · exact h.elim

theorem separated_isExpression_iff {w : Word} {es : List Expression} :
    Separated (IsExpression n) w es ↔ IsExpressions n w es := by
  constructor
  · intro h
    induction h with
    | one h => exact .one h
    | more h hs ih => exact .more h ih
  · intro h
    induction es generalizing w with
    | nil => cases h
    | cons e es ih =>
        cases h with
        | one h => exact .one h
        | more h hs => exact .more h (ih hs)

theorem listed_isExpression_iff {w : Word} {es : List Expression} :
    Listed (IsExpression n) w es ↔ IsArguments n w es := by
  constructor
  · rintro (_ | h)
    · exact .none
    · exact .some (separated_isExpression_iff.1 h)
  · intro h
    cases h with
    | none => exact .none
    | some h => exact .some (separated_isExpression_iff.2 h)

/-- No expression starts like this. -/
def closes : Kind → Bool
  | .symbol .rightParen | .symbol .semicolon => true
  | _ => false

theorem isLevel_front {p : Nat} {w : Word} {e : Expression} (h : IsLevel n p w e)
    (hp : p ≤ BinaryOp.levels + 1) : ∃ k v, w = k :: v ∧ closes k = false := by
  induction hcount : BinaryOp.levels + 1 - p generalizing p w e with
  | zero =>
      obtain rfl : p = BinaryOp.levels + 1 := by omega
      obtain ⟨k, v, rfl, hrest⟩ := (isTerm_iff w e).1 (isLevel_top_iff.2 h)
      refine ⟨k, v, rfl, ?_⟩
      by_contra hcloses
      cases k with
      | symbol s => cases s <;> simp_all [closes, TermRest]
      | _ => simp [closes] at hcloses
  | succ count ih =>
      obtain ⟨u, v, first, rfl, hfirst, -⟩ := h.chain (by omega)
      obtain ⟨k, u, rfl, hk⟩ := ih hfirst (by omega) (by omega)
      exact ⟨k, u ++ v, rfl, hk⟩

theorem isExpression_front {w : Word} {e : Expression} (h : IsExpression n w e) :
    ∃ k v, w = k :: v ∧ closes k = false := by
  cases h with
  | intro h => exact isLevel_front h (by decide)

section Terms

variable {expression term : Parser σ Expression}
  (hexpression : Recognizes n Expression.bare expression (IsExpression n) (Ends 1))

include hexpression

theorem recognizes_arguments :
    Recognizes n (List.map Expression.bare) (listed expression) (IsArguments n)
      fun next => next = some (.symbol .rightParen) := by
  refine (Recognizes.listed hexpression rfl ?_ ?_).congr fun w es => listed_isExpression_iff
  · rintro next rfl
    exact ⟨rfl, rfl⟩
  · intro w e h
    obtain ⟨k, v, rfl, hk⟩ := isExpression_front h
    refine ⟨k, v, rfl, ?_⟩
    rintro rfl
    simp [closes] at hk

theorem recognizes_callTail (receiver : Option String) (name : String) (start : Span) (F : Follow) :
    Recognizes n Call.bare
      (do
        let _ ← expectSymbol .leftParen
        let arguments ← listed expression
        let stop ← expectSymbol .rightParen
        return { receiver, name, arguments, span := start.merge stop })
      (CallTail n receiver name) F := by
  refine .expectSymbol fun _ => (recognizes_arguments hexpression).bind (fun arguments => ?_) ?_
  · exact .expectSymbol fun stop => .pure _
  · rintro arguments w c next ⟨v, rfl, -⟩ -
    rfl

theorem recognizes_callRest (first : String) (start : Span) (F : Follow) :
    Recognizes n Call.bare (callRest expression first start) (CallRest n first) F := by
  refine .eatSymbol ?_ ?_ ?_
  · exact .expectIdentifier fun name _ =>
      .pure_bind (recognizes_callTail hexpression (some first) name start F)
  · exact .pure_bind (recognizes_callTail hexpression none first start F)
  · rintro w c next ⟨v, rfl, -⟩ -
    simp

theorem recognizes_nameTerm (name : String) (start : Span) :
    Recognizes n Expression.bare (nameTerm expression name start) (NameRest n name)
      (Ends (BinaryOp.levels + 1)) := by
  refine .eatSymbol ?_ ?_ ?_
  · refine hexpression.bind (fun index => .expectSymbol fun stop => .pure _) ?_
    rintro index w e next ⟨v, rfl, -⟩ -
    rfl
  · intro s hn
    refine .get ?_
    by_cases hcall : (s.isSymbol .leftParen || s.isSymbol .dot) = true
    · rw [if_pos hcall]
      have hresult := (recognizes_callRest hexpression name start
        (Ends (BinaryOp.levels + 1))).map_result Call.bare_toExpression
      refine (hresult s hn).congr (fun w e _ h _ => .inl h) ?_
      rintro w e next (h | ⟨rfl, rfl⟩) hfront hnext
      · exact ⟨h, hnext⟩
      · rw [Bool.or_eq_true, isSymbol_iff, isSymbol_iff, ← hfront] at hcall
        rcases hcall with rfl | rfl <;> simp [Ends, continues] at hnext
    · rw [if_neg hcall]
      have hvar : Recognizes n Expression.bare (pure (Expression.var name start) : Parser σ _)
          (done (.var name .zero)) (Ends (BinaryOp.levels + 1)) := .pure _
      refine (hvar s hn).congr (fun w e _ h _ => .inr h) ?_
      rintro w e next (⟨c, h, rfl⟩ | h) hfront hnext
      · rw [Bool.or_eq_true, isSymbol_iff, isSymbol_iff, ← hfront] at hcall
        obtain ⟨v, rfl, -⟩ | ⟨v, rfl, -⟩ := h <;> simp at hcall
      · exact ⟨h, hnext⟩
  · rintro w e next (⟨c, ⟨v, rfl, -⟩ | ⟨v, rfl, -⟩, -⟩ | ⟨rfl, rfl⟩) hnext
    · simp
    · simp
    · rintro rfl
      simp [Ends, continues] at hnext

omit hexpression in
/-- An operator before a term. -/
theorem recognizes_unary {s : State σ} {k : Kind} {op : UnaryOp}
    (hn : Limits.maxParseDepth - s.depth = n) (hk : s.front = some k)
    (hterm : ∀ m, n = m + 1 →
      Recognizes m Expression.bare term (IsTerm m) (Ends (BinaryOp.levels + 1))) :
    RecognizesAt Expression.bare
      (do
        let start := (← advance).span
        let inner ← nested term
        return .unary op inner (start.merge inner.span))
      (after k fun w e => ∃ e', opened IsTerm n w e' ∧ e = .unary op e' .zero)
      (Ends (BinaryOp.levels + 1)) s := by
  refine .take hn hk fun t _ => ?_
  refine (Recognizes.nested hterm).map_result fun e => ?_
  rfl

theorem recognizes_termOf (hterm : ∀ m, n = m + 1 →
      Recognizes m Expression.bare term (IsTerm m) (Ends (BinaryOp.levels + 1))) :
    Recognizes n Expression.bare (termOf expression term) (IsTerm n)
      (Ends (BinaryOp.levels + 1)) := by
  intro s hn
  refine .get ?_
  have hfront : s.lookahead.map Token.kind = s.front := rfl
  rw [hfront]
  cases hk : s.front with
  | none => exact .of_first_failed isTerm_iff (by simp [hk]) (.unexpected _)
  | some k =>
      cases k with
      | integerLiteral value => exact .of_first isTerm_iff hk (.take hn hk fun t _ => .pure _)
      | stringLiteral value => exact .of_first isTerm_iff hk (.take hn hk fun t _ => .pure _)
      | keyword word =>
          cases word
          case trueWord => exact .of_first isTerm_iff hk (.take hn hk fun t _ => .pure _)
          case falseWord => exact .of_first isTerm_iff hk (.take hn hk fun t _ => .pure _)
          case nullWord => exact .of_first isTerm_iff hk (.take hn hk fun t _ => .pure _)
          case thisWord => exact .of_first isTerm_iff hk (.take hn hk fun t _ => .pure _)
          all_goals exact .of_first_failed isTerm_iff (by simp [hk, TermRest]) (.unexpected _)
      | symbol symbol =>
          cases symbol
          case leftParen =>
            refine .of_first isTerm_iff hk (.take hn hk fun t _ => hexpression.bind (fun e => ?_) ?_)
            · exact .expectSymbol fun _ => .pure _
            · rintro e w e' next ⟨v, rfl, -⟩ -
              rfl
          case minus => exact .of_first isTerm_iff hk (recognizes_unary hn hk hterm)
          case tilde => exact .of_first isTerm_iff hk (recognizes_unary hn hk hterm)
          all_goals exact .of_first_failed isTerm_iff (by simp [hk, TermRest]) (.unexpected _)
      | identifier name =>
          exact .of_first isTerm_iff hk
            (.take hn hk fun t _ => recognizes_nameTerm hexpression name t.span)

end Terms

theorem opened_isLevel_iff {w : Word} {e : Expression} :
    opened (fun m => IsLevel m 1) n w e ↔ IsExpression n w e := by
  cases n with
  | zero => exact ⟨fun h => h.elim, fun h => nomatch h⟩
  | succ m =>
      refine ⟨.intro, fun h => ?_⟩
      cases h with
      | intro h => exact h

/-- The rule for an expression opens a level for its operators. -/
theorem recognizes_opened {term : Parser σ Expression}
    (hterm : ∀ m, n = m + 1 →
      Recognizes m Expression.bare term (IsTerm m) (Ends (BinaryOp.levels + 1))) :
    Recognizes n Expression.bare (nested (levels term BinaryOp.levels)) (IsExpression n)
      (Ends 1) := by
  have hlevels : ∀ m, n = m + 1 →
      Recognizes m Expression.bare (levels term BinaryOp.levels) (IsLevel m 1) (Ends 1) :=
    fun m hm => recognizes_levels (hterm m hm) (Nat.le_refl _)
  exact (Recognizes.nested hlevels).congr fun w e => opened_isLevel_iff

theorem recognizes_tooDeep :
    Recognizes 0 Expression.bare (nested tooDeep : Parser σ Expression) (IsExpression 0)
      (Ends 1) := by
  have hnested : Recognizes 0 Expression.bare (nested tooDeep : Parser σ Expression)
      (opened (fun m => IsLevel m 1) 0) (Ends 1) := .nested fun m hm => by simp at hm
  exact hnested.congr fun w e => opened_isLevel_iff

theorem recognizes_term {room : Nat} (hroom : n ≤ room) :
    Recognizes n Expression.bare (term room : Parser σ Expression) (IsTerm n) (Ends (BinaryOp.levels + 1)) := by
  induction room generalizing n with
  | zero =>
      obtain rfl : n = 0 := Nat.le_zero.1 hroom
      exact recognizes_termOf recognizes_tooDeep fun m hm => by simp at hm
  | succ room ih =>
      have hterm : ∀ m, n = m + 1 →
          Recognizes m Expression.bare (term room : Parser σ Expression) (IsTerm m)
            (Ends (BinaryOp.levels + 1)) :=
        fun m hm => ih (by omega)
      exact recognizes_termOf (recognizes_opened hterm) hterm

theorem recognizes_expression {room : Nat} (hroom : n ≤ room) :
    Recognizes n Expression.bare (expression room : Parser σ Expression) (IsExpression n) (Ends 1) := by
  cases room with
  | zero =>
      obtain rfl : n = 0 := Nat.le_zero.1 hroom
      exact recognizes_tooDeep
  | succ room =>
      rw [expression]
      exact recognizes_opened fun m hm => recognizes_term (by omega)

end Parser

end JackToolchain.Syntax
