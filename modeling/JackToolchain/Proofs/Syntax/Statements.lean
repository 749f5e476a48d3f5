import JackToolchain.Proofs.Syntax.Expressions

/-!
# Statements of the grammar

The rules for statements recognize the words of the grammar. The first token of a statement tells
its kind.
-/

namespace JackToolchain.Syntax.Parser

open JackToolchain.Source JackToolchain.Diagnostics JackToolchain.Token
open JackToolchain.Syntax.Language

variable {σ : Type} {n : Nat}

/-- The token starts a statement. -/
def startsStatement : Kind → Bool
  | .keyword word => word.startsStatement
  | _ => false

theorem atStatement_eq (s : State σ) : atStatement s = s.front.any startsStatement := by
  rw [atStatement, State.front]
  cases s.lookahead with
  | none => rfl
  | some t => cases hk : t.kind <;> simp [Token.keyword?, hk, startsStatement]

variable [TokenSource σ]

/-- What comes next is neither another branch of a statement nor a further statement. -/
def EndsStatements : Follow :=
  fun next => next ≠ some (.keyword .elseWord) ∧ next.any startsStatement = false

/-- An expression in parentheses. -/
def Condition (n : Nat) : Language Expression :=
  after (.symbol .leftParen) <| Language.bind (IsExpression n) fun e =>
    after (.symbol .rightParen) <| done e

/-- Statements in braces. -/
def Block (n : Nat) : Language (List Statement) :=
  after (.symbol .leftBrace) <| Language.bind (IsStatements n) fun ss =>
    after (.symbol .rightBrace) <| done ss

/-- What follows the target of an assignment. -/
def LetTail (n : Nat) (make : Expression → Statement) : Language Statement :=
  after (.symbol .equal) <| Language.bind (IsExpression n) fun value =>
    after (.symbol .semicolon) <| done (make value)

/-- What follows the first token of a statement. -/
def StatementRest (n : Nat) : Kind → Language Statement
  | .keyword .letWord =>
    named fun target =>
      (after (.symbol .leftBracket) <| Language.bind (IsExpression n) fun index =>
          after (.symbol .rightBracket) <| LetTail n fun value =>
            .letElement target index value .zero).or
        (LetTail n fun value => .letVariable target value .zero)
  | .keyword .ifWord =>
    (Condition n).bind fun condition => (Block n).bind fun consequent =>
      (after (.keyword .elseWord) <| (Block n).bind fun alternate =>
          done (.ifElse condition consequent alternate .zero)).or
        (done (.ifThen condition consequent .zero))
  | .keyword .whileWord =>
    (Condition n).bind fun condition => (Block n).bind fun body =>
      done (.whileLoop condition body .zero)
  | .keyword .doWord =>
    named fun first => (CallRest n first).bind fun c =>
      after (.symbol .semicolon) <| done (.doCall c .zero)
  | .keyword .returnWord =>
    Language.bind (Language.or (done none) fun w e? => ∃ e, IsExpression n w e ∧ e? = some e) fun value =>
      after (.symbol .semicolon) <| done (.return value .zero)
  | _ => fun _ _ => False

theorem condition_iff {w : Word} {e : Expression} :
    Condition n w e ↔ ∃ v, w = v.inParens ∧ IsExpression n v e := by
  constructor
  · rintro ⟨v, rfl, u, v, e, rfl, h, v, rfl, rfl, rfl⟩
    exact ⟨u, rfl, h⟩
  · rintro ⟨v, rfl, h⟩
    exact ⟨_, rfl, v, _, e, rfl, h, _, rfl, rfl, rfl⟩

theorem block_iff {w : Word} {ss : List Statement} :
    Block n w ss ↔ ∃ v, w = v.inBraces ∧ IsStatements n v ss := by
  constructor
  · rintro ⟨v, rfl, u, v, ss, rfl, h, v, rfl, rfl, rfl⟩
    exact ⟨u, rfl, h⟩
  · rintro ⟨v, rfl, h⟩
    exact ⟨_, rfl, v, _, ss, rfl, h, _, rfl, rfl, rfl⟩

theorem letTail_iff {make : Expression → Statement} {w : Word} {s : Statement} :
    LetTail n make w s ↔
      ∃ v value, w = v.between .equal .semicolon ∧ IsExpression n v value ∧ s = make value := by
  constructor
  · rintro ⟨v, rfl, u, v, value, rfl, h, v, rfl, rfl, rfl⟩
    exact ⟨u, value, rfl, h, rfl⟩
  · rintro ⟨v, value, rfl, h, rfl⟩
    exact ⟨_, rfl, v, _, value, rfl, h, _, rfl, rfl, rfl⟩

theorem isStatement_iff (w : Word) (s : Statement) :
    IsStatement n w s ↔ ∃ k, after k (StatementRest n k) w s := by
  constructor
  · intro h
    cases h with
    | letVariable h =>
        exact ⟨.keyword .letWord, _, rfl, _, _, rfl, .inr (letTail_iff.2 ⟨_, _, rfl, h, rfl⟩)⟩
    | letElement hi h =>
        refine ⟨.keyword .letWord, _, rfl, _, _, rfl, .inl ⟨_, rfl, _, _, _, ?_, hi, _, rfl, letTail_iff.2 ⟨_, _, rfl, h, rfl⟩⟩⟩
        simp
    | ifThen h hc =>
        exact ⟨.keyword .ifWord, _, rfl, _, _, _, rfl, condition_iff.2 ⟨_, rfl, h⟩, _, [], _, by simp,
          block_iff.2 ⟨_, rfl, hc⟩, .inr ⟨rfl, rfl⟩⟩
    | ifElse h hc ha =>
        refine ⟨.keyword .ifWord, _, rfl, _, _, _, ?_, condition_iff.2 ⟨_, rfl, h⟩, _, _, _, rfl,
          block_iff.2 ⟨_, rfl, hc⟩, .inl ⟨_, rfl, _, [], _, rfl, block_iff.2 ⟨_, rfl, ha⟩, rfl, rfl⟩⟩
        simp
    | whileLoop h hb =>
        exact ⟨.keyword .whileWord, _, rfl, _, _, _, rfl, condition_iff.2 ⟨_, rfl, h⟩, _, [], _, by simp,
          block_iff.2 ⟨_, rfl, hb⟩, rfl, rfl⟩
    | doCall h =>
        obtain ⟨first, v, rfl, hrest⟩ := isCall_iff.1 h
        exact ⟨.keyword .doWord, _, rfl, first, _, rfl, v, _, _, rfl, hrest, _, rfl, rfl, rfl⟩
    | «return» => exact ⟨.keyword .returnWord, _, rfl, [], _, none, rfl, .inl ⟨rfl, rfl⟩, _, rfl, rfl, rfl⟩
    | returnValue h =>
        exact ⟨.keyword .returnWord, _, rfl, _, _, _, rfl, .inr ⟨_, h, rfl⟩, _, rfl, rfl, rfl⟩
  · rintro ⟨k, v, rfl, h⟩
    unfold StatementRest at h
    split at h
    · obtain ⟨target, v, rfl, ⟨v, rfl, u, v, index, rfl, hi, v, rfl, htail⟩ | htail⟩ := h
      · obtain ⟨v, value, rfl, h, rfl⟩ := letTail_iff.1 htail
        simpa [Word.between] using IsStatement.letElement hi h
      · obtain ⟨v, value, rfl, h, rfl⟩ := letTail_iff.1 htail
        exact .letVariable h
    · obtain ⟨u, v, condition, rfl, htest, v, w, consequent, rfl, hblock, hrest⟩ := h
      obtain ⟨u, rfl, h⟩ := condition_iff.1 htest
      obtain ⟨v, rfl, hc⟩ := block_iff.1 hblock
      obtain ⟨w, rfl, w, x, alternate, rfl, hother, rfl, rfl⟩ | ⟨rfl, rfl⟩ := hrest
      · obtain ⟨w, rfl, ha⟩ := block_iff.1 hother
        simpa [Word.between] using IsStatement.ifElse h hc ha
      · simpa [Word.between] using IsStatement.ifThen h hc
    · obtain ⟨u, v, condition, rfl, htest, v, w, body, rfl, hblock, rfl, rfl⟩ := h
      obtain ⟨u, rfl, h⟩ := condition_iff.1 htest
      obtain ⟨v, rfl, hb⟩ := block_iff.1 hblock
      simpa [Word.between] using IsStatement.whileLoop h hb
    · obtain ⟨first, v, rfl, u, v, c, rfl, h, v, rfl, rfl, rfl⟩ := h
      exact .doCall (isCall_iff.2 ⟨first, u, rfl, h⟩)
    · obtain ⟨u, v, value, rfl, ⟨rfl, rfl⟩ | ⟨e, h, rfl⟩, v, rfl, rfl, rfl⟩ := h
      · exact .return
      · exact .returnValue h
    · exact h.elim

section

variable {expression : Parser σ Expression} {statements : Parser σ (List Statement)}
  (hexpression : Recognizes n Expression.bare expression (IsExpression n) (Ends 1))
  (hstatements : Recognizes n (List.map Statement.bare) statements (IsStatements n) EndsStatements)

include hexpression in
theorem recognizes_condition (F : Follow) :
    Recognizes n Expression.bare (condition expression) (Condition n) F := by
  refine .expectSymbol fun _ => hexpression.bind (fun e => .expectSymbol fun _ => .pure e) ?_
  rintro e w e' next ⟨v, rfl, -⟩ -
  rfl

include hstatements in
theorem recognizes_block (F : Follow) :
    Recognizes n (fun body => body.1.map Statement.bare) (block statements) (Block n) F := by
  refine .expectSymbol fun _ => hstatements.bind (fun ss => .expectSymbol fun stop => .pure _) ?_
  rintro ss w ss' next ⟨v, rfl, -⟩ -
  exact ⟨by simp, rfl⟩

include hexpression

theorem recognizes_letTail {make : Expression → Span → Statement} {make' : Expression → Statement}
    (hmake : ∀ value span, (make value span).bare = make' value.bare) (start : Span) (F : Follow) :
    Recognizes n Statement.bare
      (do
        let _ ← expectSymbol .equal
        let value ← expression
        return make value (start.merge (← expectSymbol .semicolon)))
      (LetTail n make') F := by
  refine .expectSymbol fun _ => hexpression.bind (fun value => .expectSymbol fun stop => ?_) ?_
  · exact hmake value (start.merge stop) ▸ .pure _
  · rintro value w s next ⟨v, rfl, -⟩ -
    rfl

theorem recognizes_letStatement (F : Follow) :
    Recognizes n Statement.bare (letStatement expression)
      (after (.keyword .letWord) (StatementRest n (.keyword .letWord))) F := by
  refine .expectKeyword fun start => .expectIdentifier fun target _ => .eatSymbol ?_ ?_ ?_
  · refine hexpression.bind (fun index => .expectSymbol fun _ => .pure_bind ?_) ?_
    · exact recognizes_letTail hexpression (fun _ _ => rfl) start F
    · rintro index w s next ⟨v, rfl, -⟩ -
      rfl
  · exact .pure_bind (recognizes_letTail hexpression (fun _ _ => rfl) start F)
  · rintro w s next ⟨v, rfl, -⟩ -
    simp

theorem recognizes_doStatement (F : Follow) :
    Recognizes n Statement.bare (doStatement expression)
      (after (.keyword .doWord) (StatementRest n (.keyword .doWord))) F := by
  refine .expectKeyword fun start => .expectIdentifier fun first span => ?_
  refine (recognizes_callRest hexpression first span fun _ => True).bind
    (fun c => .expectSymbol fun stop => .pure _) ?_
  exact fun _ _ _ _ _ _ => trivial

theorem recognizes_returnStatement (F : Follow) :
    Recognizes n Statement.bare (returnStatement expression)
      (after (.keyword .returnWord) (StatementRest n (.keyword .returnWord))) F := by
  refine .expectKeyword fun start => ?_
  have hvalue : Recognizes n (Option.map Expression.bare)
      (do if ← isSymbol .semicolon then pure none else some <$> expression)
      (Language.or (done none) fun w e? => ∃ e, IsExpression n w e ∧ e? = some e)
      fun next => next = some (.symbol .semicolon) := by
    refine .unlessSymbol (.pure none) ?_ (fun next h => h) (fun w b h => h.1) ?_
    · rw [map_eq_pure_bind]
      refine (hexpression.follow ?_).map_result fun e => rfl
      rintro next rfl
      rfl
    · rintro w e? next ⟨e, h, rfl⟩ rfl hfront
      obtain ⟨k, v, rfl, hk⟩ := isExpression_front h
      obtain rfl : k = .symbol .semicolon := by simpa using hfront
      simp [closes] at hk
  have hrest : ∀ value, Recognizes n Statement.bare
      (do return .return value (start.merge (← expectSymbol .semicolon)) : Parser σ Statement)
      (after (.symbol .semicolon) <| done (.return (value.map Expression.bare) .zero)) F :=
    fun value => .expectSymbol fun stop => .pure _
  have hbind := hvalue.bind (G := F) (M := fun value => after (.symbol .semicolon) <|
    done (Statement.return value .zero)) hrest ?_
  · intro s hn
    refine .of_eq ?_ (hbind s hn)
    cases hs : s.isSymbol .semicolon <;>
      simp only [bind_apply, isSymbol_apply, hs, Bool.false_eq_true, if_false, if_true, pure_apply]
  · rintro value w s next ⟨v, rfl, -⟩ -
    rfl

include hstatements

theorem recognizes_ifStatement :
    Recognizes n Statement.bare (ifStatement expression statements)
      (after (.keyword .ifWord) (StatementRest n (.keyword .ifWord)))
      fun next => next ≠ some (.keyword .elseWord) := by
  refine .expectKeyword fun start => ?_
  refine (recognizes_condition hexpression fun _ => True).bind (fun test => ?_)
    fun _ _ _ _ _ _ => trivial
  refine (recognizes_block hstatements fun _ => True).bind (fun consequent => ?_)
    fun _ _ _ _ _ _ => trivial
  refine .eatKeyword ?_ ?_ ?_
  · refine (recognizes_block hstatements fun _ => True).bind (fun alternate => .result ?_)
      fun _ _ _ _ _ _ => trivial
    rw [Statement.bare, Statement.bareAll_eq_map, Statement.bareAll_eq_map]
  · refine .result ?_
    rw [Statement.bare, Statement.bareAll_eq_map]
  · rintro w s next ⟨rfl, -⟩ hnext
    exact hnext

theorem recognizes_whileStatement (F : Follow) :
    Recognizes n Statement.bare (whileStatement expression statements)
      (after (.keyword .whileWord) (StatementRest n (.keyword .whileWord))) F := by
  refine .expectKeyword fun start => ?_
  refine (recognizes_condition hexpression fun _ => True).bind (fun test => ?_)
    fun _ _ _ _ _ _ => trivial
  refine (recognizes_block hstatements fun _ => True).bind (fun body => .result ?_)
    fun _ _ _ _ _ _ => trivial
  rw [Statement.bare, Statement.bareAll_eq_map]

theorem recognizes_statementOf :
    Recognizes n Statement.bare (statementOf expression statements) (IsStatement n)
      fun next => next ≠ some (.keyword .elseWord) := by
  intro s hn
  refine .get ?_
  cases hword : s.lookahead.bind Token.keyword? with
  | none =>
      refine .of_first_failed isStatement_iff (fun k hk v st hrest => ?_) (.unexpected _)
      cases k with
      | keyword word => simp [keyword?_eq_some_iff.2 hk] at hword
      | _ => exact hrest
  | some word =>
      have hk := keyword?_eq_some_iff.1 hword
      cases word
      case letWord =>
        exact .of_first isStatement_iff hk (recognizes_letStatement hexpression _ s hn)
      case ifWord =>
        exact .of_first isStatement_iff hk (recognizes_ifStatement hexpression hstatements s hn)
      case whileWord =>
        exact .of_first isStatement_iff hk
          (recognizes_whileStatement hexpression hstatements _ s hn)
      case doWord =>
        exact .of_first isStatement_iff hk (recognizes_doStatement hexpression _ s hn)
      case returnWord =>
        exact .of_first isStatement_iff hk (recognizes_returnStatement hexpression _ s hn)
      all_goals exact .of_first_failed isStatement_iff (by simp [hk, StatementRest]) (.unexpected _)

end

theorem isStatement_front {w : Word} {s : Statement} (h : IsStatement n w s) :
    ∃ k v, w = k :: v ∧ startsStatement k = true := by
  obtain ⟨k, v, rfl, hrest⟩ := (isStatement_iff w s).1 h
  refine ⟨k, v, rfl, ?_⟩
  cases k with
  | keyword word => cases word <;> first | rfl | exact hrest.elim
  | _ => exact hrest.elim

theorem sequence_isStatement_iff {w : Word} {ss : List Statement} :
    Sequence (IsStatement n) w ss ↔ IsSequence n w ss := by
  constructor
  · intro h
    induction h with
    | nil => exact .nil
    | cons h hs ih => exact .cons h ih
  · intro h
    induction ss generalizing w with
    | nil =>
        cases h
        exact .nil
    | cons s ss ih =>
        cases h with
        | cons h hs => exact .cons h (ih hs)

theorem opened_isSequence_iff {w : Word} {ss : List Statement} :
    opened IsSequence n w ss ↔ IsStatements n w ss := by
  cases n with
  | zero => exact ⟨fun h => h.elim, fun h => nomatch h⟩
  | succ m =>
      refine ⟨.intro, fun h => ?_⟩
      cases h with
      | intro h => exact h

theorem ne_else_of_startsStatement {k : Kind} (h : startsStatement k = true) :
    some k ≠ some (.keyword .elseWord) := by
  rintro heq
  obtain rfl := Option.some.inj heq
  simp [startsStatement, Keyword.startsStatement] at h

theorem recognizes_statements {room : Nat} (hroom : n ≤ room) :
    Recognizes n (List.map Statement.bare) (statements room : Parser σ (List Statement))
      (IsStatements n) EndsStatements := by
  induction room generalizing n with
  | zero =>
      obtain rfl : n = 0 := Nat.le_zero.1 hroom
      have hnested : Recognizes 0 (List.map Statement.bare)
          (nested tooDeep : Parser σ (List Statement)) (opened IsSequence 0) EndsStatements :=
        .nested fun m hm => by simp at hm
      exact hnested.congr fun w ss => opened_isSequence_iff
  | succ room ih =>
      have hbody : ∀ m, n = m + 1 → Recognizes m (List.map Statement.bare)
          (many atStatement (statementOf (expression room) (statements room)) : Parser σ _)
          (IsSequence m) EndsStatements := by
        intro m hm
        have hexpression : Recognizes m Expression.bare (expression room : Parser σ Expression)
            (IsExpression m) (Ends 1) := recognizes_expression (by omega)
        have hstatement := recognizes_statementOf hexpression (ih (by omega))
        have hmany := Recognizes.many startsStatement (fun s hn _ => hstatement s hn)
          atStatement_eq (fun w s h => isStatement_front h)
          (fun k hk => ne_else_of_startsStatement hk) fun next h => h
        exact hmany.congr fun w ss => sequence_isStatement_iff
      exact (Recognizes.nested hbody).congr fun w ss => opened_isSequence_iff

end JackToolchain.Syntax.Parser
