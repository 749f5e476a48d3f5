import JackToolchain.Proofs.Syntax.Accepted
import JackToolchain.Proofs.Syntax.Spanless
import JackToolchain.Proofs.Syntax.Taking

/-!
# Spans of trees

A rule hands on nodes whose spans are put together from the first and the last token of what it has
taken. The outline of a class fills all tokens of its source, and so its spans are well nested.
-/

namespace JackToolchain.Syntax

open JackToolchain.Source JackToolchain.Diagnostics JackToolchain.Token

namespace Parser

open Outline

variable {σ : Type} [TokenSource σ] {s : State σ} {t : Token}

/-! ## Expressions -/

section Expressions

variable {expression term operand : Parser σ Expression}

theorem takes_level (precedence : Nat)
    (hoperand : Takes [] operand fun tokens e => Row tokens [e.outline]) :
    Takes [] (level precedence operand) fun tokens e => Row tokens [e.outline] := by
  refine .bind hoperand fun taken first hfirst => .iterate ?_ hfirst
  intro before left hleft
  refine .get fun s => ?_
  split
  · refine Takes.advance (fun t => .bind hoperand fun taken right hright => .pure fun ho => ?_) s
    -- An operand in parentheses leaves its parentheses to the tokens around it.
    rw [List.append_assoc] at ho ⊢
    rw [Option.getD_some, Expression.join, Expression.outline, ← Expression.span_outline,
      ← Expression.span_outline]
    exact hleft.span hright ho
  · refine Takes.pure (fun _ => ?_) s
    exact hleft

theorem takes_levels (hterm : Takes [] term fun tokens e => Row tokens [e.outline]) (count : Nat) :
    Takes [] (levels term count) fun tokens e => Row tokens [e.outline] := by
  induction count with
  | zero => exact hterm
  | succ count ih => exact takes_level _ ih

/-- A leaf has the kind and the span of its token. -/
theorem takes_leaf {leaf : Span → Expression} (hs : s.lookahead = some t)
    (hleaf : (leaf t.span).outline = .leaf t.kind t.span) :
    TakesAt s [] (advance >>= fun t => pure (leaf t.span)) fun tokens e =>
      Row tokens [e.outline] := by
  refine .advance hs (.pure fun _ => .one ?_)
  rw [hleaf]
  exact .leaf t

theorem outline_constant {word : Keyword} {leaf : Span → Expression}
    (h : constant? word = some leaf) (span : Span) :
    (leaf span).outline = .leaf (.keyword word) span := by
  unfold constant? at h
  split at h <;> cases h <;> rw [Expression.outline] <;> rfl

variable (hexpression : Takes [] expression fun tokens e => Row tokens [e.outline])

include hexpression

/-- The arguments end a call that starts at some token. -/
theorem takes_arguments {before : List Token} (receiver : Option String) (name : String) :
    Takes (t :: before)
      (expectSymbol .leftParen >>= fun _ => listed expression >>= fun arguments =>
        expectSymbol .rightParen >>= fun stop =>
          pure ⟨receiver, name, arguments, t.span.merge stop⟩)
      fun tokens (call : Call) => Fills tokens call.outline := by
  refine .expectSymbol fun opening _ => .bind (.listed hexpression) fun taken arguments h => ?_
  refine .expectSymbol fun closing _ => .pure fun ho => ?_
  rw [← List.map_eq_flatMap] at h
  exact ((Row.skips _).append h).closed rfl ho

/-- A call starts at its first name. -/
theorem takes_callRest (name : String) :
    Takes [t] (callRest expression name t.span) fun tokens call => Fills tokens call.outline := by
  refine .eatSymbol (fun dot => .expectIdentifier fun second name _ => ?_) ?_
  · exact .pure_bind (takes_arguments hexpression _ _)
  · exact .pure_bind (takes_arguments hexpression _ _)

theorem takes_nameTerm {name : String} (hname : t.kind = .identifier name) :
    Takes [t] (nameTerm expression name t.span) fun tokens e => Row tokens [e.outline] := by
  refine .eatSymbol (fun opening => .bind hexpression fun taken index h => ?_) (.get fun s => ?_)
  · refine .expectSymbol fun closing _ => .pure fun ho => .one ?_
    rw [Expression.outline]
    exact ((Row.skips _).append h).closed rfl ho
  · split
    · refine Takes.result (takes_callRest hexpression name) (fun tokens call h => .one ?_) s
      rwa [Call.outline_toExpression]
    · refine Takes.pure (fun _ => .one ?_) s
      rw [Expression.outline, ← hname]
      exact .leaf t

theorem takes_termOf (hterm : Takes [] term fun tokens e => Row tokens [e.outline]) :
    Takes [] (termOf expression term) fun tokens e => Row tokens [e.outline] := by
  refine .get fun s => ?_
  cases hs : s.lookahead with
  | none => exact .unexpected _
  | some t =>
      rw [Option.map_some]
      match hkind : t.kind with
      | .integerLiteral value => exact takes_leaf hs (by rw [Expression.outline, hkind])
      | .stringLiteral value => exact takes_leaf hs (by rw [Expression.outline, hkind])
      | .identifier name => exact .advance hs (takes_nameTerm hexpression hkind)
      | .keyword word =>
          simp only
          split
          · rename_i leaf hleaf
            exact takes_leaf hs (by rw [outline_constant hleaf, hkind])
          · exact .unexpected _
      | .symbol symbol =>
          simp only
          split
          · refine .advance hs (.bind hexpression fun taken inner h => ?_)
            refine .expectSymbol fun closing _ => .pure fun _ => ?_
            exact ((Row.skips [t]).append h).snoc closing
          · split
            · refine .advance hs (.bind (.nested hterm) fun taken operand h => .pure fun ho => ?_)
              rw [Expression.outline, ← Expression.span_outline]
              exact h.prefixed ho
            · exact .unexpected _

end Expressions

theorem takes_term (room : Nat) :
    Takes [] (term room : Parser σ Expression) fun tokens e => Row tokens [e.outline] := by
  induction room with
  | zero =>
      have hdeep : Takes [] (tooDeep : Parser σ Expression) fun tokens e =>
        Row tokens [e.outline] := .tooDeep
      exact takes_termOf hdeep.nested hdeep
  | succ room ih =>
      have hexpression := Takes.nested (takes_levels ih BinaryOp.levels)
      exact takes_termOf hexpression ih

theorem takes_expression (room : Nat) :
    Takes [] (expression room : Parser σ Expression) fun tokens e => Row tokens [e.outline] := by
  cases room with
  | zero => exact .nested .tooDeep
  | succ room =>
      rw [expression]
      exact .nested (takes_levels (takes_term room) _)

/-! ## Statements -/

section Statements

variable {expression : Parser σ Expression} {statements : Parser σ (List Statement)}
  (hexpression : Takes [] expression fun tokens e => Row tokens [e.outline])
  (hstatements : Takes [] statements fun tokens body => Row tokens (body.map Statement.outline))

include hexpression in
theorem takes_condition :
    Takes [] (condition expression) fun tokens e => Row tokens [e.outline] := by
  refine .expectSymbol fun opening _ => .bind hexpression fun taken e h => ?_
  refine .expectSymbol fun closing _ => .pure fun _ => ?_
  exact ((Row.skips [opening]).append h).snoc closing

include hstatements in
/-- A block ends with a brace. -/
theorem Takes.block {β : Type} {before : List Token} {f : List Statement × Span → Parser σ β}
    {Q : List Token → β → Prop}
    (hf : ∀ taken body closing, Row taken (body.map Statement.outline) →
      Takes (before ++ taken ++ [closing]) (f (body, closing.span)) Q) :
    Takes before (block statements >>= f) Q := by
  refine bind (P := fun tokens body => ∃ taken closing, tokens = taken ++ [closing] ∧
    closing.span = body.2 ∧ Row taken (body.1.map Statement.outline)) ?_ ?_
  · refine .expectSymbol fun opening _ => .bind hstatements fun taken body h => ?_
    refine .expectSymbol fun closing _ => .pure fun _ => ?_
    exact ⟨_, closing, rfl, rfl, (Row.skips [opening]).append h⟩
  · rintro _ ⟨body, _⟩ ⟨taken, closing, rfl, rfl, h⟩
    rw [← List.append_assoc]
    exact hf taken body closing h

include hexpression

theorem takes_letStatement :
    Takes [] (letStatement expression) fun tokens s => Row tokens [s.outline] := by
  refine .expectKeyword fun start _ => .expectIdentifier fun target name _ => ?_
  refine .eatSymbol (fun opening => .bind hexpression fun taken index hindex => ?_) ?_
  · refine .expectSymbol fun closing _ => .pure_bind (.expectSymbol fun equal _ => ?_)
    refine .bind hexpression fun taken value hvalue => .expectSymbol fun stop _ => ?_
    refine .pure fun ho => .one ?_
    rw [Statement.outline]
    have hrow := (((Row.skips [start, target, opening]).append hindex).snoc closing).snoc equal
    exact (hrow.append hvalue).closed rfl ho
  · refine .pure_bind (.expectSymbol fun equal _ => .bind hexpression fun taken value h => ?_)
    refine .expectSymbol fun stop _ => .pure fun ho => .one ?_
    rw [Statement.outline]
    exact ((Row.skips _).append h).closed rfl ho

theorem takes_doStatement :
    Takes [] (doStatement expression) fun tokens s => Row tokens [s.outline] := by
  refine .expectKeyword fun start _ => .expectIdentifier fun t name _ => ?_
  refine .bind_rest (takes_callRest hexpression name) fun tokens call h => ?_
  refine .expectSymbol fun stop _ => .pure fun ho => .one ?_
  rw [Statement.outline]
  exact ((Row.skips [start]).append (.one h)).closed rfl ho

theorem takes_returnStatement :
    Takes [] (returnStatement expression) fun tokens s => Row tokens [s.outline] := by
  refine .expectKeyword fun start _ => .isSymbol fun bare => ?_
  split
  · refine .pure_bind (.expectSymbol fun stop _ => .pure fun ho => .one ?_)
    rw [Statement.outline]
    exact (Row.skips _).closed rfl ho
  · refine .bind (P := fun tokens value => Row tokens (value.toList.map Expression.outline))
      (.map hexpression fun _ _ h => h) fun taken value h => ?_
    refine .expectSymbol fun stop _ => .pure fun ho => .one ?_
    rw [Statement.outline]
    exact ((Row.skips [start]).append h).closed rfl ho

include hstatements

theorem takes_ifStatement :
    Takes [] (ifStatement expression statements) fun tokens s => Row tokens [s.outline] := by
  refine .expectKeyword fun start _ => .bind (takes_condition hexpression) fun _ test htest => ?_
  refine .block hstatements fun consequent body closing hbody => .isKeyword fun found => ?_
  have hrow := ((Row.skips [start]).append htest).append hbody
  split
  · refine .advance fun word => .block hstatements fun alternate other stop hother => ?_
    refine .pure fun ho => .one ?_
    rw [Statement.outline, Statement.outlines_eq_map, Statement.outlines_eq_map]
    exact (((hrow.snoc closing).snoc word).append hother).closed rfl ho
  · refine .pure fun ho => .one ?_
    rw [Statement.outline, Statement.outlines_eq_map]
    exact hrow.closed rfl ho

theorem takes_whileStatement :
    Takes [] (whileStatement expression statements) fun tokens s => Row tokens [s.outline] := by
  refine .expectKeyword fun start _ => .bind (takes_condition hexpression) fun _ test htest => ?_
  refine .block hstatements fun taken body stop hbody => .pure fun ho => .one ?_
  rw [Statement.outline, Statement.outlines_eq_map]
  exact (((Row.skips [start]).append htest).append hbody).closed rfl ho

theorem takes_statementOf :
    Takes [] (statementOf expression statements) fun tokens s => Row tokens [s.outline] := by
  refine .get fun s => ?_
  split
  · exact takes_letStatement hexpression s
  · exact takes_ifStatement hexpression hstatements s
  · exact takes_whileStatement hexpression hstatements s
  · exact takes_doStatement hexpression s
  · exact takes_returnStatement hexpression s
  · exact .unexpected _

end Statements

theorem takes_statements (room : Nat) :
    Takes [] (statements room : Parser σ (List Statement)) fun tokens body =>
      Row tokens (body.map Statement.outline) := by
  induction room with
  | zero => exact .nested .tooDeep
  | succ room ih =>
      have hitem := takes_statementOf (takes_expression room) ih
      refine .nested ((Takes.many hitem).imp fun tokens body h => ?_)
      rwa [List.map_eq_flatMap]

/-! ## Declarations -/

/-- A type is one token. -/
theorem takesAt_typeName (hs : s.lookahead = some t) :
    TakesAt s [] typeName fun tokens _ => tokens = [t] := by
  refine .get ?_
  split
  · exact .advance hs (.pure fun _ => rfl)
  · exact .unexpected _

theorem takes_typeName : Takes [] (typeName : Parser σ TypeName) fun tokens _ => Row tokens [] := by
  refine .get fun s => ?_
  split
  · exact Takes.advance (fun t => .pure fun _ => .skips _) s
  · exact .unexpected _

theorem takes_nameList :
    Takes [] (nameList : Parser σ (List String)) fun tokens _ => Row tokens [] := by
  have hname : Takes [] (Prod.fst <$> expectIdentifier : Parser σ String) fun tokens _ =>
      Row tokens [] := by
    rw [map_eq_pure_bind]
    exact .expectIdentifier fun t name _ => .pure fun _ => .skips _
  exact (Takes.separated hname).imp fun tokens _ _ => .skips tokens

theorem takes_classVars :
    Takes [] (classVars : Parser σ ClassVars) fun tokens v => Row tokens [v.outline] := by
  refine .advance fun word => .bind takes_typeName fun _ type h => ?_
  refine .bind takes_nameList fun _ names h' => .expectSymbol fun stop _ => .pure fun ho => .one ?_
  exact (((Row.skips [word]).append h).append h').closed rfl ho

theorem takes_localVars :
    Takes [] (localVars : Parser σ Locals) fun tokens l => Row tokens [l.outline] := by
  refine .expectKeyword fun word _ => .bind takes_typeName fun _ type h => ?_
  refine .bind takes_nameList fun _ names h' => .expectSymbol fun stop _ => .pure fun ho => .one ?_
  exact (((Row.skips [word]).append h).append h').closed rfl ho

/-- A parameter starts at its type. -/
theorem takes_parameter :
    Takes [] (parameter : Parser σ Parameter) fun tokens p => Row tokens [p.outline] := by
  rw [parameter_eq]
  refine .get fun s => ?_
  cases hs : s.lookahead with
  | none => exact .unexpected _
  | some t =>
      refine TakesAt.bind (takesAt_typeName hs) fun _ type htype => ?_
      subst htype
      refine .expectIdentifier fun stop name _ => .pure fun ho => .one ?_
      exact (Row.skips [t]).closed rfl ho

theorem takes_returnType :
    Takes [] (returnType : Parser σ (Option TypeName)) fun tokens _ => Row tokens [] := by
  refine .isKeyword fun void => ?_
  split
  · exact .advance fun t => .pure fun _ => .skips _
  · exact .map takes_typeName fun _ _ h => h

/-- A body ends with a brace. -/
theorem takes_subroutineBody :
    Takes [] (subroutineBody : Parser σ (List Locals × List Statement × Span)) fun tokens body =>
      ∃ taken closing, tokens = taken ++ [closing] ∧ closing.span = body.2.2 ∧
        Row taken (body.1.map Locals.outline ++ body.2.1.map Statement.outline) := by
  refine .expectSymbol fun opening _ => .bind (.many takes_localVars) fun _ locals hlocals => ?_
  refine .bind (takes_statements _) fun taken body hbody => .expectSymbol fun closing _ => ?_
  refine .pure fun _ => ⟨_, closing, rfl, rfl, ?_⟩
  rw [← List.map_eq_flatMap] at hlocals
  exact ((Row.skips [opening]).append hlocals).append hbody

theorem takes_subroutineRest (kind : SubroutineKind) :
    Takes [t] (subroutineRest kind t.span : Parser σ Subroutine) fun tokens s =>
      Row tokens [s.outline] := by
  refine .bind takes_returnType fun _ returnType htype => .expectIdentifier fun name _ _ => ?_
  refine .expectSymbol fun opening _ => .bind (.listed takes_parameter) fun _ parameters h => ?_
  refine .expectSymbol fun closing _ => .bind takes_subroutineBody fun _ body hbody => ?_
  obtain ⟨locals, body, _⟩ := body
  obtain ⟨taken, stop, rfl, rfl, hbody⟩ := hbody
  refine .note (.pure fun ho => .one ?_)
  rw [← List.append_assoc] at ho ⊢
  rw [← List.map_eq_flatMap] at h
  have hheader := ((((Row.skips [t]).append htype).snoc name).snoc opening).append h
  have hrow := ((hheader.snoc closing).append hbody).closed rfl ho
  rwa [← List.append_assoc] at hrow

theorem takes_subroutine :
    Takes [] (subroutine : Parser σ Subroutine) fun tokens s => Row tokens [s.outline] := by
  refine .get fun s => ?_
  exact Takes.advance (fun t => takes_subroutineRest _) s

/-- A class goes from its first word to its last brace. -/
theorem takes_classTree :
    Takes [] (classTree : Parser σ ClassTree) fun tokens tree => Fills tokens tree.outline ∧
      ∃ first last, tokens.head? = some first ∧ tokens.getLast? = some last ∧
        first.kind = .keyword .classWord ∧ last.kind = .symbol .rightBrace := by
  refine .expectKeyword fun first hfirst => .expectIdentifier fun name _ _ => ?_
  refine .expectSymbol fun opening _ => .bind (.many takes_classVars) fun _ vars hvars => ?_
  refine .bind (.many takes_subroutine) fun _ subroutines hsubroutines => .isSymbol fun found => ?_
  split
  · exact .bind (P := fun _ _ => False) (.unexpected _) fun _ _ h => h.elim
  · refine .expectSymbol fun last hlast => .note (.pure fun ho => ⟨?_, ?_⟩)
    · rw [← List.map_eq_flatMap] at hvars hsubroutines
      exact (((Row.skips [first, name, opening]).append hvars).append hsubroutines).closed rfl ho
    · exact ⟨first, last, rfl, List.getLast?_concat, hfirst, hlast⟩

theorem fills_of_program {s' : State σ} {tokens : List Token} {tree : ClassTree}
    (hd : s.Delivers tokens) (ho : Token.Ordered tokens) (h : program s = (.ok tree, s')) :
    Fills tokens tree.outline ∧
      ∃ first last, tokens.head? = some first ∧ tokens.getLast? = some last ∧
        first.kind = .keyword .classWord ∧ last.kind = .symbol .rightBrace := by
  obtain ⟨hclass, hend⟩ := classTree_of_program h
  obtain ⟨taken, rest, rfl, hrest, htree⟩ := takes_classTree s tokens tree _ hd ho hclass
  obtain rfl : rest = [] := by
    rw [← List.head?_eq_none_iff, ← hrest.lookahead, hend]
  rwa [List.append_nil]

end Parser

/-! ## Parsed sources -/

namespace ClassTree

variable {lx : Lexer} {s s' : TokenStream Lexer} {tree : ClassTree}

/-- The spans of a class that is parsed are well nested. The class runs from its first word to its
last brace. -/
theorem nested_of_ofStream (hs : TokenStream.ofSource lx = .ok s)
    (h : ofStream s = (.ok tree, s')) :
    tree.outline.Fills lx.drain.1 ∧ tree.outline.Nested lx.drain.1 ∧
      ∃ first last, lx.drain.1.head? = some first ∧ lx.drain.1.getLast? = some last ∧
        first.kind = .keyword .classWord ∧ last.kind = .symbol .rightBrace ∧
          tree.span = ⟨first.span.start, last.span.stop⟩ := by
  obtain ⟨m, m', hdelivers, -, hprogram⟩ := exists_program_of_ofStream hs h
  have ho := Lexer.ordered_drain lx
  obtain ⟨hfills, first, last, hfirst, hlast, hword, hbrace⟩ :=
    Parser.fills_of_program hdelivers ho hprogram
  refine ⟨hfills, hfills.nested ho fun t ht => ht, first, last, hfirst, hlast, hword, hbrace, ?_⟩
  obtain ⟨first', last', hfirst', hlast', hspan⟩ := hfills.ends
  rw [hfirst] at hfirst'
  rw [hlast] at hlast'
  cases hfirst'
  cases hlast'
  exact hspan

def productSource : List Char := "class A{method int f(){return (a)*2;}}".toList

/-- The product starts behind the parenthesis, the last statement with its first word. -/
def productOutline : Outline :=
  let product := .node [.leaf (.identifier "a") ⟨⟨31, 1, 32⟩, ⟨32, 1, 33⟩⟩,
    .leaf (.integerLiteral 2) ⟨⟨34, 1, 35⟩, ⟨35, 1, 36⟩⟩] ⟨⟨31, 1, 32⟩, ⟨35, 1, 36⟩⟩
  .node [.node [.node [product] ⟨⟨23, 1, 24⟩, ⟨36, 1, 37⟩⟩] ⟨⟨8, 1, 9⟩, ⟨37, 1, 38⟩⟩]
    ⟨⟨0, 1, 1⟩, ⟨38, 1, 39⟩⟩

theorem nested_product : ∃ tree s s', TokenStream.ofSource (Lexer.ofText productSource) = .ok s ∧
    ofStream s = (.ok tree, s') ∧ tree.outline = productOutline ∧
      productOutline.Nested (Lexer.ofText productSource).drain.1 := by
  obtain ⟨tree, hparsed, houtline⟩ :
      ∃ tree ∈ parsed? 40 (Lexer.ofText productSource), tree.outline = productOutline := by
    decide +kernel
  obtain ⟨s, s', hs, hparse⟩ := exists_ofStream_of_parsed rfl hparsed
  exact ⟨tree, s, s', hs, hparse, houtline, houtline ▸ (nested_of_ofStream hs hparse).2.1⟩

end ClassTree

end JackToolchain.Syntax
