import JackToolchain.Proofs.Syntax.Statements

/-!
# The parser accepts its grammar

The rules for declarations recognize the words of the grammar, and so the parser accepts what the
grammar derives, with the tree of the derivation. No word has two trees.
-/

namespace JackToolchain.Syntax

open JackToolchain.Source JackToolchain.Diagnostics JackToolchain.Token

namespace Parser

open JackToolchain.Syntax.Language

variable {σ : Type} {n : Nat} {α β : Type}

/-- The kind of the subroutines that start like this. -/
def subroutineKindOf? : Kind → Option SubroutineKind
  | .keyword word => SubroutineKind.ofKeyword? word
  | _ => none

theorem subroutineKind?_eq (s : State σ) : subroutineKind? s = s.front.bind subroutineKindOf? := by
  rw [subroutineKind?, State.front]
  cases s.lookahead with
  | none => rfl
  | some t => cases hk : t.kind <;> simp [Token.keyword?, hk, subroutineKindOf?]

variable [TokenSource σ]

/-- What follows the first token of a type. -/
def TypeRest (k : Kind) : Language TypeName :=
  fun w type => w = [] ∧ TypeName.ofKind? k = some type

theorem isType_iff (w : Word) (type : TypeName) :
    IsType w type ↔ ∃ k, after k (TypeRest k) w type := by
  constructor
  · intro h
    cases h <;> exact ⟨_, [], rfl, rfl, rfl⟩
  · rintro ⟨k, v, rfl, rfl, h⟩
    cases k with
    | keyword word =>
        cases word <;> simp [TypeName.ofKind?, TypeName.ofKeyword?] at h <;> subst h <;> constructor
    | identifier name =>
        obtain rfl := Option.some.inj h
        exact .named
    | _ => simp [TypeName.ofKind?] at h

theorem recognizes_typeName (F : Follow) :
    Recognizes n id (typeName : Parser σ TypeName) IsType F := by
  intro s hn
  refine .get ?_
  have hbind : s.lookahead.bind TypeName.ofToken? = s.front.bind TypeName.ofKind? := by
    rw [State.front]
    cases s.lookahead <;> rfl
  rw [hbind]
  cases htype : s.front.bind TypeName.ofKind? with
  | none =>
      refine .of_first_failed isType_iff (fun k hk v type h => ?_) (.unexpected _)
      simp [hk, h.2] at htype
  | some type =>
      obtain ⟨k, hk, hkind⟩ := Option.bind_eq_some_iff.1 htype
      have htake : RecognizesAt id (advance >>= fun _ => pure type) (after k (done type)) F s :=
        .take hn hk fun _ _ => .pure type
      refine .of_first isType_iff hk (htake.congr ?_ ?_)
      · rintro w type' next ⟨v, rfl, rfl, rfl⟩ -
        exact ⟨[], rfl, rfl, hkind⟩
      · rintro w type' next ⟨v, rfl, rfl, h⟩ - hnext
        exact ⟨⟨[], rfl, rfl, Option.some.inj (h.symm.trans hkind)⟩, hnext⟩

theorem recognizes_nameList :
    Recognizes n id (nameList : Parser σ (List String)) (Separated IsName)
      fun next => next ≠ some (.symbol .comma) := by
  have hname : Recognizes n id (Prod.fst <$> expectIdentifier : Parser σ String) IsName fun _ => True := by
    rw [map_eq_pure_bind]
    have hdone : Recognizes n id (expectIdentifier >>= fun name => pure name.1 : Parser σ String)
        (named done) fun _ => True := .expectIdentifier fun name span => .pure name
    refine hdone.congr fun w name => ⟨?_, ?_⟩
    · rintro ⟨name, v, rfl, rfl, rfl⟩
      exact .intro
    · rintro ⟨⟩
      exact ⟨_, [], rfl, rfl, rfl⟩
  have hlist := Recognizes.separated hname trivial (F := fun next => next ≠ some (.symbol .comma))
    fun next h => ⟨trivial, h⟩
  rwa [List.map_id_fun] at hlist

/-- What follows the first token of a declaration of variables. -/
def VarsRest (make : TypeName → List String → α) : Language α :=
  Language.bind IsType fun type => Language.bind (Separated IsName) fun names =>
    after (.symbol .semicolon) <| done (make type names)

theorem varsRest_iff {make : TypeName → List String → α} {w : Word} {a : α} :
    VarsRest make w a ↔
      ∃ u v type names, w = u ++ v ++ [.symbol .semicolon] ∧ IsType u type ∧
        Separated IsName v names ∧ a = make type names := by
  constructor
  · rintro ⟨u, v, type, rfl, ht, v, w, names, rfl, hn, w, rfl, rfl, rfl⟩
    exact ⟨u, v, type, names, by simp, ht, hn, rfl⟩
  · rintro ⟨u, v, type, names, rfl, ht, hn, rfl⟩
    exact ⟨u, _, type, by simp, ht, v, _, names, rfl, hn, [], rfl, rfl, rfl⟩

theorem recognizes_varsRest {value : α → β} {make : TypeName → List String → Span → α}
    {make' : TypeName → List String → β}
    (hmake : ∀ type names stop, value (make type names stop) = make' type names) (F : Follow) :
    Recognizes n value
      (do
        let type ← typeName
        let names ← nameList
        return make type names (← expectSymbol .semicolon) : Parser σ α)
      (VarsRest make') F := by
  refine (recognizes_typeName fun _ => True).bind (fun type => ?_) fun _ _ _ _ _ _ => trivial
  refine recognizes_nameList.bind (fun names => .expectSymbol fun stop => .result (hmake _ _ _)) ?_
  rintro names w a next ⟨v, rfl, -⟩ -
  simp

/-- The token starts a declaration of class variables. -/
def startsClassVars : Kind → Bool
  | .keyword .staticWord | .keyword .fieldWord => true
  | _ => false

/-- What follows the first token of a declaration of class variables. -/
def ClassVarsRest : Kind → Language ClassVars
  | .keyword .staticWord => VarsRest fun type names => ⟨.static, type, names, .zero⟩
  | .keyword .fieldWord => VarsRest fun type names => ⟨.field, type, names, .zero⟩
  | _ => fun _ _ => False

theorem isClassVars_iff (w : Word) (v : ClassVars) :
    IsClassVars w v ↔ ∃ k, after k (ClassVarsRest k) w v := by
  constructor
  · intro h
    cases h with
    | static ht hn =>
        exact ⟨.keyword .staticWord, _, rfl, varsRest_iff.2 ⟨_, _, _, _, rfl, ht, hn, rfl⟩⟩
    | field ht hn =>
        exact ⟨.keyword .fieldWord, _, rfl, varsRest_iff.2 ⟨_, _, _, _, rfl, ht, hn, rfl⟩⟩
  · rintro ⟨k, u, rfl, h⟩
    unfold ClassVarsRest at h
    split at h
    · obtain ⟨u, v, type, names, rfl, ht, hn, rfl⟩ := varsRest_iff.1 h
      exact .static ht hn
    · obtain ⟨u, v, type, names, rfl, ht, hn, rfl⟩ := varsRest_iff.1 h
      exact .field ht hn
    · exact h.elim

theorem isClassVars_front {w : Word} {v : ClassVars} (h : IsClassVars w v) :
    ∃ k u, w = k :: u ∧ startsClassVars k = true := by
  cases h <;> exact ⟨_, _, rfl, rfl⟩

theorem recognizes_classVars {s : State σ} (hn : Limits.maxParseDepth - s.depth = n)
    (hs : s.front.any startsClassVars = true) (F : Follow) :
    RecognizesAt ClassVars.bare classVars IsClassVars F s := by
  obtain ⟨k, hk, hstarts⟩ := (Option.any_eq_true _ _).1 hs
  refine .of_first isClassVars_iff hk (.take hn hk fun t ht => ?_)
  unfold startsClassVars at hstarts
  split at hstarts
  · refine recognizes_varsRest (fun type names stop => ?_) F
    simp [ClassVars.bare, Token.keyword?, ht]
  · refine recognizes_varsRest (fun type names stop => ?_) F
    simp [ClassVars.bare, Token.keyword?, ht]
  · simp at hstarts

theorem recognizes_localVars (F : Follow) :
    Recognizes n Locals.bare (localVars : Parser σ Locals) IsLocals F := by
  have hvars : Recognizes n Locals.bare (localVars : Parser σ Locals)
      (after (.keyword .varWord) <| VarsRest fun type names => ⟨type, names, .zero⟩) F := by
    refine .expectKeyword fun start => recognizes_varsRest (fun type names stop => ?_) F
    rfl
  refine hvars.congr fun w l => ⟨?_, ?_⟩
  · rintro ⟨u, rfl, h⟩
    obtain ⟨u, v, type, names, rfl, ht, hn, rfl⟩ := varsRest_iff.1 h
    exact .intro ht hn
  · rintro ⟨ht, hn⟩
    exact ⟨_, rfl, varsRest_iff.2 ⟨_, _, _, _, rfl, ht, hn, rfl⟩⟩

theorem recognizes_parameter (F : Follow) :
    Recognizes n Parameter.bare (parameter : Parser σ Parameter) IsParameter F := by
  have hparameter : Recognizes n Parameter.bare (parameter : Parser σ Parameter)
      (Language.bind IsType fun type => named fun name => done ⟨type, name, .zero⟩) F := by
    intro s hn
    refine .get (RecognizesAt.bind (recognizes_typeName (fun _ => True) s hn) hn (fun type => ?_)
      fun _ _ _ _ _ _ => trivial)
    exact .expectIdentifier fun name stop => .pure _
  refine hparameter.congr fun w p => ⟨?_, ?_⟩
  · rintro ⟨u, v, type, rfl, ht, name, v, rfl, rfl, rfl⟩
    exact .intro ht
  · rintro ⟨ht⟩
    exact ⟨_, _, _, rfl, ht, _, [], rfl, rfl, rfl⟩

theorem isType_front {w : Word} {type : TypeName} (h : IsType w type) :
    ∃ k v, w = k :: v ∧ k ≠ .symbol .rightParen ∧ k ≠ .keyword .voidWord := by
  cases h <;> exact ⟨_, [], rfl, by simp, by simp⟩

theorem recognizes_parameters :
    Recognizes n (List.map Parameter.bare) (listed parameter : Parser σ (List Parameter))
      (Listed IsParameter) fun next => next = some (.symbol .rightParen) := by
  refine .listed (recognizes_parameter fun _ => True) trivial (fun next h => ⟨trivial, h⟩) ?_
  rintro w p ⟨ht⟩
  obtain ⟨k, v, rfl, hk, -⟩ := isType_front ht
  exact ⟨k, _, rfl, hk⟩

theorem recognizes_returnType (F : Follow) :
    Recognizes n id (returnType : Parser σ (Option TypeName)) IsReturnType F := by
  have htype : Recognizes n id (some <$> typeName : Parser σ (Option TypeName))
      (fun w type? => ∃ type, IsType w type ∧ type? = some type) F := by
    rw [map_eq_pure_bind]
    exact (recognizes_typeName F).map_result fun _ => rfl
  have hreturn : Recognizes n id (returnType : Parser σ (Option TypeName))
      ((after (.keyword .voidWord) (done none)).or
        fun w type? => ∃ type, IsType w type ∧ type? = some type) F := by
    refine .eatKeyword (.pure none) htype ?_
    rintro w type? next ⟨type, h, -⟩ - hfront
    obtain ⟨k, v, rfl, -, hk⟩ := isType_front h
    exact hk (by simpa using hfront)
  refine hreturn.congr fun w type? => ⟨?_, ?_⟩
  · rintro (⟨v, rfl, rfl, rfl⟩ | ⟨type, h, rfl⟩)
    · exact .void
    · exact .type h
  · rintro (_ | h)
    · exact .inl ⟨[], rfl, rfl, rfl⟩
    · exact .inr ⟨_, h, rfl⟩

/-- Locals and statements in braces. -/
def Body (n : Nat) : Language (List Locals × List Statement) :=
  after (.symbol .leftBrace) <| Language.bind (Sequence IsLocals) fun locals =>
    Language.bind (IsStatements n) fun body => after (.symbol .rightBrace) <| done (locals, body)

/-- What follows the first token of a subroutine. -/
def SubroutineRest (n : Nat) (kind : SubroutineKind) : Language Subroutine :=
  Language.bind IsReturnType fun returnType => named fun name =>
    after (.symbol .leftParen) <| Language.bind (Listed IsParameter) fun parameters =>
      after (.symbol .rightParen) <| (Body n).bind fun body =>
        done ⟨kind, returnType, name, parameters, body.1, body.2, .zero⟩

theorem isSubroutineKind_iff {word : Keyword} {kind : SubroutineKind} :
    IsSubroutineKind word kind ↔ SubroutineKind.ofKeyword? word = some kind := by
  constructor
  · rintro ⟨⟩ <;> rfl
  · intro h
    cases word <;> simp [SubroutineKind.ofKeyword?] at h <;> subst h <;> constructor

theorem body_iff {w : Word} {body : List Locals × List Statement} :
    Body n w body ↔
      ∃ u v, w = Word.inBraces (u ++ v) ∧ Sequence IsLocals u body.1 ∧
        IsStatements n v body.2 := by
  constructor
  · rintro ⟨v, rfl, u, v, locals, rfl, hl, v, w, ss, rfl, hs, w, rfl, rfl, rfl⟩
    exact ⟨u, v, by simp [Word.between], hl, hs⟩
  · rintro ⟨u, v, rfl, hl, hs⟩
    exact ⟨_, rfl, u, v ++ [.symbol .rightBrace], _, by simp, hl, v, _, _, rfl, hs, [], rfl, rfl,
      rfl⟩

theorem isSubroutine_iff (w : Word) (s : Subroutine) :
    IsSubroutine n w s ↔
      ∃ k, after k (fun v s => ∃ kind, subroutineKindOf? k = some kind ∧
        SubroutineRest n kind v s) w s := by
  constructor
  · intro h
    cases h with
    | intro hk ht hp hl hb =>
        refine ⟨.keyword _, _, rfl, _, isSubroutineKind_iff.1 hk, ?_⟩
        refine ⟨_, _, _, ?_, ht, _, _, rfl, _, rfl, _, _, _, rfl, hp, Word.inBraces _, rfl, _, [],
          (_, _), (List.append_nil _).symm, body_iff.2 ⟨_, _, rfl, hl, hb⟩, rfl, rfl⟩
        simp [Word.between]
  · rintro ⟨k, v, rfl, kind, hk, u, v, returnType, rfl, ht, name, v, rfl, v, rfl, p, v, parameters,
      rfl, hp, v, rfl, b, v, ⟨locals, body⟩, rfl, hbody, rfl, rfl⟩
    obtain ⟨l, b, rfl, hl, hb⟩ := body_iff.1 hbody
    cases k with
    | keyword word =>
        simpa [Word.between] using IsSubroutine.intro (isSubroutineKind_iff.2 hk) ht hp hl hb
    | _ => simp [subroutineKindOf?] at hk

theorem isStatements_front {w : Word} {ss : List Statement} (h : IsStatements n w ss) :
    w = [] ∨ ∃ k v, w = k :: v ∧ startsStatement k = true := by
  cases h with
  | intro h =>
      cases h with
      | nil => exact .inl rfl
      | cons h hs =>
          obtain ⟨k, v, rfl, hk⟩ := isStatement_front h
          exact .inr ⟨k, _, rfl, hk⟩

theorem isLocals_front {w : Word} {l : Locals} (h : IsLocals w l) :
    ∃ k v, w = k :: v ∧ (k == .keyword .varWord) = true := by
  cases h
  exact ⟨_, _, rfl, rfl⟩

theorem recognizes_locals :
    Recognizes n (List.map Locals.bare)
      (many (·.isKeyword .varWord) localVars : Parser σ (List Locals)) (Sequence IsLocals)
      fun next => next ≠ some (.keyword .varWord) := by
  refine .many (· == .keyword .varWord) (fun s hn _ => recognizes_localVars (fun _ => True) s hn)
    (fun s => ?_) (fun w l h => isLocals_front h) (fun _ _ => trivial) (fun next h => ⟨trivial, ?_⟩)
  · rw [Bool.eq_iff_iff, isKeyword_iff]
    cases s.front <;> simp
  · cases next <;> simp_all

theorem recognizes_subroutineBody (hn : n ≤ Limits.maxParseDepth) (F : Follow) :
    Recognizes n (fun body => (body.1.map Locals.bare, body.2.1.map Statement.bare))
      (subroutineBody : Parser σ _) (Body n) F := by
  refine .expectSymbol fun _ => recognizes_locals.bind (fun locals => ?_) ?_
  · refine (recognizes_statements hn).bind (fun body => .expectSymbol fun stop => .pure _) ?_
    rintro body w s next ⟨v, rfl, -⟩ -
    exact ⟨by simp, rfl⟩
  · rintro locals w s next ⟨u, v, body, rfl, hb, v, rfl, -⟩ - hfront
    rcases isStatements_front hb with rfl | ⟨k, u, rfl, hk⟩
    · simp at hfront
    · obtain rfl : k = .keyword .varWord := by simpa using hfront
      simp [startsStatement, Keyword.startsStatement] at hk

theorem recognizes_subroutineRest (hn : n ≤ Limits.maxParseDepth) (kind : SubroutineKind)
    (start : Span) (F : Follow) :
    Recognizes n Subroutine.bare (subroutineRest kind start : Parser σ Subroutine)
      (SubroutineRest n kind) F := by
  refine (recognizes_returnType fun _ => True).bind (fun returnType => ?_) fun _ _ _ _ _ _ => trivial
  refine .expectIdentifier fun name _ => .expectSymbol fun _ => ?_
  refine recognizes_parameters.bind (fun parameters => .expectSymbol fun _ => ?_) ?_
  · refine (recognizes_subroutineBody hn fun _ => True).bind (fun body => .note _ (.pure _))
      fun _ _ _ _ _ _ => trivial
  · rintro parameters w s next ⟨v, rfl, -⟩ -
    rfl

/-- The token starts a subroutine. -/
def startsSubroutine (k : Kind) : Bool := (subroutineKindOf? k).isSome

theorem recognizes_subroutine {s : State σ} (hn : Limits.maxParseDepth - s.depth = n)
    (hs : s.front.any startsSubroutine = true) (F : Follow) :
    RecognizesAt Subroutine.bare subroutine (IsSubroutine n) F s := by
  obtain ⟨k, hk, hkind⟩ := (Option.any_eq_true _ _).1 hs
  obtain ⟨kind, hkind⟩ := Option.isSome_iff_exists.1 hkind
  have hsome : subroutineKind? s = some kind := by rw [subroutineKind?_eq, hk, Option.bind_some, hkind]
  refine .of_first isSubroutine_iff hk (.get ?_)
  rw [hsome]
  refine .take hn hk fun t _ => ?_
  refine (recognizes_subroutineRest (by omega) kind t.span F).congr fun w st => ⟨?_, ?_⟩
  · exact fun h => ⟨kind, hkind, h⟩
  · rintro ⟨kind', hkind', h⟩
    obtain rfl : kind = kind' := Option.some.inj (hkind.symm.trans hkind')
    exact h

theorem isSubroutine_front {w : Word} {s : Subroutine} (h : IsSubroutine n w s) :
    ∃ k v, w = k :: v ∧ startsSubroutine k = true := by
  obtain ⟨k, v, rfl, kind, hk, -⟩ := (isSubroutine_iff w s).1 h
  exact ⟨k, v, rfl, by rw [startsSubroutine, hk]; rfl⟩

/-- What follows the name of a class. -/
def ClassRest (n : Nat) (name : String) : Language ClassTree :=
  after (.symbol .leftBrace) <| Language.bind (Sequence IsClassVars) fun classVars =>
    Language.bind (Sequence (IsSubroutine n)) fun subroutines =>
      after (.symbol .rightBrace) <| done ⟨name, classVars, subroutines, .zero⟩

theorem recognizes_manyClassVars :
    Recognizes n (List.map ClassVars.bare) (many atClassVars classVars : Parser σ (List ClassVars))
      (Sequence IsClassVars) fun next => next.any startsClassVars = false := by
  refine .many startsClassVars (fun s hn hs => recognizes_classVars hn hs fun _ => True)
    (fun s => ?_) (fun w v h => isClassVars_front h) (fun _ _ => trivial) fun next h => ⟨trivial, h⟩
  rw [atClassVars, Bool.eq_iff_iff, Bool.or_eq_true, isKeyword_iff, isKeyword_iff]
  cases s.front with
  | none => simp
  | some k =>
      cases k with
      | keyword word => cases word <;> simp [startsClassVars]
      | _ => simp [startsClassVars]

theorem recognizes_manySubroutines :
    Recognizes n (List.map Subroutine.bare)
      (many (fun s => (subroutineKind? s).isSome) subroutine : Parser σ (List Subroutine))
      (Sequence (IsSubroutine n)) fun next => next.any startsSubroutine = false := by
  refine .many startsSubroutine (fun s hn hs => recognizes_subroutine hn hs fun _ => True)
    (fun s => ?_) (fun w v h => isSubroutine_front h) (fun _ _ => trivial)
    fun next h => ⟨trivial, h⟩
  rw [subroutineKind?_eq]
  cases s.front <;> rfl

/-- The end of a class. -/
theorem recognizes_closing {value : α → β} {L : Language β} {F : Follow} {g : Span → Parser σ α}
    (hg : ∀ span, Recognizes n value (g span) L F) :
    Recognizes n value
      (do
        if !(← isSymbol .rightBrace) then unexpected .member
        let stop ← expectSymbol .rightBrace
        g stop)
      (after (.symbol .rightBrace) L) F := by
  refine .expect (f := fun t => g t.span) (fun s hs => ?_) (fun s hs => ?_) fun t _ => hg t.span
  · rw [bind_apply, isSymbol_apply, isSymbol_iff.2 hs]
    simp only [expectSymbol, bind_apply, isSymbol_apply, isSymbol_iff.2 hs, if_true, Bool.not_true,
      Bool.false_eq_true, if_false]
    obtain ⟨e | t, s'⟩ := advance s <;> rfl
  · obtain ⟨e, he⟩ := unexpected_apply (α := Unit) .member s
    rw [ne_eq, ← isSymbol_iff, Bool.not_eq_true] at hs
    refine ⟨e, ?_⟩
    simp only [bind_apply, isSymbol_apply, hs, Bool.not_false, if_true, he]

theorem recognizes_classTree (F : Follow) :
    Recognizes n ClassTree.bare (classTree : Parser σ ClassTree)
      (after (.keyword .classWord) <| named fun name => ClassRest n name) F := by
  refine .expectKeyword fun start => .expectIdentifier fun name _ => .expectSymbol fun _ => ?_
  refine recognizes_manyClassVars.bind (fun vars => recognizes_manySubroutines.bind
    (fun subroutines => recognizes_closing fun stop => .note _ (.pure _)) ?_) ?_
  · rintro subroutines w c next ⟨v, rfl, -⟩ -
    rfl
  · rintro vars w c next ⟨u, v, subroutines, rfl, hs, v, rfl, -⟩ -
    cases hs with
    | nil => rfl
    | cons h _ =>
        obtain ⟨k, v, rfl, hk⟩ := isSubroutine_front h
        cases k with
        | keyword word =>
            cases word <;>
              first
              | rfl
              | simp [startsSubroutine, subroutineKindOf?, SubroutineKind.ofKeyword?] at hk
        | _ => rfl

theorem isClass_iff {w : Word} {c : ClassTree} :
    (after (.keyword .classWord) <| named fun name => ClassRest n name) w c ↔ IsClass n w c := by
  constructor
  · rintro ⟨v, rfl, name, v, rfl, v, rfl, u, v, vars, rfl, hv, w, v, subroutines, rfl, hs, v, rfl,
      rfl, rfl⟩
    simpa [Word.between] using IsClass.intro hv hs
  · rintro ⟨hv, hs⟩
    refine ⟨_, rfl, _, _, rfl, _, rfl, _, _ ++ [.symbol .rightBrace], _, ?_, hv, _, _, _, rfl, hs,
      [], rfl, rfl, rfl⟩
    simp

theorem program_of_classTree {s s' : State σ} {tree : ClassTree}
    (h : classTree s = (.ok tree, s')) (hend : s'.lookahead = none) :
    program s = (.ok tree, s') := by
  rw [program, bind_apply, h]
  simp only [bind_apply, get_apply, hend, pure_apply]

theorem classTree_of_program {s s' : State σ} {tree : ClassTree}
    (h : program s = (.ok tree, s')) :
    classTree s = (.ok tree, s') ∧ s'.lookahead = none := by
  rw [program, bind_apply] at h
  match hc : classTree s with
  | (.error e, s'') =>
      rw [hc] at h
      cases h
  | (.ok tree', s'') =>
      rw [hc] at h
      simp only [bind_apply, get_apply] at h
      cases hend : s''.lookahead with
      | some t =>
          rw [hend] at h
          cases h
      | none =>
          rw [hend] at h
          cases h
          exact ⟨rfl, hend⟩

theorem recognizes_class (F : Follow) :
    Recognizes n ClassTree.bare (classTree : Parser σ ClassTree) (IsClass n) F :=
  (recognizes_classTree F).congr fun _ _ => isClass_iff

/-- What the parser makes of a whole stream is derived by the grammar. -/
theorem program_sound {s s' : State σ} {ts : List Token} {tree : ClassTree} (hd : s.Delivers ts)
    (h : program s = (.ok tree, s')) :
    IsClass (Limits.maxParseDepth - s.depth) (ts.map Token.kind) tree.bare ∧
      s'.depth = s.depth := by
  obtain ⟨hclass, hend⟩ := classTree_of_program h
  obtain ⟨us, rest, rfl, hreached, hw⟩ := (recognizes_class (fun _ => True) s rfl).sound hd hclass
  have hrest : rest = [] := by
    rw [← List.head?_eq_none_iff, ← hreached.delivers.lookahead, hend]
  rw [hrest, List.append_nil]
  exact ⟨hw, hreached.depth⟩

/-- What the grammar derives is parsed, with the tree of the derivation. -/
theorem program_complete {s : State σ} {ts : List Token} {tree : ClassTree} (hd : s.Delivers ts)
    (h : IsClass (Limits.maxParseDepth - s.depth) (ts.map Token.kind) tree) :
    ∃ parsed s', program s = (.ok parsed, s') ∧ parsed.bare = tree := by
  rw [← List.append_nil ts] at hd
  obtain ⟨parsed, s', hclass, hbare, hreached⟩ :=
    (recognizes_class (fun _ => True) s rfl).complete hd h trivial
  exact ⟨parsed, s', program_of_classTree hclass hreached.delivers.lookahead, hbare⟩

end Parser

/-- A word has one tree. -/
theorem isClass_unique {w : Word} {tree tree' : ClassTree}
    (h : IsClass Limits.maxParseDepth w tree) (h' : IsClass Limits.maxParseDepth w tree') :
    tree = tree' := by
  let ts := w.map fun kind => (⟨kind, "", .zero⟩ : Token)
  have hkinds : ts.map Token.kind = w := by simp [ts, Function.comp_def]
  have hd : ({ TokenStream.ofList ts with } : Parser.State TokenList).Delivers ts :=
    TokenStream.delivers_ofList ts
  rw [← hkinds] at h h'
  obtain ⟨parsed, s, hparsed, rfl⟩ := Parser.program_complete hd h
  obtain ⟨parsed', s', hparsed', rfl⟩ := Parser.program_complete hd h'
  rw [hparsed] at hparsed'
  cases hparsed'
  rfl

namespace ClassTree

variable {σ : Type} [TokenSource σ] {s : TokenStream σ} {ts : List Token} {tree : ClassTree}

/-- A class that is parsed is derived by the grammar. -/
theorem isClass_of_delivers {s' : TokenStream σ} (hd : s.Delivers ts)
    (h : ofStream s = (.ok tree, s')) :
    IsClass Limits.maxParseDepth (ts.map Token.kind) tree.bare := by
  have hd' : ({ s with } : Parser.State σ).Delivers ts := hd
  cases hprogram : Parser.program { s with } with
  | mk result s'' =>
      rw [ofStream, Parser.run, hprogram] at h
      cases h
      exact (Parser.program_sound hd' hprogram).1

/-- A class that is derived by the grammar is parsed. -/
theorem exists_ofStream (hd : s.Delivers ts)
    (h : IsClass Limits.maxParseDepth (ts.map Token.kind) tree) :
    ∃ parsed s', ofStream s = (.ok parsed, s') ∧ parsed.bare = tree := by
  have hd' : ({ s with } : Parser.State σ).Delivers ts := hd
  obtain ⟨parsed, s', hprogram, hbare⟩ := Parser.program_complete hd' h
  refine ⟨parsed, s'.toTokenStream, ?_, hbare⟩
  rw [ofStream, Parser.run, hprogram]

end ClassTree

/-- From every source of some tokens, the parser accepts what the grammar derives, with the tree of
the derivation. A word has one tree, and no level is left open. -/
theorem ClassTree.ofStream_eq_ok_iff :
    (∀ {σ : Type} [TokenSource σ] (s : TokenStream σ) (ts : List Token), s.Delivers ts →
      ∀ tree : ClassTree,
        (∃ parsed s', ofStream s = (.ok parsed, s') ∧ parsed.bare = tree.bare) ↔
          IsClass Limits.maxParseDepth (ts.map Token.kind) tree.bare) ∧
    (∀ ts : List Token, (TokenStream.ofList ts).Delivers ts) ∧
    (∀ (w : Word) (tree tree' : ClassTree), IsClass Limits.maxParseDepth w tree →
      IsClass Limits.maxParseDepth w tree' → tree = tree') ∧
    ∀ {σ : Type} [TokenSource σ] (s s' : Parser.State σ) (ts : List Token) (tree : ClassTree),
      s.Delivers ts → Parser.program s = (.ok tree, s') → s'.depth = s.depth := by
  refine ⟨?_, TokenStream.delivers_ofList, fun w tree tree' => isClass_unique, ?_⟩
  · intro σ _ s ts hd tree
    constructor
    · rintro ⟨parsed, s', h, hbare⟩
      rw [← hbare]
      exact isClass_of_delivers hd h
    · exact exists_ofStream hd
  · intro σ _ s s' ts tree hd h
    exact (Parser.program_sound hd h).2

/-- A class with a static variable `total` and one function. In its loop, as long as `0 < n`, comes
`let total = total + n * 2; let n = n - 1;`. -/
def loopWord : Word :=
  [.keyword .classWord, .identifier "Sum", .symbol .leftBrace, .keyword .staticWord,
    .keyword .intWord, .identifier "total", .symbol .semicolon, .keyword .functionWord,
    .keyword .intWord, .identifier "add", .symbol .leftParen, .keyword .intWord, .identifier "n",
    .symbol .rightParen, .symbol .leftBrace, .keyword .whileWord, .symbol .leftParen,
    .integerLiteral 0, .symbol .less, .identifier "n", .symbol .rightParen, .symbol .leftBrace,
    .keyword .letWord, .identifier "total", .symbol .equal, .identifier "total", .symbol .plus,
    .identifier "n", .symbol .star, .integerLiteral 2, .symbol .semicolon, .keyword .letWord,
    .identifier "n", .symbol .equal, .identifier "n", .symbol .minus, .integerLiteral 1,
    .symbol .semicolon, .symbol .rightBrace, .keyword .returnWord, .identifier "total",
    .symbol .semicolon, .symbol .rightBrace, .symbol .rightBrace]

theorem ClassTree.ofStream_loop : ∃ tree,
    let ts := loopWord.map fun kind => (⟨kind, "", .zero⟩ : Token)
    (TokenStream.ofList ts).Delivers ts ∧ (ofStream (TokenStream.ofList ts)).1 = .ok tree ∧
      tree.name = "Sum" ∧ tree.classVars.map ClassVars.names = [["total"]] ∧
      tree.subroutines.map (fun s => (s.name, s.parameters.length, s.body.length)) =
        [("add", 1, 2)] ∧
      IsClass Limits.maxParseDepth loopWord tree.bare ∧
        ∀ other, IsClass Limits.maxParseDepth loopWord other → other = tree.bare := by
  obtain ⟨tree, htree, hname, hvars, hsubroutines⟩ :
      ∃ tree ∈ (ofStream (TokenStream.ofList
        (loopWord.map fun kind => (⟨kind, "", .zero⟩ : Token)))).1.toOption,
        tree.name = "Sum" ∧ tree.classVars.map ClassVars.names = [["total"]] ∧
          tree.subroutines.map (fun s => (s.name, s.parameters.length, s.body.length)) =
            [("add", 1, 2)] := by
    decide +kernel
  refine ⟨tree, ?_⟩
  intro ts
  have hparsed : (ofStream (TokenStream.ofList ts)).1 = .ok tree := eq_ok_of_toOption htree
  have hd := TokenStream.delivers_ofList ts
  obtain ⟨hiff, -, hunique, -⟩ := ClassTree.ofStream_eq_ok_iff
  have hclass : IsClass Limits.maxParseDepth loopWord tree.bare :=
    (hiff _ ts hd tree).1 ⟨tree, _, Prod.ext hparsed rfl, rfl⟩
  exact ⟨hd, hparsed, hname, hvars, hsubroutines, hclass,
    fun other hother => hunique loopWord other tree.bare hother hclass⟩

end JackToolchain.Syntax
