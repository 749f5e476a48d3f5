import JackToolchain.Proofs.Syntax.Accepted
import JackToolchain.Proofs.Syntax.Names

/-!
# Names are identifiers

What a derived tree names is an identifier of its word. So no variable of a class that is parsed
from a lexer has the name of a reserved word.
-/

namespace JackToolchain.Syntax

open JackToolchain.Token

/-- The names are identifiers of the word. -/
def Covers (w : Word) (names : List String) : Prop := ∀ name ∈ names, .identifier name ∈ w

namespace Covers

variable {v w : Word} {names others : List String} {k : Kind} {name : String}

theorem nil (w : Word) : Covers w [] := by simp [Covers]

theorem append (h : Covers w names) (h' : Covers w others) : Covers w (names ++ others) :=
  List.forall_mem_append.mpr ⟨h, h'⟩

theorem mono (h : Covers v names) (hsub : v ⊆ w) : Covers w names :=
  fun name hname => hsub (h name hname)

theorem left (h : Covers v names) : Covers (v ++ w) names := h.mono (List.subset_append_left v w)

theorem right (h : Covers w names) : Covers (v ++ w) names := h.mono (List.subset_append_right v w)

theorem behind (h : Covers w names) : Covers (k :: w) names := h.mono (List.subset_cons_self k w)

theorem between {opening closing : Symbol} (h : Covers w names) :
    Covers (w.between opening closing) names := h.behind.left

/-- A name in front. -/
theorem named (h : Covers w names) : Covers (.identifier name :: w) (name :: names) :=
  List.forall_mem_cons.mpr ⟨List.mem_cons_self, h.behind⟩

end Covers

namespace Expression

mutual

theorem mentioned_bare (e : Expression) : e.bare.mentioned = e.mentioned := by
  match e with
  | integer .. | string .. | boolean .. | null _ | this _ | var .. => rfl
  | element array index span => simp [bare, mentioned, mentioned_bare index]
  | call receiver name arguments span => simp [bare, mentioned, mentionedInAll_bare arguments]
  | unary op operand span => simp [bare, mentioned, mentioned_bare operand]
  | binary op left right span => simp [bare, mentioned, mentioned_bare left, mentioned_bare right]

theorem mentionedInAll_bare (es : List Expression) :
    mentionedInAll (bareAll es) = mentionedInAll es := by
  match es with
  | [] => rfl
  | e :: es => simp [bareAll, mentionedInAll, mentioned_bare e, mentionedInAll_bare es]

end

end Expression

namespace Statement

mutual

theorem mentioned_bare (s : Statement) : s.bare.mentioned = s.mentioned := by
  match s with
  | letVariable target value span => simp [bare, mentioned, value.mentioned_bare]
  | letElement target index value span =>
      simp [bare, mentioned, index.mentioned_bare, value.mentioned_bare]
  | ifThen condition consequent span =>
      simp [bare, mentioned, condition.mentioned_bare, mentionedInAll_bare consequent]
  | ifElse condition consequent alternate span =>
      simp [bare, mentioned, condition.mentioned_bare, mentionedInAll_bare consequent,
        mentionedInAll_bare alternate]
  | whileLoop condition body span =>
      simp [bare, mentioned, condition.mentioned_bare, mentionedInAll_bare body]
  | doCall call span =>
      simp [bare, mentioned, ← Call.bare_toExpression, Expression.mentioned_bare]
  | «return» none span => rfl
  | «return» (some value) span => simp [bare, mentioned, value.mentioned_bare]

theorem mentionedInAll_bare (ss : List Statement) :
    mentionedInAll (bareAll ss) = mentionedInAll ss := by
  match ss with
  | [] => rfl
  | s :: ss => simp [bareAll, mentionedInAll, mentioned_bare s, mentionedInAll_bare ss]

end

end Statement

/-! ## Expressions -/

mutual

theorem IsExpression.covers {n : Nat} {w : Word} {e : Expression} (h : IsExpression n w e) :
    Covers w e.mentioned := by
  match h with
  | .intro h => exact h.covers

theorem IsLevel.covers {n p : Nat} {w : Word} {e : Expression} (h : IsLevel n p w e) :
    Covers w e.mentioned := by
  match h with
  | .term h => exact h.covers
  | .operand _ h => exact h.covers
  | .join hl hr => exact hl.covers.left.append hr.covers.behind.right

theorem IsTerm.covers {n : Nat} {w : Word} {e : Expression} (h : IsTerm n w e) :
    Covers w e.mentioned := by
  match h with
  | .integer | .string | .true | .false | .null | .this => exact .nil _
  | .var => exact (Covers.nil []).named
  | .parenthesized h => exact h.covers.between
  | .negate h | .not h => exact h.covers.behind
  | .element h => exact h.covers.between.named
  | .call h => exact h.covers

theorem IsCall.covers {n : Nat} {w : Word} {c : Call} (h : IsCall n w c) :
    Covers w c.toExpression.mentioned := by
  match h with
  | .bare h => exact h.covers.between.behind
  | .dotted h => exact h.covers.between.behind.behind.named

theorem IsArguments.covers {n : Nat} {w : Word} {es : List Expression} (h : IsArguments n w es) :
    Covers w (Expression.mentionedInAll es) := by
  match h with
  | .none => exact .nil _
  | .some h => exact h.covers

theorem IsExpressions.covers {n : Nat} {w : Word} {es : List Expression}
    (h : IsExpressions n w es) : Covers w (Expression.mentionedInAll es) := by
  match h with
  | .one h => exact h.covers.append (.nil _)
  | .more h hs => exact h.covers.left.append hs.covers.behind.right

end

/-! ## Statements -/

mutual

theorem IsStatements.covers {n : Nat} {w : Word} {ss : List Statement} (h : IsStatements n w ss) :
    Covers w (Statement.mentionedInAll ss) := by
  match h with
  | .intro h => exact h.covers

theorem IsSequence.covers {n : Nat} {w : Word} {ss : List Statement} (h : IsSequence n w ss) :
    Covers w (Statement.mentionedInAll ss) := by
  match h with
  | .nil => exact .nil _
  | .cons h hs => exact h.covers.left.append hs.covers.right

theorem IsStatement.covers {n : Nat} {w : Word} {s : Statement} (h : IsStatement n w s) :
    Covers w s.mentioned := by
  match h with
  | .letVariable h => exact h.covers.between.named.behind
  | .letElement hi h => exact (hi.covers.between.left.append h.covers.between.right).named.behind
  | .ifThen h hc => exact (h.covers.between.left.append hc.covers.between.right).behind
  | .ifElse h hc ha =>
      exact ((h.covers.between.left.append hc.covers.between.right).left.append
        ha.covers.between.behind.right).behind
  | .whileLoop h hb => exact (h.covers.between.left.append hb.covers.between.right).behind
  | .doCall h => exact h.covers.left.behind
  | .return => exact .nil _
  | .returnValue h => exact h.covers.left.behind

end

/-! ## Declarations -/

section Lists

variable {α : Type} {L : Word → α → Prop} {names : α → List String} {w : Word} {as : List α}

theorem Sequence.covers (h : Sequence L w as) (hL : ∀ v a, L v a → Covers v (names a)) :
    Covers w (as.flatMap names) := by
  induction h with
  | nil => exact .nil []
  | cons h _ ih => exact (hL _ _ h).left.append ih.right

theorem Separated.covers (h : Separated L w as) (hL : ∀ v a, L v a → Covers v (names a)) :
    Covers w (as.flatMap names) := by
  induction h with
  | one h => exact (hL _ _ h).append (.nil _)
  | more h _ ih => exact (hL _ _ h).left.append ih.behind.right

theorem Listed.covers (h : Listed L w as) (hL : ∀ v a, L v a → Covers v (names a)) :
    Covers w (as.flatMap names) := by
  cases h with
  | none => exact .nil []
  | some h => exact h.covers hL

end Lists

theorem Separated.covers_names {w : Word} {names : List String} (h : Separated IsName w names) :
    Covers w names := by
  have hnames : Covers w (names.flatMap fun name => [name]) :=
    h.covers fun _ _ hname => by
      cases hname
      exact (Covers.nil []).named
  rwa [List.flatMap_singleton'] at hnames

theorem IsParameter.covers {w : Word} {p : Parameter} (h : IsParameter w p) :
    Covers w [p.name] := by
  cases h
  exact (Covers.nil []).named.right

theorem IsLocals.covers {w : Word} {l : Locals} (h : IsLocals w l) : Covers w l.names := by
  cases h with
  | intro ht hn => exact hn.covers_names.right.behind.left

/-- The names of all variables of a subroutine. -/
def Subroutine.variables (s : Subroutine) : List String :=
  s.parameters.map Parameter.name ++ s.locals.flatMap Locals.names

theorem Subroutine.variables_bare (s : Subroutine) : s.bare.variables = s.variables := by
  simp [Subroutine.variables, bare, List.flatMap_map]
  rfl

theorem IsSubroutine.covers {n : Nat} {w : Word} {s : Subroutine} (h : IsSubroutine n w s) :
    Covers w (s.variables ++ Statement.mentionedInAll s.body) := by
  cases h with
  | @intro word kind t ps ls b returnType name parameters locals body hk ht hp hl hb =>
      have hparameters : Covers ps (parameters.map Parameter.name) := by
        rw [List.map_eq_flatMap]
        exact hp.covers fun _ _ => IsParameter.covers
      have hlocals : Covers ls (locals.flatMap Locals.names) :=
        hl.covers fun _ _ => IsLocals.covers
      refine Covers.behind (.append (.append ?_ hlocals.left.between.right) ?_)
      · exact hparameters.between.behind.right.left
      · exact hb.covers.right.between.right

theorem IsClass.covers {n : Nat} {w : Word} {c : ClassTree} (h : IsClass n w c) :
    ∀ s ∈ c.subroutines, Covers w (s.variables ++ Statement.mentionedInAll s.body) := by
  cases h with
  | intro hv hs =>
      intro s hmem name hname
      have hall := hs.covers fun _ _ => IsSubroutine.covers
      exact hall.right.between.behind.behind name (List.mem_flatMap.mpr ⟨s, hmem, hname⟩)

/-- No variable in a class that is parsed from a lexer has the name of a reserved word. -/
theorem ClassTree.not_reserved_of_ofStream {lx : Lexer} {t t' : TokenStream Lexer}
    {tree : ClassTree} (hs : TokenStream.ofSource lx = .ok t) (h : ofStream t = (.ok tree, t'))
    {s : Subroutine} (hmem : s ∈ tree.subroutines) {name : String}
    (hname : name ∈ s.variables ++ Statement.mentionedInAll s.body) :
    Keyword.ofText? name = none := by
  have hcovers : Covers (lx.drain.1.map Token.kind)
      (s.variables ++ Statement.mentionedInAll s.body) := by
    rw [← s.variables_bare, ← Statement.mentionedInAll_bare, Statement.bareAll_eq_map]
    exact (isClass_of_ofStream hs h).covers _ (List.mem_map_of_mem hmem)
  obtain ⟨token, htoken, hkind⟩ := List.mem_map.mp (hcovers name hname)
  exact Lexer.not_reserved_of_mem_drain token htoken hkind

end JackToolchain.Syntax
