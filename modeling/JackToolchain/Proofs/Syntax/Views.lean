import JackToolchain.Proofs.Syntax.Grammar

/-!
# Values with and without spans

What a parser hands on, seen with its spans or without them. Seen without spans, a covering span is
no span either, so a tree is seen node by node.
-/

namespace JackToolchain.Syntax

open JackToolchain.Source JackToolchain.Token

/-- A value that may carry spans, seen with them or without them. -/
class Spanned (α : Type) where
  view : Bool → α → α
  view_true : ∀ a, view true a = a

open Spanned (view view_true)

section Instances

variable {α β : Type}

instance : Spanned Unit := ⟨fun _ u => u, fun _ => rfl⟩

instance : Spanned Bool := ⟨fun _ b => b, fun _ => rfl⟩

instance : Spanned String := ⟨fun _ text => text, fun _ => rfl⟩

instance : Spanned TypeName := ⟨fun _ type => type, fun _ => rfl⟩

instance : Spanned Span := ⟨fun keep s => if keep then s else .zero, fun _ => rfl⟩

instance : Spanned Expression := ⟨fun keep e => if keep then e else e.bare, fun _ => rfl⟩

instance : Spanned Statement := ⟨fun keep s => if keep then s else s.bare, fun _ => rfl⟩

instance : Spanned Token := ⟨fun keep t => { t with span := view keep t.span }, fun _ => rfl⟩

instance : Spanned ClassVars := ⟨fun keep v => { v with span := view keep v.span }, fun _ => rfl⟩

instance : Spanned Parameter := ⟨fun keep p => { p with span := view keep p.span }, fun _ => rfl⟩

instance : Spanned Locals := ⟨fun keep l => { l with span := view keep l.span }, fun _ => rfl⟩

instance [Spanned α] : Spanned (List α) where
  view keep as := as.map (view keep)
  view_true as := (List.map_congr_left fun a _ => view_true a).trans (List.map_id as)

instance [Spanned α] : Spanned (Option α) where
  view keep a? := a?.map (view keep)
  view_true a? := by cases a? <;> simp [view_true]

instance [Spanned α] [Spanned β] : Spanned (α × β) where
  view keep p := (view keep p.1, view keep p.2)
  view_true p := Prod.ext (view_true p.1) (view_true p.2)

instance : Spanned Call where
  view keep c := { c with arguments := view keep c.arguments, span := view keep c.span }
  view_true c := by simp [view_true]

instance : Spanned Subroutine where
  view keep s :=
    { s with
      parameters := view keep s.parameters
      locals := view keep s.locals
      body := view keep s.body
      span := view keep s.span }
  view_true s := by simp [view_true]

instance : Spanned ClassTree where
  view keep c :=
    { c with
      classVars := view keep c.classVars
      subroutines := view keep c.subroutines
      span := view keep c.span }
  view_true c := by simp [view_true]

end Instances

variable {α : Type} [Spanned α] (keep : Bool)

@[simp] theorem view_merge (a b : Span) :
    view keep (a.merge b) = (view keep a).merge (view keep b) := by
  cases keep <;> rfl

@[simp] theorem view_reverse (items : List α) :
    view keep items.reverse = (view keep items).reverse := List.map_reverse

@[simp] theorem length_view (items : List α) : (view keep items).length = items.length :=
  List.length_map _

@[simp] theorem view_names (names : List String) : view keep names = names := List.map_id names

@[simp] theorem view_name? (name? : Option String) : view keep name? = name? := by
  cases name? <;> rfl

@[simp] theorem view_type? (type? : Option TypeName) : view keep type? = type? := by
  cases type? <;> rfl

/-! ## Tokens -/

theorem bind_view {β : Type} {f : Token → Option β} (hf : ∀ t, f (view keep t) = f t)
    (t? : Option Token) : (view keep t?).bind f = t?.bind f := by
  cases t? with
  | none => rfl
  | some t => exact hf t

theorem map_kind_view (t? : Option Token) :
    (view keep t?).map Token.kind = t?.map Token.kind := by
  cases t? <;> rfl

/-! ## Trees -/

theorem span_view (e : Expression) : (view keep e).span = view keep e.span := by
  cases keep
  · cases e <;> rfl
  · rfl

theorem view_join (op : BinaryOp) (left right : Expression) :
    view keep (Expression.join op left right) = .join op (view keep left) (view keep right) := by
  cases keep
  · have hspan : ∀ e : Expression, e.bare.span = .zero := fun e => by cases e <;> rfl
    change Expression.binary op left.bare right.bare .zero =
      .binary op left.bare right.bare (left.bare.span.merge right.bare.span)
    rw [hspan, hspan]
    rfl
  · rfl

theorem view_toExpression (c : Call) :
    view keep c.toExpression = (view keep c).toExpression := by
  cases keep
  · exact c.bare_toExpression
  · rw [view_true, view_true]

/-- The expression of a reserved word is its span and nothing else. -/
theorem view_constant {word : Keyword} {constant : Span → Expression}
    (h : Parser.constant? word = some constant) (span : Span) :
    constant (view keep span) = view keep (constant span) := by
  cases word <;> cases h <;> cases keep <;> rfl

theorem view_statements (ss : List Statement) :
    view keep ss = if keep then ss else Statement.bareAll ss := by
  cases keep
  · exact (Statement.bareAll_eq_map ss).symm
  · exact view_true ss

theorem view_ifThen (condition : Expression) (consequent : List Statement) (span : Span) :
    view keep (Statement.ifThen condition consequent span) =
      .ifThen (view keep condition) (view keep consequent) (view keep span) := by
  rw [view_statements]
  cases keep <;> rfl

theorem view_ifElse (condition : Expression) (consequent alternate : List Statement)
    (span : Span) :
    view keep (Statement.ifElse condition consequent alternate span) =
      .ifElse (view keep condition) (view keep consequent) (view keep alternate)
        (view keep span) := by
  rw [view_statements, view_statements]
  cases keep <;> rfl

theorem view_whileLoop (condition : Expression) (body : List Statement) (span : Span) :
    view keep (Statement.whileLoop condition body span) =
      .whileLoop (view keep condition) (view keep body) (view keep span) := by
  rw [view_statements]
  cases keep <;> rfl

end JackToolchain.Syntax
