import JackToolchain.Proofs.Token.Positions
import JackToolchain.Syntax.Tree

/-!
# Outlines of trees

The spans of a tree without what its nodes say. Literals, variables, `this` and `null` are leaves
and stand for one token each. An outline fills some tokens if every node runs from the first to
the last token of a part of them, and the parts of its children lie in its own, one after the
other, with other tokens anywhere between them.
-/

namespace JackToolchain

open JackToolchain.Source JackToolchain.Token

namespace Source.Span

/-- Of two spans, one behind the other, the merge goes from the start of the first one to the end
of the second one. -/
theorem merge_of_apart {a b : Span} (ha : a.start.offset < a.stop.offset)
    (hb : b.start.offset < b.stop.offset) (hab : a.stop.offset ≤ b.start.offset) :
    a.merge b = ⟨a.start, b.stop⟩ := by
  have hstart : a.start.offset < b.start.offset := by omega
  have hstop : a.stop.offset < b.stop.offset := by omega
  simp [merge, Position.earlier, Position.later, Position.ble, hstart, hstop]

end Source.Span

namespace Token.Ordered

variable {front back tokens : List Token} {first last t u : Token}

theorem left (h : Token.Ordered (front ++ back)) : Token.Ordered front :=
  h.sublist (List.sublist_append_left _ _)

theorem right (h : Token.Ordered (front ++ back)) : Token.Ordered back :=
  h.sublist (List.sublist_append_right _ _)

theorem stop_le_start (h : Token.Ordered (front ++ back)) (ht : t ∈ front) (hu : u ∈ back) :
    t.span.stop.offset ≤ u.span.start.offset :=
  (List.pairwise_append.mp h.apart).2.2 t ht u hu

theorem start_le_start (h : Token.Ordered tokens) (hfirst : tokens.head? = some first)
    (ht : t ∈ tokens) : first.span.start.offset ≤ t.span.start.offset := by
  obtain ⟨rest, rfl⟩ := List.head?_eq_some_iff.mp hfirst
  rcases List.mem_cons.mp ht with rfl | ht
  · exact Nat.le_refl _
  · exact (h.nonempty first List.mem_cons_self).le.trans
      ((List.pairwise_cons.mp h.apart).1 t ht)

theorem stop_le_stop (h : Token.Ordered tokens) (hlast : tokens.getLast? = some last)
    (ht : t ∈ tokens) : t.span.stop.offset ≤ last.span.stop.offset := by
  obtain ⟨rest, rfl⟩ := List.getLast?_eq_some_iff.mp hlast
  rcases List.mem_append.mp ht with ht | ht
  · exact (h.stop_le_start ht (List.mem_singleton_self last)).trans
      (h.nonempty last (by simp)).le
  · rw [List.mem_singleton.mp ht]

end Token.Ordered

namespace Syntax

inductive Outline
  /-- A literal, a variable, `this` or `null`, with the kind of its token. -/
  | leaf (kind : Kind) (span : Span)
  | node (parts : List Outline) (span : Span)

namespace Outline

def span : Outline → Span
  | leaf _ s | node _ s => s

mutual

def decEq : (o o' : Outline) → Decidable (o = o')
  | leaf kind s, leaf kind' s' => decidable_of_iff (kind = kind' ∧ s = s') (by simp)
  | node parts s, node parts' s' =>
    have := decEqAll parts parts'
    decidable_of_iff (parts = parts' ∧ s = s') (by simp)
  | leaf _ _, node _ _ | node _ _, leaf _ _ => isFalse (by simp)

def decEqAll : (os os' : List Outline) → Decidable (os = os')
  | [], [] => isTrue rfl
  | o :: os, o' :: os' =>
    have := decEq o o'
    have := decEqAll os os'
    decidable_of_iff (o = o' ∧ os = os') (by simp)
  | [], _ :: _ | _ :: _, [] => isFalse (by simp)

end

instance : DecidableEq Outline := decEq

end Outline

/-! ## Outlines of nodes -/

namespace Expression

mutual

def outline : Expression → Outline
  | integer value s => .leaf (.integerLiteral value) s
  | string value s => .leaf (.stringLiteral value) s
  | boolean value s => .leaf (.keyword (if value then .trueWord else .falseWord)) s
  | null s => .leaf (.keyword .nullWord) s
  | this s => .leaf (.keyword .thisWord) s
  | var name s => .leaf (.identifier name) s
  | element _ index s => .node [index.outline] s
  | call _ _ arguments s => .node (outlines arguments) s
  | unary _ operand s => .node [operand.outline] s
  | binary _ left right s => .node [left.outline, right.outline] s

def outlines : List Expression → List Outline
  | [] => []
  | e :: es => e.outline :: outlines es

end

theorem outlines_eq_map (es : List Expression) : outlines es = es.map outline := by
  induction es with
  | nil => rfl
  | cons e es ih => rw [outlines, ih, List.map_cons]

@[simp] theorem span_outline (e : Expression) : e.outline.span = e.span := by
  cases e <;> rw [outline] <;> rfl

end Expression

def Call.outline (c : Call) : Outline := .node (c.arguments.map Expression.outline) c.span

@[simp] theorem Call.outline_toExpression (c : Call) : c.toExpression.outline = c.outline := by
  rw [toExpression, Expression.outline, Expression.outlines_eq_map, outline]

namespace Statement

mutual

def outline : Statement → Outline
  | letVariable _ value s => .node [value.outline] s
  | letElement _ index value s => .node [index.outline, value.outline] s
  | ifThen condition consequent s => .node (condition.outline :: outlines consequent) s
  | ifElse condition consequent alternate s =>
    .node (condition.outline :: (outlines consequent ++ outlines alternate)) s
  | whileLoop condition body s => .node (condition.outline :: outlines body) s
  | doCall call s => .node [call.outline] s
  | «return» value s => .node (value.toList.map Expression.outline) s

def outlines : List Statement → List Outline
  | [] => []
  | s :: ss => s.outline :: outlines ss

end

theorem outlines_eq_map (ss : List Statement) : outlines ss = ss.map outline := by
  induction ss with
  | nil => rfl
  | cons s ss ih => rw [outlines, ih, List.map_cons]

end Statement

def ClassVars.outline (v : ClassVars) : Outline := .node [] v.span

def Parameter.outline (p : Parameter) : Outline := .node [] p.span

def Locals.outline (l : Locals) : Outline := .node [] l.span

def Subroutine.outline (s : Subroutine) : Outline :=
  .node (s.parameters.map Parameter.outline ++ s.locals.map Locals.outline ++
    s.body.map Statement.outline) s.span

def ClassTree.outline (c : ClassTree) : Outline :=
  .node (c.classVars.map ClassVars.outline ++ c.subroutines.map Subroutine.outline) c.span

namespace Outline

/-! ## Nested spans -/

/-- Every node runs from the start of a token to the end of one and is not empty; its parts lie in
it, apart from each other and in order. A leaf has the span of a token of its kind. -/
inductive Nested (tokens : List Token) : Outline → Prop
  | leaf {t : Token} (ht : t ∈ tokens) (hspan : t.span.start.offset < t.span.stop.offset) :
      Nested tokens (.leaf t.kind t.span)
  | node {parts : List Outline} {first last : Token} (hfirst : first ∈ tokens)
      (hlast : last ∈ tokens) (hspan : first.span.start.offset < last.span.stop.offset)
      (hinside : ∀ part ∈ parts, first.span.start.offset ≤ part.span.start.offset ∧
        part.span.stop.offset ≤ last.span.stop.offset)
      (hapart : parts.Pairwise fun a b => a.span.stop.offset ≤ b.span.start.offset)
      (hparts : ∀ part ∈ parts, Nested tokens part) :
      Nested tokens (.node parts ⟨first.span.start, last.span.stop⟩)

mutual

/-- The outline runs from the first to the last of these tokens. -/
inductive Fills : List Token → Outline → Prop
  | leaf (t : Token) : Fills [t] (.leaf t.kind t.span)
  | node {tokens : List Token} {parts : List Outline} {first last : Token}
      (hrow : Row tokens parts) (hfirst : tokens.head? = some first)
      (hlast : tokens.getLast? = some last) :
      Fills tokens (.node parts ⟨first.span.start, last.span.stop⟩)

/-- The outlines fill parts of these tokens, one after the other. -/
inductive Row : List Token → List Outline → Prop
  | nil : Row [] []
  | skip {t : Token} {tokens : List Token} {parts : List Outline} (h : Row tokens parts) :
      Row (t :: tokens) parts
  | part {front back : List Token} {o : Outline} {parts : List Outline} (h : Fills front o)
      (hrow : Row back parts) : Row (front ++ back) (o :: parts)

end

variable {tokens : List Token} {o : Outline} {parts : List Outline}

theorem Fills.ends (h : Fills tokens o) :
    ∃ first last, tokens.head? = some first ∧ tokens.getLast? = some last ∧
      o.span = ⟨first.span.start, last.span.stop⟩ := by
  cases h with
  | leaf t => exact ⟨t, t, rfl, rfl, rfl⟩
  | node _ hfirst hlast => exact ⟨_, _, hfirst, hlast, rfl⟩

namespace Row

theorem skips (tokens : List Token) : Row tokens [] := by
  induction tokens with
  | nil => exact .nil
  | cons t tokens ih => exact .skip ih

theorem one (h : Fills tokens o) : Row tokens [o] := by
  have hrow := Row.part h .nil
  rwa [List.append_nil] at hrow

theorem append {front back : List Token} {parts more : List Outline} (h : Row front parts)
    (h' : Row back more) :
    Row (front ++ back) (parts ++ more) := by
  match h with
  | .nil => exact h'
  | .skip h => exact .skip (h.append h')
  | .part hfills hrow =>
      rw [List.append_assoc]
      exact .part hfills (hrow.append h')

theorem snoc (h : Row tokens parts) (t : Token) : Row (tokens ++ [t]) parts := by
  have hrow := h.append (skips [t])
  rwa [List.append_nil] at hrow

/-- What lies in some tokens fills a part of them. -/
theorem exists_fills {tokens : List Token} (h : Row tokens [o]) :
    ∃ front part back, tokens = front ++ part ++ back ∧ Fills part o := by
  match h with
  | .skip h =>
      obtain ⟨front, part, back, rfl, hfills⟩ := h.exists_fills
      exact ⟨_ :: front, part, back, rfl, hfills⟩
  | .part hfills hrow => exact ⟨[], _, _, rfl, hfills⟩

end Row

mutual

theorem Fills.nested {part : List Token} {o : Outline} (h : Fills part o)
    (hpart : Token.Ordered part) (hmem : ∀ t ∈ part, t ∈ tokens) : Nested tokens o := by
  match h with
  | .leaf t =>
      have ht := List.mem_singleton_self t
      exact .leaf (hmem t ht) (hpart.nonempty t ht)
  | .node hrow hfirst hlast =>
      obtain ⟨hparts, hinside, hapart⟩ := hrow.nested hpart hmem
      have hfirstMem := List.mem_of_head? hfirst
      refine .node (hmem _ hfirstMem) (hmem _ (List.mem_of_getLast? hlast)) ?_ ?_ hapart hparts
      · exact (hpart.nonempty _ hfirstMem).trans_le (hpart.stop_le_stop hlast hfirstMem)
      · intro p hp
        obtain ⟨u, v, hu, hv, hspan⟩ := hinside p hp
        rw [hspan]
        exact ⟨hpart.start_le_start hfirst hu, hpart.stop_le_stop hlast hv⟩

theorem Row.nested {part : List Token} {parts : List Outline} (h : Row part parts)
    (hpart : Token.Ordered part) (hmem : ∀ t ∈ part, t ∈ tokens) :
    (∀ p ∈ parts, Nested tokens p) ∧
      (∀ p ∈ parts, ∃ u v, u ∈ part ∧ v ∈ part ∧ p.span = ⟨u.span.start, v.span.stop⟩) ∧
      parts.Pairwise fun a b => a.span.stop.offset ≤ b.span.start.offset := by
  match h with
  | .nil => exact ⟨by simp, by simp, .nil⟩
  | .skip hrow =>
      obtain ⟨hparts, hinside, hapart⟩ := hrow.nested (hpart.sublist (List.sublist_cons_self _ _))
        fun t ht => hmem t (List.mem_cons_of_mem _ ht)
      refine ⟨hparts, fun p hp => ?_, hapart⟩
      obtain ⟨u, v, hu, hv, hspan⟩ := hinside p hp
      exact ⟨u, v, List.mem_cons_of_mem _ hu, List.mem_cons_of_mem _ hv, hspan⟩
  | .part hfills hrow =>
      have hfirst := hfills.nested hpart.left fun t ht => hmem t (List.mem_append_left _ ht)
      obtain ⟨hparts, hinside, hapart⟩ := hrow.nested hpart.right
        fun t ht => hmem t (List.mem_append_right _ ht)
      obtain ⟨u, v, hu, hv, hspan⟩ := hfills.ends
      have huMem := List.mem_of_head? hu
      have hvMem := List.mem_of_getLast? hv
      refine ⟨List.forall_mem_cons.mpr ⟨hfirst, hparts⟩, List.forall_mem_cons.mpr ⟨?_, ?_⟩,
        List.pairwise_cons.mpr ⟨?_, hapart⟩⟩
      · exact ⟨u, v, List.mem_append_left _ huMem, List.mem_append_left _ hvMem, hspan⟩
      · intro p hp
        obtain ⟨u', v', hu', hv', hspan'⟩ := hinside p hp
        exact ⟨u', v', List.mem_append_right _ hu', List.mem_append_right _ hv', hspan'⟩
      · intro p hp
        obtain ⟨u', v', hu', -, hspan'⟩ := hinside p hp
        rw [hspan, hspan']
        exact hpart.stop_le_start hvMem hu'

end

/-! ## Merged spans -/

/-- From a token to another one behind it. -/
theorem Row.closed {first last : Token} (h : Row tokens parts) (hfirst : tokens.head? = some first)
    (ho : Token.Ordered (tokens ++ [last])) :
    Fills (tokens ++ [last]) (.node parts (first.span.merge last.span)) := by
  have hmem := List.mem_of_head? hfirst
  have hstart := ho.nonempty first (List.mem_append_left _ hmem)
  have hstop := ho.nonempty last (List.mem_append_right _ (List.mem_singleton_self last))
  have hapart := ho.stop_le_start hmem (List.mem_singleton_self last)
  rw [Span.merge_of_apart hstart hstop hapart]
  refine .node (h.snoc last) ?_ List.getLast?_concat
  rw [List.head?_append, hfirst, Option.some_or]

theorem Fills.span_lt (h : Fills tokens o) (ho : Token.Ordered tokens) :
    o.span.start.offset < o.span.stop.offset := by
  obtain ⟨first, last, hfirst, hlast, hspan⟩ := h.ends
  have hmem := List.mem_of_head? hfirst
  rw [hspan]
  exact (ho.nonempty first hmem).trans_le (ho.stop_le_stop hlast hmem)

variable {front back : List Token} {t : Token}

/-- From a part to another one behind it. -/
theorem Row.span {left right : Outline} (hl : Row front [left]) (hr : Row back [right])
    (ho : Token.Ordered (front ++ t :: back)) :
    Row (front ++ t :: back) [.node [left, right] (left.span.merge right.span)] := by
  obtain ⟨before, part, between, rfl, hpart⟩ := hl.exists_fills
  obtain ⟨between', part', behind, rfl, hpart'⟩ := hr.exists_fills
  obtain ⟨first, last, hfirst, hlast, hspan⟩ := hpart.ends
  obtain ⟨first', last', hfirst', hlast', hspan'⟩ := hpart'.ends
  have hleft := hpart.span_lt ho.left.left.right
  have hright := hpart'.span_lt (ho.right.sublist (List.sublist_cons_self _ _)).left.right
  have hapart : left.span.stop.offset ≤ right.span.start.offset := by
    rw [hspan, hspan']
    refine ho.stop_le_start (by simp [List.mem_of_getLast? hlast]) ?_
    simp [List.mem_of_head? hfirst']
  rw [Span.merge_of_apart hleft hright hapart, hspan, hspan']
  have hrow : Row (part ++ (between ++ t :: between' ++ part')) [left, right] :=
    .part hpart ((skips (between ++ t :: between')).append (one hpart'))
  have hfills : Fills (part ++ (between ++ t :: between' ++ part'))
      (.node [left, right] ⟨first.span.start, last'.span.stop⟩) := by
    refine .node hrow ?_ ?_
    · rw [List.head?_append, hfirst, Option.some_or]
    · rw [List.getLast?_append, List.getLast?_append, hlast', Option.some_or, Option.some_or]
  have hall := (skips before).append ((one hfills).append (skips behind))
  simpa using hall

/-- From a token to a part behind it. -/
theorem Row.prefixed (h : Row tokens [o]) (ho : Token.Ordered (t :: tokens)) :
    Row (t :: tokens) [.node [o] (t.span.merge o.span)] := by
  obtain ⟨between, part, behind, rfl, hpart⟩ := h.exists_fills
  obtain ⟨first, last, hfirst, hlast, hspan⟩ := hpart.ends
  have htoken := ho.nonempty t List.mem_cons_self
  have hright := hpart.span_lt (ho.sublist (List.sublist_cons_self _ _)).left.right
  have hapart : t.span.stop.offset ≤ o.span.start.offset := by
    rw [hspan]
    exact (List.pairwise_cons.mp ho.apart).1 first (by simp [List.mem_of_head? hfirst])
  rw [Span.merge_of_apart htoken hright hapart, hspan]
  have hrow : Row (t :: between ++ part) [o] := (skips (t :: between)).append (one hpart)
  have hfills : Fills (t :: between ++ part) (.node [o] ⟨t.span.start, last.span.stop⟩) := by
    refine .node hrow rfl ?_
    rw [List.getLast?_append, hlast, Option.some_or]
  have hall := (one hfills).append (skips behind)
  simpa using hall

end Outline

end Syntax

end JackToolchain
