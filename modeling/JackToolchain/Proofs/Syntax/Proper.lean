import JackToolchain.Proofs.Syntax.Accepted

/-!
# Trees of proper values

All names in a tree that is parsed from a lexer are words, and its literals have values that the
lexer lets through.
-/

namespace JackToolchain.Syntax

open JackToolchain.Token

namespace Expression

mutual

/-- Names are words, and literals have the values of tokens. -/
def Proper : Expression → Prop
  | integer value _ => value ≤ Limits.maxIntegerLiteral
  | string value _ => value.utf8ByteSize ≤ Limits.maxStringSize
  | boolean .. | null _ | this _ => True
  | var name _ => IsWord name
  | element array index _ => IsWord array ∧ index.Proper
  | call receiver name arguments _ =>
    (∀ r, receiver = some r → IsWord r) ∧ IsWord name ∧ AllProper arguments
  | unary _ operand _ => operand.Proper
  | binary _ left right _ => left.Proper ∧ right.Proper

def AllProper : List Expression → Prop
  | [] => True
  | e :: es => e.Proper ∧ AllProper es

end

mutual

theorem proper_bare (e : Expression) : e.bare.Proper ↔ e.Proper := by
  match e with
  | integer .. | string .. | boolean .. | null _ | this _ | var .. => simp [bare, Proper]
  | element array index span => simp [bare, Proper, proper_bare index]
  | call receiver name arguments span => simp [bare, Proper, allProper_bare arguments]
  | unary op operand span => simp [bare, Proper, proper_bare operand]
  | binary op left right span => simp [bare, Proper, proper_bare left, proper_bare right]

theorem allProper_bare (es : List Expression) : AllProper (bareAll es) ↔ AllProper es := by
  match es with
  | [] => simp [bareAll, AllProper]
  | e :: es => simp [bareAll, AllProper, proper_bare e, allProper_bare es]

end

end Expression

def Call.Proper (c : Call) : Prop := c.toExpression.Proper

namespace Statement

mutual

def Proper : Statement → Prop
  | letVariable target value _ => IsWord target ∧ value.Proper
  | letElement target index value _ => IsWord target ∧ index.Proper ∧ value.Proper
  | ifThen condition consequent _ => condition.Proper ∧ AllProper consequent
  | ifElse condition consequent alternate _ =>
    condition.Proper ∧ AllProper consequent ∧ AllProper alternate
  | whileLoop condition body _ => condition.Proper ∧ AllProper body
  | doCall call _ => call.Proper
  | «return» value _ => ∀ e, value = some e → e.Proper

def AllProper : List Statement → Prop
  | [] => True
  | s :: ss => s.Proper ∧ AllProper ss

end

end Statement

namespace Statement

mutual

theorem proper_bare (s : Statement) : s.bare.Proper ↔ s.Proper := by
  match s with
  | letVariable target value span => simp [bare, Proper, value.proper_bare]
  | letElement target index value span =>
      simp [bare, Proper, index.proper_bare, value.proper_bare]
  | ifThen condition consequent span =>
      simp [bare, Proper, condition.proper_bare, allProper_bare consequent]
  | ifElse condition consequent alternate span =>
      simp [bare, Proper, condition.proper_bare, allProper_bare consequent,
        allProper_bare alternate]
  | whileLoop condition body span =>
      simp [bare, Proper, condition.proper_bare, allProper_bare body]
  | doCall call span =>
      simp [bare, Proper, Call.Proper, ← Call.bare_toExpression, Expression.proper_bare]
  | «return» none span => simp [bare, Proper]
  | «return» (some value) span => simp [bare, Proper, value.proper_bare]

theorem allProper_bare (ss : List Statement) : AllProper (bareAll ss) ↔ AllProper ss := by
  match ss with
  | [] => simp [bareAll, AllProper]
  | s :: ss => simp [bareAll, AllProper, proper_bare s, allProper_bare ss]

end

end Statement

def TypeName.Proper : TypeName → Prop
  | named className => IsWord className
  | int | char | boolean => True

structure Subroutine.Proper (s : Subroutine) : Prop where
  name : IsWord s.name
  parameters : ∀ p ∈ s.parameters, p.type.Proper
  locals : ∀ l ∈ s.locals, l.type.Proper
  body : Statement.AllProper s.body

structure ClassTree.Proper (c : ClassTree) : Prop where
  name : IsWord c.name
  classVars : ∀ v ∈ c.classVars, v.type.Proper
  subroutines : ∀ s ∈ c.subroutines, s.Proper

theorem Subroutine.proper_of_bare {s : Subroutine} (h : s.bare.Proper) : s.Proper where
  name := h.name
  parameters p hp := h.parameters p.bare (List.mem_map_of_mem hp)
  locals l hl := h.locals l.bare (List.mem_map_of_mem hl)
  body := by
    have hbody := h.body
    rw [bare, ← Statement.bareAll_eq_map] at hbody
    exact (Statement.allProper_bare _).mp hbody

theorem ClassTree.proper_of_bare {c : ClassTree} (h : c.bare.Proper) : c.Proper where
  name := h.name
  classVars v hv := h.classVars v.bare (List.mem_map_of_mem hv)
  subroutines s hs := Subroutine.proper_of_bare (h.subroutines s.bare (List.mem_map_of_mem hs))

/-! ## Derived trees -/

/-- A word of proper tokens. -/
def ProperWord (w : Word) : Prop := ∀ k ∈ w, k.Proper

@[simp] theorem properWord_nil : ProperWord [] := by simp [ProperWord]

@[simp] theorem properWord_cons {k : Kind} {w : Word} :
    ProperWord (k :: w) ↔ k.Proper ∧ ProperWord w := List.forall_mem_cons

@[simp] theorem properWord_append {v w : Word} :
    ProperWord (v ++ w) ↔ ProperWord v ∧ ProperWord w := List.forall_mem_append

@[simp] theorem properWord_between {opening closing : Symbol} {w : Word} :
    ProperWord (w.between opening closing) ↔ ProperWord w := by
  simp [Word.between, Kind.Proper]

mutual

theorem IsExpression.proper {n : Nat} {w : Word} {e : Expression} (h : IsExpression n w e)
    (hw : ProperWord w) : e.Proper := by
  match h with
  | .intro h => exact h.proper hw

theorem IsLevel.proper {n p : Nat} {w : Word} {e : Expression} (h : IsLevel n p w e)
    (hw : ProperWord w) : e.Proper := by
  match h with
  | .term h => exact h.proper hw
  | .operand _ h => exact h.proper hw
  | .join hl hr =>
      simp only [properWord_append, properWord_cons] at hw
      exact ⟨hl.proper hw.1, hr.proper hw.2.2⟩

theorem IsTerm.proper {n : Nat} {w : Word} {e : Expression} (h : IsTerm n w e)
    (hw : ProperWord w) : e.Proper := by
  match h with
  | .integer | .string | .var => exact (properWord_cons.mp hw).1
  | .true | .false | .null | .this => trivial
  | .parenthesized h => exact h.proper (properWord_between.mp hw)
  | .negate h | .not h => exact h.proper (properWord_cons.mp hw).2
  | .element h =>
      rw [properWord_cons, properWord_between] at hw
      exact ⟨hw.1, h.proper hw.2⟩
  | .call h => exact h.proper hw

theorem IsCall.proper {n : Nat} {w : Word} {c : Call} (h : IsCall n w c)
    (hw : ProperWord w) : c.Proper := by
  match h with
  | .bare h =>
      rw [properWord_cons, properWord_between] at hw
      exact ⟨by simp, hw.1, h.proper hw.2⟩
  | .dotted h =>
      simp only [properWord_cons, properWord_between] at hw
      exact ⟨fun r hr => Option.some.inj hr ▸ hw.1, hw.2.2.1, h.proper hw.2.2.2⟩

theorem IsArguments.proper {n : Nat} {w : Word} {es : List Expression} (h : IsArguments n w es)
    (hw : ProperWord w) : Expression.AllProper es := by
  match h with
  | .none => trivial
  | .some h => exact h.proper hw

theorem IsExpressions.proper {n : Nat} {w : Word} {es : List Expression}
    (h : IsExpressions n w es) (hw : ProperWord w) : Expression.AllProper es := by
  match h with
  | .one h => exact ⟨h.proper hw, trivial⟩
  | .more h hs =>
      simp only [properWord_append, properWord_cons] at hw
      exact ⟨h.proper hw.1, hs.proper hw.2.2⟩

end

mutual

theorem IsStatements.proper {n : Nat} {w : Word} {ss : List Statement} (h : IsStatements n w ss)
    (hw : ProperWord w) : Statement.AllProper ss := by
  match h with
  | .intro h => exact h.proper hw

theorem IsSequence.proper {n : Nat} {w : Word} {ss : List Statement} (h : IsSequence n w ss)
    (hw : ProperWord w) : Statement.AllProper ss := by
  match h with
  | .nil => trivial
  | .cons h hs =>
      rw [properWord_append] at hw
      exact ⟨h.proper hw.1, hs.proper hw.2⟩

theorem IsStatement.proper {n : Nat} {w : Word} {s : Statement} (h : IsStatement n w s)
    (hw : ProperWord w) : s.Proper := by
  match h with
  | .letVariable h =>
      simp only [properWord_cons, properWord_between] at hw
      exact ⟨hw.2.1, h.proper hw.2.2⟩
  | .letElement hi h =>
      simp only [properWord_cons, properWord_append, properWord_between] at hw
      exact ⟨hw.1.2.1, hi.proper hw.1.2.2, h.proper hw.2⟩
  | .ifThen h hc =>
      simp only [properWord_cons, properWord_append, properWord_between] at hw
      exact ⟨h.proper hw.1.2, hc.proper hw.2⟩
  | .ifElse h hc ha =>
      simp only [properWord_cons, properWord_append, properWord_between] at hw
      exact ⟨h.proper hw.1.1.2, hc.proper hw.1.2, ha.proper hw.2.2⟩
  | .whileLoop h hb =>
      simp only [properWord_cons, properWord_append, properWord_between] at hw
      exact ⟨h.proper hw.1.2, hb.proper hw.2⟩
  | .doCall h =>
      simp only [properWord_cons, properWord_append] at hw
      exact h.proper hw.1.2
  | .return => exact fun e he => by cases he
  | .returnValue h =>
      simp only [properWord_cons, properWord_append] at hw
      exact fun e he => Option.some.inj he ▸ h.proper hw.1.2

end

section Lists

variable {α : Type} {L : Word → α → Prop} {P : α → Prop}

theorem Sequence.forall_mem {w : Word} {as : List α} (h : Sequence L w as)
    (hL : ∀ v a, L v a → ProperWord v → P a) (hw : ProperWord w) : ∀ a ∈ as, P a := by
  induction h with
  | nil => simp
  | cons h _ ih =>
      rw [properWord_append] at hw
      exact List.forall_mem_cons.mpr ⟨hL _ _ h hw.1, ih hw.2⟩

theorem Separated.forall_mem {w : Word} {as : List α} (h : Separated L w as)
    (hL : ∀ v a, L v a → ProperWord v → P a) (hw : ProperWord w) : ∀ a ∈ as, P a := by
  induction h with
  | one h => exact List.forall_mem_cons.mpr ⟨hL _ _ h hw, by simp⟩
  | more h _ ih =>
      simp only [properWord_append, properWord_cons] at hw
      exact List.forall_mem_cons.mpr ⟨hL _ _ h hw.1, ih hw.2.2⟩

theorem Listed.forall_mem {w : Word} {as : List α} (h : Listed L w as)
    (hL : ∀ v a, L v a → ProperWord v → P a) (hw : ProperWord w) : ∀ a ∈ as, P a := by
  cases h with
  | none => simp
  | some h => exact h.forall_mem hL hw

end Lists

theorem IsType.proper {w : Word} {type : TypeName} (h : IsType w type) (hw : ProperWord w) :
    type.Proper := by
  cases h with
  | int | char | boolean => trivial
  | named => exact (properWord_cons.mp hw).1

theorem IsClassVars.proper {w : Word} {v : ClassVars} (h : IsClassVars w v) (hw : ProperWord w) :
    v.type.Proper := by
  cases h with
  | static ht hn | field ht hn =>
      simp only [properWord_cons, properWord_append] at hw
      exact ht.proper hw.1.1.2

theorem IsParameter.proper {w : Word} {p : Parameter} (h : IsParameter w p) (hw : ProperWord w) :
    p.type.Proper := by
  cases h with
  | intro ht => exact ht.proper (properWord_append.mp hw).1

theorem IsLocals.proper {w : Word} {l : Locals} (h : IsLocals w l) (hw : ProperWord w) :
    l.type.Proper := by
  cases h with
  | intro ht hn =>
      simp only [properWord_cons, properWord_append] at hw
      exact ht.proper hw.1.1.2

theorem IsSubroutine.proper {n : Nat} {w : Word} {s : Subroutine} (h : IsSubroutine n w s)
    (hw : ProperWord w) : s.Proper := by
  cases h with
  | intro hk ht hp hl hb =>
      simp only [properWord_cons, properWord_append, properWord_between] at hw
      exact ⟨hw.1.2.1, hp.forall_mem (fun _ _ => IsParameter.proper) hw.1.2.2,
        hl.forall_mem (fun _ _ => IsLocals.proper) hw.2.1, hb.proper hw.2.2⟩

theorem IsClass.proper {n : Nat} {w : Word} {c : ClassTree} (h : IsClass n w c)
    (hw : ProperWord w) : c.Proper := by
  cases h with
  | intro hv hs =>
      simp only [properWord_cons, properWord_append, properWord_between] at hw
      exact ⟨hw.2.1, hv.forall_mem (fun _ _ => IsClassVars.proper) hw.2.2.1,
        hs.forall_mem (fun _ _ => IsSubroutine.proper) hw.2.2.2⟩

/-- A class that is parsed from a lexer has proper names and literals. -/
theorem ClassTree.proper_of_ofStream {lx : Lexer} {s s' : TokenStream Lexer} {tree : ClassTree}
    (hs : TokenStream.ofSource lx = .ok s) (h : ofStream s = (.ok tree, s')) : tree.Proper := by
  refine proper_of_bare ((isClass_of_ofStream hs h).proper fun k hk => ?_)
  obtain ⟨t, ht, rfl⟩ := List.mem_map.mp hk
  exact Lexer.proper_of_mem_drain t ht

end JackToolchain.Syntax
