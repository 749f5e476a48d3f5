import JackToolchain.Lowering.Class
import JackToolchain.Proofs.Syntax.Grammar

/-!
# Lowering trees without spans

Spans end up in errors and nowhere else. A tree without spans is lowered to the commands of the tree
itself, or refused by its error without the place.
-/

namespace JackToolchain

open JackToolchain.Source JackToolchain.Diagnostics JackToolchain.Stack JackToolchain.Syntax
open JackToolchain.Scope

/-- The error without its place. -/
def LoweringError.bare : LoweringError → LoweringError
  | unresolved name subroutine _ => .unresolved name subroutine .zero
  | unsupported part _ => .unsupported part .zero
  | tooManyCommands className => .tooManyCommands className

namespace Lowering

namespace Emission

def bare (a : Emission) : Emission := { a with stop := a.stop.map LoweringError.bare }

@[simp] theorem bare_ofList (commands : List Command) :
    (ofList commands).bare = ofList commands := rfl

@[simp] theorem bare_append (a b : Emission) : (a ++ b).bare = a.bare ++ b.bare := by
  rcases a with ⟨code, _ | e⟩ <;> rfl

theorem settle_bare (a : Emission) (room : Nat) (className : String) :
    a.bare.settle room className = (a.settle room className).mapError LoweringError.bare := by
  by_cases hroom : room < a.code.size
  · have hroom' : room < a.bare.code.size := hroom
    rw [settle, settle, if_pos hroom, if_pos hroom']
    rfl
  · have hroom' : ¬room < a.bare.code.size := hroom
    rw [settle, settle, if_neg hroom, if_neg hroom']
    rcases a with ⟨code, _ | e⟩ <;> rfl

end Emission

section Parts

variable (ctx : Context) (span : Span)

@[simp] theorem bare_withEntry (name : String) (emit : Scope.Entry → Emission) :
    (withEntry ctx name span emit).bare =
      withEntry ctx name .zero fun entry => (emit entry).bare := by
  unfold withEntry
  split <;> rfl

@[simp] theorem bare_withCount (what : Counted) (count : Nat) (emit : UInt16 → Emission) :
    (withCount what count span emit).bare = withCount what count .zero fun n => (emit n).bare := by
  unfold withCount
  split <;> rfl

@[simp] theorem bare_lowerString (value : String) :
    (lowerString value span).bare = lowerString value .zero := by
  simp only [lowerString]
  split
  · exact bare_withCount span _ _ _
  · rfl

@[simp] theorem bare_prologue (kind : SubroutineKind) (fields : Nat) :
    (prologue kind fields span).bare = prologue kind fields .zero := by
  cases kind with
  | constructor => exact bare_withCount span _ _ _
  | method | function => rfl

end Parts

/-! ## Expressions -/

variable (ctx : Context)

mutual

theorem bare_lowerExpression (e : Expression) :
    (lowerExpression ctx e).bare = lowerExpression ctx e.bare := by
  match e with
  | .integer .. | .boolean true _ | .boolean false _ | .null _ | .this _ => rfl
  | .string value span => exact bare_lowerString span value
  | .var name span => exact bare_withEntry ctx span name _
  | .element array index span =>
      have hindex := bare_lowerExpression index
      simp [Expression.bare, lowerExpression, hindex]
  | .call receiver name arguments span =>
      have harguments := bare_lowerArguments (.ofList (callTarget ctx receiver name).2.toList)
        arguments
      have hcount : (Expression.bareAll arguments).length = arguments.length := by
        rw [Expression.bareAll_eq_map, List.length_map]
      simp [Expression.bare, lowerExpression, harguments, hcount]
  | .unary op operand span =>
      have hoperand := bare_lowerExpression operand
      simp [Expression.bare, lowerExpression, hoperand]
  | .binary op left right span =>
      have hleft := bare_lowerExpression left
      have hright := bare_lowerExpression right
      simp [Expression.bare, lowerExpression, hleft, hright]

theorem bare_lowerArguments (front : Emission) (es : List Expression) :
    (lowerArguments ctx front es).bare =
      lowerArguments ctx front.bare (Expression.bareAll es) := by
  match es with
  | [] => rfl
  | e :: rest =>
      rw [Expression.bareAll, lowerArguments, lowerArguments, ← bare_lowerExpression e,
        ← Emission.bare_append, bare_lowerArguments _ rest]

end

attribute [local simp] bare_lowerExpression

@[simp] theorem bare_lowerCall (c : Call) : (lowerCall ctx c).bare = lowerCall ctx c.bare := by
  rw [lowerCall, lowerCall, ← Call.bare_toExpression, bare_lowerExpression]

@[simp] theorem bare_lowerUnless (condition : Expression) (label : String) :
    (lowerUnless ctx condition label).bare = lowerUnless ctx condition.bare label := by
  simp [lowerUnless]

/-! ## Statements -/

/-- An emission without the place of its error, and the labels after it. -/
def bareFirst (lowered : Emission × Labels) : Emission × Labels := (lowered.1.bare, lowered.2)

mutual

theorem bare_lowerStatement (labels : Labels) (s : Statement) :
    bareFirst (lowerStatement ctx labels s) = lowerStatement ctx labels s.bare := by
  match s with
  | .letVariable target value span => simp [bareFirst, Statement.bare, lowerStatement]
  | .letElement target index value span =>
      simp [bareFirst, Statement.bare, lowerStatement, lowerLetElement]
  | .ifThen condition consequent span =>
      have hbody (label : String) := bare_lowerStatements (lowerUnless ctx condition label)
        { labels with ifs := labels.ifs + 1 } consequent
      simp only [bare_lowerUnless] at hbody
      simp [bareFirst, Statement.bare, lowerStatement, ← hbody]
  | .ifElse condition consequent alternate span =>
      have hfirst (label : String) := bare_lowerStatements (lowerUnless ctx condition label)
        { labels with ifs := labels.ifs + 1 } consequent
      have hboth (first : Emission) (code : List Command) (between : Labels) :=
        bare_lowerStatements (first ++ .ofList code) between alternate
      simp only [bare_lowerUnless] at hfirst
      simp only [bareFirst, Emission.bare_append, Emission.bare_ofList] at hboth
      simp [bareFirst, Statement.bare, lowerStatement, ← hfirst, ← hboth]
  | .whileLoop condition body span =>
      have hbody (label again : String) := bare_lowerStatements
        (.ofList [.label again] ++ lowerUnless ctx condition label)
        { labels with loops := labels.loops + 1 } body
      simp only [Emission.bare_append, Emission.bare_ofList, bare_lowerUnless] at hbody
      simp [bareFirst, Statement.bare, lowerStatement, ← hbody]
  | .doCall call span => simp [bareFirst, Statement.bare, lowerStatement]
  | .return (some value) span => simp [bareFirst, Statement.bare, lowerStatement]
  | .return none span => rfl

theorem bare_lowerStatements (front : Emission) (labels : Labels) (ss : List Statement) :
    bareFirst (lowerStatements ctx front labels ss) =
      lowerStatements ctx front.bare labels (Statement.bareAll ss) := by
  match ss with
  | [] => rfl
  | s :: rest =>
      have hrest (first : Emission) (after : Labels) :=
        bare_lowerStatements (front ++ first) after rest
      rw [Statement.bareAll, lowerStatements, lowerStatements, ← bare_lowerStatement labels s,
        hrest, Emission.bare_append]
      rfl

end

/-! ## Classes -/

theorem classDeclarations_bare (tree : ClassTree) :
    classDeclarations tree.bare = classDeclarations tree := by
  simp only [classDeclarations, ClassTree.bare, List.flatMap_map, ClassVars.bare]

theorem subroutineDeclarations_bare (className : String) (s : Subroutine) :
    subroutineDeclarations className s.bare = subroutineDeclarations className s := by
  simp only [subroutineDeclarations, Subroutine.bare, List.flatMap_map, List.map_map, Locals.bare]
  rfl

theorem localCount_bare (s : Subroutine) : s.bare.localCount = s.localCount := by
  simp only [Subroutine.localCount, Subroutine.bare, List.flatMap_map, Locals.bare]

theorem fieldCount_bare (tree : ClassTree) : tree.bare.fieldCount = tree.fieldCount := by
  simp only [ClassTree.fieldCount, ClassTree.countOf, ClassTree.bare, List.filter_map,
    List.flatMap_map, ClassVars.bare]
  rfl

variable (tree : ClassTree) (classTable : Table)

theorem bare_lowerSubroutine (labels : Labels) (s : Subroutine) :
    bareFirst (lowerSubroutine tree classTable labels s) =
      lowerSubroutine tree.bare classTable labels s.bare := by
  have htable : Table.ofSubroutine tree.name s.bare = Table.ofSubroutine tree.name s := by
    rw [Table.ofSubroutine, Table.ofSubroutine, subroutineDeclarations_bare]
  have hname : tree.bare.name = tree.name := rfl
  have hbody : s.bare.body = Statement.bareAll s.body := (Statement.bareAll_eq_map s.body).symm
  rw [lowerSubroutine, lowerSubroutine, bare_lowerStatements, hname, htable, hbody,
    localCount_bare, fieldCount_bare, Emission.bare_append, bare_withCount, bare_prologue]
  rfl

theorem lowerSubroutines_bare (labels : Labels) (code : Array Command)
    (events events' : Array Event) (ss : List Subroutine) :
    (lowerSubroutines tree.bare classTable labels code events' (ss.map Subroutine.bare)).result =
      (lowerSubroutines tree classTable labels code events ss).result.mapError
        LoweringError.bare := by
  induction ss generalizing labels code events events' with
  | nil => rfl
  | cons s rest ih =>
      have hsettle := Emission.settle_bare (lowerSubroutine tree classTable labels s).1
        (Limits.maxCommandsPerClass - code.size) tree.name
      rw [List.map_cons, lowerSubroutines, lowerSubroutines, ← bare_lowerSubroutine]
      simp only [bareFirst]
      have hname : tree.bare.name = tree.name := rfl
      rw [hname, hsettle]
      cases (lowerSubroutine tree classTable labels s).1.settle
        (Limits.maxCommandsPerClass - code.size) tree.name with
      | error e => rfl
      | ok commands => exact ih _ _ _ _

theorem exists_result_lowerClass : ∃ events, (lowerClass tree).result =
    (lowerSubroutines tree (.ofClass tree) {} #[] events tree.subroutines).result := by
  simp only [lowerClass]
  split
  · exact ⟨_, rfl⟩
  · exact ⟨_, rfl⟩

/-- A tree without spans is lowered to the same commands, or refused by the same error. -/
theorem lowerClass_bare :
    (lowerClass tree.bare).result = (lowerClass tree).result.mapError LoweringError.bare := by
  have htable : Table.ofClass tree.bare = Table.ofClass tree := by
    rw [Table.ofClass, Table.ofClass, classDeclarations_bare]
  obtain ⟨events, hevents⟩ := exists_result_lowerClass tree
  obtain ⟨events', hevents'⟩ := exists_result_lowerClass tree.bare
  rw [hevents, hevents', htable]
  exact lowerSubroutines_bare tree (.ofClass tree) {} #[] events events' tree.subroutines

end Lowering

end JackToolchain
