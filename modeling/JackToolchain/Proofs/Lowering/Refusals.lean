import JackToolchain.Proofs.Evaluation.Conditions

/-!
# What is refused

A class is lowered exactly if its names are declared, its characters and counts fit into words, and
its commands are not too many. Otherwise it is refused for the first of these that a walk over the
tree meets, with commands counted on the way.
-/

namespace JackToolchain.Syntax

namespace Expression

mutual

/-- An expression and all expressions inside of it. -/
def parts : Expression → List Expression
  | integer value span => [integer value span]
  | string value span => [string value span]
  | boolean value span => [boolean value span]
  | null span => [null span]
  | this span => [this span]
  | var name span => [var name span]
  | element array index span => element array index span :: index.parts
  | call receiver name arguments span => call receiver name arguments span :: partsOfAll arguments
  | unary op operand span => unary op operand span :: operand.parts
  | binary op left right span => binary op left right span :: (left.parts ++ right.parts)

def partsOfAll : List Expression → List Expression
  | [] => []
  | e :: rest => e.parts ++ partsOfAll rest

end

end Expression

namespace Statement

/-- The expressions that a statement holds by itself, not inside of another statement. -/
def expressions : Statement → List Expression
  | letVariable _ value _ => [value]
  | letElement _ index value _ => [index, value]
  | ifThen condition _ _ | ifElse condition _ _ _ | whileLoop condition _ _ => [condition]
  | doCall call _ => [call.toExpression]
  | «return» value _ => value.toList

/-- The variable that a statement changes, or whose element it changes. -/
def target? : Statement → Option String
  | letVariable target _ _ | letElement target _ _ _ => some target
  | _ => none

end Statement

end JackToolchain.Syntax

namespace JackToolchain.Lowering

open JackToolchain.Source JackToolchain.Stack JackToolchain.Syntax JackToolchain.Scope

/-! ## Walks -/

/-- What a walk over a tree meets: the place of a command, or something that must hold, with the
refusal if it does not. -/
inductive Visit
  | command
  | check (holds : Bool) (otherwise : LoweringError)
  deriving DecidableEq

namespace Visit

def refusal? : Visit → Option LoweringError
  | command | check true _ => none
  | check false e => some e

/-- The places of some commands. -/
def commands (n : Nat) : List Visit := List.replicate n command

def name (ctx : Context) (name : String) (span : Span) : Visit :=
  check (ctx.resolve? name).isSome (.unresolved name ctx.subroutine span)

def count (what : Counted) (n : Nat) (span : Span) : Visit :=
  check (n ≤ 65535) (.unsupported (.tooMany what n) span)

def characters (value : String) (span : Span) : Visit :=
  check (value.toList.all fun c => c.toNat ≤ 0x7FFF) (.unsupported .wideCharacter span)

mutual

def ofExpression (ctx : Context) : Expression → List Visit
  | .integer .. | .boolean false _ | .null _ | .this _ => commands 1
  | .boolean true _ => commands 2
  | .string value span =>
    let length := value.toList.length
    characters value span :: count .characters length span :: commands (2 + 2 * length)
  | .var array span => name ctx array span :: commands 1
  | .element array index span =>
    name ctx array span :: commands 1 ++ ofExpression ctx index ++ commands 3
  | .call receiver method arguments span =>
    let implicit := (callTarget ctx receiver method).2.toList.length
    commands implicit ++ ofArguments ctx arguments ++
      count .arguments (arguments.length + implicit) span :: commands 1
  | .unary _ operand _ => ofExpression ctx operand ++ commands 1
  | .binary op left right _ =>
    ofExpression ctx left ++ ofExpression ctx right ++ commands (binaryCommands op).length

def ofArguments (ctx : Context) : List Expression → List Visit
  | [] => []
  | e :: rest => ofExpression ctx e ++ ofArguments ctx rest

end

mutual

def ofStatement (ctx : Context) : Statement → List Visit
  | .letVariable target value span => name ctx target span :: (ofExpression ctx value ++ commands 1)
  | .letElement target index value span =>
    name ctx target span :: (commands 1 ++ ofExpression ctx index ++ commands 1 ++
      ofExpression ctx value ++ commands 4)
  | .ifThen condition consequent _ =>
    ofExpression ctx condition ++ commands 2 ++ ofStatements ctx consequent ++ commands 1
  | .ifElse condition consequent alternate _ =>
    ofExpression ctx condition ++ commands 2 ++ ofStatements ctx consequent ++ commands 2 ++
      ofStatements ctx alternate ++ commands 1
  | .whileLoop condition body _ =>
    commands 1 ++ (ofExpression ctx condition ++ commands 2) ++ ofStatements ctx body ++ commands 2
  | .doCall call _ => ofExpression ctx call.toExpression ++ commands 1
  | .return (some value) _ => ofExpression ctx value ++ commands 1
  | .return none _ => commands 2

def ofStatements (ctx : Context) : List Statement → List Visit
  | [] => []
  | s :: rest => ofStatement ctx s ++ ofStatements ctx rest

end

def ofPrologue (tree : ClassTree) (s : Subroutine) : List Visit :=
  match s.kind with
  | .constructor => count .fields tree.fieldCount s.span :: commands 3
  | .method => commands 2
  | .function => []

def ofSubroutine (tree : ClassTree) (s : Subroutine) : List Visit :=
  count .locals s.localCount s.span :: commands 1 ++ ofPrologue tree s ++
    ofStatements (contextOf tree s) s.body

def ofClass (tree : ClassTree) : List Visit := tree.subroutines.flatMap (ofSubroutine tree)

/-- The first refusal on a walk, with room for some commands: what does not hold, or the command
that there is no room for. -/
def firstRefusal (className : String) : Nat → List Visit → Option LoweringError
  | _, [] => none
  | 0, command :: _ => some (.tooManyCommands className)
  | room + 1, command :: rest => firstRefusal className room rest
  | _, check false e :: _ => some e
  | room, check true _ :: rest => firstRefusal className room rest

/-- The first thing on a walk that does not hold. -/
def failure? (vs : List Visit) : Option LoweringError := vs.findSome? refusal?

/-- Everything on the walk holds. -/
def Passes (vs : List Visit) : Prop := ∀ v ∈ vs, v.refusal? = none

/-- The commands in front of the first thing on a walk that does not hold. -/
def reach : List Visit → Nat
  | [] => 0
  | command :: rest => reach rest + 1
  | check true _ :: rest => reach rest
  | check false _ :: _ => 0

variable {vs ws : List Visit} {className : String} {room : Nat}

theorem passes_append_iff : Passes (vs ++ ws) ↔ Passes vs ∧ Passes ws := List.forall_mem_append

theorem passes_cons_iff {v : Visit} : Passes (v :: vs) ↔ v.refusal? = none ∧ Passes vs :=
  List.forall_mem_cons

@[simp] theorem passes_nil : Passes [] := List.forall_mem_nil _

@[simp] theorem passes_commands (n : Nat) : Passes (commands n) := fun _ hv =>
  List.eq_of_mem_replicate hv ▸ rfl

@[simp] theorem failure?_nil : failure? [] = none := rfl

@[simp] theorem failure?_command (vs : List Visit) : failure? (command :: vs) = failure? vs := rfl

@[simp] theorem failure?_check_true (e : LoweringError) (vs : List Visit) :
    failure? (check true e :: vs) = failure? vs := rfl

@[simp] theorem failure?_check_false (e : LoweringError) (vs : List Visit) :
    failure? (check false e :: vs) = some e := rfl

theorem failure?_append (vs ws : List Visit) :
    failure? (vs ++ ws) = (failure? vs).or (failure? ws) := List.findSome?_append

theorem refusal?_check_eq_none_iff {holds : Bool} {e : LoweringError} :
    (check holds e).refusal? = none ↔ holds = true := by
  cases holds <;> simp [refusal?]

theorem passes_iff_failure? : Passes vs ↔ failure? vs = none :=
  List.findSome?_eq_none_iff.symm

theorem reach_append (h : failure? vs = none) (ws : List Visit) :
    reach (vs ++ ws) = reach vs + reach ws := by
  induction vs with
  | nil => exact (Nat.zero_add _).symm
  | cons v vs ih =>
      rcases v with _ | ⟨_ | _, e⟩
      · rw [List.cons_append, reach, ih h, reach, Nat.add_right_comm]
      · cases h
      · exact ih h

theorem reach_append_of_some {e : LoweringError} (h : failure? vs = some e) (ws : List Visit) :
    reach (vs ++ ws) = reach vs := by
  induction vs with
  | nil => cases h
  | cons v vs ih =>
      rcases v with _ | ⟨_ | _, e'⟩
      · rw [List.cons_append, reach, ih h, reach]
      · rfl
      · exact ih h

theorem reach_commands (n : Nat) : reach (commands n) = n := by
  induction n with
  | zero => rfl
  | succ n ih => rw [commands, List.replicate_succ, reach, ← commands, ih]

theorem reach_of_passes (h : Passes vs) : reach vs = vs.count command := by
  induction vs with
  | nil => rfl
  | cons v vs ih =>
      obtain ⟨hv, hvs⟩ := passes_cons_iff.mp h
      rcases v with _ | ⟨_ | _, e⟩
      · rw [reach, ih hvs, List.count_cons_self]
      · cases hv
      · rw [reach, ih hvs, List.count_cons_of_ne (by simp)]

/-- A walk is refused for want of room if more commands than there is room for come before anything
that does not hold. -/
theorem firstRefusal_eq (className : String) (room : Nat) (vs : List Visit) :
    firstRefusal className room vs =
      if room < reach vs then some (.tooManyCommands className) else failure? vs := by
  induction vs generalizing room with
  | nil => simp [firstRefusal, reach]
  | cons v vs ih =>
      rcases v with _ | ⟨_ | _, e⟩
      · cases room with
        | zero => simp [firstRefusal, reach]
        | succ room => simp [firstRefusal, reach, ih]
      · simp [firstRefusal, reach]
      · rw [firstRefusal, reach, failure?_check_true, ih]

/-- A walk without refusals leaves the room that its commands do not take. -/
theorem firstRefusal_append (h : firstRefusal className room vs = none) (ws : List Visit) :
    firstRefusal className room (vs ++ ws) =
      firstRefusal className (room - vs.count command) ws := by
  induction vs generalizing room with
  | nil => simp
  | cons v vs ih =>
      rcases v with _ | ⟨_ | _, e⟩
      · cases room with
        | zero => cases h
        | succ room =>
            rw [List.cons_append, firstRefusal, ih h, List.count_cons_self, Nat.add_sub_add_right]
      · cases h
      · rw [List.cons_append, firstRefusal, ih h, List.count_cons_of_ne (by simp)]

theorem firstRefusal_append_of_some {e : LoweringError}
    (h : firstRefusal className room vs = some e) (ws : List Visit) :
    firstRefusal className room (vs ++ ws) = some e := by
  induction vs generalizing room with
  | nil => cases h
  | cons v vs ih =>
      rcases v with _ | ⟨_ | _, e'⟩
      · cases room with
        | zero => exact h
        | succ room => exact ih h
      · exact h
      · exact ih h

theorem firstRefusal_eq_none_iff (className : String) :
    firstRefusal className room vs = none ↔ Passes vs ∧ vs.count command ≤ room := by
  rw [firstRefusal_eq]
  constructor
  · intro h
    split at h
    · cases h
    · rename_i hroom
      have hpasses := passes_iff_failure?.mpr h
      exact ⟨hpasses, by rw [← reach_of_passes hpasses]; omega⟩
  · rintro ⟨hpasses, hcount⟩
    rw [reach_of_passes hpasses, if_neg (by omega)]
    exact passes_iff_failure?.mp hpasses

end Visit

open Visit

/-! ## Emissions track walks -/

/-- An emission has a command for each one on a walk, up to the first thing that does not hold,
and stops there. -/
structure Tracks (a : Emission) (vs : List Visit) : Prop where
  size : a.code.size = reach vs
  stop : a.stop = failure? vs

namespace Tracks

variable {ctx : Context} {a b : Emission} {vs ws : List Visit}

theorem empty : Tracks {} [] := ⟨rfl, rfl⟩

theorem ofList (cs : List Command) : Tracks (.ofList cs) (commands cs.length) where
  size := by rw [reach_commands, Emission.ofList, List.size_toArray]
  stop := (passes_iff_failure?.mp (passes_commands _)).symm

theorem append (ha : Tracks a vs) (hb : Tracks b ws) : Tracks (a ++ b) (vs ++ ws) := by
  obtain ⟨hsize, hstop⟩ := ha
  rcases a with ⟨code, _ | e⟩
  · constructor
    · rw [reach_append hstop.symm, Emission.append_ok, Array.size_append, hsize, hb.size]
    · rw [failure?_append, ← hstop, Option.none_or]
      exact hb.stop
  · constructor
    · rw [reach_append_of_some hstop.symm]
      exact hsize
    · rw [failure?_append, ← hstop]
      rfl

/-- What must hold comes first. -/
theorem check {holds : Bool} {e : LoweringError} (hpass : holds = true → Tracks a vs)
    (hfail : holds = false → a = .failed e) : Tracks a (.check holds e :: vs) := by
  cases holds with
  | false => exact hfail rfl ▸ ⟨rfl, rfl⟩
  | true => exact ⟨(hpass rfl).size, (hpass rfl).stop⟩

theorem withEntry {name : String} {span : Span} {emit : Entry → Emission}
    (h : ∀ entry, Tracks (emit entry) vs) :
    Tracks (withEntry ctx name span emit) (.name ctx name span :: vs) := by
  unfold Lowering.withEntry
  cases hentry : ctx.resolve? name with
  | none => exact check (by simp [hentry]) fun _ => rfl
  | some entry => exact check (fun _ => h entry) (by simp [hentry])

theorem withCount {what : Counted} {n : Nat} {span : Span} {emit : UInt16 → Emission}
    (h : ∀ count, Tracks (emit count) vs) :
    Tracks (withCount what n span emit) (.count what n span :: vs) := by
  unfold Lowering.withCount
  by_cases hn : n ≤ 65535
  · rw [if_pos hn]
    exact check (fun _ => h _) (by simp [hn])
  · rw [if_neg hn]
    exact check (by simp [hn]) fun _ => rfl

end Tracks

theorem length_stringCommands (length : UInt16) (cs : List Char) :
    (stringCommands length cs).length = 2 + 2 * cs.length := by
  have hcharacters : (cs.flatMap fun c => [Command.push .constant c.toNat.toUInt16,
      .call "String.appendChar" 2]).length = 2 * cs.length := by
    simp [List.length_flatMap, Nat.mul_comm]
  rw [stringCommands, List.length_append, hcharacters]
  rfl

theorem tracks_string (value : String) (span : Span) :
    Tracks (lowerString value span) (characters value span ::
      count .characters value.toList.length span :: commands (2 + 2 * value.toList.length)) := by
  refine .check (fun hnarrow => ?_) fun hwide => ?_
  · rw [lowerString, if_pos hnarrow]
    refine .withCount fun length => ?_
    rw [← length_stringCommands length]
    exact .ofList _
  · rw [lowerString, if_neg (by simpa using hwide)]

mutual

theorem tracks_expression (ctx : Context) :
    ∀ e : Expression, Tracks (lowerExpression ctx e) (ofExpression ctx e)
  | .integer .. | .boolean true _ | .boolean false _ | .null _ | .this _ => by
      rw [lowerExpression, ofExpression]
      exact .ofList _
  | .string value span => by
      rw [lowerExpression, ofExpression]
      exact tracks_string value span
  | .var name span => by
      rw [lowerExpression, ofExpression]
      exact .withEntry fun _ => .ofList _
  | .element array index span => by
      have hindex := tracks_expression ctx index
      rw [lowerExpression, ofExpression]
      have harray : Tracks (withEntry ctx array span fun entry => .ofList [pushEntry entry])
          (name ctx array span :: commands 1) := .withEntry fun _ => .ofList _
      exact (harray.append hindex).append (.ofList _)
  | .call receiver name arguments span => by
      rw [lowerExpression, ofExpression]
      exact (tracks_arguments ctx _ (.ofList _) arguments).append (.withCount fun _ => .ofList _)
  | .unary op operand span => by
      have hoperand := tracks_expression ctx operand
      rw [lowerExpression, ofExpression]
      exact hoperand.append (.ofList _)
  | .binary op left right span => by
      have hleft := tracks_expression ctx left
      have hright := tracks_expression ctx right
      rw [lowerExpression, ofExpression]
      exact (hleft.append hright).append (.ofList _)

theorem tracks_arguments (ctx : Context) {vs : List Visit} (a : Emission) (ha : Tracks a vs) :
    ∀ es : List Expression, Tracks (lowerArguments ctx a es) (vs ++ ofArguments ctx es)
  | [] => by
      rw [lowerArguments, ofArguments, List.append_nil]
      exact ha
  | e :: rest => by
      have he := tracks_expression ctx e
      rw [lowerArguments, ofArguments, ← List.append_assoc]
      exact tracks_arguments ctx _ (ha.append he) rest

end

theorem tracks_unless (ctx : Context) (condition : Expression) (label : String) :
    Tracks (lowerUnless ctx condition label) (ofExpression ctx condition ++ commands 2) :=
  (tracks_expression ctx condition).append (.ofList _)

mutual

theorem tracks_statement (ctx : Context) (labels : Labels) :
    ∀ s : Statement, Tracks (lowerStatement ctx labels s).1 (ofStatement ctx s)
  | .letVariable target value span => by
      have hvalue := tracks_expression ctx value
      rw [lowerStatement, ofStatement]
      exact .withEntry fun _ => hvalue.append (.ofList _)
  | .letElement target index value span => by
      have hindex := tracks_expression ctx index
      have hvalue := tracks_expression ctx value
      rw [lowerStatement, ofStatement, lowerLetElement]
      exact .withEntry fun _ =>
        ((((Tracks.ofList _).append hindex).append (.ofList _)).append hvalue).append (.ofList _)
  | .ifThen condition consequent span => by
      have htest := tracks_unless ctx condition s!"IF_END_{labels.ifs}"
      rw [lowerStatement, ofStatement]
      exact (tracks_statements ctx _ htest _ consequent).append (.ofList _)
  | .ifElse condition consequent alternate span => by
      have htest := tracks_unless ctx condition s!"IF_ELSE_{labels.ifs}"
      rw [lowerStatement, ofStatement]
      have hfirst := tracks_statements ctx _ htest { labels with ifs := labels.ifs + 1 } consequent
      exact (tracks_statements ctx _ (hfirst.append (.ofList _)) _ alternate).append (.ofList _)
  | .whileLoop condition body span => by
      have htest := tracks_unless ctx condition s!"WHILE_END_{labels.loops}"
      rw [lowerStatement, ofStatement]
      exact (tracks_statements ctx _ ((Tracks.ofList _).append htest) _ body).append (.ofList _)
  | .doCall call span => by
      have hcall := tracks_expression ctx call.toExpression
      rw [lowerStatement, ofStatement]
      exact hcall.append (.ofList _)
  | .return (some value) span => by
      have hvalue := tracks_expression ctx value
      rw [lowerStatement, ofStatement]
      exact hvalue.append (.ofList _)
  | .return none span => by
      rw [lowerStatement, ofStatement]
      exact .ofList _

theorem tracks_statements (ctx : Context) {vs : List Visit} (a : Emission) (ha : Tracks a vs)
    (labels : Labels) : ∀ ss : List Statement,
      Tracks (lowerStatements ctx a labels ss).1 (vs ++ ofStatements ctx ss)
  | [] => by
      rw [lowerStatements, ofStatements, List.append_nil]
      exact ha
  | s :: rest => by
      have hs := tracks_statement ctx labels s
      rw [lowerStatements, ofStatements, ← List.append_assoc]
      exact tracks_statements ctx _ (ha.append hs) _ rest

end

theorem tracks_prologue (tree : ClassTree) (s : Subroutine) :
    Tracks (prologue s.kind tree.fieldCount s.span) (ofPrologue tree s) := by
  unfold prologue ofPrologue
  cases s.kind with
  | constructor => exact .withCount fun _ => .ofList _
  | method => exact .ofList _
  | function => exact .empty

theorem tracks_subroutine (tree : ClassTree) (labels : Labels) (s : Subroutine) :
    Tracks (lowerSubroutine tree (.ofClass tree) labels s).1 (ofSubroutine tree s) :=
  tracks_statements (contextOf tree s) _
    ((Tracks.withCount fun _ => .ofList _).append (tracks_prologue tree s)) labels s.body

/-- An emission is settled as its walk is refused. -/
theorem Tracks.settle {a : Emission} {vs : List Visit} (h : Tracks a vs) (room : Nat)
    (className : String) :
    a.settle room className = match firstRefusal className room vs with
      | some e => .error e
      | none => .ok a.code.toList := by
  rw [firstRefusal_eq, ← h.size, ← h.stop, Emission.settle]
  split
  · rfl
  · cases a.stop <;> rfl

theorem Tracks.length_of_yields {a : Emission} {vs : List Visit} (h : Tracks a vs)
    {code : List Command} (hcode : a.Yields code) : code.length = vs.count .command := by
  rw [← hcode.1, Array.length_toList, h.size]
  exact reach_of_passes (passes_iff_failure?.mpr (h.stop.symm.trans hcode.2))

/-- The subroutines behind some commands are refused as the walk over them is, with the room that is
left. -/
theorem lowerSubroutines_eq_error_iff {tree : ClassTree} {labels : Labels} {code : Array Command}
    {events : Array Diagnostics.Event} {ss : List Subroutine} {e : LoweringError} :
    (lowerSubroutines tree (.ofClass tree) labels code events ss).result = .error e ↔
      firstRefusal tree.name (Limits.maxCommandsPerClass - code.size)
        (ss.flatMap (ofSubroutine tree)) = some e := by
  induction ss generalizing labels code events with
  | nil => simp [lowerSubroutines, firstRefusal]
  | cons s rest ih =>
      have htracks := tracks_subroutine tree labels s
      have hsettle := htracks.settle (Limits.maxCommandsPerClass - code.size) tree.name
      rw [List.flatMap_cons]
      simp only [lowerSubroutines, hsettle]
      cases hrefusal : firstRefusal tree.name (Limits.maxCommandsPerClass - code.size)
          (ofSubroutine tree s) with
      | some e' =>
          rw [firstRefusal_append_of_some hrefusal]
          simp
      | none =>
          rw [firstRefusal_append hrefusal, ih]
          have hpasses := ((firstRefusal_eq_none_iff _).mp hrefusal).1
          have hsize :
              (code ++ (lowerSubroutine tree (.ofClass tree) labels s).1.code.toList).size =
                code.size + reach (ofSubroutine tree s) := by
            rw [← htracks.size, ← Array.length_toList, Array.toList_appendList, List.length_append]
            rfl
          rw [← reach_of_passes hpasses, Nat.sub_sub, hsize]

/-- A class is refused for the first thing that is refused on the walk over it. -/
theorem lowerClass_eq_error_iff {tree : ClassTree} {e : LoweringError} :
    (lowerClass tree).result = .error e ↔
      firstRefusal tree.name Limits.maxCommandsPerClass (ofClass tree) = some e := by
  have hwalk (events : Array Diagnostics.Event) :
      (lowerSubroutines tree (.ofClass tree) {} #[] events tree.subroutines).result = .error e ↔
        firstRefusal tree.name Limits.maxCommandsPerClass (ofClass tree) = some e :=
    lowerSubroutines_eq_error_iff
  simp only [lowerClass]
  split
  · exact hwalk _
  · exact hwalk _

/-! ## What can be lowered -/

/-- What an expression asks of its own node. A receiver need not be declared. -/
def Fits (ctx : Context) : Expression → Prop
  | .var name _ | .element name _ _ => (ctx.resolve? name).isSome
  | .string value _ => (∀ c ∈ value.toList, c.toNat ≤ 0x7FFF) ∧ value.toList.length ≤ 65535
  | .call receiver name arguments _ =>
    arguments.length + (callTarget ctx receiver name).2.toList.length ≤ 65535
  | .integer .. | .boolean .. | .null _ | .this _ | .unary .. | .binary .. => True

/-- What a statement asks, apart from the statements inside of it. -/
structure Admits (ctx : Context) (s : Statement) : Prop where
  target : ∀ name ∈ s.target?, (ctx.resolve? name).isSome
  expressions : ∀ e ∈ s.expressions, ∀ part ∈ e.parts, Fits ctx part

/-- The names of a subroutine are declared, and its characters and counts fit into words. -/
structure Lowerable (tree : ClassTree) (s : Subroutine) : Prop where
  locals : s.localCount ≤ 65535
  fields : s.kind = .constructor → tree.fieldCount ≤ 65535
  body : ∀ st ∈ Statement.partsOfAll s.body, Admits (contextOf tree s) st

variable {ctx : Context}

theorem refusal?_name_eq_none_iff {name : String} {span : Span} :
    (Visit.name ctx name span).refusal? = none ↔ (ctx.resolve? name).isSome :=
  refusal?_check_eq_none_iff

theorem refusal?_count_eq_none_iff {what : Counted} {n : Nat} {span : Span} :
    (Visit.count what n span).refusal? = none ↔ n ≤ 65535 := by
  rw [Visit.count, refusal?_check_eq_none_iff, decide_eq_true_eq]

theorem refusal?_characters_eq_none_iff {value : String} {span : Span} :
    (Visit.characters value span).refusal? = none ↔ ∀ c ∈ value.toList, c.toNat ≤ 0x7FFF := by
  rw [Visit.characters, refusal?_check_eq_none_iff, List.all_eq_true]
  simp only [decide_eq_true_eq]

mutual

theorem passes_ofExpression_iff (ctx : Context) :
    ∀ e : Expression, Passes (ofExpression ctx e) ↔ ∀ part ∈ e.parts, Fits ctx part
  | .integer .. | .boolean true _ | .boolean false _ | .null _ | .this _ => by
      simp [ofExpression, Expression.parts, Fits]
  | .string value span => by
      simp [ofExpression, Expression.parts, Fits, passes_cons_iff, refusal?_characters_eq_none_iff,
        refusal?_count_eq_none_iff]
  | .var name span => by
      simp [ofExpression, Expression.parts, Fits, passes_cons_iff, refusal?_name_eq_none_iff]
  | .element array index span => by
      have hindex := passes_ofExpression_iff ctx index
      simp [ofExpression, Expression.parts, Fits, passes_cons_iff, passes_append_iff,
        refusal?_name_eq_none_iff, hindex]
  | .call receiver name arguments span => by
      have harguments := passes_ofArguments_iff ctx arguments
      simp [ofExpression, Expression.parts, Fits, passes_cons_iff, passes_append_iff,
        refusal?_count_eq_none_iff, harguments, and_comm]
  | .unary op operand span => by
      have hoperand := passes_ofExpression_iff ctx operand
      simp [ofExpression, Expression.parts, Fits, passes_append_iff, hoperand]
  | .binary op left right span => by
      have hleft := passes_ofExpression_iff ctx left
      have hright := passes_ofExpression_iff ctx right
      simp [ofExpression, Expression.parts, Fits, passes_append_iff, hleft, hright, or_imp,
        forall_and]

theorem passes_ofArguments_iff (ctx : Context) : ∀ es : List Expression,
    Passes (ofArguments ctx es) ↔ ∀ part ∈ Expression.partsOfAll es, Fits ctx part
  | [] => by simp [ofArguments, Expression.partsOfAll]
  | e :: rest => by
      have he := passes_ofExpression_iff ctx e
      have hrest := passes_ofArguments_iff ctx rest
      simp [ofArguments, Expression.partsOfAll, passes_append_iff, he, hrest, or_imp, forall_and]

end

theorem admits_iff {s : Statement} : Admits ctx s ↔
    (∀ name ∈ s.target?, (ctx.resolve? name).isSome) ∧
      ∀ e ∈ s.expressions, Passes (ofExpression ctx e) := by
  simp only [passes_ofExpression_iff]
  exact ⟨fun h => ⟨h.target, h.expressions⟩, fun h => ⟨h.1, h.2⟩⟩

theorem admits_iff_of_condition {s : Statement} {condition : Expression}
    (h : s.condition? = some condition) : Admits ctx s ↔ Passes (ofExpression ctx condition) := by
  rw [admits_iff]
  cases s <;> cases h <;> simp [Statement.target?, Statement.expressions]

mutual

theorem passes_ofStatement_iff (ctx : Context) :
    ∀ s : Statement, Passes (ofStatement ctx s) ↔ ∀ st ∈ s.parts, Admits ctx st
  | .letVariable target value span => by
      simp [ofStatement, Statement.parts, admits_iff, Statement.target?, Statement.expressions,
        passes_cons_iff, passes_append_iff, refusal?_name_eq_none_iff]
  | .letElement target index value span => by
      simp [ofStatement, Statement.parts, admits_iff, Statement.target?, Statement.expressions,
        passes_cons_iff, passes_append_iff, refusal?_name_eq_none_iff]
  | .ifThen condition consequent span => by
      have hinside := passes_ofStatements_iff ctx consequent
      rw [Statement.parts, List.forall_mem_cons, admits_iff_of_condition rfl, ← hinside]
      simp [ofStatement, passes_append_iff]
  | .ifElse condition consequent alternate span => by
      have hfirst := passes_ofStatements_iff ctx consequent
      have hsecond := passes_ofStatements_iff ctx alternate
      rw [Statement.parts, List.forall_mem_cons, admits_iff_of_condition rfl,
        List.forall_mem_append, ← hfirst, ← hsecond]
      simp [ofStatement, passes_append_iff]
  | .whileLoop condition body span => by
      have hinside := passes_ofStatements_iff ctx body
      rw [Statement.parts, List.forall_mem_cons, admits_iff_of_condition rfl, ← hinside]
      simp [ofStatement, passes_append_iff]
  | .doCall call span => by
      simp [ofStatement, Statement.parts, admits_iff, Statement.target?, Statement.expressions,
        passes_append_iff]
  | .return (some value) span => by
      simp [ofStatement, Statement.parts, admits_iff, Statement.target?, Statement.expressions,
        passes_append_iff]
  | .return none span => by
      simp [ofStatement, Statement.parts, admits_iff, Statement.target?, Statement.expressions]

theorem passes_ofStatements_iff (ctx : Context) : ∀ ss : List Statement,
    Passes (ofStatements ctx ss) ↔ ∀ st ∈ Statement.partsOfAll ss, Admits ctx st
  | [] => by simp [ofStatements, Statement.partsOfAll]
  | s :: rest => by
      have hs := passes_ofStatement_iff ctx s
      have hrest := passes_ofStatements_iff ctx rest
      simp [ofStatements, Statement.partsOfAll, passes_append_iff, hs, hrest, or_imp, forall_and]

end

theorem passes_ofPrologue_iff {tree : ClassTree} {s : Subroutine} :
    Passes (ofPrologue tree s) ↔ (s.kind = .constructor → tree.fieldCount ≤ 65535) := by
  unfold ofPrologue
  cases s.kind with
  | constructor => simp [passes_cons_iff, refusal?_count_eq_none_iff]
  | method => simp
  | function => simp

theorem passes_ofSubroutine_iff {tree : ClassTree} {s : Subroutine} :
    Passes (ofSubroutine tree s) ↔ Lowerable tree s := by
  simp only [ofSubroutine, passes_append_iff, passes_cons_iff, passes_commands, and_true,
    refusal?_count_eq_none_iff, passes_ofPrologue_iff, passes_ofStatements_iff]
  exact ⟨fun ⟨⟨hlocals, hfields⟩, hbody⟩ => ⟨hlocals, hfields, hbody⟩,
    fun h => ⟨⟨h.locals, h.fields⟩, h.body⟩⟩

theorem passes_ofClass_iff {tree : ClassTree} :
    Passes (ofClass tree) ↔ ∀ s ∈ tree.subroutines, Lowerable tree s := by
  simp only [← passes_ofSubroutine_iff]
  constructor
  · exact fun h s hs v hv => h v (List.mem_flatMap.mpr ⟨s, hs, hv⟩)
  · intro h v hv
    obtain ⟨s, hs, hv⟩ := List.mem_flatMap.mp hv
    exact h s hs v hv

/-- The commands on the walk over a class. -/
def commandCount (tree : ClassTree) : Nat := (ofClass tree).count .command

/-- Subroutines that can be lowered yield that many commands, with or without room for them. -/
theorem exists_blocks {tree : ClassTree} {ss : List Subroutine}
    (h : ∀ s ∈ ss, Lowerable tree s) (labels : Labels) :
    ∃ blocks, YieldsBlocks tree labels ss blocks ∧
      blocks.flatten.length = (ss.flatMap (ofSubroutine tree)).count .command := by
  induction ss generalizing labels with
  | nil => exact ⟨[], .nil labels, rfl⟩
  | cons s rest ih =>
      obtain ⟨hs, hrest⟩ := List.forall_mem_cons.mp h
      have htracks := tracks_subroutine tree labels s
      have hpasses := passes_iff_failure?.mp (passes_ofSubroutine_iff.mpr hs)
      have hyields : (lowerSubroutine tree (.ofClass tree) labels s).1.Yields _ :=
        ⟨rfl, htracks.stop.trans hpasses⟩
      obtain ⟨opening, body, hblock, hcode⟩ := yields_lowerSubroutine_iff.mp hyields
      obtain ⟨blocks, hblocks, hlength⟩ :=
        ih hrest (lowerSubroutine tree (.ofClass tree) labels s).2
      refine ⟨_, .cons hblock hblocks, ?_⟩
      rw [List.flatten_cons, List.length_append, hlength, List.flatMap_cons, List.count_append,
        ← hcode, htracks.length_of_yields hyields]

/-- A class is lowered exactly if each subroutine can be lowered and its commands are not too many;
these are the commands of its subroutines. Otherwise it is refused for what the walk over it meets
first. -/
theorem lowerClass_accepts_iff (tree : ClassTree) :
    ((∃ commands, (lowerClass tree).result = .ok commands) ↔
      (∀ s ∈ tree.subroutines, Lowerable tree s) ∧
        commandCount tree ≤ Limits.maxCommandsPerClass) ∧
    ((∀ s ∈ tree.subroutines, Lowerable tree s) →
      ∃ blocks, YieldsBlocks tree {} tree.subroutines blocks ∧
        blocks.flatten.length = commandCount tree) ∧
    ∀ e, (lowerClass tree).result = .error e ↔
      firstRefusal tree.name Limits.maxCommandsPerClass (ofClass tree) = some e := by
  refine ⟨?_, fun h => exists_blocks h {}, fun _ => lowerClass_eq_error_iff⟩
  rw [← passes_ofClass_iff, commandCount, ← firstRefusal_eq_none_iff tree.name]
  cases hresult : (lowerClass tree).result with
  | error e => simp [lowerClass_eq_error_iff.mp hresult]
  | ok commands =>
      simp only [Except.ok.injEq, exists_eq', true_iff, Option.eq_none_iff_forall_ne_some]
      intro e hrefusal
      rw [lowerClass_eq_error_iff.mpr hrefusal] at hresult
      cases hresult

end JackToolchain.Lowering
