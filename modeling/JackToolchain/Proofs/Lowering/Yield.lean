import JackToolchain.Lowering.Class
import Mathlib.Data.List.Forall2

/-!
# What an emission yields

An emission without a failure yields commands. Those of a tree are the commands of its parts, one
after the other, with a few in between.
-/

namespace JackToolchain.Lowering

open JackToolchain.Source JackToolchain.Stack JackToolchain.Syntax JackToolchain.Scope

/-- Nothing failed, and these are the commands. -/
def Emission.Yields (a : Emission) (code : List Command) : Prop :=
  a.code.toList = code ∧ a.stop = none

/-- The commands of each expression of a list. -/
def YieldEach (ctx : Context) (es : List Expression) (codes : List (List Command)) : Prop :=
  List.Forall₂ (fun e c => (lowerExpression ctx e).Yields c) es codes

theorem lowerStatements_front (ctx : Context) (front : Emission) (labels : Labels)
    (ss : List Statement) :
    lowerStatements ctx front labels ss =
      (front ++ (lowerStatements ctx {} labels ss).1, (lowerStatements ctx {} labels ss).2) := by
  induction ss generalizing front labels with
  | nil => simp [lowerStatements]
  | cons s rest ih =>
      simp only [lowerStatements, Emission.empty_append]
      rw [ih (front ++ _), ih (lowerStatement ctx labels s).1, Emission.append_assoc]

namespace Yields

-- the equations of both recursions are derived here, and not by many lemmas at the same time
attribute [local simp] lowerExpression lowerStatement

variable {ctx : Context} {code : List Command} {a b : Emission}

theorem ofList_iff {commands : List Command} :
    (Emission.ofList commands).Yields code ↔ code = commands := by
  simp [Emission.ofList, Emission.Yields, eq_comm]

theorem empty_iff : ({} : Emission).Yields code ↔ code = [] := by
  simp [Emission.Yields, eq_comm]

theorem not_failed {e : LoweringError} : ¬(Emission.failed e).Yields code := by
  simp [Emission.failed, Emission.Yields]

theorem append_iff : (a ++ b).Yields code ↔ ∃ c d, a.Yields c ∧ b.Yields d ∧ code = c ++ d := by
  rcases a with ⟨front, _ | e⟩
  · simp [Emission.Yields, eq_comm, and_comm]
  · simp [Emission.Yields]

theorem withEntry_iff {name : String} {span : Span} {emit : Entry → Emission} :
    (withEntry ctx name span emit).Yields code ↔
      ∃ entry, ctx.resolve? name = some entry ∧ (emit entry).Yields code := by
  unfold withEntry
  cases ctx.resolve? name with
  | none => simp [not_failed]
  | some entry => simp

theorem withCount_iff {what : Counted} {count : Nat} {span : Span} {emit : UInt16 → Emission} :
    (withCount what count span emit).Yields code ↔
      count ≤ 65535 ∧ (emit count.toUInt16).Yields code := by
  unfold withCount
  split
  · rename_i hcount
    simp [hcount]
  · rename_i hcount
    simp [hcount, not_failed]

/-! ## Expressions -/

theorem integer_iff {value : Nat} {span : Span} :
    (lowerExpression ctx (.integer value span)).Yields code ↔
      code = [.push .constant value.toUInt16] := by
  simp only [lowerExpression, ofList_iff]

theorem string_iff {value : String} {span : Span} :
    (lowerExpression ctx (.string value span)).Yields code ↔
      (∀ c ∈ value.toList, c.toNat ≤ 0x7FFF) ∧ value.toList.length ≤ 65535 ∧
        code = stringCommands value.toList.length.toUInt16 value.toList := by
  simp only [lowerExpression, lowerString]
  split
  · rename_i hall
    have hrange : ∀ c ∈ value.toList, c.toNat ≤ 0x7FFF := by simpa using hall
    simp only [withCount_iff, ofList_iff]
    exact ⟨fun h => ⟨hrange, h⟩, fun h => h.2⟩
  · rename_i hall
    have hrange : ¬∀ c ∈ value.toList, c.toNat ≤ 0x7FFF := by simpa using hall
    simp [not_failed, hrange]

theorem true_iff {span : Span} :
    (lowerExpression ctx (.boolean true span)).Yields code ↔
      code = [.push .constant 1, .arithmetic .neg] := by
  simp only [lowerExpression, ofList_iff]

theorem false_iff {span : Span} :
    (lowerExpression ctx (.boolean false span)).Yields code ↔ code = [.push .constant 0] := by
  simp only [lowerExpression, ofList_iff]

theorem null_iff {span : Span} :
    (lowerExpression ctx (.null span)).Yields code ↔ code = [.push .constant 0] := by
  simp only [lowerExpression, ofList_iff]

theorem this_iff {span : Span} :
    (lowerExpression ctx (.this span)).Yields code ↔ code = [.push .pointer 0] := by
  simp only [lowerExpression, ofList_iff]

theorem var_iff {name : String} {span : Span} :
    (lowerExpression ctx (.var name span)).Yields code ↔
      ∃ entry, ctx.resolve? name = some entry ∧ code = [pushEntry entry] := by
  simp only [lowerExpression, withEntry_iff, ofList_iff]

theorem element_iff {array : String} {index : Expression} {span : Span} :
    (lowerExpression ctx (.element array index span)).Yields code ↔
      ∃ entry c, ctx.resolve? array = some entry ∧ (lowerExpression ctx index).Yields c ∧
        code = [pushEntry entry] ++ c ++
          [.arithmetic .add, .pop .pointer 1, .push .that 0] := by
  simp only [lowerExpression, append_iff, withEntry_iff, ofList_iff]
  constructor
  · rintro ⟨_, _, ⟨_, c, ⟨entry, hentry, rfl⟩, hc, rfl⟩, rfl, rfl⟩
    exact ⟨entry, c, hentry, hc, rfl⟩
  · rintro ⟨entry, c, hentry, hc, rfl⟩
    exact ⟨_, _, ⟨_, c, ⟨entry, hentry, rfl⟩, hc, rfl⟩, rfl, rfl⟩

theorem unary_iff {op : UnaryOp} {operand : Expression} {span : Span} :
    (lowerExpression ctx (.unary op operand span)).Yields code ↔
      ∃ c, (lowerExpression ctx operand).Yields c ∧ code = c ++ [unaryCommand op] := by
  simp only [lowerExpression, append_iff, ofList_iff]
  constructor
  · rintro ⟨c, _, hc, rfl, rfl⟩
    exact ⟨c, hc, rfl⟩
  · rintro ⟨c, hc, rfl⟩
    exact ⟨c, _, hc, rfl, rfl⟩

theorem binary_iff {op : BinaryOp} {left right : Expression} {span : Span} :
    (lowerExpression ctx (.binary op left right span)).Yields code ↔
      ∃ c d, (lowerExpression ctx left).Yields c ∧ (lowerExpression ctx right).Yields d ∧
        code = c ++ d ++ binaryCommands op := by
  simp only [lowerExpression, append_iff, ofList_iff]
  constructor
  · rintro ⟨_, _, ⟨c, d, hc, hd, rfl⟩, rfl, rfl⟩
    exact ⟨c, d, hc, hd, rfl⟩
  · rintro ⟨c, d, hc, hd, rfl⟩
    exact ⟨_, _, ⟨c, d, hc, hd, rfl⟩, rfl, rfl⟩

theorem arguments_iff {es : List Expression} :
    (lowerArguments ctx a es).Yields code ↔
      ∃ c cs, a.Yields c ∧ YieldEach ctx es cs ∧ code = c ++ cs.flatten := by
  induction es generalizing a code with
  | nil =>
      simp only [lowerArguments, YieldEach, List.forall₂_nil_left_iff]
      constructor
      · exact fun h => ⟨code, [], h, rfl, by simp⟩
      · rintro ⟨c, _, h, rfl, rfl⟩
        simpa using h
  | cons e rest ih =>
      simp only [lowerArguments, ih, append_iff, YieldEach, List.forall₂_cons_left_iff]
      constructor
      · rintro ⟨_, cs, ⟨c, d, hc, hd, rfl⟩, hcs, rfl⟩
        exact ⟨c, d :: cs, hc, ⟨d, cs, hd, hcs, rfl⟩, by simp⟩
      · rintro ⟨c, _, hc, ⟨d, cs, hd, hcs, rfl⟩, rfl⟩
        exact ⟨c ++ d, cs, ⟨c, d, hc, hd, rfl⟩, hcs, by simp⟩

theorem call_iff {receiver : Option String} {name : String} {es : List Expression} {span : Span} :
    (lowerExpression ctx (.call receiver name es span)).Yields code ↔
      ∃ cs, YieldEach ctx es cs ∧
        es.length + (callTarget ctx receiver name).2.toList.length ≤ 65535 ∧
        code = (callTarget ctx receiver name).2.toList ++ cs.flatten ++
          [.call (callTarget ctx receiver name).1
            (es.length + (callTarget ctx receiver name).2.toList.length).toUInt16] := by
  simp only [lowerExpression, append_iff, arguments_iff, withCount_iff, ofList_iff]
  constructor
  · rintro ⟨_, _, ⟨_, cs, rfl, hcs, rfl⟩, ⟨hcount, rfl⟩, rfl⟩
    exact ⟨cs, hcs, hcount, rfl⟩
  · rintro ⟨cs, hcs, hcount, rfl⟩
    exact ⟨_, _, ⟨_, cs, rfl, hcs, rfl⟩, ⟨hcount, rfl⟩, rfl⟩

/-! ## Statements -/

variable {labels : Labels}

theorem letVariable_iff {target : String} {value : Expression} {span : Span} :
    (lowerStatement ctx labels (.letVariable target value span)).1.Yields code ↔
      ∃ entry c, ctx.resolve? target = some entry ∧ (lowerExpression ctx value).Yields c ∧
        code = c ++ [popEntry entry] := by
  simp only [lowerStatement, withEntry_iff, append_iff, ofList_iff]
  constructor
  · rintro ⟨entry, hentry, c, _, hc, rfl, rfl⟩
    exact ⟨entry, c, hentry, hc, rfl⟩
  · rintro ⟨entry, c, hentry, hc, rfl⟩
    exact ⟨entry, hentry, c, _, hc, rfl, rfl⟩

theorem letElement_iff {target : String} {index value : Expression} {span : Span} :
    (lowerStatement ctx labels (.letElement target index value span)).1.Yields code ↔
      ∃ entry c d, ctx.resolve? target = some entry ∧ (lowerExpression ctx index).Yields c ∧
        (lowerExpression ctx value).Yields d ∧
        code = [pushEntry entry] ++ c ++ [.arithmetic .add] ++ d ++
          [.pop .temp 0, .pop .pointer 1, .push .temp 0, .pop .that 0] := by
  simp only [lowerStatement, lowerLetElement, withEntry_iff, append_iff, ofList_iff]
  constructor
  · rintro ⟨entry, hentry, _, _, ⟨_, d, ⟨_, _, ⟨_, c, rfl, hc, rfl⟩, rfl, rfl⟩, hd, rfl⟩, rfl, rfl⟩
    exact ⟨entry, c, d, hentry, hc, hd, rfl⟩
  · rintro ⟨entry, c, d, hentry, hc, hd, rfl⟩
    exact ⟨entry, hentry, _, _, ⟨_, d, ⟨_, _, ⟨_, c, rfl, hc, rfl⟩, rfl, rfl⟩, hd, rfl⟩, rfl, rfl⟩

theorem unless_iff {condition : Expression} {label : String} :
    (lowerUnless ctx condition label).Yields code ↔
      ∃ c, (lowerExpression ctx condition).Yields c ∧
        code = c ++ [.arithmetic .not, .ifGoto label] := by
  simp only [lowerUnless, append_iff, ofList_iff]
  constructor
  · rintro ⟨c, _, hc, rfl, rfl⟩
    exact ⟨c, hc, rfl⟩
  · rintro ⟨c, hc, rfl⟩
    exact ⟨c, _, hc, rfl, rfl⟩

theorem statements_iff {ss : List Statement} :
    (lowerStatements ctx a labels ss).1.Yields code ↔
      ∃ c d, a.Yields c ∧ (lowerStatements ctx {} labels ss).1.Yields d ∧ code = c ++ d := by
  rw [lowerStatements_front, append_iff]

theorem statements_nil_iff : (lowerStatements ctx {} labels []).1.Yields code ↔ code = [] := by
  simp only [lowerStatements, empty_iff]

theorem statements_cons_iff {s : Statement} {rest : List Statement} :
    (lowerStatements ctx {} labels (s :: rest)).1.Yields code ↔
      ∃ c d, (lowerStatement ctx labels s).1.Yields c ∧
        (lowerStatements ctx {} (lowerStatement ctx labels s).2 rest).1.Yields d ∧
        code = c ++ d := by
  simp only [lowerStatements, Emission.empty_append]
  rw [statements_iff]

theorem ifThen_iff {condition : Expression} {consequent : List Statement} {span : Span} :
    (lowerStatement ctx labels (.ifThen condition consequent span)).1.Yields code ↔
      ∃ c d, (lowerExpression ctx condition).Yields c ∧
        (lowerStatements ctx {} { labels with ifs := labels.ifs + 1 } consequent).1.Yields d ∧
        code = c ++ [.arithmetic .not, .ifGoto s!"IF_END_{labels.ifs}"] ++ d ++
          [.label s!"IF_END_{labels.ifs}"] := by
  simp only [lowerStatement, append_iff, statements_iff (a := lowerUnless ..), unless_iff,
    ofList_iff]
  constructor
  · rintro ⟨_, _, ⟨_, d, ⟨c, hc, rfl⟩, hd, rfl⟩, rfl, rfl⟩
    exact ⟨c, d, hc, hd, rfl⟩
  · rintro ⟨c, d, hc, hd, rfl⟩
    exact ⟨_, _, ⟨_, d, ⟨c, hc, rfl⟩, hd, rfl⟩, rfl, rfl⟩

theorem ifElse_iff {condition : Expression} {consequent alternate : List Statement} {span : Span} :
    (lowerStatement ctx labels (.ifElse condition consequent alternate span)).1.Yields code ↔
      let first := lowerStatements ctx {} { labels with ifs := labels.ifs + 1 } consequent
      ∃ c d e, (lowerExpression ctx condition).Yields c ∧ first.1.Yields d ∧
        (lowerStatements ctx {} first.2 alternate).1.Yields e ∧
        code = c ++ [.arithmetic .not, .ifGoto s!"IF_ELSE_{labels.ifs}"] ++ d ++
          [.goto s!"IF_END_{labels.ifs}", .label s!"IF_ELSE_{labels.ifs}"] ++ e ++
          [.label s!"IF_END_{labels.ifs}"] := by
  simp only [lowerStatement]
  rw [lowerStatements_front ctx (lowerUnless ..)]
  simp only [append_iff, statements_iff (a := _ ++ _), unless_iff, ofList_iff]
  constructor
  · rintro ⟨_, _, ⟨_, e, ⟨_, _, ⟨_, d, ⟨c, hc, rfl⟩, hd, rfl⟩, rfl, rfl⟩, he, rfl⟩, rfl, rfl⟩
    exact ⟨c, d, e, hc, hd, he, rfl⟩
  · rintro ⟨c, d, e, hc, hd, he, rfl⟩
    exact ⟨_, _, ⟨_, e, ⟨_, _, ⟨_, d, ⟨c, hc, rfl⟩, hd, rfl⟩, rfl, rfl⟩, he, rfl⟩, rfl, rfl⟩

theorem whileLoop_iff {condition : Expression} {body : List Statement} {span : Span} :
    (lowerStatement ctx labels (.whileLoop condition body span)).1.Yields code ↔
      ∃ c d, (lowerExpression ctx condition).Yields c ∧
        (lowerStatements ctx {} { labels with loops := labels.loops + 1 } body).1.Yields d ∧
        code = [.label s!"WHILE_{labels.loops}"] ++
          (c ++ [.arithmetic .not, .ifGoto s!"WHILE_END_{labels.loops}"]) ++ d ++
          [.goto s!"WHILE_{labels.loops}", .label s!"WHILE_END_{labels.loops}"] := by
  simp only [lowerStatement, append_iff, statements_iff (a := _ ++ _), unless_iff, ofList_iff]
  constructor
  · rintro ⟨_, _, ⟨_, d, ⟨_, _, rfl, ⟨c, hc, rfl⟩, rfl⟩, hd, rfl⟩, rfl, rfl⟩
    exact ⟨c, d, hc, hd, rfl⟩
  · rintro ⟨c, d, hc, hd, rfl⟩
    exact ⟨_, _, ⟨_, d, ⟨_, _, rfl, ⟨c, hc, rfl⟩, rfl⟩, hd, rfl⟩, rfl, rfl⟩

theorem doCall_iff {call : Call} {span : Span} :
    (lowerStatement ctx labels (.doCall call span)).1.Yields code ↔
      ∃ c, (lowerExpression ctx call.toExpression).Yields c ∧ code = c ++ [.pop .temp 0] := by
  simp only [lowerStatement, lowerCall, append_iff, ofList_iff]
  constructor
  · rintro ⟨c, _, hc, rfl, rfl⟩
    exact ⟨c, hc, rfl⟩
  · rintro ⟨c, hc, rfl⟩
    exact ⟨c, _, hc, rfl, rfl⟩

theorem return_some_iff {value : Expression} {span : Span} :
    (lowerStatement ctx labels (.return (some value) span)).1.Yields code ↔
      ∃ c, (lowerExpression ctx value).Yields c ∧ code = c ++ [.return] := by
  simp only [lowerStatement, append_iff, ofList_iff]
  constructor
  · rintro ⟨c, _, hc, rfl, rfl⟩
    exact ⟨c, hc, rfl⟩
  · rintro ⟨c, hc, rfl⟩
    exact ⟨c, _, hc, rfl, rfl⟩

theorem return_none_iff {span : Span} :
    (lowerStatement ctx labels (.return none span)).1.Yields code ↔
      code = [.push .constant 0, .return] := by
  simp only [lowerStatement, ofList_iff]

end Yields

/-! ## Classes -/

/-- Where the expressions of a subroutine stand. -/
def contextOf (tree : ClassTree) (s : Subroutine) : Context where
  className := tree.name
  subroutine := s!"{tree.name}.{s.name}"
  classTable := .ofClass tree
  subroutineTable := .ofSubroutine tree.name s

/-- The commands of a subroutine: its declaration, what its kind demands, its statements. -/
structure YieldsBlock (tree : ClassTree) (labels : Labels) (s : Subroutine)
    (opening body : List Command) : Prop where
  count : s.localCount ≤ 65535
  opening : (prologue s.kind tree.fieldCount s.span).Yields opening
  body : (lowerStatements (contextOf tree s) {} labels s.body).1.Yields body

/-- The block of commands of a subroutine. -/
def blockOf (tree : ClassTree) (s : Subroutine) (opening body : List Command) : List Command :=
  .function s!"{tree.name}.{s.name}" s.localCount.toUInt16 :: (opening ++ body)

theorem yields_lowerSubroutine_iff {tree : ClassTree} {labels : Labels} {s : Subroutine}
    {code : List Command} :
    (lowerSubroutine tree (.ofClass tree) labels s).1.Yields code ↔
      ∃ opening body, YieldsBlock tree labels s opening body ∧
        code = blockOf tree s opening body := by
  have hfront : lowerSubroutine tree (.ofClass tree) labels s =
      lowerStatements (contextOf tree s)
        ((withCount .locals s.localCount s.span fun count =>
          .ofList [.function s!"{tree.name}.{s.name}" count]) ++
          prologue s.kind tree.fieldCount s.span) labels s.body := rfl
  rw [hfront, Yields.statements_iff]
  simp only [Yields.append_iff, Yields.withCount_iff, Yields.ofList_iff]
  constructor
  · rintro ⟨_, body, ⟨_, opening, ⟨hcount, rfl⟩, hopening, rfl⟩, hbody, rfl⟩
    exact ⟨opening, body, ⟨hcount, hopening, hbody⟩, by simp [blockOf]⟩
  · rintro ⟨opening, body, ⟨hcount, hopening, hbody⟩, rfl⟩
    exact ⟨_, body, ⟨_, opening, ⟨hcount, rfl⟩, hopening, rfl⟩, hbody, by simp [blockOf]⟩

/-- The blocks of subroutines, with the numbers of labels counted through. -/
inductive YieldsBlocks (tree : ClassTree) : Labels → List Subroutine → List (List Command) → Prop
  | nil (labels : Labels) : YieldsBlocks tree labels [] []
  | cons {labels : Labels} {s : Subroutine} {rest : List Subroutine}
      {opening body : List Command} {blocks : List (List Command)}
      (first : YieldsBlock tree labels s opening body)
      (others : YieldsBlocks tree (lowerSubroutine tree (.ofClass tree) labels s).2 rest blocks) :
      YieldsBlocks tree labels (s :: rest) (blockOf tree s opening body :: blocks)

theorem yields_of_settle {a : Emission} {room : Nat} {name : String} {commands : List Command}
    (h : a.settle room name = .ok commands) : a.Yields commands := by
  unfold Emission.settle at h
  split at h
  · cases h
  · split at h
    · cases h
    · rename_i hstop
      cases h
      exact ⟨rfl, hstop⟩

theorem yields_of_lowerSubroutines {tree : ClassTree} {labels : Labels} {done : Array Command}
    {events : Array Diagnostics.Event} {ss : List Subroutine} {commands : List Command}
    (h : (lowerSubroutines tree (.ofClass tree) labels done events ss).result = .ok commands) :
    ∃ blocks, YieldsBlocks tree labels ss blocks ∧ commands = done.toList ++ blocks.flatten := by
  induction ss generalizing labels done events with
  | nil =>
      simp only [lowerSubroutines] at h
      cases h
      exact ⟨[], .nil labels, by simp⟩
  | cons s rest ih =>
      simp only [lowerSubroutines] at h
      split at h
      · cases h
      · rename_i code hsettle
        obtain ⟨opening, body, hblock, rfl⟩ :=
          yields_lowerSubroutine_iff.mp (yields_of_settle hsettle)
        obtain ⟨blocks, hblocks, rfl⟩ := ih h
        exact ⟨_ :: blocks, .cons hblock hblocks, by simp⟩

/-- A class that is lowered yields one block for each subroutine. -/
theorem yields_of_lowerClass {tree : ClassTree} {commands : List Command}
    (h : (lowerClass tree).result = .ok commands) :
    ∃ blocks, YieldsBlocks tree {} tree.subroutines blocks ∧ commands = blocks.flatten := by
  simp only [lowerClass] at h
  split at h
  · simpa using yields_of_lowerSubroutines h
  · simpa using yields_of_lowerSubroutines h

end JackToolchain.Lowering
