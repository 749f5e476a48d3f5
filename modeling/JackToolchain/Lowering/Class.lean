import JackToolchain.Lowering.Expression

/-!
# Lowering classes

Statements leave the stack as they found it. A constructor first allocates its object, a method
first takes its receiver. Conditions jump to labels that are numbered through the class, the ones
of `if` and `while` apart.
-/

namespace JackToolchain.Lowering

open JackToolchain.Source JackToolchain.Diagnostics JackToolchain.Stack JackToolchain.Syntax
open JackToolchain.Scope

/-- The next free numbers. -/
structure Labels where
  ifs : Nat := 0
  loops : Nat := 0
  deriving DecidableEq, Repr

def lowerCall (ctx : Context) (call : Call) : Emission :=
  lowerExpression ctx call.toExpression

/-- The address is computed before the value, which may go through the same pointer. -/
def lowerLetElement (ctx : Context) (target : String) (index value : Expression) (span : Span) :
    Emission :=
  withEntry ctx target span fun entry =>
    .ofList [pushEntry entry] ++ lowerExpression ctx index ++ .ofList [.arithmetic .add] ++
      lowerExpression ctx value ++
      .ofList [.pop .temp 0, .pop .pointer 1, .push .temp 0, .pop .that 0]

/-- Jumps away if the condition does not hold. -/
def lowerUnless (ctx : Context) (condition : Expression) (label : String) : Emission :=
  lowerExpression ctx condition ++ .ofList [.arithmetic .not, .ifGoto label]

mutual

def lowerStatement (ctx : Context) (labels : Labels) : Statement → Emission × Labels
  | .letVariable target value span =>
    (withEntry ctx target span fun entry =>
      lowerExpression ctx value ++ .ofList [popEntry entry], labels)
  | .letElement target index value span => (lowerLetElement ctx target index value span, labels)
  | .ifThen condition consequent _ =>
    let stop := s!"IF_END_{labels.ifs}"
    let (body, after) :=
      lowerStatements ctx (lowerUnless ctx condition stop) { labels with ifs := labels.ifs + 1 }
        consequent
    (body ++ .ofList [.label stop], after)
  | .ifElse condition consequent alternate _ =>
    let stop := s!"IF_END_{labels.ifs}"
    let other := s!"IF_ELSE_{labels.ifs}"
    let (first, between) :=
      lowerStatements ctx (lowerUnless ctx condition other) { labels with ifs := labels.ifs + 1 }
        consequent
    let (both, after) :=
      lowerStatements ctx (first ++ .ofList [.goto stop, .label other]) between alternate
    (both ++ .ofList [.label stop], after)
  | .whileLoop condition body _ =>
    let again := s!"WHILE_{labels.loops}"
    let stop := s!"WHILE_END_{labels.loops}"
    let (inside, after) :=
      lowerStatements ctx (.ofList [.label again] ++ lowerUnless ctx condition stop)
        { labels with loops := labels.loops + 1 } body
    (inside ++ .ofList [.goto again, .label stop], after)
  | .doCall call _ => (lowerCall ctx call ++ .ofList [.pop .temp 0], labels)
  | .return (some value) _ => (lowerExpression ctx value ++ .ofList [.return], labels)
  | .return none _ => (.ofList [.push .constant 0, .return], labels)

/-- Statements one after the other, behind what is emitted already. -/
def lowerStatements (ctx : Context) (front : Emission) (labels : Labels) :
    List Statement → Emission × Labels
  | [] => (front, labels)
  | s :: rest =>
    let (emission, after) := lowerStatement ctx labels s
    lowerStatements ctx (front ++ emission) after rest

end

/-- What a subroutine does before its statements. -/
def prologue (kind : SubroutineKind) (fields : Nat) (span : Span) : Emission :=
  match kind with
  | .constructor =>
    withCount .fields fields span fun count =>
      .ofList [.push .constant count, .call "Memory.alloc" 1, .pop .pointer 0]
  | .method => .ofList [.push .argument 0, .pop .pointer 0]
  | .function => {}

def lowerSubroutine (tree : ClassTree) (classTable : Table) (labels : Labels) (s : Subroutine) :
    Emission × Labels :=
  let ctx : Context :=
    { className := tree.name
      subroutine := s!"{tree.name}.{s.name}"
      classTable
      subroutineTable := .ofSubroutine tree.name s }
  let head := withCount .locals s.localCount s.span fun count =>
    .ofList [.function ctx.subroutine count]
  lowerStatements ctx (head ++ prologue s.kind tree.fieldCount s.span) labels s.body

/-- The commands of a class, or why there are none, with what is reported on the way. -/
structure Outcome where
  result : Except LoweringError (List Command)
  events : Array Event

/-- Subroutines one after the other. `code` and `events` hold what came before. -/
def lowerSubroutines (tree : ClassTree) (classTable : Table) (labels : Labels)
    (code : Array Command) (events : Array Event) : List Subroutine → Outcome
  | [] => ⟨.ok code.toList, events⟩
  | s :: rest =>
    let ds := subroutineDeclarations tree.name s
    let events := events ++ Table.warnings ds
    let (emission, after) := lowerSubroutine tree classTable labels s
    match emission.settle (Limits.maxCommandsPerClass - code.size) tree.name with
    | .error e => ⟨.error e, events.push (e.event tree.name)⟩
    | .ok commands =>
      let code := code ++ commands
      let done := Event.debug "Subroutine compiled"
        [("subroutine", s!"{tree.name}.{s.name}"),
          ("symbols", toString (Table.ofDeclarations ds).size),
          ("commands_so_far", toString code.size)]
      lowerSubroutines tree classTable after code (events.push done) rest

def classCounts (classTable : Table) (tree : ClassTree) : List (String × String) :=
  [("class", tree.name), ("fields", toString classTable.counts.field),
    ("statics", toString classTable.counts.static)]

/-- The reports on the scope of a class while it is filled. -/
def classEvents (tree : ClassTree) : List Event :=
  Table.warnings (classDeclarations tree) ++
    [.debug "Class symbols collected" (classCounts (.ofClass tree) tree)]

/-- The commands of a class. -/
def lowerClass (tree : ClassTree) : Outcome :=
  let classTable := Table.ofClass tree
  let started := classEvents tree ++
    [.success .scopeBuilt "Class scope built" (classCounts classTable tree)]
  let outcome := lowerSubroutines tree classTable {} #[] started.toArray tree.subroutines
  match outcome.result with
  | .error _ => outcome
  | .ok commands =>
    { outcome with
      events := outcome.events.push <| .success .codeGenerated "VM code generated"
        [("class", tree.name), ("functions", toString (commands.countP Command.isFunction)),
          ("commands", toString commands.length)] }

end JackToolchain.Lowering
