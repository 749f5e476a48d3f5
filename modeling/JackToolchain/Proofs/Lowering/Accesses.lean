import JackToolchain.Proofs.Evaluation.Variables
import JackToolchain.Proofs.Lowering.Shape

/-!
# Accesses of a subroutine

The commands of a subroutine keep to what its class and itself declare: they use no slot of a
segment that no declaration takes, leave the object at hand to the prologue, and start no other
function.
-/

namespace JackToolchain.Lowering

open JackToolchain.Stack JackToolchain.Syntax JackToolchain.Scope

variable {tree : ClassTree} {s : Subroutine}

/-- The slots that a subroutine of a class has. -/
def Declared (tree : ClassTree) (s : Subroutine) : Segment → UInt16 → Prop
  | .locals, index => index.toNat < s.localCount
  | .argument, index => index.toNat < s.parameters.length + if s.kind = .method then 1 else 0
  | .this, index => index.toNat < tree.fieldCount
  | .static, index => index.toNat < tree.staticCount
  | .temp, index | .that, index => index = 0
  | .pointer, _ | .constant, _ => True

/-- The slot that a command reads or writes. -/
def accessOf? : Command → Option (Segment × UInt16)
  | .push segment index | .pop segment index => some (segment, index)
  | _ => none

/-- Commands of the statements of a subroutine. -/
structure Keeps (tree : ClassTree) (s : Subroutine) (c : Command) : Prop where
  access : ∀ segment index, accessOf? c = some (segment, index) → Declared tree s segment index
  receiver : c ≠ .pop .pointer 0
  inside : c.isFunction = false

/-- A command that neither pushes nor pops. -/
theorem Keeps.plain {c : Command} (haccess : accessOf? c = none)
    (hinside : c.isFunction = false) : Keeps tree s c where
  access segment index h := by
    rw [haccess] at h
    cases h
  receiver := by
    rintro rfl
    cases haccess
  inside := hinside

theorem Keeps.push {segment : Segment} {index : UInt16} (h : Declared tree s segment index) :
    Keeps tree s (.push segment index) where
  access _ _ heq := by
    cases heq
    exact h
  receiver := by simp
  inside := rfl

theorem Keeps.pop {segment : Segment} {index : UInt16} (h : Declared tree s segment index)
    (hreceiver : segment = .pointer → index ≠ 0) : Keeps tree s (.pop segment index) where
  access _ _ heq := by
    cases heq
    exact h
  receiver heq := by
    cases heq
    exact hreceiver rfl rfl
  inside := rfl

/-! ## Declarations -/

theorem storage_of_mem_classDeclarations {d : Declaration} (h : d ∈ classDeclarations tree) :
    d.storage = .static ∨ d.storage = .field := by
  obtain ⟨vars, -, h⟩ := List.mem_flatMap.mp h
  obtain ⟨name, -, rfl⟩ := List.mem_map.mp h
  cases vars.kind with
  | static => exact .inl rfl
  | field => exact .inr rfl

theorem storage_of_mem_subroutineDeclarations {className : String} {d : Declaration}
    (h : d ∈ subroutineDeclarations className s) : d.storage = .parameter ∨ d.storage = .locals :=
  (List.mem_append.mp h).imp Evaluation.storage_of_mem_parametersOf
    Evaluation.storage_of_mem_localsOf

theorem length_declared_class (tree : ClassTree) (kind : ClassVarKind) :
    (Table.declared (classDeclarations tree) (Evaluation.storageOf kind)).length =
      tree.countOf kind := by
  simp [Evaluation.declared_class, Evaluation.membersOf, ClassTree.countOf, List.length_flatMap]

/-- The slot of a variable is declared, by the subroutine or by its class. -/
theorem declared_of_resolve? {name : String} {e : Entry}
    (h : (contextOf tree s).resolve? name = some e) : Declared tree s e.segment e.index := by
  change ((Table.ofSubroutine tree.name s).lookup? name).or ((Table.ofClass tree).lookup? name) =
    some e at h
  unfold Entry.segment
  rcases Option.or_eq_some_iff.mp h with h | ⟨-, h⟩
  · have hlt := Table.index_lt_of_lookup? h
    rcases storage_of_mem_subroutineDeclarations (Table.mem_of_lookup? h) with hstorage | hstorage
    · rw [hstorage, Evaluation.declared_parameter, Evaluation.length_parametersOf] at hlt
      rw [hstorage]
      exact hlt
    · rw [hstorage, Evaluation.declared_locals, Evaluation.length_localsOf] at hlt
      rw [hstorage]
      exact hlt
  · have hlt := Table.index_lt_of_lookup? h
    rcases storage_of_mem_classDeclarations (Table.mem_of_lookup? h) with hstorage | hstorage
    · rw [hstorage] at hlt ⊢
      rwa [show Storage.static = Evaluation.storageOf .static from rfl,
        length_declared_class] at hlt
    · rw [hstorage] at hlt ⊢
      rwa [show Storage.field = Evaluation.storageOf .field from rfl, length_declared_class] at hlt

theorem keeps_pushEntry {name : String} {e : Entry}
    (h : (contextOf tree s).resolve? name = some e) : Keeps tree s (pushEntry e) :=
  .push (declared_of_resolve? h)

theorem keeps_popEntry {name : String} {e : Entry}
    (h : (contextOf tree s).resolve? name = some e) : Keeps tree s (popEntry e) := by
  refine .pop (declared_of_resolve? h) fun hpointer => ?_
  unfold Entry.segment at hpointer
  cases hstorage : e.storage
  all_goals simp [hstorage, Storage.segment] at hpointer

/-! ## Expressions -/

theorem keeps_receiver (receiver : Option String) (name : String) :
    ∀ c ∈ (callTarget (contextOf tree s) receiver name).2.toList, Keeps tree s c := by
  unfold callTarget
  split
  · exact List.forall_mem_singleton.mpr (.push trivial)
  · split
    · rename_i entry hentry
      exact List.forall_mem_singleton.mpr (keeps_pushEntry hentry)
    · simp

theorem keeps_stringCommands (length : UInt16) (value : List Char) :
    ∀ c ∈ stringCommands length value, Keeps tree s c := by
  simp only [stringCommands, List.forall_mem_append, List.forall_mem_cons, List.forall_mem_flatMap]
  refine ⟨⟨.push trivial, .plain rfl rfl, by simp⟩, fun c _ => ?_⟩
  exact ⟨.push trivial, .plain rfl rfl, by simp⟩

theorem keeps_binaryCommands (op : BinaryOp) : ∀ c ∈ binaryCommands op, Keeps tree s c := by
  intro c hc
  refine .plain ?_ ?_
  all_goals
    cases op
    all_goals
      simp only [binaryCommands, List.mem_cons, List.not_mem_nil, or_false] at hc
      rcases hc with rfl | rfl <;> rfl

mutual

theorem keeps_expression (e : Expression) {code : List Command}
    (h : (lowerExpression (contextOf tree s) e).Yields code) : ∀ c ∈ code, Keeps tree s c := by
  match e with
  | .integer value span =>
      rw [Yields.integer_iff.mp h]
      exact List.forall_mem_singleton.mpr (.push trivial)
  | .string value span =>
      obtain ⟨-, -, rfl⟩ := Yields.string_iff.mp h
      exact keeps_stringCommands _ _
  | .boolean true span =>
      rw [Yields.true_iff.mp h]
      exact List.forall_mem_cons.mpr ⟨.push trivial, List.forall_mem_singleton.mpr
        (.plain rfl rfl)⟩
  | .boolean false span =>
      rw [Yields.false_iff.mp h]
      exact List.forall_mem_singleton.mpr (.push trivial)
  | .null span =>
      rw [Yields.null_iff.mp h]
      exact List.forall_mem_singleton.mpr (.push trivial)
  | .this span =>
      rw [Yields.this_iff.mp h]
      exact List.forall_mem_singleton.mpr (.push trivial)
  | .var name span =>
      obtain ⟨entry, hentry, rfl⟩ := Yields.var_iff.mp h
      exact List.forall_mem_singleton.mpr (keeps_pushEntry hentry)
  | .element array index span =>
      obtain ⟨entry, c, hentry, hc, rfl⟩ := Yields.element_iff.mp h
      have hindex := keeps_expression index hc
      simp only [List.forall_mem_append, List.forall_mem_cons]
      exact ⟨⟨⟨keeps_pushEntry hentry, by simp⟩, hindex⟩, .plain rfl rfl,
        .pop trivial (by simp), .push rfl, by simp⟩
  | .unary op operand span =>
      obtain ⟨c, hc, rfl⟩ := Yields.unary_iff.mp h
      have hoperand := keeps_expression operand hc
      rw [List.forall_mem_append, List.forall_mem_singleton]
      exact ⟨hoperand, by cases op <;> exact .plain rfl rfl⟩
  | .binary op left right span =>
      obtain ⟨c, d, hc, hd, rfl⟩ := Yields.binary_iff.mp h
      have hleft := keeps_expression left hc
      have hright := keeps_expression right hd
      rw [List.forall_mem_append, List.forall_mem_append]
      exact ⟨⟨hleft, hright⟩, keeps_binaryCommands op⟩
  | .call receiver name es span =>
      obtain ⟨cs, hcs, -, rfl⟩ := Yields.call_iff.mp h
      have heach := keeps_each es hcs
      rw [List.forall_mem_append, List.forall_mem_append, List.forall_mem_singleton]
      exact ⟨⟨keeps_receiver receiver name, heach⟩, .plain rfl rfl⟩

theorem keeps_each (es : List Expression) {cs : List (List Command)}
    (h : YieldEach (contextOf tree s) es cs) : ∀ c ∈ cs.flatten, Keeps tree s c := by
  match es, cs, h with
  | [], [], _ => simp
  | e :: rest, c :: cs, .cons hc hcs =>
      rw [List.flatten_cons, List.forall_mem_append]
      exact ⟨keeps_expression e hc, keeps_each rest hcs⟩

end

/-! ## Statements -/

mutual

theorem keeps_statement (labels : Labels) (statement : Statement) {code : List Command}
    (h : (lowerStatement (contextOf tree s) labels statement).1.Yields code) :
    ∀ c ∈ code, Keeps tree s c := by
  match statement with
  | .letVariable target value span =>
      obtain ⟨entry, c, hentry, hc, rfl⟩ := Yields.letVariable_iff.mp h
      rw [List.forall_mem_append, List.forall_mem_singleton]
      exact ⟨keeps_expression value hc, keeps_popEntry hentry⟩
  | .letElement target index value span =>
      obtain ⟨entry, c, d, hentry, hc, hd, rfl⟩ := Yields.letElement_iff.mp h
      have hindex := keeps_expression index hc
      have hvalue := keeps_expression value hd
      simp only [List.forall_mem_append, List.forall_mem_cons]
      exact ⟨⟨⟨⟨⟨keeps_pushEntry hentry, by simp⟩, hindex⟩, .plain rfl rfl, by simp⟩, hvalue⟩,
        .pop rfl (by simp), .pop trivial (by simp), .push rfl, .pop rfl (by simp), by simp⟩
  | .ifThen condition consequent span =>
      obtain ⟨c, d, hc, hd, rfl⟩ := Yields.ifThen_iff.mp h
      have htest := keeps_expression condition hc
      have hbody := keeps_statements _ consequent hd
      simp only [List.forall_mem_append, List.forall_mem_cons]
      exact ⟨⟨⟨htest, .plain rfl rfl, .plain rfl rfl, by simp⟩, hbody⟩, .plain rfl rfl,
        by simp⟩
  | .ifElse condition consequent alternate span =>
      obtain ⟨c, d, e, hc, hd, he, rfl⟩ := Yields.ifElse_iff.mp h
      have htest := keeps_expression condition hc
      have hfirst := keeps_statements _ consequent hd
      have hsecond := keeps_statements _ alternate he
      simp only [List.forall_mem_append, List.forall_mem_cons]
      exact ⟨⟨⟨⟨⟨htest, .plain rfl rfl, .plain rfl rfl, by simp⟩, hfirst⟩, .plain rfl rfl,
        .plain rfl rfl, by simp⟩, hsecond⟩, .plain rfl rfl, by simp⟩
  | .whileLoop condition body span =>
      obtain ⟨c, d, hc, hd, rfl⟩ := Yields.whileLoop_iff.mp h
      have htest := keeps_expression condition hc
      have hbody := keeps_statements _ body hd
      simp only [List.forall_mem_append, List.forall_mem_cons]
      exact ⟨⟨⟨⟨.plain rfl rfl, by simp⟩, htest, .plain rfl rfl, .plain rfl rfl, by simp⟩,
        hbody⟩, .plain rfl rfl, .plain rfl rfl, by simp⟩
  | .doCall call span =>
      obtain ⟨c, hc, rfl⟩ := Yields.doCall_iff.mp h
      rw [List.forall_mem_append, List.forall_mem_singleton]
      exact ⟨keeps_expression call.toExpression hc, .pop rfl (by simp)⟩
  | .return (some value) span =>
      obtain ⟨c, hc, rfl⟩ := Yields.return_some_iff.mp h
      rw [List.forall_mem_append, List.forall_mem_singleton]
      exact ⟨keeps_expression value hc, .plain rfl rfl⟩
  | .return none span =>
      rw [Yields.return_none_iff.mp h, List.forall_mem_cons, List.forall_mem_singleton]
      exact ⟨.push trivial, .plain rfl rfl⟩

theorem keeps_statements (labels : Labels) (statements : List Statement) {code : List Command}
    (h : (lowerStatements (contextOf tree s) {} labels statements).1.Yields code) :
    ∀ c ∈ code, Keeps tree s c := by
  match statements with
  | [] => simp [Yields.statements_nil_iff.mp h]
  | statement :: rest =>
      obtain ⟨c, d, hc, hd, rfl⟩ := Yields.statements_cons_iff.mp h
      rw [List.forall_mem_append]
      exact ⟨keeps_statement labels statement hc, keeps_statements _ rest hd⟩

end

/-! ## Blocks -/

/-- What the block of a subroutine is made of: the only declaration of a function, with its full
name and as many locals as it declares, the prologue of its kind, and its statements. -/
structure IsBlockOf (tree : ClassTree) (s : Subroutine) (block : List Command) (count : UInt16)
    (body : List Command) : Prop where
  parts : block = .function (fullName tree.name s.name) count :: (openingOf tree s ++ body)
  locals : count.toNat = s.localCount
  single : ∀ c ∈ openingOf tree s ++ body, c.isFunction = false
  access : ∀ c ∈ block, ∀ segment index, accessOf? c = some (segment, index) →
    Declared tree s segment index
  receiver : .pop .pointer 0 ∉ body

/-- A prologue takes the object, and else does what statements may do. -/
theorem access_openingOf {c : Command} (hc : c ∈ openingOf tree s) :
    c.isFunction = false ∧ ∀ segment index, accessOf? c = some (segment, index) →
      Declared tree s segment index := by
  unfold openingOf at hc
  cases hkind : s.kind with
  | constructor =>
      simp only [hkind, List.mem_cons, List.not_mem_nil, or_false] at hc
      rcases hc with rfl | rfl | rfl
      all_goals simp [accessOf?, Command.isFunction, Declared]
  | method =>
      simp only [hkind, List.mem_cons, List.not_mem_nil, or_false] at hc
      rcases hc with rfl | rfl
      all_goals simp [accessOf?, Command.isFunction, Declared, hkind]
  | function => simp [hkind] at hc

theorem YieldsBlock.isBlockOf {labels : Labels} {body : List Command}
    (h : YieldsBlock tree labels s (openingOf tree s) body) :
    IsBlockOf tree s (blockOf tree s (openingOf tree s) body) s.localCount.toUInt16 body := by
  have hbody := keeps_statements labels s.body h.body
  have hcount := h.count
  refine ⟨rfl, ?_, ?_, ?_, fun hmem => (hbody _ hmem).receiver rfl⟩
  · simp only [Nat.toUInt16_eq, UInt16.toNat_ofNat']
    omega
  · exact List.forall_mem_append.mpr ⟨fun c hc => (access_openingOf hc).1,
      fun c hc => (hbody c hc).inside⟩
  · refine List.forall_mem_cons.mpr ⟨?_, List.forall_mem_append.mpr ⟨?_, ?_⟩⟩
    · intro segment index haccess
      cases haccess
    · exact fun c hc => (access_openingOf hc).2
    · exact fun c hc => (hbody c hc).access

/-- A class is lowered to the blocks of its subroutines in their order, and each of them uses the
slots that are declared. -/
theorem isBlockOf_of_lowerClass {tree : ClassTree} {commands : List Command}
    (h : (lowerClass tree).result = .ok commands) :
    ∃ blocks, commands = blocks.flatten ∧
      List.Forall₂ (fun s block => ∃ count body, IsBlockOf tree s block count body)
        tree.subroutines blocks := by
  obtain ⟨blocks, hblocks, hcommands⟩ := yields_of_lowerClass h
  refine ⟨blocks, hcommands, hblocks.forall₂.imp ?_⟩
  rintro s _ ⟨labels, body, hyields, rfl⟩
  exact ⟨_, _, hyields.isBlockOf⟩

/-- A class with slots of every kind, and a local that is declared twice and hides a field. -/
def account : ClassTree :=
  let at0 : Source.Span := default
  { name := "Account"
    classVars := [⟨.static, .int, ["opened"], at0⟩, ⟨.field, .int, ["owner", "balance"], at0⟩]
    subroutines := [
      { kind := .constructor, returnType := some (.named "Account"), name := "new"
        parameters := [⟨.int, "start", at0⟩], locals := [⟨.int, ["owner", "owner"], at0⟩]
        body := [
          .letVariable "owner" (.var "opened" at0) at0,
          .letVariable "balance" (.var "start" at0) at0,
          .return (some (.this at0)) at0]
        span := at0 },
      { kind := .method, returnType := none, name := "add"
        parameters := [⟨.int, "amount", at0⟩], locals := []
        body := [
          .letVariable "balance" (.binary .add (.var "balance" at0) (.var "amount" at0) at0) at0,
          .return none at0]
        span := at0 }]
    span := at0 }

theorem isBlockOf_of_account :
    ∃ commands, (lowerClass account).result = .ok commands ∧
      ∃ blocks, commands = blocks.flatten ∧
        List.Forall₂ (fun s block => ∃ count body, IsBlockOf account s block count body)
          account.subroutines blocks := by
  have hlowered : ∃ commands, (lowerClass account).result = .ok commands := by
    simp [account, lowerClass, lowerSubroutines, lowerSubroutine, prologue, withCount,
      Subroutine.localCount, lowerStatements, lowerStatement, lowerExpression, withEntry,
      Context.resolve?, resolve?, Table.ofClass, Table.ofSubroutine, Table.ofDeclarations,
      classDeclarations, subroutineDeclarations, Table.define, Table.lookup?, pushEntry, popEntry,
      binaryCommands, Emission.ofList, Emission.settle, Limits.maxCommandsPerClass,
      ClassTree.fieldCount, ClassTree.countOf]
  obtain ⟨commands, hcommands⟩ := hlowered
  exact ⟨commands, hcommands, isBlockOf_of_lowerClass hcommands⟩

end JackToolchain.Lowering
