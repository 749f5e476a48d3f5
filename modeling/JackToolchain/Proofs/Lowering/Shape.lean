import JackToolchain.Proofs.Lowering.Labels
import JackToolchain.Proofs.Scope.Slots
import JackToolchain.Proofs.Stack.Names
import JackToolchain.Proofs.Syntax.Proper

/-!
# Commands of a subroutine

The commands that the statements of a proper class are lowered to: pushes and pops that mean
something, marks and jumps to marks, and calls of functions with a class and a name of their own.
-/

namespace JackToolchain.Lowering

open JackToolchain.Source JackToolchain.Stack JackToolchain.Syntax JackToolchain.Scope
open JackToolchain.Token JackToolchain.Text

/-- The full name of a function. -/
def fullName (className name : String) : String := s!"{className}.{name}"

theorem toList_fullName (c f : String) :
    (fullName c f).toList = c.toList ++ '.' :: f.toList := by
  simp [fullName]
  rfl

/-- Commands that statements are lowered to. -/
def Lowered : Command → Prop
  | .push segment index => segment.violation? index false = none
  | .pop segment index => segment.violation? index true = none
  | .label name | .goto name | .ifGoto name => ∃ m : Mark, name = m.text
  | .function .. => False
  | .call name _ => ∃ c f, IsWord c ∧ IsWord f ∧ name = fullName c f
  | .arithmetic _ | .return => True

/-- Words where an expression stands. -/
structure Context.Proper (ctx : Context) : Prop where
  className : IsWord ctx.className
  types : ∀ name entry, ctx.resolve? name = some entry → entry.type.Proper

theorem isWord_text {type : TypeName} (h : type.Proper) : IsWord type.text := by
  cases type with
  | named className => exact h
  | int | char | boolean => decide

theorem lowered_pushEntry (entry : Entry) : Lowered (pushEntry entry) := by
  change entry.storage.segment.violation? entry.index false = none
  cases entry.storage <;> rfl

theorem lowered_popEntry (entry : Entry) : Lowered (popEntry entry) := by
  change entry.storage.segment.violation? entry.index true = none
  cases entry.storage <;> rfl

theorem violation?_constant {n : Nat} (h : n ≤ 32767) :
    Segment.constant.violation? n.toUInt16 false = none := by
  have hindex : n.toUInt16.toNat = n := by
    rw [Nat.toUInt16_eq, UInt16.toNat_ofNat']
    omega
  simp [Segment.violation?, Segment.limit?, hindex, h]

theorem lowered_binaryCommands (op : BinaryOp) : ∀ c ∈ binaryCommands op, Lowered c := by
  have hcall (f : String) (hf : IsWord f) : Lowered (.call (fullName "Math" f) 2) :=
    ⟨"Math", f, by decide, hf, rfl⟩
  cases op with
  | multiply => exact List.forall_mem_singleton.mpr (hcall "multiply" (by decide))
  | divide => exact List.forall_mem_singleton.mpr (hcall "divide" (by decide))
  | _ => simp [binaryCommands, Lowered]

/-- A string of a token fits into the constants. -/
theorem lowered_stringCommands {value : String} (hsize : value.utf8ByteSize ≤ Limits.maxStringSize)
    (hrange : ∀ c ∈ value.toList, c.toNat ≤ 0x7FFF) :
    ∀ c ∈ stringCommands value.toList.length.toUInt16 value.toList, Lowered c := by
  have hlength : value.toList.length ≤ 32767 :=
    (length_le_utf8ByteSize value).trans (hsize.trans (by decide))
  have hcall (f : String) (hf : IsWord f) (count : UInt16) :
      Lowered (.call (fullName "String" f) count) := ⟨"String", f, by decide, hf, rfl⟩
  simp only [stringCommands, List.forall_mem_append, List.forall_mem_cons, List.forall_mem_flatMap]
  refine ⟨⟨violation?_constant hlength, hcall "new" (by decide) 1, by simp⟩, fun c hc => ?_⟩
  exact ⟨violation?_constant (hrange c hc), hcall "appendChar" (by decide) 2, by simp⟩

variable {ctx : Context}

theorem lowered_receiver (ctx : Context) (receiver : Option String) (name : String) :
    ∀ c ∈ (callTarget ctx receiver name).2.toList, Lowered c := by
  unfold callTarget
  split
  · exact List.forall_mem_singleton.mpr rfl
  · split
    · exact List.forall_mem_singleton.mpr (lowered_pushEntry _)
    · simp

theorem lowered_call (hctx : ctx.Proper) {receiver : Option String} {name : String}
    (hreceiver : ∀ r, receiver = some r → IsWord r) (hname : IsWord name) (count : UInt16) :
    Lowered (.call (callTarget ctx receiver name).1 count) := by
  unfold callTarget
  split
  · exact ⟨ctx.className, name, hctx.className, hname, rfl⟩
  · rename_i r
    split
    · rename_i entry hentry
      exact ⟨entry.type.text, name, isWord_text (hctx.types r entry hentry), hname, rfl⟩
    · exact ⟨r, name, hreceiver r rfl, hname, rfl⟩

mutual

theorem lowered_expression (hctx : ctx.Proper) (e : Expression) (he : e.Proper)
    {code : List Command} (h : (lowerExpression ctx e).Yields code) : ∀ c ∈ code, Lowered c := by
  match e with
  | .integer value span =>
      rw [Yields.integer_iff.mp h]
      exact List.forall_mem_singleton.mpr (violation?_constant he)
  | .string value span =>
      obtain ⟨hrange, -, rfl⟩ := Yields.string_iff.mp h
      exact lowered_stringCommands he hrange
  | .boolean true span =>
      rw [Yields.true_iff.mp h]
      simp [Lowered, Segment.violation?, Segment.limit?]
  | .boolean false span =>
      rw [Yields.false_iff.mp h]
      exact List.forall_mem_singleton.mpr rfl
  | .null span =>
      rw [Yields.null_iff.mp h]
      exact List.forall_mem_singleton.mpr rfl
  | .this span =>
      rw [Yields.this_iff.mp h]
      exact List.forall_mem_singleton.mpr rfl
  | .var name span =>
      obtain ⟨entry, -, rfl⟩ := Yields.var_iff.mp h
      exact List.forall_mem_singleton.mpr (lowered_pushEntry entry)
  | .element array index span =>
      obtain ⟨entry, c, -, hc, rfl⟩ := Yields.element_iff.mp h
      have hindex := lowered_expression hctx index he.2 hc
      simp only [List.forall_mem_append, List.forall_mem_cons]
      exact ⟨⟨⟨lowered_pushEntry entry, by simp⟩, hindex⟩, trivial, rfl, rfl, by simp⟩
  | .unary op operand span =>
      obtain ⟨c, hc, rfl⟩ := Yields.unary_iff.mp h
      have hoperand := lowered_expression hctx operand he hc
      rw [List.forall_mem_append]
      exact ⟨hoperand, by cases op <;> exact List.forall_mem_singleton.mpr trivial⟩
  | .binary op left right span =>
      obtain ⟨c, d, hc, hd, rfl⟩ := Yields.binary_iff.mp h
      have hleft := lowered_expression hctx left he.1 hc
      have hright := lowered_expression hctx right he.2 hd
      rw [List.forall_mem_append, List.forall_mem_append]
      exact ⟨⟨hleft, hright⟩, lowered_binaryCommands op⟩
  | .call receiver name es span =>
      obtain ⟨cs, hcs, -, rfl⟩ := Yields.call_iff.mp h
      have heach := lowered_each hctx es he.2.2 hcs
      rw [List.forall_mem_append, List.forall_mem_append]
      exact ⟨⟨lowered_receiver ctx receiver name, heach⟩,
        List.forall_mem_singleton.mpr (lowered_call hctx he.1 he.2.1 _)⟩

theorem lowered_each (hctx : ctx.Proper) (es : List Expression) (hes : Expression.AllProper es)
    {cs : List (List Command)} (h : YieldEach ctx es cs) : ∀ c ∈ cs.flatten, Lowered c := by
  match es, cs, h with
  | [], [], _ => simp
  | e :: rest, c :: cs, .cons hc hcs =>
      rw [List.flatten_cons, List.forall_mem_append]
      exact ⟨lowered_expression hctx e hes.1 hc, lowered_each hctx rest hes.2 hcs⟩

end

mutual

theorem lowered_statement (hctx : ctx.Proper) (labels : Labels) (s : Statement) (hs : s.Proper)
    {code : List Command} (h : (lowerStatement ctx labels s).1.Yields code) :
    ∀ c ∈ code, Lowered c := by
  match s with
  | .letVariable target value span =>
      obtain ⟨entry, c, -, hc, rfl⟩ := Yields.letVariable_iff.mp h
      rw [List.forall_mem_append]
      exact ⟨lowered_expression hctx value hs.2 hc,
        List.forall_mem_singleton.mpr (lowered_popEntry entry)⟩
  | .letElement target index value span =>
      obtain ⟨entry, c, d, -, hc, hd, rfl⟩ := Yields.letElement_iff.mp h
      have hindex := lowered_expression hctx index hs.2.1 hc
      have hvalue := lowered_expression hctx value hs.2.2 hd
      simp only [List.forall_mem_append, List.forall_mem_cons]
      exact ⟨⟨⟨⟨⟨lowered_pushEntry entry, by simp⟩, hindex⟩, trivial, by simp⟩, hvalue⟩,
        rfl, rfl, rfl, rfl, by simp⟩
  | .ifThen condition consequent span =>
      obtain ⟨c, d, hc, hd, rfl⟩ := Yields.ifThen_iff.mp h
      have htest := lowered_expression hctx condition hs.1 hc
      have hbody := lowered_statements hctx _ consequent hs.2 hd
      let m : Mark := ⟨.stop, labels.ifs⟩
      simp only [List.forall_mem_append, List.forall_mem_cons]
      exact ⟨⟨⟨htest, trivial, ⟨m, rfl⟩, by simp⟩, hbody⟩, ⟨m, rfl⟩, by simp⟩
  | .ifElse condition consequent alternate span =>
      obtain ⟨c, d, e, hc, hd, he, rfl⟩ := Yields.ifElse_iff.mp h
      have htest := lowered_expression hctx condition hs.1 hc
      have hfirst := lowered_statements hctx _ consequent hs.2.1 hd
      have hsecond := lowered_statements hctx _ alternate hs.2.2 he
      let m : Mark := ⟨.stop, labels.ifs⟩
      let m' : Mark := ⟨.other, labels.ifs⟩
      simp only [List.forall_mem_append, List.forall_mem_cons]
      exact ⟨⟨⟨⟨⟨htest, trivial, ⟨m', rfl⟩, by simp⟩, hfirst⟩, ⟨m, rfl⟩, ⟨m', rfl⟩, by simp⟩,
        hsecond⟩, ⟨m, rfl⟩, by simp⟩
  | .whileLoop condition body span =>
      obtain ⟨c, d, hc, hd, rfl⟩ := Yields.whileLoop_iff.mp h
      have htest := lowered_expression hctx condition hs.1 hc
      have hbody := lowered_statements hctx _ body hs.2 hd
      let m : Mark := ⟨.again, labels.loops⟩
      let m' : Mark := ⟨.done, labels.loops⟩
      simp only [List.forall_mem_append, List.forall_mem_cons]
      exact ⟨⟨⟨⟨⟨m, rfl⟩, by simp⟩, htest, trivial, ⟨m', rfl⟩, by simp⟩, hbody⟩, ⟨m, rfl⟩, ⟨m', rfl⟩,
        by simp⟩
  | .doCall call span =>
      obtain ⟨c, hc, rfl⟩ := Yields.doCall_iff.mp h
      rw [List.forall_mem_append]
      exact ⟨lowered_expression hctx call.toExpression hs hc, List.forall_mem_singleton.mpr rfl⟩
  | .return (some value) span =>
      obtain ⟨c, hc, rfl⟩ := Yields.return_some_iff.mp h
      rw [List.forall_mem_append]
      exact ⟨lowered_expression hctx value (hs value rfl) hc, List.forall_mem_singleton.mpr trivial⟩
  | .return none span =>
      rw [Yields.return_none_iff.mp h]
      simp [Lowered, Segment.violation?, Segment.limit?]

theorem lowered_statements (hctx : ctx.Proper) (labels : Labels) (ss : List Statement)
    (hss : Statement.AllProper ss) {code : List Command}
    (h : (lowerStatements ctx {} labels ss).1.Yields code) : ∀ c ∈ code, Lowered c := by
  match ss with
  | [] => simp [Yields.statements_nil_iff.mp h]
  | s :: rest =>
      obtain ⟨c, d, hc, hd, rfl⟩ := Yields.statements_cons_iff.mp h
      rw [List.forall_mem_append]
      exact ⟨lowered_statement hctx labels s hss.1 hc, lowered_statements hctx _ rest hss.2 hd⟩

end

/-! ## Blocks of proper classes -/

theorem proper_of_mem_classDeclarations {tree : ClassTree} (h : tree.Proper) :
    ∀ d ∈ classDeclarations tree, d.type.Proper := by
  intro d hd
  obtain ⟨vars, hvars, hd⟩ := List.mem_flatMap.mp hd
  obtain ⟨name, -, rfl⟩ := List.mem_map.mp hd
  exact h.classVars vars hvars

theorem proper_of_mem_subroutineDeclarations {className : String} {s : Subroutine}
    (hname : IsWord className) (h : s.Proper) :
    ∀ d ∈ subroutineDeclarations className s, d.type.Proper := by
  intro d hd
  simp only [subroutineDeclarations, List.mem_append, List.mem_map, List.mem_flatMap] at hd
  rcases hd with (hd | ⟨p, hp, rfl⟩) | ⟨vars, hvars, name, -, rfl⟩
  · split at hd
    · rw [List.mem_singleton.mp hd]
      exact hname
    · cases hd
  · exact h.parameters p hp
  · exact h.locals vars hvars

theorem proper_contextOf {tree : ClassTree} {s : Subroutine} (htree : tree.Proper)
    (hs : s.Proper) : (contextOf tree s).Proper where
  className := htree.name
  types name entry h := by
    change ((Table.ofSubroutine tree.name s).lookup? name).or ((Table.ofClass tree).lookup? name) =
      some entry at h
    rcases Option.or_eq_some_iff.mp h with h | ⟨-, h⟩
    · exact proper_of_mem_subroutineDeclarations htree.name hs _ (Table.mem_of_lookup? h)
    · exact proper_of_mem_classDeclarations htree _ (Table.mem_of_lookup? h)

/-- What a subroutine does before its statements. -/
def openingOf (tree : ClassTree) (s : Subroutine) : List Command :=
  match s.kind with
  | .constructor =>
    [.push .constant tree.fieldCount.toUInt16, .call "Memory.alloc" 1, .pop .pointer 0]
  | .method => [.push .argument 0, .pop .pointer 0]
  | .function => []

theorem YieldsBlock.opening_eq {tree : ClassTree} {labels : Labels} {s : Subroutine}
    {opening body : List Command} (h : YieldsBlock tree labels s opening body) :
    opening = openingOf tree s ∧ (s.kind = .constructor → tree.fieldCount ≤ 65535) := by
  have hopening := h.opening
  cases hkind : s.kind with
  | constructor =>
      rw [hkind] at hopening
      obtain ⟨hcount, hopening⟩ := Yields.withCount_iff.mp hopening
      exact ⟨by rw [Yields.ofList_iff.mp hopening, openingOf, hkind], fun _ => hcount⟩
  | method =>
      rw [hkind] at hopening
      exact ⟨by rw [Yields.ofList_iff.mp hopening, openingOf, hkind], by simp⟩
  | function =>
      rw [hkind] at hopening
      exact ⟨by rw [Yields.empty_iff.mp hopening, openingOf, hkind], by simp⟩

theorem YieldsBlock.lowered {tree : ClassTree} {labels : Labels} {s : Subroutine}
    {opening body : List Command} (h : YieldsBlock tree labels s opening body)
    (htree : tree.Proper) (hs : s.Proper) : ∀ c ∈ body, Lowered c :=
  lowered_statements (proper_contextOf htree hs) labels s.body hs.body h.body

/-- Every subroutine has its block. -/
theorem YieldsBlocks.forall₂ {tree : ClassTree} {labels : Labels} {ss : List Subroutine}
    {blocks : List (List Command)} (h : YieldsBlocks tree labels ss blocks) :
    List.Forall₂ (fun s block => ∃ labels body,
      YieldsBlock tree labels s (openingOf tree s) body ∧
        block = blockOf tree s (openingOf tree s) body) ss blocks := by
  induction h with
  | nil labels => exact .nil
  | cons first others ih =>
      obtain ⟨rfl, -⟩ := first.opening_eq
      exact .cons ⟨_, _, first, rfl⟩ ih

end JackToolchain.Lowering
