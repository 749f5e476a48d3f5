import JackToolchain.Proofs.Lowering.Yield

/-!
# Heights of the stack

Every command of a lowered class has a height of the stack above the locals, whichever way control
comes to it. An expression raises the height by one, a statement leaves it as it was, labels are
reached with nothing above the locals and returns with the value alone.
-/

namespace JackToolchain.Lowering

open JackToolchain.Stack JackToolchain.Syntax

/-- How many operands a command takes off the stack. -/
def operandsOf : Command → Nat
  | .pop .. | .ifGoto _ | .return => 1
  | .arithmetic op => op.arity
  | .call _ count => count.toNat
  | .push .. | .label _ | .goto _ | .function .. => 0

/-- How many words a command leaves in place of its operands. -/
def resultsOf : Command → Nat
  | .push .. | .arithmetic _ | .call .. => 1
  | .pop .. | .label _ | .goto _ | .ifGoto _ | .function .. | .return => 0

/-- The height behind a command. -/
def heightAfter (height : Nat) (c : Command) : Nat := height - operandsOf c + resultsOf c

/-- A command may stand at a height: its operands are there, labels and jumps have nothing else on
the stack, and so has a return. -/
def Accepts (height : Nat) : Command → Prop
  | .label _ | .goto _ => height = 0
  | .ifGoto _ | .return => height = 1
  | c => operandsOf c ≤ height

/-- Read from one command to the next, the commands go from one height to the other. -/
def Carries : Nat → List Command → Nat → Prop
  | height, [], final => height = final
  | height, c :: rest, final => Accepts height c ∧ Carries (heightAfter height c) rest final

theorem carries_append_iff {h h' : Nat} {c d : List Command} :
    Carries h (c ++ d) h' ↔ ∃ k, Carries h c k ∧ Carries k d h' := by
  induction c generalizing h with
  | nil => simp [Carries]
  | cons first rest ih =>
      simp only [List.cons_append, Carries, ih]
      constructor
      · rintro ⟨haccepts, k, hrest, hd⟩
        exact ⟨k, ⟨haccepts, hrest⟩, hd⟩
      · rintro ⟨k, ⟨haccepts, hrest⟩, hd⟩
        exact ⟨haccepts, k, hrest, hd⟩

theorem Carries.append {h k h' : Nat} {c d : List Command} (hc : Carries h c k)
    (hd : Carries k d h') : Carries h (c ++ d) h' :=
  carries_append_iff.mpr ⟨k, hc, hd⟩

theorem Carries.unique {h k k' : Nat} {c : List Command} (hk : Carries h c k)
    (hk' : Carries h c k') : k = k' := by
  induction c generalizing h with
  | nil => exact hk.symm.trans hk'
  | cons first rest ih => exact ih hk.2 hk'.2

/-! ## Expressions -/

theorem carries_pushEntry (entry : Scope.Entry) (h : Nat) : Carries h [pushEntry entry] (h + 1) :=
  ⟨Nat.zero_le h, rfl⟩

/-- A receiver is pushed, if there is one. -/
theorem carries_receiver (ctx : Context) (receiver : Option String) (name : String) (h : Nat) :
    Carries h (callTarget ctx receiver name).2.toList
      (h + (callTarget ctx receiver name).2.toList.length) := by
  unfold callTarget
  split
  · exact ⟨Nat.zero_le h, rfl⟩
  · split
    · exact carries_pushEntry _ h
    · rfl

theorem carries_binaryCommands (op : BinaryOp) (h : Nat) :
    Carries (h + 2) (binaryCommands op) (h + 1) := by
  cases op
  all_goals simp [binaryCommands, Carries, Accepts, heightAfter, operandsOf, resultsOf,
    Arithmetic.arity]

theorem carries_stringCommands (length : UInt16) (cs : List Char) (h : Nat) :
    Carries h (stringCommands length cs) (h + 1) := by
  have hchars : Carries (h + 1)
      (cs.flatMap fun c =>
        [.push .constant c.toNat.toUInt16, .call "String.appendChar" 2]) (h + 1) := by
    induction cs with
    | nil => rfl
    | cons c rest ih =>
        rw [List.flatMap_cons]
        refine Carries.append ⟨Nat.zero_le _, ?_, ?_⟩ ih
        · simp [Accepts, heightAfter, operandsOf, resultsOf]
        · simp [Carries, heightAfter, operandsOf, resultsOf]
  refine Carries.append ⟨Nat.zero_le h, ?_, ?_⟩ hchars
  · simp [Accepts, heightAfter, operandsOf, resultsOf]
  · simp [Carries, heightAfter, operandsOf, resultsOf]

theorem carries_call {name : String} {count h : Nat} (hcount : count ≤ 65535) :
    Carries (h + count) [.call name count.toUInt16] (h + 1) := by
  have hnat : count.toUInt16.toNat = count := by
    simp only [Nat.toUInt16_eq, UInt16.toNat_ofNat']
    omega
  simp [Carries, Accepts, heightAfter, operandsOf, resultsOf, hnat]

mutual

/-- An expression leaves its value and touches nothing below. -/
theorem carries_expression (ctx : Context) (e : Expression) {code : List Command}
    (h : (lowerExpression ctx e).Yields code) (height : Nat) :
    Carries height code (height + 1) := by
  match e with
  | .integer value span =>
      rw [Yields.integer_iff.mp h]
      exact ⟨Nat.zero_le _, rfl⟩
  | .string value span =>
      obtain ⟨-, -, rfl⟩ := Yields.string_iff.mp h
      exact carries_stringCommands ..
  | .boolean true span =>
      rw [Yields.true_iff.mp h]
      simp [Carries, Accepts, heightAfter, operandsOf, resultsOf, Arithmetic.arity]
  | .boolean false span =>
      rw [Yields.false_iff.mp h]
      exact ⟨Nat.zero_le _, rfl⟩
  | .null span =>
      rw [Yields.null_iff.mp h]
      exact ⟨Nat.zero_le _, rfl⟩
  | .this span =>
      rw [Yields.this_iff.mp h]
      exact ⟨Nat.zero_le _, rfl⟩
  | .var name span =>
      obtain ⟨entry, -, rfl⟩ := Yields.var_iff.mp h
      exact carries_pushEntry ..
  | .element array index span =>
      obtain ⟨entry, c, -, hc, rfl⟩ := Yields.element_iff.mp h
      refine ((carries_pushEntry entry height).append
        (carries_expression ctx index hc (height + 1))).append ?_
      simp [Carries, Accepts, heightAfter, operandsOf, resultsOf, Arithmetic.arity]
  | .unary op operand span =>
      obtain ⟨c, hc, rfl⟩ := Yields.unary_iff.mp h
      refine (carries_expression ctx operand hc height).append ?_
      cases op <;> simp [unaryCommand, Carries, Accepts, heightAfter, operandsOf, resultsOf,
        Arithmetic.arity]
  | .binary op left right span =>
      obtain ⟨c, d, hc, hd, rfl⟩ := Yields.binary_iff.mp h
      exact ((carries_expression ctx left hc height).append
        (carries_expression ctx right hd (height + 1))).append (carries_binaryCommands op height)
  | .call receiver name es span =>
      obtain ⟨cs, hcs, hcount, rfl⟩ := Yields.call_iff.mp h
      have hall := (carries_receiver ctx receiver name height).append (carries_each ctx es hcs _)
      rw [Nat.add_assoc, Nat.add_comm _ es.length] at hall
      exact hall.append (carries_call hcount)

theorem carries_each (ctx : Context) (es : List Expression) {cs : List (List Command)}
    (h : YieldEach ctx es cs) (height : Nat) : Carries height cs.flatten (height + es.length) := by
  match es, cs, h with
  | [], [], _ => rfl
  | e :: rest, c :: cs, .cons hc hcs =>
      have hlength : height + (e :: rest).length = height + 1 + rest.length := by
        simp only [List.length_cons]
        omega
      rw [List.flatten_cons, hlength]
      exact (carries_expression ctx e hc height).append (carries_each ctx rest hcs (height + 1))

end

/-! ## Statements -/

/-- A jump away from a condition leaves nothing. -/
theorem carries_unless {ctx : Context} {condition : Expression} {label : String}
    {c : List Command} (hc : (lowerExpression ctx condition).Yields c) :
    Carries 0 (c ++ [.arithmetic .not, .ifGoto label]) 0 := by
  refine (carries_expression ctx condition hc 0).append ?_
  simp [Carries, Accepts, heightAfter, operandsOf, resultsOf, Arithmetic.arity]

mutual

theorem carries_statement (ctx : Context) (labels : Labels) (s : Statement) {code : List Command}
    (h : (lowerStatement ctx labels s).1.Yields code) : Carries 0 code 0 := by
  match s with
  | .letVariable target value span =>
      obtain ⟨entry, c, -, hc, rfl⟩ := Yields.letVariable_iff.mp h
      exact (carries_expression ctx value hc 0).append ⟨Nat.le_refl 1, rfl⟩
  | .letElement target index value span =>
      obtain ⟨entry, c, d, -, hc, hd, rfl⟩ := Yields.letElement_iff.mp h
      have hadd : Carries 2 [.arithmetic .add] 1 := ⟨Nat.le_refl 2, rfl⟩
      refine ((((carries_pushEntry entry 0).append (carries_expression ctx index hc 1)).append
        hadd).append (carries_expression ctx value hd 1)).append ?_
      simp [Carries, Accepts, heightAfter, operandsOf, resultsOf]
  | .ifThen condition consequent span =>
      obtain ⟨c, d, hc, hd, rfl⟩ := Yields.ifThen_iff.mp h
      exact ((carries_unless hc).append (carries_statements ctx _ consequent hd)).append ⟨rfl, rfl⟩
  | .ifElse condition consequent alternate span =>
      obtain ⟨c, d, e, hc, hd, he, rfl⟩ := Yields.ifElse_iff.mp h
      have hbetween (stop other : String) : Carries 0 [.goto stop, .label other] 0 :=
        ⟨rfl, rfl, rfl⟩
      exact ((((carries_unless hc).append (carries_statements ctx _ consequent hd)).append
        (hbetween ..)).append (carries_statements ctx _ alternate he)).append ⟨rfl, rfl⟩
  | .whileLoop condition body span =>
      obtain ⟨c, d, hc, hd, rfl⟩ := Yields.whileLoop_iff.mp h
      have hagain (again : String) : Carries 0 [.label again] 0 := ⟨rfl, rfl⟩
      exact (((hagain _).append (carries_unless hc)).append
        (carries_statements ctx _ body hd)).append ⟨rfl, rfl, rfl⟩
  | .doCall call span =>
      obtain ⟨c, hc, rfl⟩ := Yields.doCall_iff.mp h
      exact (carries_expression ctx _ hc 0).append ⟨Nat.le_refl 1, rfl⟩
  | .return (some value) span =>
      obtain ⟨c, hc, rfl⟩ := Yields.return_some_iff.mp h
      exact (carries_expression ctx value hc 0).append ⟨rfl, rfl⟩
  | .return none span =>
      rw [Yields.return_none_iff.mp h]
      exact ⟨Nat.zero_le 0, rfl, rfl⟩

theorem carries_statements (ctx : Context) (labels : Labels) (ss : List Statement)
    {code : List Command} (h : (lowerStatements ctx {} labels ss).1.Yields code) :
    Carries 0 code 0 := by
  match ss with
  | [] =>
      rw [Yields.statements_nil_iff.mp h]
      rfl
  | s :: rest =>
      obtain ⟨c, d, hc, hd, rfl⟩ := Yields.statements_cons_iff.mp h
      exact (carries_statement ctx labels s hc).append (carries_statements ctx _ rest hd)

end

theorem carries_prologue {kind : SubroutineKind} {fields : Nat} {span : Source.Span}
    {code : List Command} (h : (prologue kind fields span).Yields code) : Carries 0 code 0 := by
  cases kind with
  | constructor =>
      obtain ⟨-, h⟩ := Yields.withCount_iff.mp h
      rw [Yields.ofList_iff.mp h]
      simp [Carries, Accepts, heightAfter, operandsOf, resultsOf]
  | function =>
      rw [Yields.empty_iff.mp h]
      rfl
  | method =>
      rw [Yields.ofList_iff.mp h]
      simp [Carries, Accepts, heightAfter, operandsOf, resultsOf]

/-! ## Jumps -/

/-- The label that control may go to from a command. -/
def targetOf? : Command → Option String
  | .goto name | .ifGoto name => some name
  | _ => none

/-- The label that a command is. -/
def labelOf? : Command → Option String
  | .label name => some name
  | _ => none

/-- Neither a jump nor a label. -/
def IsPlain (c : Command) : Prop := targetOf? c = none ∧ labelOf? c = none

/-- The labels that the commands jump to are among others. -/
def JumpsInto (code all : List Command) : Prop :=
  ∀ c ∈ code, ∀ name, targetOf? c = some name → .label name ∈ all

theorem jumpsInto_append_iff {c d all : List Command} :
    JumpsInto (c ++ d) all ↔ JumpsInto c all ∧ JumpsInto d all := by
  simp only [JumpsInto, List.mem_append]
  exact ⟨fun h => ⟨fun c hc => h c (.inl hc), fun c hc => h c (.inr hc)⟩,
    fun h c hc => hc.elim (h.1 c) (h.2 c)⟩

theorem JumpsInto.mono {code all more : List Command} (h : JumpsInto code all)
    (hsub : all ⊆ more) : JumpsInto code more :=
  fun c hc name hname => hsub (h c hc name hname)

theorem jumpsInto_of_straight {code : List Command} (h : ∀ c ∈ code, targetOf? c = none)
    (all : List Command) : JumpsInto code all := by
  intro c hc name hname
  rw [h c hc] at hname
  cases hname

theorem plain_receiver (ctx : Context) (receiver : Option String) (name : String) :
    ∀ c ∈ (callTarget ctx receiver name).2.toList, IsPlain c := by
  unfold callTarget
  split
  · simp [IsPlain, targetOf?, labelOf?]
  · split
    · simp [pushEntry, IsPlain, targetOf?, labelOf?]
    · simp

mutual

/-- Expressions neither jump nor have labels. -/
theorem plain_expression (ctx : Context) (e : Expression) {code : List Command}
    (h : (lowerExpression ctx e).Yields code) : ∀ c ∈ code, IsPlain c := by
  match e with
  | .integer value span => simp [Yields.integer_iff.mp h, IsPlain, targetOf?, labelOf?]
  | .string value span =>
      obtain ⟨-, -, rfl⟩ := Yields.string_iff.mp h
      intro c hc
      simp only [stringCommands, List.mem_append, List.mem_cons, List.mem_flatMap,
        List.not_mem_nil, or_false] at hc
      rcases hc with (rfl | rfl) | ⟨_, -, rfl | rfl⟩
      all_goals exact ⟨rfl, rfl⟩
  | .boolean true span => simp [Yields.true_iff.mp h, IsPlain, targetOf?, labelOf?]
  | .boolean false span => simp [Yields.false_iff.mp h, IsPlain, targetOf?, labelOf?]
  | .null span => simp [Yields.null_iff.mp h, IsPlain, targetOf?, labelOf?]
  | .this span => simp [Yields.this_iff.mp h, IsPlain, targetOf?, labelOf?]
  | .var name span =>
      obtain ⟨entry, -, rfl⟩ := Yields.var_iff.mp h
      simp [pushEntry, IsPlain, targetOf?, labelOf?]
  | .element array index span =>
      obtain ⟨entry, c, -, hc, rfl⟩ := Yields.element_iff.mp h
      simpa [List.forall_mem_append, pushEntry, IsPlain, targetOf?, labelOf?, or_imp,
        forall_and] using plain_expression ctx index hc
  | .unary op operand span =>
      obtain ⟨c, hc, rfl⟩ := Yields.unary_iff.mp h
      have hoperand := plain_expression ctx operand hc
      rw [List.forall_mem_append]
      exact ⟨hoperand, by cases op <;> simp [unaryCommand, IsPlain, targetOf?, labelOf?]⟩
  | .binary op left right span =>
      obtain ⟨c, d, hc, hd, rfl⟩ := Yields.binary_iff.mp h
      have hleft := plain_expression ctx left hc
      have hright := plain_expression ctx right hd
      rw [List.forall_mem_append, List.forall_mem_append]
      exact ⟨⟨hleft, hright⟩, by cases op <;> simp [binaryCommands, IsPlain, targetOf?, labelOf?]⟩
  | .call receiver name es span =>
      obtain ⟨cs, hcs, -, rfl⟩ := Yields.call_iff.mp h
      have heach := plain_each ctx es hcs
      rw [List.forall_mem_append, List.forall_mem_append]
      exact ⟨⟨plain_receiver ctx receiver name, heach⟩, by simp [IsPlain, targetOf?, labelOf?]⟩

theorem plain_each (ctx : Context) (es : List Expression) {cs : List (List Command)}
    (h : YieldEach ctx es cs) : ∀ c ∈ cs.flatten, IsPlain c := by
  match es, cs, h with
  | [], [], _ => simp
  | e :: rest, c :: cs, .cons hc hcs =>
      rw [List.flatten_cons, List.forall_mem_append]
      exact ⟨plain_expression ctx e hc, plain_each ctx rest hcs⟩

end

theorem plain_prologue {kind : SubroutineKind} {fields : Nat} {span : Source.Span}
    {code : List Command} (h : (prologue kind fields span).Yields code) :
    ∀ c ∈ code, IsPlain c := by
  cases kind with
  | constructor =>
      obtain ⟨-, h⟩ := Yields.withCount_iff.mp h
      simp [Yields.ofList_iff.mp h, IsPlain, targetOf?, labelOf?]
  | function => simp [Yields.empty_iff.mp h]
  | method => simp [Yields.ofList_iff.mp h, IsPlain, targetOf?, labelOf?]

theorem straight_expression (ctx : Context) (e : Expression) {code : List Command}
    (h : (lowerExpression ctx e).Yields code) : ∀ c ∈ code, targetOf? c = none :=
  fun c hc => (plain_expression ctx e h c hc).1

mutual

/-- A statement jumps to its own labels. -/
theorem jumpsInto_statement (ctx : Context) (labels : Labels) (s : Statement)
    {code : List Command} (h : (lowerStatement ctx labels s).1.Yields code) :
    JumpsInto code code := by
  match s with
  | .letVariable target value span =>
      obtain ⟨entry, c, -, hc, rfl⟩ := Yields.letVariable_iff.mp h
      have hvalue := straight_expression ctx value hc
      refine jumpsInto_of_straight ?_ _
      simpa [or_imp, forall_and, popEntry, targetOf?] using hvalue
  | .letElement target index value span =>
      obtain ⟨entry, c, d, -, hc, hd, rfl⟩ := Yields.letElement_iff.mp h
      have hindex := straight_expression ctx index hc
      have hvalue := straight_expression ctx value hd
      refine jumpsInto_of_straight ?_ _
      simpa [or_imp, forall_and, pushEntry, targetOf?] using ⟨hindex, hvalue⟩
  | .ifThen condition consequent span =>
      obtain ⟨c, d, hc, hd, rfl⟩ := Yields.ifThen_iff.mp h
      have hcondition := jumpsInto_of_straight (straight_expression ctx condition hc)
      have hinside := jumpsInto_statements ctx _ consequent hd
      simp only [jumpsInto_append_iff]
      refine ⟨⟨⟨hcondition _, ?_⟩, hinside.mono ?_⟩, ?_⟩
      · simp [JumpsInto, targetOf?]
      · intro x hx
        simp [hx]
      · simp [JumpsInto, targetOf?]
  | .ifElse condition consequent alternate span =>
      obtain ⟨c, d, e, hc, hd, he, rfl⟩ := Yields.ifElse_iff.mp h
      have hcondition := jumpsInto_of_straight (straight_expression ctx condition hc)
      have hfirst := jumpsInto_statements ctx _ consequent hd
      have hsecond := jumpsInto_statements ctx _ alternate he
      simp only [jumpsInto_append_iff]
      refine ⟨⟨⟨⟨⟨hcondition _, ?_⟩, hfirst.mono ?_⟩, ?_⟩, hsecond.mono ?_⟩, ?_⟩
      · simp [JumpsInto, targetOf?]
      · intro x hx
        simp [hx]
      · simp [JumpsInto, targetOf?]
      · intro x hx
        simp [hx]
      · simp [JumpsInto, targetOf?]
  | .whileLoop condition body span =>
      obtain ⟨c, d, hc, hd, rfl⟩ := Yields.whileLoop_iff.mp h
      have hcondition := jumpsInto_of_straight (straight_expression ctx condition hc)
      have hinside := jumpsInto_statements ctx _ body hd
      simp only [jumpsInto_append_iff]
      refine ⟨⟨⟨?_, hcondition _, ?_⟩, hinside.mono ?_⟩, ?_⟩
      · simp [JumpsInto, targetOf?]
      · simp [JumpsInto, targetOf?]
      · intro x hx
        simp [hx]
      · simp [JumpsInto, targetOf?]
  | .doCall call span =>
      obtain ⟨c, hc, rfl⟩ := Yields.doCall_iff.mp h
      have hcall := straight_expression ctx _ hc
      refine jumpsInto_of_straight ?_ _
      simpa [or_imp, forall_and, targetOf?] using hcall
  | .return (some value) span =>
      obtain ⟨c, hc, rfl⟩ := Yields.return_some_iff.mp h
      have hvalue := straight_expression ctx value hc
      refine jumpsInto_of_straight ?_ _
      simpa [or_imp, forall_and, targetOf?] using hvalue
  | .return none span =>
      rw [Yields.return_none_iff.mp h]
      exact jumpsInto_of_straight (by simp [targetOf?]) _

theorem jumpsInto_statements (ctx : Context) (labels : Labels) (ss : List Statement)
    {code : List Command} (h : (lowerStatements ctx {} labels ss).1.Yields code) :
    JumpsInto code code := by
  match ss with
  | [] =>
      rw [Yields.statements_nil_iff.mp h]
      exact jumpsInto_of_straight (by simp) _
  | s :: rest =>
      obtain ⟨c, d, hc, hd, rfl⟩ := Yields.statements_cons_iff.mp h
      exact jumpsInto_append_iff.mpr
        ⟨(jumpsInto_statement ctx labels s hc).mono (List.subset_append_left c d),
          (jumpsInto_statements ctx _ rest hd).mono (List.subset_append_right c d)⟩

end

/-! ## Positions -/

/-- The height at a position of a block, as far as one has read. -/
def heightAt (block : List Command) (i : Nat) : Nat := (block.take i).foldl heightAfter 0

theorem Carries.foldl_eq {h k : Nat} {c : List Command} (hc : Carries h c k) :
    c.foldl heightAfter h = k := by
  induction c generalizing h with
  | nil => exact hc
  | cons first rest ih => exact ih hc.2

theorem heightAt_succ {block : List Command} {i : Nat} {c : Command} (hc : block[i]? = some c) :
    heightAt block (i + 1) = heightAfter (heightAt block i) c := by
  rw [heightAt, List.take_add_one, hc, List.foldl_append]
  rfl

/-- A part of the block goes from the height in front of it to the height behind it. -/
theorem carries_part {front code back : List Command} {k : Nat}
    (h : Carries 0 (front ++ code ++ back) k) :
    Carries (heightAt (front ++ code ++ back) front.length) code
      (heightAt (front ++ code ++ back) (front.length + code.length)) := by
  obtain ⟨m, hfront, -⟩ := carries_append_iff.mp h
  obtain ⟨l, hfront, hcode⟩ := carries_append_iff.mp hfront
  have htake : (front ++ code ++ back).take front.length = front := by simp
  have htake' : (front ++ code ++ back).take (front.length + code.length) = front ++ code := by
    rw [← List.length_append, List.take_left]
  rw [heightAt, heightAt, htake, htake', List.foldl_append, hfront.foldl_eq, hcode.foldl_eq]
  exact hcode

theorem accepts_at {block : List Command} {k i : Nat} {c : Command} (h : Carries 0 block k)
    (hc : block[i]? = some c) : Accepts (heightAt block i) c := by
  obtain ⟨hi, hget⟩ := List.getElem?_eq_some_iff.mp hc
  have hsplit : block = block.take i ++ [c] ++ block.drop (i + 1) := by
    simp [← hget]
  have hlength : (block.take i).length = i := List.length_take_of_le (Nat.le_of_lt hi)
  rw [hsplit] at h
  have hpart := carries_part h
  rw [← hsplit, hlength] at hpart
  exact hpart.1

section Anywhere

variable {ctx : Context} {c d : List Command} {h k : Nat}

theorem eq_of_carries_expression {e : Expression} (hc : (lowerExpression ctx e).Yields c)
    (hcarries : Carries h c k) : k = h + 1 :=
  hcarries.unique (carries_expression ctx e hc h)

theorem eq_zero_of_last_label {name : String} (hcarries : Carries h (c ++ [.label name]) k) :
    k = 0 := by
  obtain ⟨m, -, hzero, hlast⟩ := carries_append_iff.mp hcarries
  rw [← hlast, show m = 0 from hzero]
  rfl

theorem eq_zero_of_unless {condition : Expression} {name : String}
    (hc : (lowerExpression ctx condition).Yields c)
    (hcarries : Carries h (c ++ [.arithmetic .not, .ifGoto name] ++ d) k) : h = 0 := by
  obtain ⟨_, hfirst, -⟩ := carries_append_iff.mp hcarries
  obtain ⟨m, hcondition, -, hone, -⟩ := carries_append_iff.mp hfirst
  have hm := eq_of_carries_expression hc hcondition
  have hnot : heightAfter m (.arithmetic .not) = 1 := hone
  simp only [heightAfter, operandsOf, resultsOf, Arithmetic.arity] at hnot
  omega

/-- An expression, and then a command that takes its value. -/
theorem eq_of_carries_value {e : Expression} {last : Command} {rest : List Command}
    (hc : (lowerExpression ctx e).Yields c) (hcarries : Carries h (c ++ last :: rest) k) :
    Accepts (h + 1) last ∧ Carries (heightAfter (h + 1) last) rest k := by
  obtain ⟨m, hvalue, hlast⟩ := carries_append_iff.mp hcarries
  rw [eq_of_carries_expression hc hvalue] at hlast
  exact hlast

/-- Wherever the code of a statement stands, it leaves the height as it was. -/
theorem eq_of_carries_statement {labels : Labels} {s : Statement}
    (hc : (lowerStatement ctx labels s).1.Yields c) (hcarries : Carries h c k) : k = h := by
  cases s with
  | letVariable target value span =>
      obtain ⟨entry, c, -, hvalue, rfl⟩ := Yields.letVariable_iff.mp hc
      obtain ⟨-, hlast⟩ := eq_of_carries_value hvalue hcarries
      exact hlast.symm
  | letElement target index value span =>
      obtain ⟨entry, c, d, -, hindex, hvalue, rfl⟩ := Yields.letElement_iff.mp hc
      obtain ⟨m, hfront, hlast⟩ := carries_append_iff.mp hcarries
      obtain ⟨m', hadded, hd⟩ := carries_append_iff.mp hfront
      obtain ⟨m'', haddress, hadd⟩ := carries_append_iff.mp hadded
      obtain ⟨_, hentry, hindex'⟩ := carries_append_iff.mp haddress
      have hone := hentry.unique (carries_pushEntry entry h)
      have htwo := eq_of_carries_expression hindex hindex'
      have hthree := eq_of_carries_expression hvalue hd
      have hfour : heightAfter m'' (.arithmetic .add) = m' := hadd.2
      have hfive : heightAfter (heightAfter (heightAfter (heightAfter m (.pop .temp 0))
        (.pop .pointer 1)) (.push .temp 0)) (.pop .that 0) = k := hlast.2.2.2.2
      simp only [heightAfter, operandsOf, resultsOf, Arithmetic.arity] at hfour hfive
      omega
  | ifThen condition consequent span =>
      obtain ⟨c, d, hcondition, -, rfl⟩ := Yields.ifThen_iff.mp hc
      rw [eq_zero_of_last_label hcarries]
      rw [List.append_assoc] at hcarries
      exact (eq_zero_of_unless hcondition hcarries).symm
  | ifElse condition consequent alternate span =>
      obtain ⟨c, d, e, hcondition, -, -, rfl⟩ := Yields.ifElse_iff.mp hc
      rw [eq_zero_of_last_label hcarries]
      have hfront : Carries h (c ++ [.arithmetic .not, .ifGoto s!"IF_ELSE_{labels.ifs}"] ++
          (d ++ [.goto s!"IF_END_{labels.ifs}", .label s!"IF_ELSE_{labels.ifs}"] ++ e ++
            [.label s!"IF_END_{labels.ifs}"])) k := by
        simpa only [List.append_assoc] using hcarries
      exact (eq_zero_of_unless hcondition hfront).symm
  | whileLoop condition body span =>
      obtain ⟨c, d, -, -, rfl⟩ := Yields.whileLoop_iff.mp hc
      rw [List.append_cons _ (Command.goto _), ← List.append_assoc] at hcarries
      rw [eq_zero_of_last_label hcarries]
      exact hcarries.1.symm
  | doCall call span =>
      obtain ⟨c, hcall, rfl⟩ := Yields.doCall_iff.mp hc
      obtain ⟨-, hlast⟩ := eq_of_carries_value hcall hcarries
      exact hlast.symm
  | «return» value span =>
      cases value with
      | some value =>
          obtain ⟨c, hvalue, rfl⟩ := Yields.return_some_iff.mp hc
          obtain ⟨-, hlast⟩ := eq_of_carries_value hvalue hcarries
          exact hlast.symm
      | none =>
          rw [Yields.return_none_iff.mp hc] at hcarries
          exact hcarries.2.2.symm

end Anywhere

/-- Heights for the positions of a block whose operands start at a position: every command finds its
operands, the heights follow control whichever way it goes, and they agree with the tree. -/
structure Balanced (ctx : Context) (block : List Command) (start : Nat) (height : Nat → Nat) :
    Prop where
  atStart : height start = 0
  atLabel : ∀ i name, block[i]? = some (Command.label name) → height i = 0
  operands : ∀ i c, block[i]? = some c → operandsOf c ≤ height i
  next : ∀ i c, block[i]? = some c → c ≠ Command.return → (∀ name, c ≠ Command.goto name) →
    height (i + 1) = height i - operandsOf c + resultsOf c
  jump : ∀ i c name, block[i]? = some c → targetOf? c = some name →
    (∃ j : Nat, block[j]? = some (Command.label name)) ∧
      ∀ j, block[j]? = some (Command.label name) → height j = height i - operandsOf c
  atReturn : ∀ i, block[i]? = some Command.return → height i = 1
  expression : ∀ front code back e, block = front ++ code ++ back →
    (lowerExpression ctx e).Yields code →
      height (front.length + code.length) = height front.length + 1
  statement : ∀ front code back labels s, block = front ++ code ++ back →
    (lowerStatement ctx labels s).1.Yields code →
      height (front.length + code.length) = height front.length

theorem operandsOf_le_of_accepts {h : Nat} {c : Command} (haccepts : Accepts h c) :
    operandsOf c ≤ h := by
  cases c with
  | label _ | goto _ => exact Nat.zero_le h
  | ifGoto _ | «return» =>
      have hone : h = 1 := haccepts
      exact Nat.le_of_eq hone.symm
  | push _ _ | pop _ _ | arithmetic _ | function _ _ | call _ _ => exact haccepts

/-- The block of a subroutine is balanced at the heights that one reads off. -/
theorem YieldsBlock.balanced {tree : ClassTree} {labels : Labels} {s : Subroutine}
    {opening body : List Command} (h : YieldsBlock tree labels s opening body) :
    Balanced (contextOf tree s) (blockOf tree s opening body) (1 + opening.length)
      (heightAt (blockOf tree s opening body)) := by
  set block := blockOf tree s opening body with hblock
  have hopening := carries_prologue h.opening
  have hcarries : Carries 0 block 0 :=
    ⟨Nat.zero_le 0, hopening.append (carries_statements _ _ _ h.body)⟩
  have hstraight : ∀ c ∈ opening, targetOf? c = none :=
    fun c hc => (plain_prologue h.opening c hc).1
  have hjumps : JumpsInto block block := by
    have hbody : body ⊆ block := fun c hc => by simp [hblock, blockOf, hc]
    rw [hblock, blockOf, ← List.singleton_append, jumpsInto_append_iff, jumpsInto_append_iff]
    exact ⟨jumpsInto_of_straight (by simp [targetOf?]) _, jumpsInto_of_straight hstraight _,
      (jumpsInto_statements _ _ _ h.body).mono hbody⟩
  constructor
  · rw [hblock, heightAt, blockOf, Nat.add_comm, List.take_succ_cons, List.take_left,
      List.foldl_cons]
    exact hopening.foldl_eq
  · exact fun i name hi => accepts_at hcarries hi
  · exact fun i c hi => operandsOf_le_of_accepts (accepts_at hcarries hi)
  · exact fun i c hi _ _ => heightAt_succ hi
  · intro i c name hi hname
    refine ⟨?_, ?_⟩
    · have hlabel := hjumps c (List.mem_of_getElem? hi) name hname
      exact List.mem_iff_getElem?.mp hlabel
    · intro j hj
      have hzero : heightAt block j = 0 := accepts_at hcarries hj
      have haccepts := accepts_at hcarries hi
      cases c with
      | goto _ =>
          have hheight : heightAt block i = 0 := haccepts
          rw [hzero, hheight]
          rfl
      | ifGoto _ =>
          have hheight : heightAt block i = 1 := haccepts
          rw [hzero, hheight]
          rfl
      | _ => cases hname
  · exact fun i hi => accepts_at hcarries hi
  · intro front code back e hsplit hcode
    rw [hsplit] at hcarries ⊢
    exact eq_of_carries_expression hcode (carries_part hcarries)
  · intro front code back labels s hsplit hcode
    rw [hsplit] at hcarries ⊢
    exact eq_of_carries_statement hcode (carries_part hcarries)

/-- Behind its prologue, the block of a subroutine has balanced heights. -/
def BalancedBlock (tree : ClassTree) (s : Subroutine) (block : List Command) : Prop :=
  ∃ opening body height, (prologue s.kind tree.fieldCount s.span).Yields opening ∧
    block = blockOf tree s opening body ∧
    Balanced (contextOf tree s) block (1 + opening.length) height

theorem YieldsBlocks.balanced {tree : ClassTree} {labels : Labels} {ss : List Subroutine}
    {blocks : List (List Command)} (h : YieldsBlocks tree labels ss blocks) :
    List.Forall₂ (BalancedBlock tree) ss blocks := by
  induction h with
  | nil labels => exact .nil
  | cons first others ih => exact .cons ⟨_, _, _, first.opening, rfl, first.balanced⟩ ih

/-- A class is lowered to one block for each subroutine, and every block is balanced. -/
theorem lowerClass_balanced {tree : ClassTree} {commands : List Command}
    (h : (lowerClass tree).result = .ok commands) :
    ∃ blocks, commands = blocks.flatten ∧
      List.Forall₂ (BalancedBlock tree) tree.subroutines blocks := by
  obtain ⟨blocks, hblocks, hcommands⟩ := yields_of_lowerClass h
  exact ⟨blocks, hcommands, hblocks.balanced⟩

/-- A method with a loop in one branch of a condition, and a return in the other. -/
def countdown : ClassTree :=
  let at0 : Source.Span := default
  { name := "Counter"
    classVars := [⟨.field, .int, ["left"], at0⟩]
    subroutines := [
      { kind := .method, returnType := some .int, name := "run"
        parameters := [⟨.int, "step", at0⟩], locals := []
        body := [
          .ifElse (.binary .less (.var "step" at0) (.integer 1 at0) at0)
            [.return (some (.this at0)) at0]
            [.whileLoop (.binary .greater (.var "left" at0) (.integer 0 at0) at0)
              [.letVariable "left" (.binary .subtract (.var "left" at0) (.var "step" at0) at0) at0,
                .doCall ⟨none, "show", [.var "left" at0], at0⟩ at0] at0] at0,
          .return none at0]
        span := at0 }]
    span := at0 }

theorem countdown_balanced :
    ∃ commands, (lowerClass countdown).result = .ok commands ∧
      ∃ blocks, commands = blocks.flatten ∧
        List.Forall₂ (BalancedBlock countdown) countdown.subroutines blocks := by
  have hlowered : ∃ commands, (lowerClass countdown).result = .ok commands := by
    simp [countdown, lowerClass, lowerSubroutines, lowerSubroutine, prologue, withCount,
      Subroutine.localCount, lowerStatements, lowerStatement, lowerUnless, lowerExpression,
      lowerCall, Call.toExpression, callTarget, lowerArguments, withEntry, Context.resolve?,
      Scope.resolve?, Scope.Table.ofClass, Scope.Table.ofSubroutine, Scope.Table.ofDeclarations,
      Scope.classDeclarations, Scope.subroutineDeclarations, Scope.Table.define,
      Scope.Table.lookup?, pushEntry, popEntry, binaryCommands,
      Emission.ofList, Emission.settle, Limits.maxCommandsPerClass]
  obtain ⟨commands, hcommands⟩ := hlowered
  exact ⟨commands, hcommands, lowerClass_balanced hcommands⟩

end JackToolchain.Lowering
