import JackToolchain.Proofs.Evaluation.Simulation

/-!
# Expressions

The commands of an expression leave the value of its evaluation on the stack.
-/

namespace JackToolchain.Evaluation

open JackToolchain.Machine JackToolchain.Memory JackToolchain.Lowering JackToolchain.Syntax
open JackToolchain.Scope JackToolchain.Stack

variable {w : World} {y : Layout w} {act : Activation w} {f f' : Frame} {t t₁ t' : Store}
  {sp sp' k a b : Nat} {v x : Int16} {s s' s'' : State} {c d : List Command}

theorem onStack_single {m : Vector Int16 ramSize} (h : word m sp = v) : OnStack m sp [v] := by
  intro i hi
  obtain rfl : i = 0 := by simpa using hi
  exact h

theorem onStack_pair {m : Vector Int16 ramSize} (hx : word m sp = x) (hv : word m (sp + 1) = v) :
    OnStack m sp [x, v] := by
  intro i hi
  have hi' : i = 0 ∨ i = 1 := by
    simp only [List.length_cons, List.length_nil] at hi
    omega
  rcases hi' with rfl | rfl
  · exact hx
  · exact hv

theorem Matches.pushConstant (h : Matches y act f t sp s) {n : Nat}
    (hhas : (act.site y).Has s.pc (.push .constant n.toUInt16)) :
    ∃ s', Pushes y act f t sp (Int16.ofNat n) (s.pc + 1) s s' := by
  refine h.push hhas ?_
  have hvalue : n.toUInt16.toInt16 = Int16.ofNat n := UInt16.toInt16_ofNat'
  exact (load_constant ..).trans (by rw [hvalue])

theorem Goes.pushes (h : Goes y act f t₁ sp' (Below sp) b s s')
    (h' : Pushes y act f t' sp v a s' s'') : Pushes y act f t' sp v a s s'' :=
  { h.trans h'.toGoes with top := h'.top }

/-- A call of a routine makes room for its value. -/
theorem Matches.callRoutine {vs : List Int16} {count : UInt16}
    (h : Matches y act f t (sp + vs.length) s) (hfloor : act.floor ≤ sp) (r : Routine)
    (hvalues : OnStack s.ram sp vs) (hhas : (act.site y).Has s.pc (.call r.name count))
    (hcount : count.toNat = vs.length) (hr : builtin w r.name vs t = .ok v t') :
    ∃ s', Pushes y act f t' sp v (s.pc + 1) s s' := by
  have hbase := act.le_floor
  obtain ⟨s', hs'⟩ := answers_routine r hr h.shared h.roomy h.stack h.ceiling (by omega) hvalues
    rfl hhas hcount
  exact ⟨s', hs'.pushes h hfloor⟩

/-- An order is the opposite order denied. -/
theorem complement_truth_lt (x v : Int16) :
    ~~~truth (decide (v < x)) = truth (decide (x ≤ v)) := by
  by_cases h : x ≤ v
  · have hlt : ¬v < x := Int16.not_lt.mpr h
    simp [h, hlt, truth]
  · have hlt : v < x := Int16.not_le.mp h
    simp [h, hlt, truth]

/-- The operands of an operator make room for its value. -/
theorem Matches.operate (h : Matches y act f t (sp + 2) s) (hfloor : act.floor ≤ sp)
    {op : BinaryOp} (hplaced : (act.site y).Placed s.pc (binaryCommands op))
    (hleft : word s.ram sp = x) (hright : word s.ram (sp + 1) = v) {value : Int16}
    (hvalue : binaryValue op x v t = .ok value t') :
    ∃ s', Pushes y act f t' sp value (s.pc + (binaryCommands op).length) s s' := by
  have hvalues := onStack_pair hleft hright
  have hdenied (op : Arithmetic) (hop : op.arity = 2)
      (hplaced : (act.site y).Placed s.pc [.arithmetic op, .arithmetic .not]) :
      ∃ s', Pushes y act f t sp (~~~combine op x v) (s.pc + 2) s s' := by
    obtain ⟨s₁, h₁⟩ := h.binary hfloor hop hplaced.first hleft hright
    have hhas := hplaced.tail.first
    rw [← h₁.pc] at hhas
    obtain ⟨s₂, h₂⟩ := h₁.matched.unary hfloor .not hhas h₁.top
    rw [h₁.pc] at h₂
    exact ⟨s₂, h₁.toGoes.pushes h₂⟩
  cases op with
  | multiply =>
      cases hvalue
      exact h.callRoutine hfloor .multiply hvalues hplaced.first rfl rfl
  | divide => exact h.callRoutine hfloor .divide hvalues hplaced.first rfl hvalue
  | add | subtract | equal | less | greater | and | or =>
      cases hvalue
      exact h.binary hfloor rfl hplaced.first hleft hright
  | lessEqual =>
      cases hvalue
      rw [← complement_truth_lt]
      exact hdenied .gt rfl hplaced
  | greaterEqual =>
      cases hvalue
      rw [← complement_truth_lt]
      exact hdenied .lt rfl hplaced

namespace Computes

theorem unary (h : Computes y act f t t' v c) (op : UnaryOp) :
    Computes y act f t t' (unaryValue op v) (c ++ [unaryCommand op]) := by
  intro sp s hs hplaced
  obtain ⟨s₁, h₁⟩ := h sp s hs hplaced.left
  have hhas := hplaced.right.first
  rw [← h₁.pc] at hhas
  obtain ⟨s₂, h₂⟩ := h₁.matched.unary hs.floor op hhas h₁.top
  rw [h₁.pc, Nat.add_assoc, ← List.length_singleton, ← List.length_append] at h₂
  exact ⟨s₂, h₁.toGoes.pushes h₂⟩

theorem binary (h : Computes y act f t t₁ x c) {t₂ : Store} (h' : Computes y act f t₁ t₂ v d)
    {op : BinaryOp} {value : Int16} (hvalue : binaryValue op x v t₂ = .ok value t') :
    Computes y act f t t' value (c ++ d ++ binaryCommands op) := by
  intro sp s hs hplaced
  obtain ⟨s₁, h₁⟩ := h sp s hs hplaced.left.left
  have hright := hplaced.left.right
  rw [← h₁.pc] at hright
  obtain ⟨s₂, h₂⟩ := h' (sp + 1) s₁ h₁.matched hright
  have hlast := hplaced.right
  rw [List.length_append, ← Nat.add_assoc, ← h₁.pc, ← h₂.pc] at hlast
  have hlow := hs.sp_pos
  have hleft : word s₂.ram sp = x :=
    (h₂.kept.words sp (.inr ⟨by omega, by omega⟩)).trans h₁.top
  obtain ⟨s₃, h₃⟩ := h₂.matched.operate hs.floor hlast hleft h₂.top hvalue
  have hboth := h₁.toGoes.trans (h₂.toGoes.mono fun b hb => hb.mono (Nat.le_succ sp))
  rw [h₂.pc, h₁.pc, Nat.add_assoc, Nat.add_assoc, ← Nat.add_assoc c.length,
    ← List.length_append, ← List.length_append] at h₃
  exact ⟨s₃, hboth.pushes h₃⟩

/-- An element is read through the pointer to it. -/
theorem element {t₀ : Store} (h : Computes y act f t₀ t₁ x c) {name : String} {e : Entry}
    {type : TypeName} {base : Int16} (hname : name ≠ "this") (hentry : act.entry? name = some e)
    (hbase : readVar w f name t = .ok (type, base) t₀)
    (hread : read w (base.toInt + x.toInt) t₁ = .ok v t') :
    Computes y act f t t' v
      ([pushEntry e] ++ c ++ [.arithmetic .add, .pop .pointer 1, .push .that 0]) := by
  intro sp s hs hplaced
  obtain ⟨hunchanged, -, s₁, h₁⟩ := hs.pushVar hname hentry hplaced.left.left.first hbase
  subst hunchanged
  have hindex := hplaced.left.right
  rw [List.length_singleton, ← h₁.pc] at hindex
  obtain ⟨s₂, h₂⟩ := h (sp + 1) s₁ h₁.matched hindex
  have hlast := hplaced.right
  rw [List.length_append, List.length_singleton, ← Nat.add_assoc, ← h₁.pc, ← h₂.pc] at hlast
  have hlow := hs.sp_pos
  have hleft : word s₂.ram sp = base :=
    (h₂.kept.words sp (.inr ⟨by omega, by omega⟩)).trans h₁.top
  obtain ⟨s₃, h₃⟩ := h₂.matched.binary hs.floor rfl hlast.first hleft h₂.top
  obtain ⟨hsame, a, ha, hlt, hv, hallocated⟩ := read_eq_ok hread
  subst hsame
  obtain ⟨hheap, -⟩ := hallocated y.strict
  have hpointer : word s₃.ram sp = pointer a :=
    h₃.top.trans (add_eq_pointer ha hlt)
  have hthat := hlast.tail
  rw [← h₃.pc] at hthat
  obtain ⟨s₄, h₄⟩ := h₃.matched.readThat hs.floor hthat hpointer hheap hlt
  have hlength : s₃.pc + 2 = s.pc + ([pushEntry e] ++ c ++
      [Command.arithmetic .add, .pop .pointer 1, .push .that 0]).length := by
    rw [h₃.pc, h₂.pc, h₁.pc]
    simp only [List.length_append, List.length_cons, List.length_nil]
    omega
  have hall := (h₁.toGoes.trans (h₂.toGoes.mono fun b hb => hb.mono (Nat.le_succ sp))).trans
    h₃.toGoes
  rw [h₃.matched.shared.heap a hheap, ← hv, hlength] at h₄
  exact ⟨s₄, hall.pushes h₄⟩

end Computes

/-- What is called is a variable where the commands take it for one. -/
theorem Holds.isVariable {m : Vector Int16 ramSize} (h : Holds act f m) (y : Layout w)
    {name : String} (hname : name ≠ "this") : f.isVariable name = (act.entry? name).isSome := by
  have hresolve : act.entry? name =
      (act.table.lookup? name).or ((Table.ofClass act.tree).lookup? name) := rfl
  rw [Frame.isVariable, h.vars name hname, h.tree, hresolve]
  cases hlookup : act.table.lookup? name with
  | some e => rfl
  | none =>
      rw [Option.none_or]
      cases hmember : (Table.ofClass act.tree).lookup? name with
      | none => simp [member?_of_lookup?_eq_none hmember]
      | some e =>
          obtain ⟨kind, k, -, -, hfound, -⟩ := member?_of_lookup? (y.members _ act.mem) hmember
          cases kind <;> simp [hfound]

theorem ComputesAll.nil : ComputesAll y act f t t [] [] := by
  intro sp s hs _
  exact ⟨s, ⟨.refl s, hs, rfl, ⟨fun _ _ => rfl, rfl⟩⟩, fun i hi => absurd hi (Nat.not_lt_zero i)⟩

theorem ComputesAll.append {vs ws : List Int16} (h : ComputesAll y act f t t₁ vs c)
    (h' : ComputesAll y act f t₁ t' ws d) : ComputesAll y act f t t' (vs ++ ws) (c ++ d) := by
  intro sp s hs hplaced
  obtain ⟨s₁, h₁, hvs⟩ := h sp s hs hplaced.left
  have hright := hplaced.right
  rw [← h₁.pc] at hright
  obtain ⟨s₂, h₂, hws⟩ := h' (sp + vs.length) s₁ h₁.matched hright
  have hlow := hs.sp_pos
  rw [Nat.add_assoc, ← List.length_append, h₁.pc, Nat.add_assoc, ← List.length_append] at h₂
  refine ⟨s₂, h₁.trans (h₂.mono fun b hb => hb.mono (Nat.le_add_right ..)), fun i hi => ?_⟩
  rw [List.length_append] at hi
  rcases Nat.lt_or_ge i vs.length with hlt | hge
  · rw [List.getElem_append_left hlt, ← hvs i hlt]
    exact h₂.kept.words _ (.inr ⟨by omega, by omega⟩)
  · rw [List.getElem_append_right hge, ← hws (i - vs.length) (by omega)]
    congr 1
    omega

theorem Computes.all (h : Computes y act f t t' v c) : ComputesAll y act f t t' [v] c := by
  intro sp s hs hplaced
  obtain ⟨s₁, h₁⟩ := h sp s hs hplaced
  exact ⟨s₁, h₁.toGoes, onStack_single h₁.top⟩

/-! ## Strings -/

/-- The object below is filled one character at a time. -/
theorem Matches.appendChars (h : Matches y act f t (sp + 1) s) (hfloor : act.floor ≤ sp)
    {cs : List Char} (htop : word s.ram sp = v)
    (hplaced : (act.site y).Placed s.pc (cs.flatMap fun c =>
      [.push .constant c.toNat.toUInt16, .call "String.appendChar" 2]))
    (hchars : (cs.forM fun c => appendChar w v (Int16.ofNat c.toNat)) t = .ok () t') :
    ∃ s', Pushes y act f t' sp v
      (s.pc + (cs.flatMap fun c =>
        [Command.push .constant c.toNat.toUInt16, .call "String.appendChar" 2]).length) s s' := by
  induction cs generalizing s t with
  | nil =>
      cases hchars
      exact ⟨s, ⟨.refl s, h, rfl, ⟨fun _ _ => rfl, rfl⟩⟩, htop⟩
  | cons c rest ih =>
      obtain ⟨u, t₁, happend, hrest⟩ := bind_eq_ok hchars
      rw [List.flatMap_cons] at hplaced
      obtain ⟨s₁, h₁⟩ := h.pushConstant hplaced.left.first
      have hcall := hplaced.left.tail.first
      rw [← h₁.pc] at hcall
      have hlow := h.sp_pos
      have hobject : word s₁.ram sp = v :=
        (h₁.kept.words sp (.inr ⟨by omega, by omega⟩)).trans htop
      have hvalue : builtin w (Routine.name .appendChar) [v, Int16.ofNat c.toNat] t = .ok v t₁ :=
        bind_of_ok happend
      have hmatched : Matches y act f t (sp + [v, Int16.ofNat c.toNat].length) s₁ := h₁.matched
      obtain ⟨s₂, h₂⟩ := hmatched.callRoutine hfloor .appendChar (onStack_pair hobject h₁.top)
        hcall rfl hvalue
      have hright := hplaced.right
      have hpc : s₂.pc = s.pc +
          [Command.push .constant c.toNat.toUInt16, .call "String.appendChar" 2].length := by
        rw [h₂.pc, h₁.pc]
        rfl
      rw [← hpc] at hright
      obtain ⟨s₃, h₃⟩ := ih h₂.matched h₂.top hright hrest
      rw [hpc, Nat.add_assoc, ← List.length_append] at h₃
      exact ⟨s₃, ((h₁.toGoes.mono fun b hb => hb.mono (Nat.le_succ sp)).trans h₂.toGoes).pushes h₃⟩

theorem computes_string {text : String} (h : stringValue w text t = .ok v t') :
    Computes y act f t t' v (stringCommands text.toList.length.toUInt16 text.toList) := by
  intro sp s hs hplaced
  obtain ⟨object, t₁, hnew, hrest⟩ := bind_eq_ok h
  obtain ⟨u, t₂, hchars, hend⟩ := bind_eq_ok hrest
  cases hend
  obtain ⟨s₁, h₁⟩ := hs.pushConstant hplaced.left.first
  have hcall := hplaced.left.tail.first
  rw [← h₁.pc] at hcall
  obtain ⟨s₂, h₂⟩ := h₁.matched.callRoutine hs.floor .newString (onStack_single h₁.top) hcall rfl hnew
  have hright := hplaced.right
  have hpc : s₂.pc = s.pc +
      [Command.push .constant text.toList.length.toUInt16, .call "String.new" 1].length := by
    rw [h₂.pc, h₁.pc]
    rfl
  rw [← hpc] at hright
  obtain ⟨s₃, h₃⟩ := h₂.matched.appendChars hs.floor h₂.top hright hchars
  rw [hpc, Nat.add_assoc, ← List.length_append] at h₃
  exact ⟨s₃, (h₁.toGoes.trans h₂.toGoes).pushes h₃⟩

/-! ## Calls -/

theorem length_evalAll {fuel : Nat} {es : List Expression} {vs : List Int16}
    (h : evalAll w fuel f es t = .ok vs t') : vs.length = es.length := by
  induction es generalizing fuel vs t t' with
  | nil =>
      cases fuel with
      | zero => cases h
      | succ fuel =>
          cases h
          rfl
  | cons e rest ih =>
      cases fuel with
      | zero => cases h
      | succ fuel =>
          obtain ⟨v, t₁, -, hrest⟩ := bind_eq_ok h
          obtain ⟨vs', t₂, hvs, hend⟩ := bind_eq_ok hrest
          have hlength := ih hvs
          cases hend
          rw [List.length_cons, List.length_cons, hlength]

/-- The receiver of a call is pushed where the evaluation has one. -/
theorem Matches.receive (h : Matches y act f t sp s) {receiver : Option String}
    {className name : String} {objects : List Int16} (hnamed : "this" ∉ receiver.toList)
    (hreceive : Evaluation.receive w f receiver t = .ok (className, objects) t')
    (hplaced : (act.site y).Placed s.pc (callTarget act.context receiver name).2.toList) :
    (callTarget act.context receiver name).1 = s!"{className}.{name}" ∧
      (callTarget act.context receiver name).2.toList.length = objects.length ∧
      ∃ s', Goes y act f t' (sp + objects.length) (Below sp) (s.pc + objects.length) s s' ∧
        OnStack s'.ram sp objects := by
  cases receiver with
  | none =>
      obtain ⟨u, t₁, hobject, hend⟩ := bind_eq_ok hreceive
      obtain ⟨hsame, hkind⟩ := demandObject_eq_ok y hobject
      subst hsame
      cases hend
      have hload : load (act.site y).owner (.fixed 3) s = .ok f.this s := by
        refine (load_run rfl (by decide)).trans ?_
        rw [h.holds.this hkind]
      obtain ⟨s', hs'⟩ := h.push hplaced.first hload
      refine ⟨?_, rfl, s', hs'.toGoes, onStack_single hs'.top⟩
      rw [h.holds.tree]
      rfl
  | some r =>
      have hname : r ≠ "this" := by
        rintro rfl
        exact hnamed (by simp)
      have hvariable := h.holds.isVariable y hname
      cases hentry : act.entry? r with
      | none =>
          have htarget : callTarget act.context (some r) name = (s!"{r}.{name}", none) := by
            simp only [callTarget, hentry]
          rw [hentry, Option.isSome_none] at hvariable
          simp only [Evaluation.receive, hvariable] at hreceive
          cases hreceive
          rw [htarget]
          exact ⟨rfl, rfl, s, ⟨.refl s, h, rfl, ⟨fun _ _ => rfl, rfl⟩⟩,
            fun i hi => absurd hi (Nat.not_lt_zero i)⟩
      | some e =>
          have htarget : callTarget act.context (some r) name =
              (s!"{e.type.text}.{name}", some (pushEntry e)) := by
            simp only [callTarget, hentry]
          rw [hentry, Option.isSome_some] at hvariable
          simp only [Evaluation.receive, hvariable] at hreceive
          obtain ⟨⟨type, object⟩, t₁, hread, hend⟩ := bind_eq_ok hreceive
          rw [htarget] at hplaced ⊢
          obtain ⟨hsame, htype, s', hs'⟩ := h.pushVar hname hentry hplaced.first hread
          subst hsame htype
          cases hend
          exact ⟨rfl, rfl, s', hs'.toGoes, onStack_single hs'.top⟩

section Step

variable {fuel : Nat} (ih : Simulates y fuel)

include ih

theorem Simulates.call {receiver : Option String} {className name : String}
    {es : List Expression} {objects vs : List Int16} {codes : List (List Command)} {t₂ : Store}
    (hreceive : receive w f receiver t = .ok (className, objects) t₁)
    (hvalues : Evaluation.evalAll w fuel f es t₁ = .ok vs t₂)
    (hinvoke : Evaluation.invoke w fuel className name (objects ++ vs) t₂ = .ok v t')
    (hcodes : YieldEach act.context es codes)
    (hcount : es.length + (callTarget act.context receiver name).2.toList.length ≤ 65535)
    (hreceiver : "this" ∉ receiver.toList) (harguments : "this" ∉ Expression.mentionedInAll es) :
    Computes y act f t t' v
      ((callTarget act.context receiver name).2.toList ++ codes.flatten ++
        [.call (callTarget act.context receiver name).1
          (es.length + (callTarget act.context receiver name).2.toList.length).toUInt16]) := by
  intro sp s hs hplaced
  have hobjects : ComputesAll y act f t t₁ objects
      (callTarget act.context receiver name).2.toList := by
    intro sp s hs hplaced
    obtain ⟨-, hlength, s', hs', hon⟩ := hs.receive hreceiver hreceive hplaced
    rw [hlength]
    exact ⟨s', hs', hon⟩
  obtain ⟨htarget, hlength, -⟩ := hs.receive hreceiver hreceive hplaced.left.left
  obtain ⟨s₁, h₁, hon⟩ :=
    hobjects.append (ih.evalAll act hvalues hcodes harguments) sp s hs hplaced.left
  have hhas := hplaced.right.first
  rw [htarget, ← h₁.pc] at hhas
  have hbase := act.le_floor
  have hfloor := hs.floor
  have hlengths : (es.length +
      (callTarget act.context receiver name).2.toList.length).toUInt16.toNat =
        (objects ++ vs).length := by
    rw [List.length_append, length_evalAll hvalues, ← hlength, Nat.toUInt16_eq,
      UInt16.toNat_ofNat']
    omega
  obtain ⟨s₂, h₂⟩ := ih.invoke hinvoke h₁.matched.shared h₁.matched.roomy h₁.matched.stack
    h₁.matched.ceiling (by omega) hon rfl hhas hlengths
  have hpushes := h₂.pushes h₁.matched hfloor
  rw [h₁.pc, Nat.add_assoc, ← List.length_singleton, ← List.length_append] at hpushes
  exact ⟨s₂, h₁.pushes hpushes⟩

/-- The machine follows the evaluation of an expression. -/
theorem Simulates.eval_succ (act : Activation w) {e : Expression} {code : List Command}
    (h : Evaluation.eval w (fuel + 1) f e t = .ok v t')
    (hcode : (lowerExpression act.context e).Yields code) (hnamed : "this" ∉ e.mentioned) :
    Computes y act f t t' v code := by
  cases e with
  | integer value span =>
      cases h
      rw [Yields.integer_iff.mp hcode]
      exact fun sp s hs hplaced => hs.pushConstant hplaced.first
  | string text span =>
      obtain ⟨-, -, rfl⟩ := Yields.string_iff.mp hcode
      exact computes_string h
  | boolean value span =>
      cases h
      cases value with
      | true =>
          rw [Yields.true_iff.mp hcode]
          have hone : Computes y act f t t 1 [.push .constant 1] :=
            fun sp s hs hplaced => hs.pushConstant (n := 1) hplaced.first
          exact hone.unary .negate
      | false =>
          rw [Yields.false_iff.mp hcode]
          exact fun sp s hs hplaced => hs.pushConstant (n := 0) hplaced.first
  | null span =>
      cases h
      rw [Yields.null_iff.mp hcode]
      exact fun sp s hs hplaced => hs.pushConstant (n := 0) hplaced.first
  | this span =>
      obtain ⟨u, t₁, hobject, hend⟩ := bind_eq_ok h
      obtain ⟨hsame, hkind⟩ := demandObject_eq_ok y hobject
      subst hsame
      cases hend
      rw [Yields.this_iff.mp hcode]
      intro sp s hs hplaced
      have hload : load (act.site y).owner (.fixed 3) s = .ok f.this s :=
        (load_run rfl (by decide)).trans (by rw [hs.holds.this hkind])
      exact hs.push hplaced.first hload
  | var name span =>
      obtain ⟨⟨type, v'⟩, t₁, hread, hend⟩ := bind_eq_ok h
      cases hend
      obtain ⟨entry, hentry, rfl⟩ := Yields.var_iff.mp hcode
      rw [Expression.mentioned, List.mem_singleton] at hnamed
      intro sp s hs hplaced
      obtain ⟨hsame, -, s', hs'⟩ := hs.pushVar (Ne.symm hnamed) hentry hplaced.first hread
      subst hsame
      exact ⟨s', hs'⟩
  | element array index span =>
      obtain ⟨⟨type, base⟩, t₁, hbase, hrest⟩ := bind_eq_ok h
      obtain ⟨offset, t₂, hoffset, hread⟩ := bind_eq_ok hrest
      obtain ⟨entry, c, hentry, hc, rfl⟩ := Yields.element_iff.mp hcode
      rw [Expression.mentioned, List.mem_cons, not_or] at hnamed
      exact (ih.eval act hoffset hc hnamed.2).element (Ne.symm hnamed.1) hentry hbase hread
  | call receiver name arguments span =>
      obtain ⟨⟨className, objects⟩, t₁, hreceive, hrest⟩ := bind_eq_ok h
      obtain ⟨vs, t₂, hvalues, hinvoke⟩ := bind_eq_ok hrest
      obtain ⟨codes, hcodes, hcount, rfl⟩ := Yields.call_iff.mp hcode
      rw [Expression.mentioned, List.mem_append, not_or] at hnamed
      exact ih.call hreceive hvalues hinvoke hcodes hcount hnamed.1 hnamed.2
  | unary op operand span =>
      obtain ⟨x, t₁, hx, hend⟩ := bind_eq_ok h
      cases hend
      obtain ⟨c, hc, rfl⟩ := Yields.unary_iff.mp hcode
      rw [Expression.mentioned] at hnamed
      exact (ih.eval act hx hc hnamed).unary op
  | binary op left right span =>
      obtain ⟨x, t₁, hx, hrest⟩ := bind_eq_ok h
      obtain ⟨z, t₂, hz, hvalue⟩ := bind_eq_ok hrest
      obtain ⟨c, d, hc, hd, rfl⟩ := Yields.binary_iff.mp hcode
      rw [Expression.mentioned, List.mem_append, not_or] at hnamed
      exact (ih.eval act hx hc hnamed.1).binary (ih.eval act hz hd hnamed.2) hvalue

theorem Simulates.evalAll_succ (act : Activation w) {es : List Expression} {vs : List Int16}
    {codes : List (List Command)} (h : Evaluation.evalAll w (fuel + 1) f es t = .ok vs t')
    (hcodes : YieldEach act.context es codes)
    (hnamed : "this" ∉ Expression.mentionedInAll es) :
    ComputesAll y act f t t' vs codes.flatten := by
  cases hcodes with
  | nil =>
      cases h
      exact .nil
  | cons hc hcs =>
      obtain ⟨x, t₁, hx, hrest⟩ := bind_eq_ok h
      obtain ⟨xs, t₂, hxs, hend⟩ := bind_eq_ok hrest
      cases hend
      rw [Expression.mentionedInAll, List.mem_append, not_or] at hnamed
      exact (ih.eval act hx hc hnamed.1).all.append (ih.evalAll act hxs hcs hnamed.2)

end Step

end JackToolchain.Evaluation
