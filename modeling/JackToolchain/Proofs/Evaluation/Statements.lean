import JackToolchain.Proofs.Evaluation.Expressions

/-!
# Statements

The commands of statements do to the machine what their evaluation does to frame and store, and go
on behind them or to a return.
-/

namespace JackToolchain.Evaluation

open JackToolchain.Machine JackToolchain.Memory JackToolchain.Lowering JackToolchain.Syntax
open JackToolchain.Scope JackToolchain.Stack

variable {w : World} {y : Layout w} {act : Activation w} {f f' : Frame} {t t₁ t' : Store}
  {sp a : Nat} {v : Int16} {s s' : State} {c d : List Command} {name : String} {b : Bool}

namespace Matches

/-- A step that changes nothing but where the machine is. -/
theorem moves (h : Matches y act f t sp s) (hstep : step y.program s = .ok none { s with pc := a }) :
    ∃ s', Goes y act f t sp (Below sp) a s s' := by
  have hceiling := h.ceiling
  refine ⟨_, .single hstep, ?_, rfl, fun _ _ => rfl, rfl⟩
  exact h.reached (.single hstep) (fun _ _ => rfl) rfl rfl h.stack h.floor (by omega)

theorem skip (h : Matches y act f t sp s) (hhas : (act.site y).Has s.pc (.label name)) :
    ∃ s', Goes y act f t sp (Below sp) (s.pc + 1) s s' :=
  h.moves (hhas.step_eq rfl)

theorem jump (h : Matches y act f t sp s) (hhas : (act.site y).Has s.pc (.goto name))
    (hlabel : y.linked.directory.label (act.site y).owner name = .ok a) :
    ∃ s', Goes y act f t sp (Below sp) a s s' := by
  have hop : resolve y.linked.directory (act.site y).base (act.site y).owner (.goto name) =
      .ok (.jump a) := by
    rw [resolve, hlabel]
    rfl
  exact h.moves (hhas.step_eq hop)

theorem complement_truth (b : Bool) : ~~~truth b = truth !b := by
  cases b <;> rfl

/-- The top of the stack is dropped. -/
theorem drops (h : Matches y act f t (sp + 1) s) (hfloor : act.floor ≤ sp)
    {m : Vector Int16 ramSize} (hstep : step y.program s = .ok none { s with ram := m, pc := a })
    (hwords : ∀ b, b ≠ 0 → b < 5 ∨ 13 ≤ b → word m b = word s.ram b)
    (hstack : word m 0 = pointer sp) :
    ∃ s', Goes y act f t sp (Below sp) a s s' := by
  have hceiling := h.ceiling
  have hbase := act.le_floor
  refine ⟨_, .single hstep, ?_, rfl, fun b hb => hwords b ?_ ?_, rfl⟩
  · exact h.reached (.single hstep) (fun b hb => hwords b (by omega) (by omega)) rfl rfl hstack
      hfloor (by omega)
  · unfold Below at hb
    omega
  · unfold Below at hb
    omega

theorem dropTemp (h : Matches y act f t (sp + 1) s) (hfloor : act.floor ≤ sp)
    (hhas : (act.site y).Has s.pc (.pop .temp 0)) :
    ∃ s', Goes y act f t sp (Below sp) (s.pc + 1) s s' := by
  have hbase := act.le_floor
  have hceiling := h.ceiling
  refine h.drops hfloor (step_pop (a := 5) _ hhas rfl (by decide) h.stack (by omega) (by omega) rfl)
    (fun b hb hfree => ?_) ?_
  · rw [word_put_of_ne _ _ (by omega), word_popped_of_ne _ _ hb]
  · rw [word_put_of_ne _ _ (by omega), word_popped_zero _ _ (by decide), Nat.add_sub_cancel]

/-- A jump is taken if there is a word of ones on the stack. -/
theorem jumpIf (h : Matches y act f t (sp + 1) s) (hfloor : act.floor ≤ sp)
    (hhas : (act.site y).Has s.pc (.ifGoto name)) (htop : word s.ram sp = truth b)
    (hlabel : y.linked.directory.label (act.site y).owner name = .ok a) :
    ∃ s', Goes y act f t sp (Below sp) (if b then a else s.pc + 1) s s' := by
  have hbase := act.le_floor
  have hceiling := h.ceiling
  have hop : resolve y.linked.directory (act.site y).base (act.site y).owner (.ifGoto name) =
      .ok (.jumpIf a) := by
    rw [resolve, hlabel]
    rfl
  have htarget : (if word s.ram (sp + 1 - 1) = 0 then s.pc + 1 else a) =
      if b then a else s.pc + 1 := by
    rw [Nat.add_sub_cancel, htop]
    cases b <;> rfl
  have hstep := (hhas.step_eq hop).trans
    (execute_jumpIf s.pc a h.stack (by omega) (by omega))
  rw [htarget] at hstep
  refine h.drops hfloor hstep (fun b hb _ => word_popped_of_ne _ _ hb) ?_
  rw [word_popped_zero _ _ (by decide), Nat.add_sub_cancel]

end Matches

/-- A condition that does not hold jumps away. -/
theorem Computes.unless (h : Computes y act f t t' (truth b) c)
    (hs : Matches y act f t sp s)
    (hplaced : (act.site y).Placed s.pc (c ++ [.arithmetic .not, .ifGoto name]))
    (hlabel : y.linked.directory.label (act.site y).owner name = .ok a) :
    ∃ s', Goes y act f t' sp (Below sp)
      (if b then s.pc + (c ++ [Command.arithmetic .not, .ifGoto name]).length else a) s s' := by
  obtain ⟨s₁, h₁⟩ := h sp s hs hplaced.left
  have hright := hplaced.right
  rw [← h₁.pc] at hright
  obtain ⟨s₂, h₂⟩ := h₁.matched.unary hs.floor .not hright.first h₁.top
  have hjump := hright.tail.first
  rw [← h₂.pc] at hjump
  obtain ⟨s₃, h₃⟩ := h₂.matched.jumpIf hs.floor hjump
    (h₂.top.trans (Matches.complement_truth b)) hlabel
  have hall := (h₁.toGoes.trans h₂.toGoes).trans h₃
  have htarget : (if (!b) = true then a else s₂.pc + 1) =
      if b then s.pc + (c ++ [Command.arithmetic .not, .ifGoto name]).length else a := by
    rw [h₂.pc, h₁.pc, List.length_append, List.length_cons, List.length_cons, List.length_nil]
    cases b <;> rfl
  rw [htarget] at hall
  exact ⟨s₃, hall⟩

namespace Goes

theorem reserved (h : Goes y act f t act.floor (Below act.floor) a s s') :
    Goes y act f t act.floor act.Reserved a s s' :=
  h.mono fun _ hb => hb.below le_rfl

theorem ends (h : Goes y act f t act.floor (Below act.floor) a s s') : Ends y act f t a s none :=
  ⟨s', h.reserved⟩

end Goes

/-- A value in front of a return leaves the subroutine. -/
theorem Pushes.leaves {target : Nat} (h : Pushes y act f t act.floor v a s s')
    (hhas : (act.site y).Has s'.pc .return) : Ends y act f' t target s (some v) :=
  ⟨s', h.proceeds, h.matched.shared, hhas, h.matched.stack, h.matched.ceiling, h.top,
    h.kept.mono fun _ hb => hb.below le_rfl⟩

namespace Performs

variable {outcome : Option Int16} {e : Entry}

theorem nil : Performs y act f f t t none [] := fun s hs _ =>
  ⟨s, .refl s, hs, rfl, fun _ _ => rfl, rfl⟩

/-- Statements that go on are followed by others. -/
theorem append (h : Performs y act f f' t t₁ none c) {f'' : Frame}
    (h' : Performs y act f' f'' t₁ t' outcome d) : Performs y act f f'' t t' outcome (c ++ d) := by
  intro s hs hplaced
  obtain ⟨s₁, h₁⟩ := h s hs hplaced.left
  have hright := hplaced.right
  rw [← h₁.pc] at hright
  have hends := h' s₁ h₁.matched hright
  rw [h₁.pc, Nat.add_assoc, ← List.length_append] at hends
  exact hends.after h₁

/-- Nothing follows statements that leave the subroutine. -/
theorem leave (h : Performs y act f f' t t' (some v) c) (d : List Command) :
    Performs y act f f' t t' (some v) (c ++ d) := by
  intro s hs hplaced
  exact h s hs hplaced.left

theorem letVariable (h : Computes y act f t t₁ v c) (hname : name ≠ "this")
    (hentry : act.entry? name = some e) (hassign : assign w f name v t₁ = .ok f' t') :
    Performs y act f f' t t' none (c ++ [popEntry e]) := by
  intro s hs hplaced
  obtain ⟨s₁, h₁⟩ := h act.floor s hs hplaced.left
  have hhas := hplaced.right.first
  rw [← h₁.pc] at hhas
  obtain ⟨s₂, h₂⟩ := h₁.matched.popVar le_rfl hname hentry hhas h₁.top hassign
  rw [h₁.pc, Nat.add_assoc, ← List.length_singleton, ← List.length_append] at h₂
  exact ⟨s₂, (h₁.toGoes.mono fun _ hb => hb.below le_rfl).trans h₂⟩

theorem letElement {t₀ t₂ : Store} {type : TypeName} {base x : Int16}
    (hname : name ≠ "this") (hentry : act.entry? name = some e)
    (hbase : readVar w f name t = .ok (type, base) t₀) (hindex : Computes y act f t₀ t₁ x c)
    (hvalue : Computes y act f t₁ t₂ v d) {u : Unit}
    (hwrite : write w (base.toInt + x.toInt) v t₂ = .ok u t') :
    Performs y act f f t t' none ([pushEntry e] ++ c ++ [.arithmetic .add] ++ d ++
      [.pop .temp 0, .pop .pointer 1, .push .temp 0, .pop .that 0]) := by
  intro s hs hplaced
  have hlow := hs.sp_pos
  obtain ⟨hunchanged, -, s₁, h₁⟩ :=
    hs.pushVar hname hentry hplaced.left.left.left.left.first hbase
  subst hunchanged
  have hplaced₁ := hplaced.left.left.left.right
  have hpc₁ : s.pc + [pushEntry e].length = s₁.pc := h₁.pc.symm
  rw [hpc₁] at hplaced₁
  obtain ⟨s₂, h₂⟩ := hindex (act.floor + 1) s₁ h₁.matched hplaced₁
  have hplaced₂ := hplaced.left.left.right
  have hpc₂ : s.pc + ([pushEntry e] ++ c).length = s₂.pc := by
    rw [List.length_append, ← Nat.add_assoc, hpc₁, h₂.pc]
  rw [hpc₂] at hplaced₂
  have hleft : word s₂.ram act.floor = base :=
    (h₂.kept.words _ (.inr ⟨by omega, by omega⟩)).trans h₁.top
  obtain ⟨s₃, h₃⟩ := h₂.matched.binary le_rfl rfl hplaced₂.first hleft h₂.top
  have hplaced₃ := hplaced.left.right
  have hpc₃ : s.pc + ([pushEntry e] ++ c ++ [Command.arithmetic .add]).length = s₃.pc := by
    rw [List.length_append, ← Nat.add_assoc, hpc₂, h₃.pc, List.length_singleton]
  rw [hpc₃] at hplaced₃
  obtain ⟨s₄, h₄⟩ := hvalue (act.floor + 1) s₃ h₃.matched hplaced₃
  have hplaced₄ := hplaced.right
  have hpc₄ : s.pc + ([pushEntry e] ++ c ++ [Command.arithmetic .add] ++ d).length = s₄.pc := by
    rw [List.length_append, ← Nat.add_assoc, hpc₃, h₄.pc]
  rw [hpc₄] at hplaced₄
  obtain ⟨a, ha, hlt, rfl, hallocated⟩ := write_eq_ok hwrite
  obtain ⟨hheap, hbelow⟩ := hallocated y.strict
  have haddress : word s₄.ram act.floor = pointer a :=
    (h₄.kept.words _ (.inr ⟨by omega, by omega⟩)).trans (h₃.top.trans (add_eq_pointer ha hlt))
  obtain ⟨s₅, h₅⟩ := h₄.matched.writeThat le_rfl hplaced₄ haddress h₄.top hheap hbelow
  have hup {b : Nat} (hb : Below act.floor b) : Below (act.floor + 1) b :=
    hb.mono (Nat.le_succ _)
  have hall := (((h₁.toGoes.trans (h₂.toGoes.mono fun _ => hup)).trans h₃.toGoes).trans
    (h₄.toGoes.mono fun _ => hup)).trans h₅
  rw [← hpc₄, Nat.add_assoc] at hall
  rw [List.length_append]
  exact hall.ends

theorem doCall (h : Computes y act f t t' v c) :
    Performs y act f f t t' none (c ++ [.pop .temp 0]) := by
  intro s hs hplaced
  obtain ⟨s₁, h₁⟩ := h act.floor s hs hplaced.left
  have hhas := hplaced.right.first
  rw [← h₁.pc] at hhas
  obtain ⟨s₂, h₂⟩ := h₁.matched.dropTemp le_rfl hhas
  rw [h₁.pc, Nat.add_assoc, ← List.length_singleton, ← List.length_append] at h₂
  exact (h₁.toGoes.trans h₂).ends

theorem leaving (h : Computes y act f t t' v c) :
    Performs y act f f t t' (some v) (c ++ [.return]) := by
  intro s hs hplaced
  obtain ⟨s₁, h₁⟩ := h act.floor s hs hplaced.left
  have hhas := hplaced.right.first
  rw [← h₁.pc] at hhas
  exact h₁.leaves hhas

theorem skip (name : String) : Performs y act f f t t none [.label name] := by
  intro s hs hplaced
  obtain ⟨s₁, h₁⟩ := hs.skip hplaced.first
  exact h₁.ends

theorem labelled (h : Performs y act f f' t t' outcome c) (name : String) :
    Performs y act f f' t t' outcome (c ++ [.label name]) := by
  cases outcome with
  | none => exact h.append (.skip name)
  | some v => exact h.leave [.label name]

end Performs

section Conditions

variable {outcome : Option Int16} {e : List Command}

/-- Behind a condition that holds are the statements that it guards. -/
theorem Computes.holds (h : Computes y act f t t₁ (truth true) c)
    (hrest : Performs y act f f' t₁ t' outcome d) (hs : Matches y act f t act.floor s)
    (hplaced : (act.site y).Placed s.pc (c ++ [.arithmetic .not, .ifGoto name] ++ d))
    (hlabel : y.linked.directory.label (act.site y).owner name = .ok a) :
    Ends y act f' t' (s.pc + (c ++ [Command.arithmetic .not, .ifGoto name] ++ d).length) s
      outcome := by
  obtain ⟨s₁, h₁⟩ := h.unless hs hplaced.left hlabel
  have hbehind := hplaced.right
  rw [if_pos rfl] at h₁
  rw [← h₁.pc] at hbehind
  have hends := hrest s₁ h₁.matched hbehind
  rw [h₁.pc, Nat.add_assoc, ← List.length_append] at hends
  exact hends.after h₁.reserved

/-- A condition that does not hold leads to its label. -/
theorem Computes.fails (h : Computes y act f t t₁ (truth false) c)
    (hrest : Performs y act f f' t₁ t' outcome d) (hs : Matches y act f t act.floor s)
    (hplaced : (act.site y).Placed s.pc (c ++ [.arithmetic .not, .ifGoto name]))
    (hlabel : y.linked.directory.label (act.site y).owner name = .ok a)
    (hbehind : (act.site y).Placed a d) : Ends y act f' t' (a + d.length) s outcome := by
  obtain ⟨s₁, h₁⟩ := h.unless hs hplaced hlabel
  rw [if_neg (by decide)] at h₁
  rw [← h₁.pc] at hbehind
  have hends := hrest s₁ h₁.matched hbehind
  rw [h₁.pc] at hends
  exact hends.after h₁.reserved

namespace Performs

theorem ifThen (h : Computes y act f t t₁ (truth true) c)
    (hbody : Performs y act f f' t₁ t' outcome d) (stop : String) :
    Performs y act f f' t t' outcome
      (c ++ [.arithmetic .not, .ifGoto stop] ++ d ++ [.label stop]) := by
  intro s hs hplaced
  have hlabel := hplaced.right.label
  rw [List.append_assoc] at hplaced ⊢
  exact h.holds (hbody.labelled stop) hs hplaced hlabel

theorem ifThen_of_not (h : Computes y act f t t' (truth false) c) (d : List Command)
    (stop : String) :
    Performs y act f f t t' none
      (c ++ [.arithmetic .not, .ifGoto stop] ++ d ++ [.label stop]) := by
  intro s hs hplaced
  rw [List.length_append, ← Nat.add_assoc]
  exact h.fails (skip stop) hs hplaced.left.left hplaced.right.label hplaced.right

/-- Statements that go on jump over others. -/
theorem jumpOver (h : Performs y act f f' t t' outcome c) (d : List Command) (stop : String) :
    Performs y act f f' t t' outcome (c ++ ([.goto stop] ++ d ++ [.label stop])) := by
  cases outcome with
  | some v => exact h.leave _
  | none =>
      refine h.append fun s hs hplaced => ?_
      obtain ⟨s₁, h₁⟩ := hs.jump hplaced.left.first hplaced.right.label
      have hlabel := hplaced.right
      rw [← h₁.pc] at hlabel
      have hends := skip stop s₁ h₁.matched hlabel
      rw [h₁.pc, Nat.add_assoc, ← List.length_append] at hends
      exact hends.after h₁.reserved

theorem ifElse (h : Computes y act f t t₁ (truth true) c)
    (hbody : Performs y act f f' t₁ t' outcome d) (e : List Command) (other stop : String) :
    Performs y act f f' t t' outcome (c ++ [.arithmetic .not, .ifGoto other] ++ d ++
      [.goto stop, .label other] ++ e ++ [.label stop]) := by
  have hcode : c ++ [Command.arithmetic .not, .ifGoto other] ++ d ++
      [.goto stop, .label other] ++ e ++ [.label stop] =
        c ++ [Command.arithmetic .not, .ifGoto other] ++
          (d ++ ([.goto stop] ++ ([.label other] ++ e) ++ [.label stop])) := by
    simp
  intro s hs hplaced
  have hlabel := (hplaced.left.left.right.tail).label
  rw [hcode] at hplaced ⊢
  exact h.holds (hbody.jumpOver ([.label other] ++ e) stop) hs hplaced hlabel

theorem ifElse_of_not (h : Computes y act f t t₁ (truth false) c)
    (hbody : Performs y act f f' t₁ t' outcome e) (d : List Command) (other stop : String) :
    Performs y act f f' t t' outcome (c ++ [.arithmetic .not, .ifGoto other] ++ d ++
      [.goto stop, .label other] ++ e ++ [.label stop]) := by
  have hcode : c ++ [Command.arithmetic .not, .ifGoto other] ++ d ++
      [.goto stop, .label other] ++ e ++ [.label stop] =
        c ++ [Command.arithmetic .not, .ifGoto other] ++ d ++ [.goto stop] ++
          ([.label other] ++ (e ++ [.label stop])) := by
    simp
  intro s hs hplaced
  rw [hcode] at hplaced ⊢
  rw [List.length_append, ← Nat.add_assoc]
  exact h.fails ((skip other).append (hbody.labelled stop)) hs hplaced.left.left.left
    hplaced.right.label hplaced.right

/-- A loop without another turn. -/
theorem whileLoop_of_not (h : Computes y act f t t' (truth false) c) (d : List Command)
    (again done : String) :
    Performs y act f f t t' none ([.label again] ++
      (c ++ [.arithmetic .not, .ifGoto done]) ++ d ++ [.goto again, .label done]) := by
  have hcode : [Command.label again] ++ (c ++ [.arithmetic .not, .ifGoto done]) ++ d ++
      [.goto again, .label done] =
        [Command.label again] ++ (c ++ [.arithmetic .not, .ifGoto done]) ++ (d ++ [.goto again]) ++
          [.label done] := by
    simp
  intro s hs hplaced
  obtain ⟨s₁, h₁⟩ := hs.skip hplaced.left.left.left.first
  have hcondition := hplaced.left.left.right
  rw [List.length_singleton, ← h₁.pc] at hcondition
  rw [hcode] at hplaced ⊢
  rw [List.length_append, ← Nat.add_assoc]
  exact (h.fails (skip done) h₁.matched hcondition hplaced.right.label hplaced.right).after
    h₁.reserved

/-- Another turn of a loop. It leaves the subroutine, or the loop starts again. -/
theorem whileLoop (h : Computes y act f t t₁ (truth true) c) {f₁ : Frame} {t₂ : Store}
    {turn : Option Int16} {again done : String} (hbody : Performs y act f f₁ t₁ t₂ turn d)
    (hrest : turn = none → Performs y act f₁ f' t₂ t' outcome ([.label again] ++
      (c ++ [.arithmetic .not, .ifGoto done]) ++ d ++ [.goto again, .label done]))
    (hleave : ∀ v, turn = some v → outcome = some v ∧ t' = t₂) :
    Performs y act f f' t t' outcome ([.label again] ++
      (c ++ [.arithmetic .not, .ifGoto done]) ++ d ++ [.goto again, .label done]) := by
  intro s hs hplaced
  obtain ⟨s₁, h₁⟩ := hs.skip hplaced.left.left.left.first
  have hturn := hplaced.left
  rw [List.append_assoc] at hturn
  have hturn := hturn.right
  rw [List.length_singleton, ← h₁.pc] at hturn
  have hends := h.holds hbody h₁.matched hturn hplaced.right.tail.label
  cases turn with
  | some v =>
      obtain ⟨rfl, rfl⟩ := hleave v rfl
      exact Ends.after h₁.reserved hends
  | none =>
      obtain ⟨s₂, h₂⟩ := hends
      have hgoto := hplaced.right.first
      have hpc : s.pc + ([Command.label again] ++
          (c ++ [Command.arithmetic .not, .ifGoto done]) ++ d).length = s₂.pc := by
        rw [h₂.pc, h₁.pc, List.append_assoc, List.length_append, ← Nat.add_assoc]
        rfl
      rw [hpc] at hgoto
      obtain ⟨s₃, h₃⟩ := h₂.matched.jump hgoto hplaced.left.left.left.label
      have hagain := hplaced
      rw [← h₃.pc] at hagain
      have hends := hrest rfl s₃ h₃.matched hagain
      rw [h₃.pc] at hends
      exact hends.after ((h₁.reserved.trans h₂).trans h₃.reserved)

end Performs

end Conditions

section Step

variable {fuel : Nat} (ih : Simulates y fuel)

include ih

theorem Simulates.holds_succ (act : Activation w) {e : Expression} {code : List Command}
    (h : Evaluation.holds w (fuel + 1) f e t = .ok b t')
    (hcode : (lowerExpression act.context e).Yields code) (hnamed : "this" ∉ e.mentioned) :
    Computes y act f t t' (truth b) code := by
  obtain ⟨v, t₁, hv, hrest⟩ := bind_eq_ok h
  obtain ⟨u, t₂, hdemand, hend⟩ := bind_eq_ok hrest
  obtain ⟨hsame, hrule⟩ := demand_eq_ok hdemand
  subst hsame
  cases hend
  have hvalue : truth (v != 0) = v := by
    have hcases : v = 0 ∨ v = -1 := by simpa using hrule y.strict
    rcases hcases with rfl | rfl
    · rfl
    · rfl
  rw [hvalue]
  exact ih.eval act hv hcode hnamed

/-- The machine follows the evaluation of a statement. -/
theorem Simulates.run_succ (act : Activation w) {st : Statement} {outcome : Option Int16}
    {code : List Command} {labels : Labels}
    (h : Evaluation.run w (fuel + 1) f st t = .ok (f', outcome) t')
    (hcode : (lowerStatement act.context labels st).1.Yields code)
    (hnamed : "this" ∉ st.mentioned) : Performs y act f f' t t' outcome code := by
  cases st with
  | letVariable target value span =>
      obtain ⟨v, t₁, hv, hrest⟩ := bind_eq_ok h
      obtain ⟨g, t₂, hassign, hend⟩ := bind_eq_ok hrest
      cases hend
      obtain ⟨entry, c, hentry, hc, rfl⟩ := Yields.letVariable_iff.mp hcode
      rw [Statement.mentioned, List.mem_cons, not_or] at hnamed
      exact .letVariable (ih.eval act hv hc hnamed.2) (Ne.symm hnamed.1) hentry hassign
  | letElement target index value span =>
      obtain ⟨⟨type, base⟩, t₀, hbase, hrest⟩ := bind_eq_ok h
      obtain ⟨x, t₁, hx, hrest⟩ := bind_eq_ok hrest
      obtain ⟨v, t₂, hv, hrest⟩ := bind_eq_ok hrest
      obtain ⟨u, t₃, hwrite, hend⟩ := bind_eq_ok hrest
      cases hend
      obtain ⟨entry, c, d, hentry, hc, hd, rfl⟩ := Yields.letElement_iff.mp hcode
      rw [Statement.mentioned, List.mem_cons, List.mem_append, not_or, not_or] at hnamed
      exact .letElement (Ne.symm hnamed.1) hentry hbase (ih.eval act hx hc hnamed.2.1)
        (ih.eval act hv hd hnamed.2.2) hwrite
  | ifThen condition consequent span =>
      obtain ⟨b, t₁, hb, hrest⟩ := bind_eq_ok h
      obtain ⟨c, d, hc, hd, rfl⟩ := Yields.ifThen_iff.mp hcode
      rw [Statement.mentioned, List.mem_append, not_or] at hnamed
      have hcondition := ih.holds act hb hc hnamed.1
      cases b with
      | true => exact .ifThen hcondition (ih.runAll act hrest hd hnamed.2) _
      | false =>
          cases hrest
          exact .ifThen_of_not hcondition d _
  | ifElse condition consequent alternate span =>
      obtain ⟨b, t₁, hb, hrest⟩ := bind_eq_ok h
      obtain ⟨c, d, e, hc, hd, he, rfl⟩ := Yields.ifElse_iff.mp hcode
      rw [Statement.mentioned, List.mem_append, List.mem_append, not_or, not_or] at hnamed
      obtain ⟨⟨hnamed, hconsequent⟩, halternate⟩ := hnamed
      have hcondition := ih.holds act hb hc hnamed
      cases b with
      | true => exact .ifElse hcondition (ih.runAll act hrest hd hconsequent) e _ _
      | false => exact .ifElse_of_not hcondition (ih.runAll act hrest he halternate) d _ _
  | whileLoop condition body span =>
      obtain ⟨b, t₁, hb, hrest⟩ := bind_eq_ok h
      have hloop := hcode
      obtain ⟨c, d, hc, hd, rfl⟩ := Yields.whileLoop_iff.mp hcode
      have hmentioned := hnamed
      rw [Statement.mentioned, List.mem_append, not_or] at hnamed
      have hcondition := ih.holds act hb hc hnamed.1
      cases b with
      | false =>
          cases hrest
          exact .whileLoop_of_not hcondition d _ _
      | true =>
          obtain ⟨⟨g, turn⟩, t₂, hturn, hrest⟩ := bind_eq_ok hrest
          have hbody := ih.runAll act hturn hd hnamed.2
          cases turn with
          | some v =>
              cases hrest
              exact .whileLoop hcondition hbody (fun hturn => by cases hturn)
                fun v hv => ⟨hv, rfl⟩
          | none =>
              exact .whileLoop hcondition hbody
                (fun _ => ih.run act hrest hloop hmentioned) fun v hv => by cases hv
  | doCall call span =>
      obtain ⟨v, t₁, hv, hend⟩ := bind_eq_ok h
      cases hend
      obtain ⟨c, hc, rfl⟩ := Yields.doCall_iff.mp hcode
      exact .doCall (ih.eval act hv hc hnamed)
  | «return» value span =>
      cases value with
      | some value =>
          obtain ⟨v, t₁, hv, hend⟩ := bind_eq_ok h
          cases hend
          obtain ⟨c, hc, rfl⟩ := Yields.return_some_iff.mp hcode
          exact .leaving (ih.eval act hv hc hnamed)
      | none =>
          cases h
          rw [Yields.return_none_iff.mp hcode]
          have hzero : Computes y act f t t 0 [.push .constant 0] :=
            fun sp s hs hplaced => hs.pushConstant (n := 0) hplaced.first
          exact .leaving hzero

theorem Simulates.runAll_succ (act : Activation w) {ss : List Statement}
    {outcome : Option Int16} {code : List Command} {labels : Labels}
    (h : Evaluation.runAll w (fuel + 1) f ss t = .ok (f', outcome) t')
    (hcode : (lowerStatements act.context {} labels ss).1.Yields code)
    (hnamed : "this" ∉ Statement.mentionedInAll ss) : Performs y act f f' t t' outcome code := by
  cases ss with
  | nil =>
      cases h
      rw [Yields.statements_nil_iff.mp hcode]
      exact .nil
  | cons st rest =>
      obtain ⟨⟨g, first⟩, t₁, hfirst, hrest⟩ := bind_eq_ok h
      obtain ⟨c, d, hc, hd, rfl⟩ := Yields.statements_cons_iff.mp hcode
      rw [Statement.mentionedInAll, List.mem_append, not_or] at hnamed
      have hperforms := ih.run act hfirst hc hnamed.1
      cases first with
      | some v =>
          cases hrest
          exact hperforms.leave d
      | none => exact hperforms.append (ih.runAll act hrest hd hnamed.2)

end Step

end JackToolchain.Evaluation
