import JackToolchain.Proofs.Evaluation.Commands
import JackToolchain.Proofs.Evaluation.Routines

/-!
# Evaluations followed by a machine

What a machine does at the commands of an expression, a call and a statement when their evaluation
succeeds. Evaluations with little fuel are followed first.
-/

namespace JackToolchain.Evaluation

open JackToolchain.Machine JackToolchain.Memory JackToolchain.Lowering JackToolchain.Syntax
open JackToolchain.Scope JackToolchain.Stack

variable {w : World} {y : Layout w} {act : Activation w} {f f' : Frame} {t t' : Store}
  {sp k a : Nat} {v : Int16} {s s' s'' : State}

/-- A call has left its value in place of its arguments. -/
structure Answers (y : Layout w) (t : Store) (k : Nat) (v : Int16) (target : Nat)
    (s s' : State) : Prop where
  proceeds : Proceeds y.program s s'
  shared : Shared y t s'
  stack : word s'.ram 0 = pointer (k + 1)
  ceiling : k + 1 ≤ 2048
  top : word s'.ram k = v
  pc : s'.pc = target
  kept : Kept (Below k) s s'

/-- A return has its value on top of the stack. -/
structure Leaves (y : Layout w) (act : Activation w) (t : Store) (v : Int16) (P : Nat → Prop)
    (s s' : State) : Prop where
  proceeds : Proceeds y.program s s'
  shared : Shared y t s'
  has : (act.site y).Has s'.pc .return
  stack : word s'.ram 0 = pointer (act.floor + 1)
  ceiling : act.floor + 1 ≤ 2048
  top : word s'.ram act.floor = v
  kept : Kept P s s'

/-- Statements go on behind their commands, or leave the subroutine. -/
def Ends (y : Layout w) (act : Activation w) (f : Frame) (t : Store) (target : Nat) (s : State) :
    Option Int16 → Prop
  | none => ∃ s', Goes y act f t act.floor act.Reserved target s s'
  | some v => ∃ s', Leaves y act t v act.Reserved s s'

theorem Answers.pushes (h : Answers y t' k v a s s') (hs : Matches y act f t sp s)
    (hfloor : act.floor ≤ k) : Pushes y act f t' k v a s s' := by
  have hlow := act.low
  refine ⟨⟨h.proceeds, ⟨h.shared, ?_, h.stack, by omega, h.ceiling, hs.roomy.proceeds h.proceeds⟩,
    h.pc, h.kept⟩, h.top⟩
  refine hs.holds.same y (fun b hb hb' => h.kept.words b (.inl ⟨hb, hb'⟩)) fun b hb hb' => ?_
  exact h.kept.words b (.inr ⟨by omega, by omega⟩)

theorem Ends.after {outcome : Option Int16} (h : Goes y act f t sp act.Reserved k s s')
    (h' : Ends y act f' t' a s' outcome) : Ends y act f' t' a s outcome := by
  cases outcome with
  | none =>
      obtain ⟨u, hu⟩ := h'
      exact ⟨u, h.trans hu⟩
  | some v =>
      obtain ⟨u, hu⟩ := h'
      exact ⟨u, { hu with proceeds := h.proceeds.trans hu.proceeds, kept := h.kept.trans hu.kept }⟩

/-- A call of a routine answers as the evaluation does. -/
theorem answers_routine (r : Routine) {vs : List Int16} {l : Site} {count : UInt16}
    (h : builtin w r.name vs t = .ok v t') (hshared : Shared y t s) (hroomy : Roomy y.program s)
    (hstack : word s.ram 0 = pointer (k + vs.length)) (hceiling : k + vs.length ≤ 2048)
    (hlow : 256 ≤ k) (hvalues : OnStack s.ram k vs) (hlinked : l.linked = y.linked)
    (hhas : l.Has s.pc (.call r.name count)) (hcount : count.toNat = vs.length) :
    ∃ s', Answers y t' k v (s.pc + 1) s s' := by
  obtain ⟨s₁, hcall, hshared₁, hdropped⟩ := callHost_run l.owner (Routine.ofName?_name r) h hcount
    hshared hstack hvalues hlow hceiling
  have hop : resolve l.linked.directory l.base l.owner (.call r.name count) =
      .ok (.call (.host r) count) := by
    rw [hlinked, ← y.routines r]
    rfl
  have hstep : step y.program s =
      .ok none { s₁ with ram := pushed s₁.ram k v, pc := s.pc + 1 } := by
    have hexecute := hhas.step_eq hop
    rw [hlinked] at hexecute
    refine hexecute.trans ?_
    simp only [execute]
    rw [bind_of_ok hcall]
    rfl
  have hsize : ramSize = 32768 := rfl
  have hstack' : word (pushed s₁.ram k v) 0 = pointer (k + 1) := word_pushed_zero _ _ _ (by decide)
  have hroom := (hroomy.step hstep).inRoom.le hstack' (by omega)
  refine ⟨_, .single hstep, ?_, hstack', hroom, ?_, rfl, ?_, hdropped.returns⟩
  · exact hshared₁.same (fun b hb => word_pushed_of_ne _ _ (by omega) (by omega)) rfl rfl
  · exact word_pushed_self _ _ (by omega) (by omega)
  · intro b hb
    unfold Below at hb
    simp only
    rw [word_pushed_of_ne _ _ (by omega) (by omega), hdropped.below b (by omega) (by omega)]

/-- Commands that leave a value on the stack. -/
def Computes (y : Layout w) (act : Activation w) (f : Frame) (t t' : Store) (v : Int16)
    (code : List Command) : Prop :=
  ∀ sp s, Matches y act f t sp s → (act.site y).Placed s.pc code →
    ∃ s', Pushes y act f t' sp v (s.pc + code.length) s s'

/-- Commands that leave some values on the stack. -/
def ComputesAll (y : Layout w) (act : Activation w) (f : Frame) (t t' : Store) (vs : List Int16)
    (code : List Command) : Prop :=
  ∀ sp s, Matches y act f t sp s → (act.site y).Placed s.pc code →
    ∃ s', Goes y act f t' (sp + vs.length) (Below sp) (s.pc + code.length) s s' ∧
      OnStack s'.ram sp vs

/-- Commands that go on behind them, or leave the subroutine. -/
def Performs (y : Layout w) (act : Activation w) (f f' : Frame) (t t' : Store)
    (outcome : Option Int16) (code : List Command) : Prop :=
  ∀ s, Matches y act f t act.floor s → (act.site y).Placed s.pc code →
    Ends y act f' t' (s.pc + code.length) s outcome

/-- Where expressions of the subroutine are lowered. -/
abbrev Activation.context (act : Activation w) : Context := contextOf act.tree act.sub

/-- The machine follows every evaluation with the given fuel. -/
structure Simulates (y : Layout w) (fuel : Nat) : Prop where
  eval : ∀ (act : Activation w) {f e t v t' code}, Evaluation.eval w fuel f e t = .ok v t' →
    (lowerExpression act.context e).Yields code → "this" ∉ e.mentioned →
      Computes y act f t t' v code
  evalAll : ∀ (act : Activation w) {f es t vs t' codes},
    Evaluation.evalAll w fuel f es t = .ok vs t' → YieldEach act.context es codes →
      "this" ∉ Expression.mentionedInAll es → ComputesAll y act f t t' vs codes.flatten
  invoke : ∀ {className name vs t v t' s k} {l : Site} {count : UInt16},
    Evaluation.invoke w fuel className name vs t = .ok v t' → Shared y t s → Roomy y.program s →
      word s.ram 0 = pointer (k + vs.length) → k + vs.length ≤ 2048 → 256 ≤ k →
        OnStack s.ram k vs → l.linked = y.linked → l.Has s.pc (.call s!"{className}.{name}" count) →
          count.toNat = vs.length → ∃ s', Answers y t' k v (s.pc + 1) s s'
  run : ∀ (act : Activation w) {f st t f' outcome t' code labels},
    Evaluation.run w fuel f st t = .ok (f', outcome) t' →
      (lowerStatement act.context labels st).1.Yields code → "this" ∉ st.mentioned →
        Performs y act f f' t t' outcome code
  runAll : ∀ (act : Activation w) {f ss t f' outcome t' code labels},
    Evaluation.runAll w fuel f ss t = .ok (f', outcome) t' →
      (lowerStatements act.context {} labels ss).1.Yields code →
        "this" ∉ Statement.mentionedInAll ss → Performs y act f f' t t' outcome code
  holds : ∀ (act : Activation w) {f e t b t' code}, Evaluation.holds w fuel f e t = .ok b t' →
    (lowerExpression act.context e).Yields code → "this" ∉ e.mentioned →
      Computes y act f t t' (truth b) code

theorem simulates_zero : Simulates y 0 where
  eval _ _ _ _ _ _ _ h := by cases h
  evalAll _ _ _ _ _ _ _ h := by cases h
  invoke h := by cases h
  run _ _ _ _ _ _ _ _ _ h := by cases h
  runAll _ _ _ _ _ _ _ _ _ h := by cases h
  holds _ _ _ _ _ _ _ h := by cases h

end JackToolchain.Evaluation
