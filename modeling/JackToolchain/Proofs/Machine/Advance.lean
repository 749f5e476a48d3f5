import JackToolchain.Proofs.Machine.Mirror

/-!
# What no step undoes

A step changes memory, the place of control and the open calls at will, but output only grows, and
so does the heap, up to its end. A relation between states that allows for these changes relates the
states before and behind every step. Only calls and returns change the open calls, and no step fails
with an error that runs have around their steps.
-/

namespace JackToolchain.Machine

open JackToolchain.Memory JackToolchain.Stack

/-- Words are taken where the heap ends, or nothing changes, if their number is negative or there is
no room for them. -/
theorem alloc_cases (owner : String) (routine : Routine) (size : Int16) (s : State) :
    (0 ≤ size.toInt ∧ s.heapNext + size.toInt ≤ heapEnd ∧
      alloc owner routine size s =
        .ok (pointer s.heapNext) { s with heapNext := s.heapNext + size.toInt.toNat }) ∨
      ∃ e, (size.toInt < 0 ∨ heapEnd < s.heapNext + size.toInt) ∧
        alloc owner routine size s = .error e s := by
  have hsign : size < 0 ↔ size.toInt < 0 := Int16.lt_iff_toInt_lt
  have hnext : (modifyGet fun s => (s.heapNext, s) : Action Nat) s = .ok s.heapNext s := rfl
  unfold alloc
  by_cases hneg : size.toInt < 0
  · rw [if_pos (hsign.mpr hneg)]
    exact .inr ⟨.fault routine.name owner .negativeSize, .inl hneg, rfl⟩
  · rw [if_neg (mt hsign.mp hneg)]
    dsimp only
    rw [bind_of_ok hnext]
    by_cases hroom : s.heapNext + size.toInt.toNat > heapEnd
    · rw [if_pos hroom]
      exact .inr ⟨.heapExhausted size, .inr (by omega), rfl⟩
    · rw [if_neg hroom]
      exact .inl ⟨by omega, by omega, rfl⟩

/-- An operation that neither opens a call of a function nor leaves one. -/
def Op.staysInFrame : Op → Bool
  | .call (.function _) _ | .return => false
  | _ => true

/-- An error that runs have around their steps. -/
def OfRun : RunError → Prop
  | .missingEntry _ | .stepLimitExceeded _ => True
  | _ => False

/-- A relation between a state and those that come of it as long as no call is opened or left. -/
structure Onward (R : State → State → Prop) : Prop where
  refl : ∀ s, R s s
  trans : ∀ {s t u}, R s t → R t u → R s u
  ram : ∀ s m, R s { s with ram := m }
  jump : ∀ s pc, R s { s with pc := pc }
  print : ∀ s text, R s { s with output := s.output ++ text }
  alloc : ∀ s n, s.heapNext ≤ n → n ≤ heapEnd → R s { s with heapNext := n }

/-- A relation between a state and those that come of it. -/
structure Advance (R : State → State → Prop) : Prop extends Onward R where
  control : ∀ s pc returns, R s { s with pc := pc, returns := returns }

/-- Whether it fails or not, an action leaves a state that is related to the one before; it fails
with an error of its own. -/
structure Moves {α : Type} (R : State → State → Prop) (x : Action α) : Prop where
  onward : ∀ s, R s (stateOf (x s))
  error : ∀ {s t e}, x s = .error e t → ¬OfRun e

namespace Onward

variable {R : State → State → Prop} {α β : Type} {x : Action α} {f : α → Action β}

/-- An action that changes the state and does not fail. -/
theorem change {g : State → α × State} (h : ∀ s, R s (g s).2) : Moves R (modifyGet g : Action α) :=
  ⟨h, fun hfails => by cases hfails⟩

theorem pure (h : Onward R) (a : α) : Moves R (pure a : Action α) :=
  ⟨h.refl, fun hfails => by cases hfails⟩

theorem throw (h : Onward R) {e : RunError} (he : ¬OfRun e) : Moves R (throw e : Action α) := by
  refine ⟨h.refl, fun hfails => ?_⟩
  cases hfails
  exact he

theorem bind (h : Onward R) (hx : Moves R x) (hf : ∀ a, Moves R (f a)) : Moves R (x >>= f) := by
  constructor
  · intro s
    have hfirst := hx.onward s
    simp only [Bind.bind, EStateM.bind]
    cases hrun : x s with
    | ok a t =>
        rw [hrun] at hfirst
        exact h.trans hfirst ((hf a).onward t)
    | error e t =>
        rw [hrun] at hfirst
        exact hfirst
  · intro s t e hfails
    simp only [Bind.bind, EStateM.bind] at hfails
    cases hrun : x s with
    | ok a u =>
        rw [hrun] at hfails
        exact (hf a).error hfails
    | error e' u =>
        rw [hrun] at hfails
        cases hfails
        exact hx.error hrun

/-- A condition under which the rest is not reached. -/
theorem guard (h : Onward R) {c : Prop} [Decidable c] {e : RunError} {rest : Unit → Action β}
    (he : ¬OfRun e) (hrest : ∀ u, Moves R (rest u)) :
    Moves R (if c then MonadExcept.throw e >>= rest else rest ()) := by
  split
  · exact h.bind (h.throw he) hrest
  · exact hrest ()

theorem getRegister (h : Onward R) (r : Register) : Moves R (getRegister r) := change h.refl

theorem setRegister (h : Onward R) (r : Register) (w : Int16) : Moves R (setRegister r w) :=
  change fun s => h.ram s _

theorem readWord (h : Onward R) (owner : String) (a : Int) : Moves R (readWord owner a) := by
  constructor
  · intro s
    unfold Machine.readWord
    split <;> exact h.refl s
  · intro s t e hfails
    unfold Machine.readWord at hfails
    split at hfails <;> cases hfails
    exact id

theorem writeWord (h : Onward R) (owner : String) (a : Int) (w : Int16) :
    Moves R (writeWord owner a w) := by
  constructor
  · intro s
    unfold Machine.writeWord
    split
    · exact h.ram s _
    · exact h.refl s
  · intro s t e hfails
    unfold Machine.writeWord at hfails
    split at hfails <;> cases hfails
    exact id

theorem push (h : Onward R) (owner : String) (w : Int16) : Moves R (push owner w) :=
  h.bind (h.getRegister _) fun _ => h.bind (h.writeWord ..) fun _ =>
    h.bind (h.getRegister _) fun _ => h.setRegister ..

theorem pop (h : Onward R) (owner : String) : Moves R (pop owner) :=
  h.bind (h.getRegister _) fun _ => h.bind (h.setRegister ..) fun _ => h.readWord ..

theorem addressOf (h : Onward R) (location : Location) : Moves R (addressOf location) := by
  cases location with
  | constant value => exact h.pure _
  | fixed address => exact h.pure _
  | based register offset => exact h.bind (h.getRegister _) fun _ => h.pure _

theorem load (h : Onward R) (owner : String) (location : Location) :
    Moves R (load owner location) := by
  cases location with
  | constant value => exact h.pure _
  | fixed address => exact h.bind (h.addressOf _) fun _ => h.readWord ..
  | based register offset => exact h.bind (h.addressOf _) fun _ => h.readWord ..

theorem store (h : Onward R) (owner : String) (location : Location) (w : Int16) :
    Moves R (store owner location w) :=
  h.bind (h.addressOf _) fun _ => h.writeWord ..

theorem arithmetic (h : Onward R) (owner : String) (op : Arithmetic) :
    Moves R (arithmetic owner op) := by
  refine h.bind (h.pop owner) fun y => ?_
  cases op with
  | neg | not => exact h.push ..
  | add | sub | eq | gt | lt | and | or => exact h.bind (h.pop owner) fun _ => h.push ..

theorem pushFrame (h : Onward R) (owner : String) (arguments : UInt16) :
    Moves R (pushFrame owner arguments) :=
  h.bind (h.push ..) fun _ =>
    h.bind (h.getRegister _) fun _ => h.bind (h.push ..) fun _ =>
    h.bind (h.getRegister _) fun _ => h.bind (h.push ..) fun _ =>
    h.bind (h.getRegister _) fun _ => h.bind (h.push ..) fun _ =>
    h.bind (h.getRegister _) fun _ => h.bind (h.push ..) fun _ =>
    h.bind (h.getRegister _) fun _ => h.bind (h.setRegister ..) fun _ => h.setRegister ..

theorem popFrame (h : Onward R) (owner : String) : Moves R (popFrame owner) :=
  h.bind (h.getRegister _) fun _ => h.bind (h.pop _) fun _ =>
    h.bind (h.getRegister _) fun _ => h.bind (h.writeWord ..) fun _ =>
    h.bind (h.setRegister ..) fun _ =>
    h.bind (h.readWord ..) fun _ => h.bind (h.setRegister ..) fun _ =>
    h.bind (h.readWord ..) fun _ => h.bind (h.setRegister ..) fun _ =>
    h.bind (h.readWord ..) fun _ => h.bind (h.setRegister ..) fun _ =>
    h.bind (h.readWord ..) fun _ => h.bind (h.setRegister ..) fun _ => h.pure _

/-- Words are taken off the heap only where they end below its end. -/
theorem allocate (h : Onward R) (owner : String) (routine : Routine) (size : Int16) :
    Moves R (Machine.alloc owner routine size) := by
  constructor
  · intro s
    rcases alloc_cases owner routine size s with ⟨hsize, hroom, halloc⟩ | ⟨e, -, halloc⟩
    · rw [halloc]
      exact h.alloc s _ (Nat.le_add_right ..) (by omega)
    · rw [halloc]
      exact h.refl s
  · intro s t e hfails
    have hany : Onward fun _ _ => True :=
      ⟨fun _ => trivial, fun _ _ => trivial, fun _ _ => trivial, fun _ _ => trivial,
        fun _ _ => trivial, fun _ _ _ _ => trivial⟩
    have htake (next : Nat) : Moves (fun _ _ => True)
        (modify fun s => { s with heapNext := next } : Action Unit) := change fun _ => trivial
    unfold Machine.alloc at hfails
    exact (hany.guard id fun _ => hany.bind (change fun _ => trivial) fun _ =>
      hany.guard id fun _ => hany.bind (htake _) fun _ => hany.pure _).error hfails

theorem readChars (h : Onward R) (owner : String) (object : Int16) (index : Nat)
    (done : List Char) (count : Nat) : Moves R (readChars owner object index done count) := by
  induction count generalizing index done with
  | zero => exact h.pure _
  | succ count ih => exact h.bind (h.readWord ..) fun _ => ih ..

theorem callRoutine (h : Onward R) (owner : String) (routine : Routine) :
    Moves R (callRoutine owner routine) := by
  have hpop := h.pop owner
  have hprint (text : String) : Moves R (Machine.print text) := change fun s => h.print s text
  cases routine with
  | multiply => exact h.bind hpop fun _ => h.bind hpop fun _ => h.pure _
  | divide => exact h.bind hpop fun _ => h.bind hpop fun _ => h.guard id fun _ => h.pure _
  | abs | deAlloc | disposeArray => exact h.bind hpop fun _ => h.pure _
  | alloc | newArray => exact h.bind hpop fun _ => h.allocate ..
  | newString =>
      exact h.bind hpop fun _ => h.bind (h.allocate ..) fun _ => h.bind (h.writeWord ..) fun _ =>
        h.bind (h.writeWord ..) fun _ => h.pure _
  | appendChar =>
      refine h.bind hpop fun _ => h.bind hpop fun _ => h.bind ?_ fun _ => h.pure _
      exact h.bind (h.readWord ..) fun _ => h.bind (h.readWord ..) fun _ => h.guard id fun _ =>
        h.bind (h.writeWord ..) fun _ => h.writeWord ..
  | stringLength => exact h.bind hpop fun _ => h.readWord ..
  | charAt =>
      exact h.bind hpop fun _ => h.bind hpop fun _ => h.bind (h.readWord ..) fun _ =>
        h.guard id fun _ => h.readWord ..
  | printInt | printChar => exact h.bind hpop fun _ => h.bind (hprint _) fun _ => h.pure _
  | printString =>
      exact h.bind hpop fun _ => h.bind (h.readWord ..) fun _ => h.bind (h.readChars ..) fun _ =>
        h.bind (hprint _) fun _ => h.pure _
  | printLine => exact h.bind (hprint _) fun _ => h.pure _

theorem callHost (h : Onward R) (owner : String) (routine : Routine) (arguments : UInt16) :
    Moves R (callHost owner routine arguments) := by
  unfold Machine.callHost
  exact h.guard id fun _ => h.bind (h.callRoutine ..) fun _ => h.push ..

theorem pushZeros (h : Onward R) (owner : String) (count : Nat) :
    Moves R (pushZeros owner count) := by
  induction count with
  | zero => exact h.pure _
  | succ count ih => exact h.bind (h.push ..) fun _ => ih

/-- What is executed in a frame, by an operation that neither opens a call nor leaves one. -/
theorem execute (h : Onward R) (address : Nat) (owner : String) {op : Op}
    (hop : op.staysInFrame = true) : Moves R (execute address owner op) := by
  have hnext (target : Nat) : Moves R (do goto target; return none : Action (Option Int16)) :=
    h.bind (change fun s => h.jump s target) fun _ => h.pure _
  cases op with
  | push location => exact h.bind (h.load ..) fun _ => h.bind (h.push ..) fun _ => hnext _
  | pop location => exact h.bind (h.pop _) fun _ => h.bind (h.store ..) fun _ => hnext _
  | arithmetic op => exact h.bind (h.arithmetic ..) fun _ => hnext _
  | skip => exact hnext _
  | jump target => exact hnext _
  | jumpIf target => exact h.bind (h.pop _) fun _ => hnext _
  | enter locals => exact h.bind (h.pushZeros ..) fun _ => hnext _
  | call target arguments =>
      cases target with
      | function entry => cases hop
      | host routine => exact h.bind (h.callHost ..) fun _ => hnext _
      | undefined name => exact h.throw id
  | «return» => cases hop

end Onward

namespace Advance

variable {R : State → State → Prop}

theorem execute (h : Advance R) (address : Nat) (owner : String) (op : Op) :
    Moves R (execute address owner op) := by
  cases hop : op.staysInFrame with
  | true => exact h.toOnward.execute address owner hop
  | false =>
      cases op with
      | call target arguments =>
          cases target with
          | function entry =>
              exact h.bind (h.pushFrame ..) fun _ =>
                h.bind (Onward.change fun s => h.control s _ _) fun _ => h.pure _
          | host _ | undefined _ => cases hop
      | «return» =>
          refine h.bind (h.popFrame _) fun value => Onward.change fun s => ?_
          obtain ⟨ram, pc, returns, heapNext, output⟩ := s
          cases returns with
          | nil => exact h.refl _
          | cons target returns => exact h.control _ _ _
      | _ => cases hop

/-- Every step moves a state on. -/
theorem step (h : Advance R) (p : Program) : Moves R (step p) := by
  refine h.bind (Onward.change h.refl) fun address => ?_
  cases p.instructions[address]? with
  | none => exact h.throw id
  | some i => exact h.execute ..

/-- So do all the steps of a run. -/
theorem iterate (h : Advance R) (p : Program) (fuel count : Nat) (s : State) :
    R s (iterate p fuel count s).2.2 := by
  induction fuel generalizing count s with
  | zero => exact h.refl s
  | succ fuel ih =>
      have hstep := (h.step p).onward s
      simp only [Machine.iterate]
      cases hresult : Machine.step p s with
      | error e t =>
          rw [hresult] at hstep
          exact hstep
      | ok value t =>
          rw [hresult] at hstep
          cases value with
          | none => exact h.trans hstep (ih _ t)
          | some value => exact hstep

end Advance

/-- The heap grows, and not beyond its end. -/
theorem advance_heapNext : Advance fun s t =>
    s.heapNext ≤ t.heapNext ∧ (s.heapNext ≤ heapEnd → t.heapNext ≤ heapEnd) where
  refl _ := ⟨le_rfl, id⟩
  trans hst htu := ⟨hst.1.trans htu.1, htu.2 ∘ hst.2⟩
  ram _ _ := ⟨le_rfl, id⟩
  jump _ _ := ⟨le_rfl, id⟩
  control _ _ _ := ⟨le_rfl, id⟩
  print _ _ := ⟨le_rfl, id⟩
  alloc _ _ hle hend := ⟨hle, fun _ => hend⟩

end JackToolchain.Machine
