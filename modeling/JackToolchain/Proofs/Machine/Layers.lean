import JackToolchain.Proofs.Machine.Steps

/-!
# Actions on top of open calls

The list of open calls is read only by a return, and written only by a return and a call. So every
action does the same on top of calls that were open before, and a step differs only where it would
end the run.
-/

namespace JackToolchain.Machine

open JackToolchain.Stack

/-- The state with some calls open below its own. -/
def State.above (s : State) (below : List Nat) : State :=
  { s with returns := s.returns ++ below }

/-- An outcome with its state changed. -/
def onState {α : Type} (f : State → State) :
    EStateM.Result RunError State α → EStateM.Result RunError State α
  | .ok a s => .ok a (f s)
  | .error e s => .error e (f s)

/-- Does the same on top of open calls, which it leaves as they are. -/
structure Layered {α : Type} (x : Action α) : Prop where
  eq : ∀ s below, x (s.above below) = onState (·.above below) (x s)

namespace Layered

variable {α β : Type} {x : Action α} {f : α → Action β}

theorem pure (a : α) : Layered (pure a : Action α) := ⟨fun _ _ => rfl⟩

theorem throw (e : RunError) : Layered (throw e : Action α) := ⟨fun _ _ => rfl⟩

theorem bind (hx : Layered x) (hf : ∀ a, Layered (f a)) : Layered (x >>= f) := by
  constructor
  intro s below
  simp only [Bind.bind, EStateM.bind]
  rw [hx.eq s below]
  cases x s with
  | ok a t => exact (hf a).eq t below
  | error e t => rfl

/-- A condition under which the rest is not reached. -/
theorem guard {c : Prop} [Decidable c] {e : RunError} {rest : Unit → Action β}
    (h : ∀ u, Layered (rest u)) :
    Layered (if c then MonadExcept.throw e >>= rest else rest ()) := by
  split
  · exact (throw e).bind h
  · exact h ()

end Layered

theorem layered_readWord (owner : String) (a : Int) : Layered (readWord owner a) := by
  constructor
  intro s below
  simp only [readWord, State.above]
  split <;> rfl

theorem layered_writeWord (owner : String) (a : Int) (w : Int16) :
    Layered (writeWord owner a w) := by
  constructor
  intro s below
  simp only [writeWord, State.above]
  split <;> rfl

theorem layered_getRegister (r : Register) : Layered (getRegister r) := ⟨fun _ _ => rfl⟩

theorem layered_setRegister (r : Register) (w : Int16) : Layered (setRegister r w) :=
  ⟨fun _ _ => rfl⟩

theorem layered_push (owner : String) (w : Int16) : Layered (push owner w) :=
  (layered_getRegister _).bind fun _ => (layered_writeWord ..).bind fun _ =>
    (layered_getRegister _).bind fun _ => layered_setRegister ..

theorem layered_pop (owner : String) : Layered (pop owner) :=
  (layered_getRegister _).bind fun _ => (layered_setRegister ..).bind fun _ => layered_readWord ..

theorem layered_addressOf (location : Location) : Layered (addressOf location) := by
  cases location with
  | constant value => exact .pure _
  | fixed address => exact .pure _
  | based register offset => exact (layered_getRegister _).bind fun _ => .pure _

theorem layered_load (owner : String) (location : Location) : Layered (load owner location) := by
  cases location with
  | constant value => exact .pure _
  | fixed address => exact (layered_addressOf _).bind fun _ => layered_readWord ..
  | based register offset => exact (layered_addressOf _).bind fun _ => layered_readWord ..

theorem layered_store (owner : String) (location : Location) (w : Int16) :
    Layered (store owner location w) :=
  (layered_addressOf _).bind fun _ => layered_writeWord ..

theorem layered_arithmetic (owner : String) (op : Arithmetic) : Layered (arithmetic owner op) := by
  refine (layered_pop owner).bind fun y => ?_
  cases op with
  | neg | not => exact layered_push ..
  | add | sub | eq | gt | lt | and | or => exact (layered_pop owner).bind fun _ => layered_push ..

theorem layered_pushFrame (owner : String) (arguments : UInt16) :
    Layered (pushFrame owner arguments) :=
  (layered_push ..).bind fun _ =>
    (layered_getRegister _).bind fun _ => (layered_push ..).bind fun _ =>
    (layered_getRegister _).bind fun _ => (layered_push ..).bind fun _ =>
    (layered_getRegister _).bind fun _ => (layered_push ..).bind fun _ =>
    (layered_getRegister _).bind fun _ => (layered_push ..).bind fun _ =>
    (layered_getRegister _).bind fun _ => (layered_setRegister ..).bind fun _ =>
    layered_setRegister ..

theorem layered_popFrame (owner : String) : Layered (popFrame owner) :=
  (layered_getRegister _).bind fun _ => (layered_pop _).bind fun _ =>
    (layered_getRegister _).bind fun _ => (layered_writeWord ..).bind fun _ =>
    (layered_setRegister ..).bind fun _ =>
    (layered_readWord ..).bind fun _ => (layered_setRegister ..).bind fun _ =>
    (layered_readWord ..).bind fun _ => (layered_setRegister ..).bind fun _ =>
    (layered_readWord ..).bind fun _ => (layered_setRegister ..).bind fun _ =>
    (layered_readWord ..).bind fun _ => (layered_setRegister ..).bind fun _ => .pure _

theorem layered_print (text : String) : Layered (print text) := ⟨fun _ _ => rfl⟩

theorem layered_alloc (owner : String) (routine : Routine) (size : Int16) :
    Layered (alloc owner routine size) := by
  have hheap : Layered (modifyGet fun s => (s.heapNext, s) : Action Nat) := ⟨fun _ _ => rfl⟩
  have htake (next : Nat) : Layered (modify fun s => { s with heapNext := next } : Action Unit) :=
    ⟨fun _ _ => rfl⟩
  unfold alloc
  exact .guard fun _ => hheap.bind fun _ => .guard fun _ => (htake _).bind fun _ => .pure _

theorem layered_readChars (owner : String) (object : Int16) (index : Nat) (done : List Char)
    (count : Nat) : Layered (readChars owner object index done count) := by
  induction count generalizing index done with
  | zero => exact .pure _
  | succ count ih => exact (layered_readWord ..).bind fun _ => ih ..

theorem layered_appendChar (owner : String) (object c : Int16) :
    Layered (appendChar owner object c) :=
  (layered_readWord ..).bind fun _ => (layered_readWord ..).bind fun _ =>
    .guard fun _ => (layered_writeWord ..).bind fun _ => layered_writeWord ..

theorem layered_newString (owner : String) (capacity : Int16) :
    Layered (newString owner capacity) :=
  (layered_alloc ..).bind fun _ => (layered_writeWord ..).bind fun _ =>
    (layered_writeWord ..).bind fun _ => .pure _

theorem layered_charAt (owner : String) (object index : Int16) :
    Layered (charAt owner object index) :=
  (layered_readWord ..).bind fun _ => .guard fun _ => layered_readWord ..

theorem layered_callRoutine (owner : String) (routine : Routine) :
    Layered (callRoutine owner routine) := by
  have hpop := layered_pop owner
  cases routine with
  | multiply => exact hpop.bind fun _ => hpop.bind fun _ => .pure _
  | divide => exact hpop.bind fun _ => hpop.bind fun _ => .guard fun _ => .pure _
  | abs | deAlloc | disposeArray => exact hpop.bind fun _ => .pure _
  | alloc | newArray => exact hpop.bind fun _ => layered_alloc ..
  | newString => exact hpop.bind fun _ => layered_newString ..
  | appendChar =>
      exact hpop.bind fun _ => hpop.bind fun _ => (layered_appendChar ..).bind fun _ => .pure _
  | stringLength => exact hpop.bind fun _ => layered_readWord ..
  | charAt => exact hpop.bind fun _ => hpop.bind fun _ => layered_charAt ..
  | printInt | printChar => exact hpop.bind fun _ => (layered_print _).bind fun _ => .pure _
  | printString =>
      exact hpop.bind fun _ => (layered_readWord ..).bind fun _ =>
        (layered_readChars ..).bind fun _ => (layered_print _).bind fun _ => .pure _
  | printLine => exact (layered_print _).bind fun _ => .pure _

theorem layered_callHost (owner : String) (routine : Routine) (arguments : UInt16) :
    Layered (callHost owner routine arguments) := by
  unfold callHost
  exact .guard fun _ => (layered_callRoutine ..).bind fun _ => layered_push ..

theorem layered_pushZeros (owner : String) (count : Nat) : Layered (pushZeros owner count) := by
  induction count with
  | zero => exact .pure _
  | succ count ih => exact (layered_push ..).bind fun _ => ih

theorem layered_goto (address : Nat) : Layered (goto address) := ⟨fun _ _ => rfl⟩

/-- Whatever is executed but a return only adds to the open calls. -/
theorem layered_execute (address : Nat) (owner : String) {op : Op} (hop : op ≠ .return) :
    Layered (execute address owner op) := by
  have hnext (target : Nat) : Layered (do goto target; return none : Action (Option Int16)) :=
    (layered_goto target).bind fun _ => .pure _
  cases op with
  | push location => exact (layered_load ..).bind fun _ => (layered_push ..).bind fun _ => hnext _
  | pop location => exact (layered_pop _).bind fun _ => (layered_store ..).bind fun _ => hnext _
  | arithmetic op => exact (layered_arithmetic ..).bind fun _ => hnext _
  | skip => exact hnext _
  | jump target => exact hnext _
  | jumpIf target => exact (layered_pop _).bind fun _ => hnext _
  | enter locals => exact (layered_pushZeros ..).bind fun _ => hnext _
  | call target arguments =>
      cases target with
      | function entry =>
          have hopen : Layered (modify fun s : State =>
              { s with returns := (address + 1) :: s.returns, pc := entry } : Action Unit) :=
            ⟨fun _ _ => rfl⟩
          exact (layered_pushFrame ..).bind fun _ => hopen.bind fun _ => .pure _
      | host routine => exact (layered_callHost ..).bind fun _ => hnext _
      | undefined name => exact .throw _
  | «return» => exact absurd rfl hop

/-- The outcome of a step on top of open calls. Where the run would end, it goes on behind the
latest of them. -/
def resumed (below : List Nat) :
    EStateM.Result RunError State (Option Int16) → EStateM.Result RunError State (Option Int16)
  | .ok none s => .ok none (s.above below)
  | .ok (some value) s =>
    match below with
    | [] => .ok (some value) s
    | target :: rest => .ok none { s with pc := target, returns := rest }
  | .error e s => .error e (s.above below)

theorem execute_return_above (address : Nat) (owner : String) (s : State) (below : List Nat) :
    execute address owner .return (s.above below) =
      resumed below (execute address owner .return s) := by
  simp only [execute, Bind.bind, EStateM.bind]
  rw [(layered_popFrame owner).eq s below]
  cases popFrame owner s with
  | error e t => rfl
  | ok value t =>
      obtain ⟨ram, pc, returns, heapNext, output⟩ := t
      cases returns with
      | cons target rest => rfl
      | nil => cases below <;> rfl

/-- A run ends only where no call is open. -/
theorem returns_of_execute {op : Op} {address : Nat} {owner : String} {value : Int16} {s s' : State}
    (h : execute address owner op s = .ok (some value) s') : s'.returns = [] := by
  obtain rfl := eq_return_of_execute h
  simp only [execute] at h
  obtain ⟨popped, t, -, h⟩ := bind_eq_ok h
  obtain ⟨ram, pc, returns, heapNext, output⟩ := t
  cases returns with
  | nil =>
      cases h
      rfl
  | cons target rest => cases h

theorem step_of_missing {p : Program} {s : State} (h : p.instructions[s.pc]? = none) :
    step p s = .error (.fault "execution" topLevel .ranPastEnd) s := by
  have hpc : (modifyGet fun s => (s.pc, s) : Action Nat) s = .ok s.pc s := rfl
  unfold step
  rw [bind_of_ok hpc, h]
  rfl

theorem step_above (p : Program) (s : State) (below : List Nat) :
    step p (s.above below) = resumed below (step p s) := by
  cases hi : p.instructions[s.pc]? with
  | none =>
      rw [step_of_missing hi, step_of_missing (s := s.above below) hi]
      rfl
  | some i =>
      obtain ⟨op, owner⟩ := i
      rw [step_of_instruction hi, step_of_instruction (s := s.above below) hi]
      by_cases hop : op = .return
      · subst hop
        exact execute_return_above s.pc owner s below
      · have hpc : (s.above below).pc = s.pc := rfl
        rw [hpc, (layered_execute s.pc owner hop).eq s below]
        cases hrun : execute s.pc owner op s with
        | error e t => rfl
        | ok value t =>
            cases value with
            | none => rfl
            | some value => exact absurd (eq_return_of_execute hrun) hop

end JackToolchain.Machine
