import JackToolchain.Proofs.Lists
import JackToolchain.Proofs.Machine.Mirror
import JackToolchain.Proofs.Machine.OpenCalls

/-!
# Runs of the checked machine

Step by step, and run after run, the checked machine does what the running one does. So no run
breaches it.
-/

namespace JackToolchain.Machine

open JackToolchain.Memory JackToolchain.Stack

/-! ## Programs with a table of names -/

inductive TargetNamed (names : Array String) : Checked.Target → Target → Prop
  | function (entry : Nat) : TargetNamed names (.function entry) (.function entry)
  | host (routine : Routine) : TargetNamed names (.host routine) (.host routine)
  | undefined {i : Nat} {name : String} (h : names[i]? = some name) :
    TargetNamed names (.undefined i) (.undefined name)

inductive OpNamed (names : Array String) : Checked.Op → Op → Prop
  | push (location : Location) : OpNamed names (.push location) (.push location)
  | pop (location : Location) : OpNamed names (.pop location) (.pop location)
  | arithmetic (op : Arithmetic) : OpNamed names (.arithmetic op) (.arithmetic op)
  | skip : OpNamed names .skip .skip
  | jump (target : Nat) : OpNamed names (.jump target) (.jump target)
  | jumpIf (target : Nat) : OpNamed names (.jumpIf target) (.jumpIf target)
  | enter (locals : UInt16) : OpNamed names (.enter locals) (.enter locals)
  | call {t : Checked.Target} {t' : Target} (h : TargetNamed names t t') (arguments : UInt16) :
    OpNamed names (.call t arguments) (.call t' arguments)
  | return : OpNamed names .return .return

/-- An instruction with places of names in a table. -/
structure InstructionNamed (names : Array String) (i : Checked.Instruction) (j : Instruction) :
    Prop where
  op : OpNamed names i.op j.op
  owner : names[i.owner]? = some j.owner

/-- A program with a table of names. -/
structure ProgramNamed (P : Checked.Program) (p : Program) : Prop where
  instructions :
    List.Forall₂ (InstructionNamed P.names) P.instructions.toList p.instructions.toList
  functions : P.functions = p.functions

/-! ## Steps -/

/-- The end of a step has the same outcome in the checked machine. -/
def Ends {α : Type} (P : Checked.Program) (owner : String) (a : Action α) (b : Checked.Action α) :
    Prop :=
  ∀ s, Stands P owner s →
    b s.checked = checkedResult (a s) ∧ (stateOf (a s)).heapNext ≤ heapEnd

section Steps

variable {P : Checked.Program} {owner : String} {α β : Type}

theorem Tracks.ends {a : Action α} {b : Checked.Action α} (h : Tracks P owner a b) :
    Ends P owner a b :=
  fun s hs => ⟨(h s hs).1, (h s hs).2.heap⟩

theorem Tracks.before {a : Action α} {b : Checked.Action α} {f : α → Action β}
    {g : α → Checked.Action β} (h : Tracks P owner a b)
    (hrest : ∀ x, Ends P owner (f x) (g x)) : Ends P owner (a >>= f) (b >>= g) := by
  intro s hs
  obtain ⟨hresult, hstands⟩ := h s hs
  simp only [Bind.bind, EStateM.bind, hresult]
  cases ha : a s with
  | ok x t =>
      rw [ha] at hstands
      exact hrest x t hstands
  | error e t =>
      rw [ha] at hstands
      exact ⟨rfl, hstands.heap⟩

theorem ends_goto (address : Nat) :
    Ends P owner (do
      goto address
      return (none : Option Int16))
    (do
      modify fun s => { s with pc := address }
      return none) :=
  fun _ hs => ⟨rfl, hs.heap⟩

theorem ends_execute {address : Nat} {i : Checked.Instruction} {op : Op}
    (hop : OpNamed P.names i.op op) (howner : P.names[i.owner]? = some owner) :
    Ends P owner (execute address owner op)
      (Checked.execute P (address + 1) i >>= Checked.settle) := by
  obtain ⟨op', index⟩ := i
  cases hop with
  | push location =>
      simp only [execute, Checked.execute, bind_assoc, pure_bind]
      exact (Tracks.load location).before fun w => (Tracks.push w).before fun _ => ends_goto _
  | pop location =>
      simp only [execute, Checked.execute, bind_assoc, pure_bind]
      exact Tracks.pop.before fun w => (Tracks.store location w).before fun _ => ends_goto _
  | arithmetic op =>
      simp only [execute, Checked.execute, bind_assoc, pure_bind]
      exact (Tracks.arithmetic op).before fun _ => ends_goto _
  | skip => exact ends_goto _
  | jump target => exact ends_goto _
  | jumpIf target =>
      simp only [execute, Checked.execute, bind_assoc, pure_bind]
      exact Tracks.pop.before fun w => ends_goto _
  | enter locals =>
      simp only [execute, Checked.execute, bind_assoc, pure_bind]
      exact (Tracks.pushZeros _).before fun _ => ends_goto _
  | call htarget arguments =>
      cases htarget with
      | function entry =>
          simp only [execute, Checked.execute, bind_assoc, pure_bind]
          refine (Tracks.pushFrame arguments).before fun _ => ?_
          exact fun _ hs => ⟨rfl, hs.heap⟩
      | host routine =>
          simp only [execute, Checked.execute, bind_assoc, pure_bind]
          exact (Tracks.callHost routine arguments).before fun _ => ends_goto _
      | undefined hname =>
          simp only [execute, Checked.execute, Checked.nameAt, howner, hname, pure_bind]
          exact fun _ hs => ⟨rfl, hs.heap⟩
  | «return» =>
      simp only [execute, Checked.execute, bind_assoc]
      refine Tracks.popFrame.before fun value s hs => ?_
      obtain ⟨ram, pc, returns, heapNext, output⟩ := s
      cases returns with
      | nil => exact ⟨rfl, hs.heap⟩
      | cons target returns => exact ⟨rfl, hs.heap⟩

theorem step_of_none {p : Program} {s : State} (h : p.instructions[s.pc]? = none) :
    step p s = (throw (RunError.fault "execution" topLevel .ranPastEnd) : Action _) s := by
  have hpc : (modifyGet fun s => (s.pc, s) : Action Nat) s = .ok s.pc s := rfl
  unfold step
  rw [bind_of_ok hpc, h]

theorem step_checked_of_none {s : State} (h : P.instructions[s.pc]? = none) :
    Checked.step P s.checked = (Checked.currentFunction P >>= fun name =>
      Checked.fail (.fault "execution" name .ranPastEnd)) s.checked := by
  have hget : (get : Checked.Action Checked.State) s.checked = .ok s.checked s.checked := rfl
  have hpc : s.checked.pc = s.pc := rfl
  rw [Checked.step, bind_of_ok hget]
  simp only [hpc, h]

theorem step_checked_of_instruction {s : State} {i : Checked.Instruction}
    (h : P.instructions[s.pc]? = some i) :
    Checked.step P s.checked = (Checked.following P s.pc >>= fun next =>
      Checked.execute P next i >>= Checked.settle) s.checked := by
  have hget : (get : Checked.Action Checked.State) s.checked = .ok s.checked s.checked := rfl
  have hpc : s.checked.pc = s.pc := rfl
  rw [Checked.step, bind_of_ok hget]
  simp only [hpc, h]

/-- A step of the checked machine has the outcome of the running one. -/
theorem step_checked {p : Program} (hp : ProgramNamed P p) {s : State}
    (hs : s.heapNext ≤ heapEnd) :
    Checked.step P s.checked = checkedResult (step p s) ∧
      (stateOf (step p s)).heapNext ≤ heapEnd := by
  cases hinstruction : p.instructions[s.pc]? with
  | none =>
      have hnone : P.instructions[s.pc]? = none := by
        rw [← Array.getElem?_toList] at hinstruction ⊢
        by_contra hsome
        obtain ⟨i, hi⟩ := Option.ne_none_iff_exists'.mp hsome
        obtain ⟨j, hj, -⟩ := exists_of_forall₂ hp.instructions hi
        rw [hj] at hinstruction
        cases hinstruction
      have hstands : Stands P topLevel s := ⟨by rw [ownerAt, hnone], hs⟩
      rw [step_of_none hinstruction, step_checked_of_none hnone]
      exact (Tracks.currentFunction (.fail _)).ends s hstands
  | some j =>
      have hlisted := hinstruction
      rw [← Array.getElem?_toList] at hlisted
      obtain ⟨i, hi, hnamed⟩ := exists_of_forall₂ hp.instructions.flip hlisted
      rw [Array.getElem?_toList] at hi
      have hbound := (Array.getElem?_eq_some_iff.mp hi).1
      have hstands : Stands P j.owner s := by
        refine ⟨?_, hs⟩
        rw [ownerAt, hi]
        exact hnamed.owner
      rw [step_of_instruction hinstruction, step_checked_of_instruction hi, Checked.following,
        if_pos (Nat.succ_le_of_lt hbound), pure_bind]
      exact ends_execute hnamed.op hnamed.owner s hstands

end Steps

/-! ## Runs -/

/-- The running machine between runs, as a checked one. -/
def checkedSession (m : Machine) : Checked.Session := ⟨m.state.checked, m.steps⟩

/-- A result in the checked machine, with a declared error if any. -/
def declared : Except RunError Execution → Except (Breach ⊕ RunError) Execution
  | .ok execution => .ok execution
  | .error e => .error (.inr e)

section Runs

variable {P : Checked.Program} {p : Program}

theorem loop_checked (hp : ProgramNamed P p) {limit : Nat} (hlimit : limit < 18446744073709551616)
    {fuel count : Nat} {s : State} (hfuel : fuel = limit - count) (hs : s.heapNext ≤ heapEnd) :
    let outcome := conclude limit (iterate p fuel count s)
    Checked.loop P limit ⟨s.checked, count⟩ = (declared outcome.1, checkedSession outcome.2) ∧
      outcome.2.state.heapNext ≤ heapEnd := by
  induction fuel generalizing count s with
  | zero =>
      have hover : limit ≤ count := by omega
      rw [Checked.loop, if_pos hover]
      exact ⟨rfl, hs⟩
  | succ fuel ih =>
      have hunder : ¬limit ≤ count := by omega
      have hwidth : ¬18446744073709551616 ≤ count + 1 := by omega
      obtain ⟨hstep, hheap⟩ := step_checked hp hs
      rw [Checked.loop, if_neg hunder, if_neg hwidth]
      simp only [hstep, iterate]
      cases hresult : step p s with
      | ok value t =>
          rw [hresult] at hheap
          cases value with
          | none => exact ih (by omega) hheap
          | some value => exact ⟨rfl, hheap⟩
      | error e t =>
          rw [hresult] at hheap
          exact ⟨rfl, hheap⟩

theorem exists_stands (hp : ProgramNamed P p) {s : State} (hs : s.heapNext ≤ heapEnd) :
    ∃ owner, Stands P owner s := by
  cases hinstruction : P.instructions[s.pc]? with
  | none => exact ⟨topLevel, by rw [ownerAt, hinstruction], hs⟩
  | some i =>
      have hi := hinstruction
      rw [← Array.getElem?_toList] at hi
      obtain ⟨j, -, hnamed⟩ := exists_of_forall₂ hp.instructions hi
      exact ⟨j.owner, by simpa only [ownerAt, hinstruction] using hnamed.owner, hs⟩

theorem prepare_checked (hp : ProgramNamed P p) (entry : Nat) {s : State}
    (hs : s.heapNext ≤ heapEnd) :
    Checked.prepare P entry s.checked =
      .ok () { s with ram := opening s.ram, pc := entry }.checked := by
  obtain ⟨owner, hstands⟩ := exists_stands hp hs
  have hframe : Tracks P owner (do
      setRegister .stack stackBase
      pushFrame owner 0) (do
      Checked.setWord 0 stackBase
      Checked.pushFrame P 0) :=
    .bind (.setRegister .stack stackBase) fun _ => .pushFrame 0
  have hopening := (hframe s hstands).1
  rw [pushFrame_opening] at hopening
  rw [Checked.prepare, ← bind_assoc, bind_of_ok hopening]
  rfl

theorem run_checked (hp : ProgramNamed P p) (limit : UInt64) {m : Machine}
    (hm : m.state.heapNext ≤ heapEnd) (entry : String) :
    let outcome := run p limit.toNat m entry
    Checked.run P limit (checkedSession m) entry = (declared outcome.1, checkedSession outcome.2) ∧
      outcome.2.state.heapNext ≤ heapEnd := by
  rw [run_eq, Checked.run, hp.functions]
  cases p.functions[entry]? with
  | none => exact ⟨rfl, hm⟩
  | some start =>
      simp only [checkedSession, prepare_checked hp start hm]
      exact loop_checked hp limit.toNat_lt rfl hm

/-- The results of runs one after the other. -/
def outcomes (p : Program) (limit : Nat) (m : Machine) :
    List String → List (Except RunError Execution)
  | [] => []
  | entry :: rest =>
    let outcome := run p limit m entry
    outcome.1 :: outcomes p limit outcome.2 rest

def Checked.outcomes (P : Checked.Program) (limit : UInt64) (m : Checked.Session) :
    List String → List (Except (Breach ⊕ RunError) Execution)
  | [] => []
  | entry :: rest =>
    let outcome := Checked.run P limit m entry
    outcome.1 :: outcomes P limit outcome.2 rest

theorem outcomes_checked (hp : ProgramNamed P p) (limit : UInt64) {m : Machine}
    (hm : m.state.heapNext ≤ heapEnd) (entries : List String) :
    Checked.outcomes P limit (checkedSession m) entries =
      (outcomes p limit.toNat m entries).map declared := by
  induction entries generalizing m with
  | nil => rfl
  | cons entry entries ih =>
      obtain ⟨hrun, hheap⟩ := run_checked hp limit hm entry
      simp only [Checked.outcomes, outcomes, List.map_cons, hrun]
      rw [ih hheap]

end Runs

end JackToolchain.Machine
