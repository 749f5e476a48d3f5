import JackToolchain.Proofs.Machine.Layers
import Mathlib.Data.List.Induction

/-!
# Calls that earlier runs left open

A run on top of calls that an earlier run left open is the run without them, until its own frame is
left. Then it does not end: it goes on behind the latest of those calls. A run that fails in a call
leaves that call open; no other run does.
-/

namespace JackToolchain.Machine

open JackToolchain.Memory JackToolchain.Stack

theorem iterate_of_step {p : Program} {s t : State} (h : step p s = .ok none t) (fuel count : Nat) :
    iterate p (fuel + 1) count s = iterate p fuel (count + 1) t := by
  simp only [iterate, h]

theorem iterate_of_error {p : Program} {s t : State} {e : RunError} (h : step p s = .error e t)
    (fuel count : Nat) : iterate p (fuel + 1) count s = (.failed e, count + 1, t) := by
  simp only [iterate, h]

theorem iterate_of_value {p : Program} {s t : State} {value : Int16}
    (h : step p s = .ok (some value) t) (fuel count : Nat) :
    iterate p (fuel + 1) count s = (.returned value, count + 1, t) := by
  simp only [iterate, h]

/-- A run ends only where no call is open. -/
theorem returns_of_iterate {p : Program} {fuel count n : Nat} {s t : State} {value : Int16}
    (h : iterate p fuel count s = (.returned value, n, t)) : t.returns = [] := by
  induction fuel generalizing count s with
  | zero => cases h
  | succ fuel ih =>
      simp only [iterate] at h
      cases hstep : step p s with
      | error e t' =>
          rw [hstep] at h
          cases h
      | ok result t' =>
          rw [hstep] at h
          cases result with
          | none => exact ih h
          | some result =>
              cases h
              cases hi : p.instructions[s.pc]? with
              | none =>
                  rw [step_of_missing hi] at hstep
                  cases hstep
              | some i =>
                  rw [step_of_instruction hi] at hstep
                  exact returns_of_execute hstep

/-- Steps on top of open calls. When the steps alone end with a value, those on top go on behind the
latest call. -/
theorem iterate_above (p : Program) (fuel count : Nat) (s : State) (below : List Nat) :
    iterate p fuel count (s.above below) =
      match iterate p fuel count s with
      | (.returned value, n, t) =>
        match below with
        | [] => (.returned value, n, t)
        | target :: rest => iterate p (fuel + count - n) n { t with pc := target, returns := rest }
      | (halt, n, t) => (halt, n, t.above below) := by
  induction fuel generalizing count s with
  | zero => rfl
  | succ fuel ih =>
      simp only [iterate, step_above]
      cases hstep : step p s with
      | error e t => rfl
      | ok value t =>
          cases value with
          | none =>
              have hfuel : fuel + 1 + count = fuel + (count + 1) := by omega
              simp only [resumed]
              rw [ih (count + 1) t, hfuel]
          | some value =>
              cases below with
              | nil => rfl
              | cons target rest =>
                  have hfuel : fuel + 1 + count - (count + 1) = fuel := by omega
                  simp only [resumed, hfuel]

/-- The memory when a function without arguments starts. -/
def opening (m : Vector Int16 ramSize) : Vector Int16 ramSize :=
  framed (put m 0 (pointer 256)) 256 0 0

/-- The frame of a run always fits, whatever was in memory before. -/
theorem pushFrame_opening (owner : String) (s : State) :
    (do
      setRegister .stack stackBase
      pushFrame owner 0) s = .ok () { s with ram := opening s.ram } := by
  have hset : setRegister .stack stackBase s = .ok () { s with ram := put s.ram 0 (pointer 256) } :=
    setRegister_run .stack stackBase s
  rw [bind_of_ok hset]
  exact pushFrame_run 0 (word_put_self _ _ (by decide)) (by decide) (by decide) (by decide)

theorem prepare_eq (entry : Nat) (s : State) :
    prepare entry s = .ok () { s with ram := opening s.ram, pc := entry } := by
  unfold prepare
  rw [← bind_assoc, bind_of_ok (pushFrame_opening topLevel s)]
  rfl

/-- What comes of steps under a limit. -/
def conclude (limit : Nat) : Halt × Nat × State → Except RunError Execution × Machine
  | (.returned value, count, s) => (.ok ⟨value, s.output, count⟩, { state := s, steps := count })
  | (.failed e, count, s) => (.error e, { state := s, steps := count })
  | (.outOfSteps, count, s) => (.error (.stepLimitExceeded limit), { state := s, steps := count })

/-- Goes on from the state of a machine. -/
def resume (p : Program) (limit : Nat) (m : Machine) : Except RunError Execution × Machine :=
  conclude limit (iterate p (limit - m.steps) m.steps m.state)

variable (p : Program) (limit : Nat)

theorem run_eq (m : Machine) (entry : String) :
    run p limit m entry =
      match p.functions[entry]? with
      | none => (.error (.missingEntry entry), m)
      | some start =>
        resume p limit
          { m with state := { m.state with ram := opening m.state.ram, pc := start } } := by
  unfold run
  cases p.functions[entry]? with
  | none => rfl
  | some start =>
      simp only [prepare_eq, resume]
      split <;> simp_all [conclude]

/-- The machine without the calls that are open in it. -/
def alone (m : Machine) : Machine := { m with state := { m.state with returns := [] } }

/-- A run on a machine is the run without the open calls. If that ends with a value, the run goes on
behind the latest open call. -/
theorem run_eq_resume (m : Machine) (entry : String) :
    run p limit m entry =
      match run p limit m.alone entry with
      | (.error e, t) => (.error e, { t with state := t.state.above m.state.returns })
      | (.ok result, t) =>
        match m.state.returns with
        | [] => (.ok result, t)
        | target :: rest =>
          resume p limit { t with state := { t.state with pc := target, returns := rest } } := by
  simp only [run_eq]
  cases p.functions[entry]? with
  | none => rfl
  | some start =>
      simp only [resume]
      set s : State := { m.alone.state with ram := opening m.alone.state.ram, pc := start } with hs
      have habove : { m.state with ram := opening m.state.ram, pc := start } =
          s.above m.state.returns := rfl
      have hsteps : m.alone.steps = m.steps := rfl
      rw [habove, iterate_above, hsteps]
      generalize hfirst : iterate p (limit - m.steps) m.steps s = first
      obtain ⟨halt, n, t⟩ := first
      cases halt with
      | failed e => rfl
      | outOfSteps => rfl
      | returned value =>
          simp only [conclude]
          cases m.state.returns with
          | nil => rfl
          | cons target rest =>
              have hroom : m.steps ≤ limit := by
                by_contra hfull
                have hnone : limit - m.steps = 0 := by omega
                rw [hnone] at hfirst
                cases hfirst
              have hfuel : limit - m.steps + m.steps - n = limit - n := by omega
              simp only [hfuel]

/-- A run that ends with a value leaves no call open. -/
theorem returns_of_run {m m' : Machine} {entry : String} {result : Execution}
    (h : run p limit m entry = (.ok result, m')) : m'.state.returns = [] := by
  rw [run_eq] at h
  cases hstart : p.functions[entry]? with
  | none =>
      rw [hstart] at h
      cases h
  | some start =>
      rw [hstart] at h
      simp only [resume] at h
      generalize hfirst : iterate p _ _ _ = first at h
      obtain ⟨halt, n, t⟩ := first
      cases halt with
      | failed e => cases h
      | outOfSteps => cases h
      | returned value =>
          cases h
          exact returns_of_iterate hfirst

/-- The same memory, heap, output and steps, and the same open calls. -/
structure Alike (m m' : Machine) : Prop where
  ram : m.state.ram = m'.state.ram
  heapNext : m.state.heapNext = m'.state.heapNext
  output : m.state.output = m'.state.output
  steps : m.steps = m'.steps
  returns : m.state.returns = m'.state.returns

/-- A run depends on nothing else, and leaves nothing else that matters to the next one. -/
theorem Alike.run {m m' : Machine} (h : Alike m m') (entry : String) :
    (run p limit m entry).1 = (run p limit m' entry).1 ∧
      Alike (Machine.run p limit m entry).2 (Machine.run p limit m' entry).2 := by
  rw [run_eq, run_eq]
  cases p.functions[entry]? with
  | none => exact ⟨rfl, h⟩
  | some start =>
      obtain ⟨⟨ram, pc, returns, heapNext, output⟩, steps⟩ := m
      obtain ⟨⟨ram', pc', returns', heapNext', output'⟩, steps'⟩ := m'
      obtain ⟨rfl, rfl, rfl, rfl, rfl⟩ := h
      exact ⟨rfl, rfl, rfl, rfl, rfl, rfl⟩

/-- The machine after some runs. -/
def afterRuns (m : Machine) (entries : List String) : Machine :=
  entries.foldl (fun m entry => (run p limit m entry).2) m

/-- No run fails while one of its calls is open. -/
def Settles (m : Machine) (entries : List String) : Prop :=
  ∀ front entry e, front ++ [entry] <+: entries →
    (run p limit (afterRuns p limit m front) entry).1 = .error e →
      (run p limit (afterRuns p limit m front) entry).2.state.returns = []

theorem returns_afterRuns {m : Machine} {entries : List String} (hm : m.state.returns = [])
    (h : Settles p limit m entries) : (afterRuns p limit m entries).state.returns = [] := by
  induction entries using List.reverseRecOn with
  | nil => exact hm
  | append_singleton front entry ih =>
      rw [afterRuns, List.foldl_append, List.foldl_cons, List.foldl_nil, ← afterRuns]
      generalize hrun : run p limit (afterRuns p limit m front) entry = outcome
      obtain ⟨result, m'⟩ := outcome
      cases result with
      | ok result => exact returns_of_run p limit hrun
      | error e =>
          have hlast := h front entry e (List.prefix_refl _)
          rw [hrun] at hlast
          exact hlast rfl

/-! ## A call that a failure leaves open -/

def nestedFiles : List SourceFile :=
  [("Main", [.function "Main.main" 0, .call "Main.inner" 0, .call "Main.missing" 0,
    .function "Main.inner" 0, .call "Main.missing" 0, .function "Main.seven" 0,
    .push .constant 7, .return])]

def nestedProgram : Program where
  instructions := #[⟨.enter 0, "Main.main"⟩, ⟨.call (.function 3) 0, "Main.main"⟩,
    ⟨.call (.undefined "Main.missing") 0, "Main.main"⟩, ⟨.enter 0, "Main.inner"⟩,
    ⟨.call (.undefined "Main.missing") 0, "Main.inner"⟩, ⟨.enter 0, "Main.seven"⟩,
    ⟨.push (.constant 7), "Main.seven"⟩, ⟨.return, "Main.seven"⟩]
  functions := ((({} : Std.HashMap String Nat).insert "Main.main" 0).insert "Main.inner" 3).insert
    "Main.seven" 5

theorem link_nestedFiles : Program.link nestedFiles = .ok nestedProgram := by
  simp [Program.link, nestedFiles, owned, Directory.add, linkFiles, linkCommands, resolve,
    staticCount, staticsOf, staticBase, staticEnd, nestedProgram, Directory.target, bind,
    Except.bind, pure, Except.pure, locate, Routine.ofName?, Routine.all, Routine.name,
    Std.HashMap.getElem_insert]

theorem start_main : nestedProgram.functions["Main.main"]? = some 0 := by
  simp [nestedProgram, Std.HashMap.getElem_insert]

theorem start_inner : nestedProgram.functions["Main.inner"]? = some 3 := by
  simp [nestedProgram, Std.HashMap.getElem_insert]

theorem start_seven : nestedProgram.functions["Main.seven"]? = some 5 := by
  simp [nestedProgram]

theorem word_opening (m : Vector Int16 ramSize) :
    word (opening m) 0 = pointer 261 ∧ word (opening m) 1 = pointer 261 ∧
      word (opening m) 2 = pointer 256 :=
  ⟨word_framed_stack _ _ _ (by decide), word_framed_locals _ _ _ (by decide),
    word_framed_args _ _ _ (by decide)⟩

/-- Entering a function without locals changes no memory. -/
theorem step_enter_zero {p : Program} {s : State} {owner : String}
    (h : p.instructions[s.pc]? = some ⟨.enter 0, owner⟩) :
    step p s = .ok none { s with pc := s.pc + 1 } := by
  rw [step_of_instruction h]
  rfl

theorem step_undefined {p : Program} {s : State} {owner name : String} {arguments : UInt16}
    (h : p.instructions[s.pc]? = some ⟨.call (.undefined name) arguments, owner⟩) :
    step p s = .error (.unknownFunction owner name) s := by
  rw [step_of_instruction h]
  rfl

/-- The call of `Main.inner` stays open. -/
theorem run_nestedMain :
    run nestedProgram 100 {} "Main.main" =
      (.error (.unknownFunction "Main.inner" "Main.missing"),
        { state :=
            { ram := framed (opening (.replicate ramSize 0)) 261 0 0, pc := 4, returns := [2] }
          steps := 4 }) := by
  have hsteps : 100 - ({} : Machine).steps = 96 + 1 + 1 + 1 + 1 := rfl
  have hcall : step nestedProgram { ram := opening (.replicate ramSize 0), pc := 1 } =
      .ok none
        { ram := framed (opening (.replicate ramSize 0)) 261 0 0, pc := 3, returns := [2] } := by
    have hi : nestedProgram.instructions[1]? = some ⟨.call (.function 3) 0, "Main.main"⟩ := rfl
    rw [step_of_instruction hi]
    exact execute_call 1 3 0 (word_opening _).1 (by decide) (by decide) (by decide)
  rw [run_eq, start_main]
  simp only [resume, hsteps]
  rw [iterate_of_step (step_enter_zero rfl), iterate_of_step hcall,
    iterate_of_step (step_enter_zero rfl), iterate_of_error (step_undefined rfl)]
  rfl

/-- On a machine without open calls `Main.seven` takes three steps. -/
theorem run_nestedSeven {limit : Nat} (m : Machine) (hroom : m.steps + 3 ≤ limit)
    (hreturns : m.state.returns = []) :
    ∃ t, run nestedProgram limit m "Main.seven" = (.ok ⟨7, m.state.output, m.steps + 3⟩, t) ∧
      t.steps = m.steps + 3 := by
  obtain ⟨fuel, hfuel⟩ : ∃ fuel, limit - m.steps = fuel + 1 + 1 + 1 :=
    ⟨limit - m.steps - 3, by omega⟩
  obtain ⟨hstack, hlocals, harguments⟩ := word_opening m.state.ram
  set s : State := { m.state with ram := opening m.state.ram, pc := 5 } with hs
  have henter : step nestedProgram s = .ok none { s with pc := 6 } := step_enter_zero rfl
  have hpush : step nestedProgram { s with pc := 6 } =
      .ok none { s with ram := pushed s.ram 261 7, pc := 7 } := by
    have hi : nestedProgram.instructions[6]? = some ⟨.push (.constant 7), "Main.seven"⟩ := rfl
    rw [step_of_instruction hi]
    exact execute_push 6 (load_constant ..) hstack (by decide) (by decide)
  have hreturn : step nestedProgram { s with ram := pushed s.ram 261 7, pc := 7 } =
      .ok (some 7) { s with ram := restored (pushed s.ram 261 7) 262 261 256, pc := 7 } := by
    have hi : nestedProgram.instructions[7]? = some ⟨.return, "Main.seven"⟩ := rfl
    have hvalue : word (pushed s.ram 261 7) 261 = 7 :=
      word_pushed_self _ _ (by decide) (by decide)
    have hstack' : word (pushed s.ram 261 7) 0 = pointer 262 := word_pushed_zero _ _ _ (by decide)
    have hlocals' : word (pushed s.ram 261 7) 1 = pointer 261 :=
      (word_pushed_of_ne _ _ (by decide) (by decide)).trans hlocals
    have harguments' : word (pushed s.ram 261 7) 2 = pointer 256 :=
      (word_pushed_of_ne _ _ (by decide) (by decide)).trans harguments
    have hframe := @popFrame_run "Main.seven" { s with ram := pushed s.ram 261 7, pc := 7 } 262 261
      256 hstack' hlocals' harguments' (by decide) (by decide) (by decide) (by decide) (by decide)
    rw [step_of_instruction hi, execute_return 7 hframe, hvalue]
    simp only [leave, hs, hreturns]
  rw [run_eq, start_seven]
  simp only [resume, hfuel]
  rw [← hs, iterate_of_step henter, iterate_of_step hpush, iterate_of_value hreturn]
  exact ⟨_, rfl, rfl⟩

/-! ## Runs after runs -/

/-- After runs none of which failed while a call was open, no call is open, and a run is that of any
machine with the same memory, heap, output and steps. After any other runs, a run is the one without
the open calls until its own frame is left, and then goes on behind the latest of them. -/
theorem run_after_runs (p : Program) (limit : Nat) (entries : List String) (entry : String) :
    let m := afterRuns p limit {} entries
    (Settles p limit {} entries →
      m.state.returns = [] ∧
        ∀ fresh : Machine, fresh.state.returns = [] → fresh.state.ram = m.state.ram →
          fresh.state.heapNext = m.state.heapNext → fresh.state.output = m.state.output →
          fresh.steps = m.steps →
            (run p limit m entry).1 = (run p limit fresh entry).1 ∧
              Alike (run p limit m entry).2 (run p limit fresh entry).2) ∧
      run p limit m entry =
        match run p limit m.alone entry with
        | (.error e, t) => (.error e, { t with state := t.state.above m.state.returns })
        | (.ok result, t) =>
          match m.state.returns with
          | [] => (.ok result, t)
          | target :: rest =>
            resume p limit { t with state := { t.state with pc := target, returns := rest } } := by
  refine ⟨fun hsettles => ?_, run_eq_resume p limit _ entry⟩
  have hempty := returns_afterRuns p limit rfl hsettles
  refine ⟨hempty, fun fresh hreturns hram hheap houtput hsteps => ?_⟩
  have halike : Alike (afterRuns p limit {} entries) fresh :=
    ⟨hram.symm, hheap.symm, houtput.symm, hsteps.symm, hempty.trans hreturns.symm⟩
  exact halike.run p limit entry

/-- `Main.inner` fails as the function of a run, where no call is open. -/
theorem run_after_inner :
    let m := afterRuns nestedProgram 100 {} ["Main.inner"]
    Settles nestedProgram 100 {} ["Main.inner"] ∧ m.state.returns = [] ∧
      (run nestedProgram 100 m "Main.seven").1 =
        (run nestedProgram 100 { state := { ram := m.state.ram }, steps := m.steps }
          "Main.seven").1 := by
  have hinner : run nestedProgram 100 {} "Main.inner" =
      (.error (.unknownFunction "Main.inner" "Main.missing"),
        { state := { ram := opening (.replicate ramSize 0), pc := 4 }, steps := 2 }) := by
    have hsteps : 100 - ({} : Machine).steps = 98 + 1 + 1 := rfl
    rw [run_eq, start_inner]
    simp only [resume, hsteps]
    rw [iterate_of_step (step_enter_zero rfl), iterate_of_error (step_undefined rfl)]
    rfl
  have hsettles : Settles nestedProgram 100 {} ["Main.inner"] := by
    intro front entry e hprefix _
    obtain ⟨rfl, rfl⟩ : front = [] ∧ entry = "Main.inner" := by
      obtain ⟨back, hback⟩ := hprefix
      cases front with
      | nil => simp_all
      | cons _ _ => simp at hback
    rw [afterRuns, List.foldl_nil, hinner]
  obtain ⟨hempty, hfresh⟩ :=
    (run_after_runs nestedProgram 100 ["Main.inner"] "Main.seven").1 hsettles
  have hsame := hfresh
    { state := { ram := (afterRuns nestedProgram 100 {} ["Main.inner"]).state.ram }
      steps := (afterRuns nestedProgram 100 {} ["Main.inner"]).steps } rfl rfl
  refine ⟨hsettles, hempty, (hsame ?_ ?_ rfl).1⟩
  · simp only [afterRuns, List.foldl_cons, List.foldl_nil, hinner]
  · simp only [afterRuns, List.foldl_cons, List.foldl_nil, hinner]

/-- Behind the call that `Main.main` left open, `Main.seven` does not end with its value. -/
theorem run_into_open_call :
    let m := afterRuns nestedProgram 100 {} ["Main.main"]
    Program.link nestedFiles = .ok nestedProgram ∧ m.state.returns = [2] ∧
      (run nestedProgram 100 m.alone "Main.seven").1 = .ok ⟨7, "", 7⟩ ∧
      (run nestedProgram 100 m "Main.seven").1 =
        .error (.unknownFunction "Main.main" "Main.missing") := by
  have hmain : afterRuns nestedProgram 100 {} ["Main.main"] =
      { state := { ram := framed (opening (.replicate ramSize 0)) 261 0 0, pc := 4, returns := [2] }
        steps := 4 } := by
    simp only [afterRuns, List.foldl_cons, List.foldl_nil, run_nestedMain]
  simp only [hmain]
  obtain ⟨t, halone, hsteps⟩ := run_nestedSeven
    (alone
      { state := { ram := framed (opening (.replicate ramSize 0)) 261 0 0, pc := 4, returns := [2] }
        steps := 4 }) (show 4 + 3 ≤ 100 by decide) rfl
  refine ⟨link_nestedFiles, trivial, by rw [halone]; rfl, ?_⟩
  have hfuel : 100 - t.steps = 92 + 1 := by
    rw [hsteps]
    rfl
  rw [run_eq_resume, halone]
  simp only [resume, hfuel]
  rw [iterate_of_error (step_undefined rfl)]
  rfl

end JackToolchain.Machine
