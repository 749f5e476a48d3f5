import JackToolchain.Proofs.Evaluation.Calls
import JackToolchain.Proofs.Evaluation.Layouts
import JackToolchain.Proofs.Machine.Resolution
import JackToolchain.Proofs.Machine.Snapshots

/-!
# Runs of compiled classes

The program of compiled classes prints and returns what an evaluation of their trees does.
-/

namespace JackToolchain.Evaluation

open JackToolchain.Machine JackToolchain.Memory JackToolchain.Lowering JackToolchain.Syntax
open JackToolchain.Stack JackToolchain.Source

/-! ## The first frame -/

/-- The state in which a fresh machine starts a function. -/
def started (entry : Nat) : State := { ram := opening (.replicate ramSize 0), pc := entry }

theorem word_replicate (a : Nat) : word (.replicate ramSize 0) a = 0 := by
  rw [word, Vector.getElem?_replicate]
  split <;> rfl

theorem word_started {entry a : Nat} (h : 16 ≤ a ∧ a < 256 ∨ 261 ≤ a) :
    word (started entry).ram a = 0 := by
  have hput : word (put (.replicate ramSize 0) 0 (pointer 256)) a = 0 := by
    rw [word_put_of_ne _ _ (by omega), word_replicate]
  rcases h with h | h
  · exact (word_framed_of_lt _ _ _ (by omega) (by omega)).trans hput
  · exact (word_framed_of_le _ _ _ (by omega) (by omega)).trans hput

variable {w : World}

/-- Nothing has been stored yet. -/
theorem shared_started (y : Layout w) (entry : Nat) : Shared y {} (started entry) where
  heapNext := rfl
  room := by decide
  output := rfl
  heap a ha := (word_started (.inr (by omega))).trans (word_replicate a).symm
  fresh a _ := word_replicate a
  statics tree htree name type k _ hk := by
    have hrange := y.range tree htree
    rw [word_started (.inl (by omega))]
    rfl

/-- The final state of a run is that of its steps. -/
theorem state_run {p : Program} {entry : String} {start : Nat}
    (hstart : p.functions[entry]? = some start) (limit : Nat) :
    (Machine.run p limit {} entry).2.state = (iterate p limit 0 (started start)).2.2 := by
  rw [run_eq, hstart]
  change (conclude limit (iterate p limit 0 (started start))).2.state = _
  generalize iterate p limit 0 (started start) = outcome
  obtain ⟨halt, n, s⟩ := outcome
  cases halt <;> rfl

theorem roomy_started {p : Program} {entry : String} {start : Nat}
    (hstart : p.functions[entry]? = some start)
    (hroom : ∀ limit, (Machine.run p limit {} entry).2.state.InRoom) :
    Roomy p (started start) := by
  intro fuel count
  rw [state_iterate p fuel count 0, ← state_run hstart]
  exact hroom fuel

/-! ## Runs -/

/-- What is no routine of the machine is a subroutine. -/
theorem exists_subroutine_of_invoke {fuel : Nat} {className name : String} {vs : List Int16}
    {v : Int16} {t t' : Store} (hname : Routine.ofName? s!"{className}.{name}" = none)
    (h : invoke w (fuel + 1) className name vs t = .ok v t') :
    ∃ tree sub, w.subroutine? className name = some (tree, sub) := by
  cases hfound : w.subroutine? className name with
  | some found => exact ⟨found.1, found.2, rfl⟩
  | none =>
      unfold invoke at h
      simp only [hfound] at h
      obtain ⟨r, hr⟩ := exists_routine h
      rw [hr, Routine.ofName?_name] at hname
      cases hname

/-- A function that an evaluation calls first is what a run starts with. -/
theorem exists_run (y : Layout w) (hfunctions : y.program.functions = y.linked.directory.functions)
    {fuel : Nat} {className name : String} {v : Int16} {t : Store} {tree : ClassTree}
    {sub : Subroutine} (hfound : w.subroutine? className name = some (tree, sub))
    (h : invoke w (fuel + 1) className name [] {} = .ok v t)
    (hroom : ∀ limit,
      (Machine.run y.program limit {} s!"{className}.{name}").2.state.InRoom) :
    ∃ steps, ∀ limit, steps ≤ limit →
      (Machine.run y.program limit {} s!"{className}.{name}").1 = .ok ⟨v, t.output, steps⟩ := by
  obtain ⟨htree, hsub, rfl, rfl⟩ := subroutine?_eq_some hfound
  obtain ⟨hcount, this, explicit, t₁, f', henter, hrun⟩ := invoke_eq_ok y.strict hfound h
  obtain ⟨entry, labels, opening, body, hentry, hblock, hplaced⟩ := y.placed tree htree sub hsub
  have hstart : y.program.functions[s!"{tree.name}.{sub.name}"]? = some entry := by
    rw [hfunctions, hentry]
  have hcount' : valueCount sub = 0 := hcount.symm
  let act : Activation w :=
    { tree, sub, arguments := 256, locals := 261, mem := htree, declared := hsub
      small := hblock.count, low := le_rfl, frame := by rw [hcount'], high := by decide }
  obtain ⟨hstack, hlocals, harguments⟩ := word_opening (.replicate ramSize 0)
  have henters : Enters y act [] {} (started entry) :=
    ⟨shared_started y entry, roomy_started hstart hroom, hstack, hlocals, harguments,
      fun i hi => by simp at hi, hcount⟩
  obtain ⟨s, hs⟩ := henters.returns (simulates y fuel) hblock hplaced henter hrun
  obtain ⟨n, hn⟩ := hs.proceeds.iterate_eq
  have hlast : step y.program s = .ok (some v) { s with ram := act.left s } := by
    rw [hs.step_eq, leave, hs.kept.returns]
    rfl
  refine ⟨n + 1, fun limit hlimit => ?_⟩
  have hiterate : iterate y.program limit 0 (started entry) =
      (.returned v, n + 1, { s with ram := act.left s }) := by
    obtain ⟨rest, rfl⟩ := Nat.exists_eq_add_of_le hlimit
    rw [Nat.add_assoc, Nat.add_comm 1, hn, iterate_of_value hlast, Nat.zero_add]
  rw [run_eq, hstart]
  change (conclude limit (iterate y.program limit 0 (started entry))).1 = _
  rw [hiterate, conclude, hs.shared.output]

/-- A strict evaluation of `Main.main` that comes to a value is one that breaks no rule. Then the
program returns the value and prints the same as soon as its steps are not limited too much, if its
stack stays in front of the heap. -/
theorem run_of_evaluate {trees : List ClassTree} {classes : List CompiledClass} {p : Program}
    (hcompiled : Compiled trees classes) (hlinked : Program.link (filesOf classes) = .ok p)
    {fuel : Nat} {v : Int16} {t : Store}
    (hrun : evaluate ⟨trees, true⟩ fuel "Main" "main" = .ok (v, t))
    (hroom : ∀ limit, (Machine.run p limit {} "Main.main").2.state.InRoom) :
    evaluate ⟨trees, false⟩ fuel "Main" "main" = .ok (v, t) ∧
      ∃ steps, ∀ limit, steps ≤ limit →
        (Machine.run p limit {} "Main.main").1 = .ok ⟨v, t.output, steps⟩ := by
  refine ⟨evaluate_lenient _ hrun, ?_⟩
  obtain ⟨l, rfl, hl⟩ := exists_linked hlinked
  unfold evaluate at hrun
  split at hrun
  · rename_i value s hinvoke
    cases hrun
    cases fuel with
    | zero => cases hinvoke
    | succ fuel =>
        obtain ⟨tree, sub, hfound⟩ := exists_subroutine_of_invoke (by decide) hinvoke
        exact exists_run (hcompiled.layout hl) hl.functions hfound hinvoke hroom
  · cases hrun

/-! ## Room that is computed -/

/-- The instructions that the rows of some files tell. -/
def codeOf (files : List SourceFile) : List Instruction :=
  (rows staticBase files).filterMap (Row.instruction? (rows staticBase files))

/-- Some files are linked, and the run of a function of theirs ends after less than so many steps,
with the stack in its room. All of it can be computed. -/
structure EndsInRoom (files : List SourceFile) (entry : String) (fuel : Nat) : Prop where
  functions : ((rows staticBase files).filterMap Row.function?).Nodup
  labels : ((rows staticBase files).filterMap Row.label?).Nodup
  code : (rows staticBase files).map (Row.instruction? (rows staticBase files)) =
    (codeOf files).map some
  statics : staticBase + staticTotal files ≤ staticEnd
  ends : ∃ start ∈ functionAt? (rows staticBase files) entry,
    (Snapshot.started start).ends (codeOf files) fuel

instance (files : List SourceFile) (entry : String) (fuel : Nat) :
    Decidable (EndsInRoom files entry fuel) :=
  decidable_of_iff
    (((rows staticBase files).filterMap Row.function?).Nodup ∧
      ((rows staticBase files).filterMap Row.label?).Nodup ∧
      (rows staticBase files).map (Row.instruction? (rows staticBase files)) =
        (codeOf files).map some ∧
      staticBase + staticTotal files ≤ staticEnd ∧
      ∃ start ∈ functionAt? (rows staticBase files) entry,
        (Snapshot.started start).ends (codeOf files) fuel)
    ⟨fun ⟨hfunctions, hlabels, hcode, hstatics, hends⟩ =>
        ⟨hfunctions, hlabels, hcode, hstatics, hends⟩,
      fun h => ⟨h.functions, h.labels, h.code, h.statics, h.ends⟩⟩

theorem EndsInRoom.exists_link {files : List SourceFile} {entry : String} {fuel : Nat}
    (h : EndsInRoom files entry fuel) :
    ∃ p, Program.link files = .ok p ∧
      ∀ limit, (Machine.run p limit {} entry).2.state.InRoom := by
  obtain ⟨p, hlinked, hcode, hfunctions⟩ :=
    Machine.exists_link h.functions h.labels h.code h.statics
  obtain ⟨start, hstart, hends⟩ := h.ends
  rw [← hcode] at hends
  have hroomy := Snapshot.roomy_of_ends hends
  rw [Snapshot.state_started] at hroomy
  refine ⟨p, hlinked, fun limit => ?_⟩
  rw [state_run ((hfunctions entry).trans hstart)]
  exact hroomy limit 0

/-! ## Two classes -/

/-- An object counts to its limit while a static variable grows. -/
theorem run_of_evaluate_counter : ∃ counter main trees p t,
    (Compilation.ofLexer "Counter.jack" (.ofText Lexer.counterSource)).result = .ok counter ∧
    (Compilation.ofLexer "Main.jack" (.ofText mainSource)).result = .ok main ∧
    Compiled trees [counter, main] ∧ Program.link (filesOf [counter, main]) = .ok p ∧
    evaluate ⟨trees, true⟩ 20 "Main" "main" = .ok (4, t) ∧ t.output = "4" ∧
    evaluate ⟨trees, false⟩ 20 "Main" "main" = .ok (4, t) ∧
    ∃ steps, ∀ limit, steps ≤ limit →
      (Machine.run p limit {} "Main.main").1 = .ok ⟨4, "4", steps⟩ := by
  obtain ⟨⟨tree, commands⟩, hpart, ⟨tree', commands'⟩, hpart', hnames, hdistinct, hroutines, hends,
      ⟨v, t⟩, hrun, rfl, houtput⟩ :
      ∃ part ∈ Compilation.compiled? 200 (.ofText Lexer.counterSource),
      ∃ part' ∈ Compilation.compiled? 200 (.ofText mainSource),
        ([part.1, part'.1].map ClassTree.name).Nodup ∧
        (∀ tree ∈ [part.1, part'.1], Distinct tree) ∧
        (∀ tree ∈ [part.1, part'.1], ∀ s ∈ tree.subroutines,
          Routine.ofName? s!"{tree.name}.{s.name}" = none) ∧
        EndsInRoom [(part.1.name, part.2), (part'.1.name, part'.2)] "Main.main" 100 ∧
        ∃ outcome ∈ (evaluate ⟨[part.1, part'.1], true⟩ 20 "Main" "main").toOption,
          outcome.1 = 4 ∧ outcome.2.output = "4" := by
    decide +kernel
  obtain ⟨counter, hcounter, htree, rfl⟩ := Compilation.exists_compiles "Counter.jack" rfl hpart
  obtain ⟨main, hmain, htree', rfl⟩ := Compilation.exists_compiles "Main.jack" rfl hpart'
  have hcompiled : Compiled [tree, tree'] [counter, main] :=
    ⟨.cons ⟨_, _, hcounter, htree⟩ (.cons ⟨_, _, hmain, htree'⟩ .nil), hnames, hdistinct, hroutines⟩
  obtain ⟨p, hlinked, hroom⟩ := hends.exists_link
  have hfiles : filesOf [counter, main] =
      [(tree.name, counter.commands), (tree'.name, main.commands)] := by
    rw [← htree.className, ← htree'.className]
    rfl
  rw [← hfiles] at hlinked
  have hevaluate := eq_ok_of_toOption hrun
  obtain ⟨hlenient, hruns⟩ := run_of_evaluate hcompiled hlinked hevaluate hroom
  rw [houtput] at hruns
  exact ⟨counter, main, _, p, t, hcounter, hmain, hcompiled, hlinked, hevaluate, houtput, hlenient,
    hruns⟩

end JackToolchain.Evaluation
