import JackToolchain.Proofs.Machine.CheckedLink
import JackToolchain.Proofs.Machine.CheckedRun
import JackToolchain.Proofs.Stack.RoundTrip

/-!
# Programs run without a breach

Texts that link consist of their files with every operand in bounds, and the checked machine links
them too. No step of it, in any state that runs of the program reach, breaches it.
-/

namespace JackToolchain.Machine

open JackToolchain.Stack

/-! ## Texts -/

/-- A file has the name of a text and its commands. -/
def IsFileOf (text : String × String) (file : SourceFile) : Prop :=
  file.1 = text.1 ∧ read text.2 = .ok file.2

/-- The file of a text. -/
def readFile (text : String × String) : Except LinkError SourceFile :=
  match read text.2 with
  | .ok commands => .ok (text.1, commands)
  | .error e => .error (.badText text.1 e)

theorem Program.ofTexts_eq (texts : List (String × String)) :
    Program.ofTexts texts = texts.mapM readFile >>= Program.link := rfl

theorem isFileOf_of_readFile {text : String × String} {file : SourceFile}
    (h : readFile text = .ok file) : IsFileOf text file := by
  unfold readFile at h
  split at h
  · rename_i commands hread
    cases h
    exact ⟨rfl, hread⟩
  · cases h

theorem files_of_mapM {texts : List (String × String)} {files : List SourceFile}
    (h : texts.mapM readFile = .ok files) : List.Forall₂ IsFileOf texts files := by
  induction texts generalizing files with
  | nil =>
      cases h
      exact .nil
  | cons text texts ih =>
      rw [List.mapM_cons] at h
      obtain ⟨file, hfile, h⟩ := exists_of_bind h
      obtain ⟨rest, hrest, h⟩ := exists_of_bind h
      cases h
      exact .cons (isFileOf_of_readFile hfile) (ih hrest)

/-- Files link as their commands do when they are written. -/
theorem Program.ofTexts_render {files : List SourceFile}
    (h : ∀ file ∈ files, ∀ c ∈ file.2, c.WellFormed) :
    Program.ofTexts (files.map fun file => (file.1, render file.2)) = Program.link files := by
  have hfiles : (files.map fun file => (file.1, render file.2)).mapM readFile = .ok files := by
    induction files with
    | nil => rfl
    | cons file files ih =>
        obtain ⟨hfirst, hrest⟩ := List.forall_mem_cons.mp h
        have hfile : readFile (file.1, render file.2) = .ok file := by
          rw [readFile, read_of_render hfirst]
        rw [List.map_cons, List.mapM_cons, hfile, ih hrest]
        rfl
  rw [Program.ofTexts_eq, hfiles]
  rfl

/-! ## States of runs -/

/-- A state that runs of a program reach: the first one, one in which a run begins, and what a
step leaves, also when it fails. -/
inductive Checked.Reached (P : Checked.Program) : Checked.State → Prop
  | first : Reached P {}
  | prepare {s t : Checked.State} {name : String} {entry : Nat} (hs : Reached P s)
    (hentry : P.functions[name]? = some entry) (h : Checked.prepare P entry s = .ok () t) :
    Reached P t
  | step {s t : Checked.State} {value : Option Int16} (hs : Reached P s)
    (h : Checked.step P s = .ok value t) : Reached P t
  | fail {s t : Checked.State} {e : Breach ⊕ RunError} (hs : Reached P s)
    (h : Checked.step P s = .error e t) : Reached P t

theorem checked_first : State.checked {} = {} := by
  simp [State.checked]

theorem exists_state_of_reached {P : Checked.Program} {p : Program} (hp : ProgramNamed P p)
    {s : Checked.State} (h : Checked.Reached P s) :
    ∃ t : State, s = t.checked ∧ t.heapNext ≤ heapEnd := by
  induction h with
  | first => exact ⟨{}, checked_first.symm, by decide⟩
  | prepare _ _ h ih =>
      obtain ⟨t, rfl, ht⟩ := ih
      rw [prepare_checked hp _ ht] at h
      cases h
      exact ⟨_, rfl, ht⟩
  | step _ h ih =>
      obtain ⟨t, rfl, ht⟩ := ih
      obtain ⟨hstep, hheap⟩ := step_checked hp ht
      rw [hstep] at h
      cases hresult : Machine.step p t with
      | ok value u =>
          rw [hresult] at h hheap
          cases h
          exact ⟨u, rfl, hheap⟩
      | error e u =>
          rw [hresult] at h
          cases h
  | fail _ h ih =>
      obtain ⟨t, rfl, ht⟩ := ih
      obtain ⟨hstep, hheap⟩ := step_checked hp ht
      rw [hstep] at h
      cases hresult : Machine.step p t with
      | ok value u =>
          rw [hresult] at h
          cases h
      | error e u =>
          rw [hresult] at h hheap
          cases h
          exact ⟨u, rfl, hheap⟩

/-- No step breaches the machine. -/
theorem step_ne_breach {P : Checked.Program} {p : Program} (hp : ProgramNamed P p)
    {s : Checked.State} (h : Checked.Reached P s) (b : Breach) (t : Checked.State) :
    Checked.step P s ≠ .error (.inl b) t := by
  obtain ⟨s, rfl, hs⟩ := exists_state_of_reached hp h
  rw [(step_checked hp hs).1]
  cases Machine.step p s with
  | ok value u => exact fun heq => by cases heq
  | error e u => exact fun heq => by cases heq

/-- What links from texts consists of their files. The checked machine links it, and steps and runs
of it have no breach. -/
theorem Program.safe_of_ofTexts {texts : List (String × String)} {p : Program}
    (h : Program.ofTexts texts = .ok p) :
    ∃ files, List.Forall₂ IsFileOf texts files ∧
      p.Consists (parts 0 16 files) ∧
      (parts 0 16 files).Pairwise (fun a b => Disjoint a.statics b.statics) ∧
      (∀ part ∈ parts 0 16 files, part.statics ⊆ Finset.Ico 16 256) ∧
      ∃ P, Checked.Program.link files = .ok P ∧ ProgramNamed P p ∧
        (∀ s, Checked.Reached P s → ∀ b t, Checked.step P s ≠ .error (.inl b) t) ∧
        ∀ (limit : UInt64) (entries : List String), Checked.outcomes P limit {} entries =
          (outcomes p limit.toNat {} entries).map declared := by
  rw [Program.ofTexts_eq] at h
  obtain ⟨files, hfiles, hlink⟩ := exists_of_bind h
  have htexts := files_of_mapM hfiles
  have hwell : ∀ file ∈ files, ∀ c ∈ file.2, c.WellFormed := by
    intro file hfile
    obtain ⟨text, -, -, hread⟩ := exists_left_of_forall₂ htexts hfile
    exact wellFormed_of_read hread
  obtain ⟨hconsists, hstatics⟩ := Program.consists_of_link hlink hwell
  obtain ⟨P, hP, hp⟩ := link_checked hlink hwell
  refine ⟨files, htexts, hconsists, pairwise_disjoint_statics 0 16 files, hstatics, P, hP, hp,
    fun s hs => step_ne_breach hp hs, fun limit entries => ?_⟩
  have hfirst : checkedSession {} = {} := congrArg (Checked.Session.mk · 0) checked_first
  rw [← hfirst]
  exact outcomes_checked hp limit (by decide) entries

/-! ## Two files -/

/-- Each file has a label of the same name and a static variable of its own. -/
def pairedFiles : List SourceFile :=
  [("A", [.function "A.main" 0, .label "L", .push .static 0, .ifGoto "L", .call "B.get" 0,
    .return]),
   ("B", [.function "B.get" 0, .label "L", .push .static 0, .ifGoto "L", .push .constant 7,
    .return])]

def pairedTexts : List (String × String) := pairedFiles.map fun file => (file.1, render file.2)

def pairedProgram : Program where
  instructions := #[⟨.enter 0, "A.main"⟩, ⟨.skip, "A.main"⟩, ⟨.push (.fixed 16), "A.main"⟩,
    ⟨.jumpIf 1, "A.main"⟩, ⟨.call (.function 6) 0, "A.main"⟩, ⟨.return, "A.main"⟩,
    ⟨.enter 0, "B.get"⟩, ⟨.skip, "B.get"⟩, ⟨.push (.fixed 17), "B.get"⟩, ⟨.jumpIf 7, "B.get"⟩,
    ⟨.push (.constant 7), "B.get"⟩, ⟨.return, "B.get"⟩]
  functions := (({} : Std.HashMap String Nat).insert "A.main" 0).insert "B.get" 6

theorem ofTexts_pairedTexts : Program.ofTexts pairedTexts = .ok pairedProgram := by
  have hwell : ∀ file ∈ pairedFiles, ∀ c ∈ file.2, c.WellFormed := by
    simp only [pairedFiles, List.forall_mem_cons]
    refine ⟨⟨⟨rfl, rfl⟩, ⟨rfl, rfl⟩, ⟨trivial, rfl⟩, ⟨rfl, rfl⟩, ⟨rfl, rfl⟩, ⟨trivial, rfl⟩, ?_⟩,
      ⟨⟨rfl, rfl⟩, ⟨rfl, rfl⟩, ⟨trivial, rfl⟩, ⟨rfl, rfl⟩, ⟨trivial, rfl⟩, ⟨trivial, rfl⟩, ?_⟩, ?_⟩
    all_goals simp
  rw [pairedTexts, Program.ofTexts_render hwell]
  simp [Program.link, pairedFiles, owned, Directory.add, linkFiles, linkCommands, resolve,
    staticCount, staticsOf, staticBase, staticEnd, pairedProgram, Directory.target, bind,
    Except.bind, pure, Except.pure, locate, Routine.ofName?, Routine.all, Routine.name,
    Std.HashMap.getElem_insert, Directory.label]

theorem Program.safe_of_pairedTexts : ∃ p, Program.ofTexts pairedTexts = .ok p ∧
    ∃ files, List.Forall₂ IsFileOf pairedTexts files ∧
      p.Consists (parts 0 16 files) ∧
      ∃ P, Checked.Program.link files = .ok P ∧
        ∀ (limit : UInt64) (entries : List String), Checked.outcomes P limit {} entries =
          (outcomes p limit.toNat {} entries).map declared := by
  obtain ⟨files, htexts, hconsists, -, -, P, hP, -, -, houtcomes⟩ :=
    Program.safe_of_ofTexts ofTexts_pairedTexts
  exact ⟨pairedProgram, ofTexts_pairedTexts, files, htexts, hconsists, P, hP, houtcomes⟩

end JackToolchain.Machine
