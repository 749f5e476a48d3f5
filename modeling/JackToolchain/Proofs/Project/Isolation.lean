import JackToolchain.Proofs.Project.Listing

/-!
# Isolation of files

In a batch, a file comes to what it comes to alone: earlier files change the tree only by their
outputs. A batch that may go on after failures goes on after all but those of a single kind.
-/

namespace JackToolchain.Project

open JackToolchain.Diagnostics JackToolchain.Files

/-! ## One file after the other -/

/-- What a file comes to by itself. -/
def alone (settings : SourceSettings) (s : Session) (path : Path) :
    Except ClassError CompiledFile :=
  ((compileFile settings path).run.run s).1

theorem alone_eq (settings : SourceSettings) (s : Session) (path : Path) :
    alone settings s path = (compiledFile settings s path).1 := by
  obtain ⟨u, hrun, -⟩ := compileFile_leaves settings path s
  rw [alone, hrun]

/-- The files up to the first one that stops the batch. -/
def compiledOnes (o : BatchOptions) (s : Session) (files : List Path) : List Path :=
  files.take (files.findIdx (fun path => o.stopsAfter (alone o.source s path)) + 1)

theorem compiledOnes_cons (o : BatchOptions) (s : Session) (path : Path) (rest : List Path) :
    compiledOnes o s (path :: rest) =
      path :: if o.stopsAfter (alone o.source s path) then [] else compiledOnes o s rest := by
  rw [compiledOnes, List.findIdx_cons, compiledOnes]
  cases o.stopsAfter (alone o.source s path) <;> simp

/-- The tree after the compilation of a file of the batch that began in a session. -/
def leaving (settings : SourceSettings) (s : Session) (t : Tree) (path : Path) : Tree :=
  withResult t (outputPlace s.tree path) (alone settings s path)

/-- A session of a batch has outputs beside the files of the session in which the batch began. -/
structure Onward (s w : Session) : Prop where
  keeps : s.tree.Keeps w.tree
  settings : w.settings = s.settings
  traced : w.traced = s.traced

namespace Onward

variable {s w u : Session}

theorem like (h : Onward s w) (hlike : w.Like u) : Onward s u :=
  ⟨hlike.tree ▸ h.keeps, hlike.settings.trans h.settings, hlike.traced.trans h.traced⟩

/-- A file comes to what it comes to alone, and leaves the session with its output. -/
theorem compileFile_run (h : Onward s w) (hbase : s.tree.WellBased) (settings : SourceSettings)
    {path : Path} (hsource : ∃ front name place content,
      s.tree.HasSource path front name place content) :
    ∃ u, (compileFile settings path).run.run w = (alone settings s path, u) ∧
      u.tree = leaving settings s w.tree path ∧ Onward s u := by
  obtain ⟨front, name, place, content, hsource⟩ := hsource
  obtain ⟨u, hrun, hlike⟩ := compileFile_leaves settings path w
  obtain ⟨hcompiled, hkeeps⟩ :=
    compiledFile_of_keeps settings hsource hbase h.keeps h.settings h.traced
  rw [hcompiled, ← alone_eq] at hrun
  rw [hcompiled, ← alone_eq] at hlike
  rw [← alone_eq] at hkeeps
  exact ⟨u, hrun, hlike.tree, hlike.tree ▸ hkeeps, hlike.settings.trans h.settings,
    hlike.traced.trans h.traced⟩

end Onward

theorem compileFiles_cons {o : BatchOptions} {each : Path × Nat → Action Unit} {path : Path}
    {number : Nat} {rest : List (Path × Nat)} {w u : Session}
    {result : Except ClassError CompiledFile}
    (hrun : (compileFile o.source path).run.run ((each (path, number)).run w).2 = (result, u)) :
    (compileFiles o each ((path, number) :: rest)).run w =
      if o.stopsAfter result then (([(path, result)], true), u)
      else
        let others := (compileFiles o each rest).run u
        (((path, result) :: others.1.1, others.1.2), others.2) := by
  rw [compileFiles, StateT.run_bind]
  change ((compileFile o.source path).run >>= _ : Action _).run ((each (path, number)).run w).2 = _
  rw [StateT.run_bind, hrun]
  cases hstop : o.stopsAfter result with
  | true =>
      change (if o.stopsAfter result then _ else _ : Action _).run u = _
      rw [hstop]
      rfl
  | false =>
      change (if o.stopsAfter result then _ else _ : Action _).run u = _
      rw [hstop]
      rfl

/-- The files of a listing are compiled up to the first one that stops the batch. -/
theorem compileFiles_run {o : BatchOptions} {s : Session} (hbase : s.tree.WellBased)
    {each : Path × Nat → Action Unit} (heach : ∀ x (w : Session), w.Like ((each x).run w).2)
    {numbered : List (Path × Nat)} (hsources : ∀ x ∈ numbered,
      ∃ front name place content, s.tree.HasSource x.1 front name place content)
    {w : Session} (h : Onward s w) :
    let files := compiledOnes o s (numbered.map Prod.fst)
    ∃ stopped u, (compileFiles o each numbered).run w =
        ((files.map fun path => (path, alone o.source s path), stopped), u) ∧
      u.tree = files.foldl (leaving o.source s) w.tree ∧ Onward s u := by
  induction numbered generalizing w with
  | nil => exact ⟨false, w, rfl, rfl, h⟩
  | cons x rest ih =>
      obtain ⟨path, number⟩ := x
      obtain ⟨hsource, hrest⟩ := List.forall_mem_cons.mp hsources
      obtain ⟨u, hrun, htree, hu⟩ :=
        (h.like (heach (path, number) w)).compileFile_run hbase o.source hsource
      have hlike := (heach (path, number) w).tree
      rw [hlike] at htree
      rw [List.map_cons, compiledOnes_cons, compileFiles_cons hrun]
      by_cases hstop : o.stopsAfter (alone o.source s path)
      · simp only [hstop, if_true]
        exact ⟨true, u, rfl, htree, hu⟩
      · obtain ⟨stopped, v, hrun', htree', hv⟩ := ih hrest hu
        simp only [hstop, Bool.false_eq_true, if_false, hrun']
        refine ⟨stopped, v, rfl, ?_, hv⟩
        rw [htree', htree]
        rfl

/-- What a batch reports of the files that it compiled. -/
def outcomeOf (o : BatchOptions) (s : Session) (files : List Path) : BatchOutcome where
  discovered := files.length
  files := (compiledOnes o s files).map fun path => (path, alone o.source s path)

theorem compileDiscovered_run {o : BatchOptions} {s : Session} (hbase : s.tree.WellBased)
    {each : Path × Nat → Action Unit} (heach : ∀ x (w : Session), w.Like ((each x).run w).2)
    {files : List Path} (hsources : ∀ path ∈ files,
      ∃ front name place content, s.tree.HasSource path front name place content)
    {w : Session} (h : Onward s w) (mode : String) (threads : Nat) (stopMessage : String) :
    ∃ u, (compileDiscovered o files each mode threads stopMessage).run w =
        (outcomeOf o s files, u) ∧
      u.tree = (compiledOnes o s files).foldl (leaving o.source s) w.tree ∧ Onward s u := by
  have hnumbered : ∀ x ∈ files.zipIdx 1,
      ∃ front name place content, s.tree.HasSource x.1 front name place content :=
    fun x hx => hsources x.1 (List.fst_mem_of_mem_zipIdx hx)
  obtain ⟨stopped, u, hrun, htree, hu⟩ :=
    compileFiles_run (o := o) hbase heach hnumbered h
  rw [List.zipIdx_map_fst] at hrun htree
  unfold compileDiscovered
  rw [StateT.run_bind, hrun]
  cases stopped with
  | false =>
      exact ⟨_, rfl, (Session.Like.raise u _).tree.trans htree, hu.like (.raise u _)⟩
  | true =>
      have hraised (v : Session) (e e' : Event) : v.Like ((v.raise e).raise e') :=
        (Session.Like.raise v e).trans (.raise _ e')
      exact ⟨_, rfl, (hraised u _ _).tree.trans htree, hu.like (hraised u _ _)⟩

/-- The file failed with a code behind which no batch goes on: that of parts that cannot be lowered,
or that of internal errors. -/
def isFault : Except ClassError CompiledFile → Bool
  | .error e => e.code == .unsupportedNode || e.code == .internalError
  | .ok _ => false

theorem stopsAfter_eq {o : BatchOptions} (hfast : o.failFast = false)
    (result : Except ClassError CompiledFile) : o.stopsAfter result = isFault result := by
  rcases result with e | f
  · simp only [BatchOptions.stopsAfter, BatchOptions.stops, hfast, Bool.false_or]
    rcases e with e | e | e | e
    · cases e
      all_goals rfl
    · cases e
      all_goals rfl
    · rcases e with _ | _ | _ | _ | e
      · rfl
      · rfl
      · rfl
      · rfl
      · cases e
        all_goals rfl
    · cases e
      all_goals rfl
  · rfl

theorem Onward.refl (s : Session) : Onward s s := ⟨.refl s.tree, rfl, rfl⟩

/-- A batch comes to what its listing comes to and then what its files come to. -/
theorem run_discovered {directory : Path} {o : BatchOptions} {s w : Session}
    (hlike : s.Like w) {next : List Path → Action BatchOutcome}
    (hnext : ∀ files, discovered s.tree directory o.maxFiles = .ok files → ∀ w, s.Like w →
      ∃ u, (next files).run w = (outcomeOf o s files, u) ∧
        u.tree = (compiledOnes o s files).foldl (leaving o.source s) w.tree) :
    ∃ u, (discoverSources directory o.maxFiles >>= fun files => liftM (next files) :
        Attempt BatchError BatchOutcome).run.run w =
          ((discovered s.tree directory o.maxFiles).map (outcomeOf o s), u) ∧
      u.tree = match discovered s.tree directory o.maxFiles with
        | .ok files => (compiledOnes o s files).foldl (leaving o.source s) s.tree
        | .error _ => s.tree := by
  obtain ⟨v, hrun, hv⟩ := discoverSources_tells directory o.maxFiles w
  rw [hlike.tree] at hrun
  have hv' := hlike.trans hv
  rw [ExceptT.run_bind, StateT.run_bind, hrun]
  cases hfiles : discovered s.tree directory o.maxFiles with
  | error e => exact ⟨v, rfl, hv'.tree⟩
  | ok files =>
      obtain ⟨u, hrun', htree⟩ := hnext files hfiles v hv'
      rw [hv'.tree] at htree
      refine ⟨u, ?_, htree⟩
      change (Except.ok ((next files).run v).1, ((next files).run v).2) = _
      rw [hrun']
      rfl

/-- One file after the other, a batch compiles the files of its listing. -/
theorem compileSequentially_run (directory : Path) (o : BatchOptions) {s : Session}
    (hbase : s.tree.WellBased) :
    ∃ u, (compileSequentially directory o).run.run s =
        ((discovered s.tree directory o.maxFiles).map (outcomeOf o s), u) ∧
      u.tree = match discovered s.tree directory o.maxFiles with
        | .ok files => (compiledOnes o s files).foldl (leaving o.source s) s.tree
        | .error _ => s.tree := by
  have hraise := Session.Like.raise s
    (.info "Starting sequential batch compilation" [("directory", directory)])
  refine run_discovered hraise fun files hfiles w hw => ?_
  have heach (x : Path × Nat) (w : Session) : w.Like ((if o.progress then
        say s!"Compiling file {x.2} of {files.length}: {x.1}"
      else return : Action Unit).run w).2 := by
    split
    · exact ⟨rfl, rfl, rfl⟩
    · exact .refl w
  obtain ⟨u, hrun, htree, -⟩ := compileDiscovered_run (o := o) hbase heach
    (fun path hpath => hasSource_of_discovered hfiles hpath) ((Onward.refl s).like hw)
    "sequential" 1 "Stopping batch compilation after a failure"
  rw [hw.tree] at htree
  exact ⟨u, hrun, hw.tree ▸ htree⟩

/-- One file after the other, a batch that may go on after failures compiles its files up to the
first fault. Each comes to what it comes to alone, and one that fails leaves all files as they
are. -/
theorem compileSequentially_isolated {directory : Path} {o : BatchOptions} {s : Session}
    (hfast : o.failFast = false) (hbase : s.tree.WellBased) :
    ((compileSequentially directory o).run.run s).1 =
        ((discoverSources directory o.maxFiles).run.run s).1.map (fun files =>
          { discovered := files.length
            files := (files.map fun path => (path, alone o.source s path)).take
              (files.findIdx (fun path => isFault (alone o.source s path)) + 1) }) ∧
      ∀ path e, alone o.source s path = .error e →
        ((compileFile o.source path).run.run s).2.tree = s.tree := by
  constructor
  · obtain ⟨u, hrun, -⟩ := compileSequentially_run directory o hbase
    obtain ⟨v, hrun', -⟩ := discoverSources_tells directory o.maxFiles s
    have houtcome (files : List Path) : outcomeOf o s files =
        { discovered := files.length
          files := (files.map fun path => (path, alone o.source s path)).take
            (files.findIdx (fun path => isFault (alone o.source s path)) + 1) } := by
      simp only [outcomeOf, compiledOnes, List.map_take, stopsAfter_eq hfast]
    rw [hrun, hrun', funext houtcome]
  · intro path e he
    obtain ⟨u, hrun, hlike⟩ := compileFile_leaves o.source path s
    rw [alone_eq] at he
    rw [hrun, hlike.tree]
    exact tree_of_error he

/-- Two sources in a working directory. -/
def twoSources : Session where
  tree :=
    { base := ["work"]
      nodes := (∅ : Std.HashMap Place Node)
        |>.insert ["work", "A.jack"] (.file "class A { }".toUTF8)
        |>.insert ["work", "B.jack"] (.file "class B { }".toUTF8) }

theorem wellBased_twoSources : twoSources.tree.WellBased := by
  intro name hname
  rw [List.mem_singleton.mp hname]
  exact ⟨by decide, by decide, by decide, by decide⟩

theorem twoSources_isolated :
    ((compileSequentially "." { threads := 1 }).run.run twoSources).1 =
        ((discoverSources "." none).run.run twoSources).1.map (fun files =>
          { discovered := files.length
            files := (files.map fun path => (path, alone {} twoSources path)).take
              (files.findIdx (fun path => isFault (alone {} twoSources path)) + 1) }) ∧
      ∀ path e, alone {} twoSources path = .error e →
        ((compileFile {} path).run.run twoSources).2.tree = twoSources.tree :=
  compileSequentially_isolated (o := { threads := 1 }) rfl wellBased_twoSources

end JackToolchain.Project
