import JackToolchain.Project.Class
import JackToolchain.Proofs.Files.Outputs

/-!
# Compiling a file

What compiling a file comes to is told by the tree and the settings, and all that it changes in the
tree is the output. Files that are no sources have no say in it.
-/

namespace JackToolchain.Project

open JackToolchain.Diagnostics JackToolchain.Files JackToolchain.Source

/-! ## Sessions -/

/-- The sessions have the same files and settings; their journals may differ. -/
structure Session.Like (s u : Session) : Prop where
  tree : u.tree = s.tree
  settings : u.settings = s.settings
  traced : u.traced = s.traced

namespace Session.Like

theorem refl (s : Session) : s.Like s := ⟨rfl, rfl, rfl⟩

theorem trans {s u v : Session} (h : s.Like u) (h' : u.Like v) : s.Like v :=
  ⟨h'.tree.trans h.tree, h'.settings.trans h.settings, h'.traced.trans h.traced⟩

theorem raise (s : Session) (e : Event) : s.Like (s.raise e) := by
  unfold Session.raise
  split
  · exact ⟨rfl, rfl, rfl⟩
  · exact ⟨rfl, rfl, rfl⟩

theorem raiseAll (s : Session) (events : Array Event) :
    s.Like (events.foldl Session.raise s) := by
  rw [← Array.foldl_toList]
  induction events.toList generalizing s with
  | nil => exact refl s
  | cons e rest ih => exact (raise s e).trans (ih (s.raise e))

end Session.Like

/-- In a session, the action comes to a result and changes no more than the journal. -/
def Tells {ε α : Type} (act : Attempt ε α) (s : Session) (result : Except ε α) : Prop :=
  ∃ u, act.run.run s = (result, u) ∧ s.Like u

namespace Tells

variable {ε ε' α β : Type} {s : Session}

theorem pure (s : Session) (a : α) : Tells (Pure.pure a : Attempt ε α) s (.ok a) :=
  ⟨s, rfl, .refl s⟩

theorem bind {act : Attempt ε α} {next : α → Attempt ε β} {a : α} {result : Except ε β}
    (h : Tells act s (.ok a)) (hnext : ∀ u, s.Like u → Tells (next a) u result) :
    Tells (act >>= next) s result := by
  obtain ⟨u, hrun, hlike⟩ := h
  obtain ⟨v, hrun', hlike'⟩ := hnext u hlike
  refine ⟨v, ?_, hlike.trans hlike'⟩
  rw [ExceptT.run_bind, StateT.run_bind, hrun]
  exact hrun'

theorem bind_error {act : Attempt ε α} {next : α → Attempt ε β} {e : ε}
    (h : Tells act s (.error e)) : Tells (act >>= next) s (.error e) := by
  obtain ⟨u, hrun, hlike⟩ := h
  refine ⟨u, ?_, hlike⟩
  rw [ExceptT.run_bind, StateT.run_bind, hrun]
  rfl

theorem get (s : Session) : Tells (MonadState.get : Attempt ε Session) s (.ok s) :=
  ⟨s, rfl, .refl s⟩

theorem raise (s : Session) (e : Event) :
    Tells (liftM (Project.raise e) : Attempt ε Unit) s (.ok ()) :=
  ⟨s.raise e, rfl, .raise s e⟩

theorem raiseAll (s : Session) (events : Array Event) :
    Tells (liftM (Project.raiseAll events) : Attempt ε Unit) s (.ok ()) :=
  ⟨events.foldl Session.raise s, rfl, .raiseAll s events⟩

/-- A report under a condition does not matter. -/
theorem remark {c : Prop} [Decidable c] {e : Event} {act : Attempt ε α} {result : Except ε α}
    (h : ∀ u, s.Like u → Tells act u result) :
    Tells (if c then liftM (Project.raise e) >>= fun _ : Unit => act else act) s result := by
  split
  · exact (raise s e).bind h
  · exact h s (.refl s)

theorem throw (s : Session) (e : ε) : Tells (MonadExcept.throw e : Attempt ε α) s (.error e) :=
  ⟨s, rfl, .refl s⟩

theorem failWith (s : Session) (event : Event) (e : ε) :
    Tells (Project.failWith event e : Attempt ε α) s (.error e) :=
  (raise s event).bind fun u _ => throw u e

theorem adapt {act : Attempt ε α} {result : Except ε α} (h : Tells act s result) (f : ε → ε') :
    Tells (act.adapt f) s (result.mapError f) := by
  obtain ⟨u, hrun, hlike⟩ := h
  refine ⟨u, ?_, hlike⟩
  change (Except.mapError f <$> act.run).run s = _
  rw [StateT.run_map, hrun]
  rfl

/-- A check that fails, or the rest. -/
theorem check {c : Prop} [Decidable c] {stop : Attempt ε Unit} {e : ε}
    {next : Unit → Attempt ε α} {rest : Attempt ε α} {result : Except ε α}
    (hstop : Tells stop s (.error e)) (hrest : Tells rest s result) :
    Tells (if c then stop >>= next else rest) s (if c then .error e else result) := by
  split
  · exact hstop.bind_error
  · exact hrest

end Tells

theorem run_lift {ε α : Type} (act : Action α) (s : Session) :
    (liftM act : Attempt ε α).run.run s = (.ok (act.run s).1, (act.run s).2) := rfl

/-! ## Opening a source -/

/-- What checking a source comes to. -/
def checked (settings : SourceSettings) (t : Tree) (path : Path) : Except FileError SourceInfo :=
  if t.exists path && !t.isFile path then .error (.notAFile path)
  else
    match t.canonical path, t.read path with
    | .ok canonical, .ok content =>
      let extension := canonical.extension?.map fun e => e.map Char.toLower
      if content.size > Limits.maxFileSize then .error (.tooLarge content.size)
      else if settings.requireExtension && extension != some "jack" then
        .error (.wrongExtension extension)
      else .ok { path := canonical, size := content.size, extension }
    | .error fault, _ | _, .error fault => .error (.ofFault path fault)

/-- What opening a source comes to. -/
def opened (settings : SourceSettings) (t : Tree) (path : Path) :
    Except FileError (SourceInfo × ByteArray) :=
  checked settings t path >>= fun info =>
    match t.read info.path with
    | .ok content => .ok (info, content)
    | .error fault => .error (.ofFault info.path fault)

theorem refuseFile_tells {α : Type} (s : Session) (e : FileError) (message : String)
    (path : Path) : Tells (refuseFile e message path : Attempt FileError α) s (.error e) :=
  .failWith s _ e

theorem checkSource_tells (settings : SourceSettings) (path : Path) (s : Session) :
    Tells (checkSource settings path) s (checked settings s.tree path) := by
  unfold checkSource
  refine (Tells.raise s _).bind fun u hu => (Tells.get u).bind fun v hv => ?_
  rw [← hu.tree, checked]
  refine Tells.check (refuseFile_tells ..) ?_
  rcases u.tree.canonical path with fault | canonical
  · exact refuseFile_tells ..
  · rcases u.tree.read path with fault | content
    · exact refuseFile_tells ..
    · exact .check (refuseFile_tells ..) (.check (refuseFile_tells ..) (.pure v _))

theorem openSource_tells (settings : SourceSettings) (path : Path) (s : Session) :
    Tells (openSource settings path) s (opened settings s.tree path) := by
  have hcheck := checkSource_tells settings path s
  unfold opened openSource
  rcases hchecked : checked settings s.tree path with e | info
  · rw [hchecked] at hcheck
    exact hcheck.bind_error
  · rw [hchecked] at hcheck
    refine hcheck.bind fun u hu => (Tells.get u).bind fun v hv => ?_
    rw [ok_bind, ← hu.tree]
    rcases u.tree.read info.path with fault | content
    · exact refuseFile_tells ..
    · exact .pure v _

theorem reportSource_tells (settings : SourceSettings) (info : SourceInfo) (s : Session) :
    Tells (liftM (reportSource settings info) : Attempt ClassError Unit) s (.ok ()) := by
  unfold reportSource
  dsimp only
  split
  · split
    · exact ⟨_, rfl, (Session.Like.raise s _).trans (.raise _ _)⟩
    · exact ⟨_, rfl, .raise s _⟩
  · split
    · exact ⟨_, rfl, .raise s _⟩
    · exact ⟨_, rfl, .refl s⟩

/-! ## The class of a source -/

/-- What compiling the bytes of a source comes to. -/
def translated (s : Session) (name : String) (bytes : ByteArray) :
    Except CompileError CompiledClass :=
  let lexer := Lexer.ofBytes bytes s.settings.lexical.detailed
  (if s.traced then Compilation.traced name lexer else Compilation.ofLexer name lexer).result

theorem compileBytes_tells (name : String) (bytes : ByteArray) (s : Session) :
    Tells (compileBytes name bytes) s (translated s name bytes) := by
  unfold compileBytes translated
  refine (Tells.get s).bind fun u hu => (Tells.raiseAll u _).bind fun v hv => ?_
  dsimp only
  split
  · rename_i compiled hcompiled
    rw [hcompiled]
    exact .pure v compiled
  · rename_i e he
    rw [he]
    exact .throw v e

theorem translated_like {s u : Session} (h : s.Like u) (name : String) (bytes : ByteArray) :
    translated u name bytes = translated s name bytes := by
  rw [translated, translated, h.settings, h.traced]

/-! ## The output -/

/-- In a session, the action comes to a result and leaves files; the settings stay. -/
def Leaves {ε α : Type} (act : Attempt ε α) (s : Session) (outcome : Except ε α × Tree) : Prop :=
  ∃ u, act.run.run s = (outcome.1, u) ∧ { s with tree := outcome.2 }.Like u

section Leaves

variable {ε ε' α β : Type} {s : Session} {act : Attempt ε α}

theorem Tells.leaves {result : Except ε α} {tree : Tree} (h : Tells act s result)
    (htree : s.tree = tree) : Leaves act s (result, tree) := by
  subst htree
  exact h

theorem Tells.bind_leaves {next : α → Attempt ε β} {a : α} {outcome : Except ε β × Tree}
    (h : Tells act s (.ok a)) (hnext : ∀ u, s.Like u → Leaves (next a) u outcome) :
    Leaves (act >>= next) s outcome := by
  obtain ⟨u, hrun, hlike⟩ := h
  obtain ⟨v, hrun', hlike'⟩ := hnext u hlike
  refine ⟨v, ?_, ⟨hlike'.tree, hlike'.settings.trans hlike.settings,
    hlike'.traced.trans hlike.traced⟩⟩
  rw [ExceptT.run_bind, StateT.run_bind, hrun]
  exact hrun'

theorem Leaves.bind_tells {next : α → Attempt ε β} {a : α} {tree : Tree} {result : Except ε β}
    (h : Leaves act s (.ok a, tree))
    (hnext : ∀ u, { s with tree }.Like u → Tells (next a) u result) :
    Leaves (act >>= next) s (result, tree) := by
  obtain ⟨u, hrun, hlike⟩ := h
  obtain ⟨v, hrun', hlike'⟩ := hnext u hlike
  refine ⟨v, ?_, hlike.trans hlike'⟩
  rw [ExceptT.run_bind, StateT.run_bind, hrun]
  exact hrun'

theorem Leaves.bind_error {next : α → Attempt ε β} {e : ε} {tree : Tree}
    (h : Leaves act s (.error e, tree)) : Leaves (act >>= next) s (.error e, tree) := by
  obtain ⟨u, hrun, hlike⟩ := h
  refine ⟨u, ?_, hlike⟩
  rw [ExceptT.run_bind, StateT.run_bind, hrun]
  rfl

theorem Leaves.adapt {outcome : Except ε α × Tree} (h : Leaves act s outcome) (f : ε → ε') :
    Leaves (act.adapt f) s (outcome.1.mapError f, outcome.2) := by
  obtain ⟨u, hrun, hlike⟩ := h
  refine ⟨u, ?_, hlike⟩
  change (Except.mapError f <$> act.run).run s = _
  rw [StateT.run_map, hrun]
  rfl

/-- A report under a condition does not matter. -/
theorem Leaves.remark {c : Prop} [Decidable c] {e : Event} {outcome : Except ε α × Tree}
    (h : ∀ u, s.Like u → Leaves act u outcome) :
    Leaves (if c then liftM (raise e) >>= fun _ : Unit => act else act) s outcome := by
  split
  · exact (Tells.raise s e).bind_leaves h
  · exact h s (.refl s)

theorem leaves_inFile {path : Path} {outcome : Except ε α × Tree}
    (h : ∀ u, s.Like u → Leaves act u outcome) : Leaves (inFile path act) s outcome := by
  obtain ⟨u, hrun, hlike⟩ :=
    h { s with file := some path, report := s.report.begin path } ⟨rfl, rfl, rfl⟩
  refine ⟨{ u with file := s.file }, ?_, ⟨hlike.tree, hlike.settings, hlike.traced⟩⟩
  change (do
    let result ← StateT.run act.run { s with file := some path, report := s.report.begin path }
    pure (result.1, { result.2 with file := s.file }) : Id _) = _
  rw [hrun]
  rfl

end Leaves

/-- What comes of writing the output of a source. -/
def written (t : Tree) (source : Path) (text : String) : Except FileError Path × Tree :=
  let output := source.withExtension "vm"
  match t.write output text.toUTF8 with
  | .error fault => (.error (.unwritable output fault), t)
  | .ok tree => (.ok output, tree)

section Written

variable {t tree : Tree} {source : Path} {text : String} {fault : Fault}

theorem written_of_fault
    (h : t.write (source.withExtension "vm") text.toUTF8 = .error fault) :
    written t source text = (.error (.unwritable (source.withExtension "vm") fault), t) := by
  rw [written, h]

theorem written_of_write (h : t.write (source.withExtension "vm") text.toUTF8 = .ok tree) :
    written t source text = (.ok (source.withExtension "vm"), tree) := by
  rw [written, h]

end Written

theorem writeText_run (path : Path) (text : String) (s : Session) :
    (writeText path text).run s =
      match s.tree.write path text.toUTF8 with
      | .error fault => (some fault, s)
      | .ok tree => (none, { s with tree }) := by
  unfold writeText
  change (match s.tree.write path text.toUTF8 with
    | .error fault => _
    | .ok tree => _ : Action (Option Fault)).run s = _
  cases s.tree.write path text.toUTF8
  all_goals rfl

theorem writeOutput_leaves (source : Path) (text : String) (s : Session) :
    Leaves (writeOutput source "vm" text) s (written s.tree source text) := by
  unfold writeOutput written
  dsimp only
  cases hwrite : s.tree.write (source.withExtension "vm") text.toUTF8 with
  | error fault =>
      have htext : Tells (liftM (writeText (source.withExtension "vm") text) : Attempt FileError _)
          s (.ok (some fault)) := by
        refine ⟨s, ?_, .refl s⟩
        rw [run_lift, writeText_run, hwrite]
      exact (htext.bind fun u _ => refuseFile_tells ..).leaves rfl
  | ok tree =>
      have htext : Leaves (liftM (writeText (source.withExtension "vm") text) : Attempt FileError _)
          s (.ok none, tree) := by
        refine ⟨{ s with tree }, ?_, .refl _⟩
        rw [run_lift, writeText_run, hwrite]
      exact htext.bind_tells fun u _ => (Tells.raise u _).bind fun v _ => .pure v _

/-- What compiling a file comes to, and the files that it leaves. -/
def compiledFile (settings : SourceSettings) (s : Session) (path : Path) :
    Except ClassError CompiledFile × Tree :=
  match (opened settings s.tree path).mapError ClassError.file with
  | .error e => (.error e, s.tree)
  | .ok (info, bytes) =>
    match (translated s path bytes).mapError ClassError.compile with
    | .error e => (.error e, s.tree)
    | .ok compiled =>
      match written s.tree path compiled.text with
      | (.error e, tree) => (.error (.file e), tree)
      | (.ok output, tree) =>
        (.ok { source := { info with lines := compiled.lines }, output, compiled }, tree)

theorem compileFile_leaves (settings : SourceSettings) (path : Path) (s : Session) :
    Leaves (compileFile settings path) s (compiledFile settings s path) := by
  unfold compileFile compiledFile
  refine leaves_inFile fun u hu => ?_
  refine (Tells.raise u _).bind_leaves fun v hv => ?_
  have hopen := (openSource_tells settings path v).adapt ClassError.file
  rw [hv.tree, hu.tree] at hopen
  have hv' : v.tree = s.tree := hv.tree.trans hu.tree
  cases hopened : (opened settings s.tree path).mapError ClassError.file with
  | error e =>
      rw [hopened] at hopen
      exact hopen.bind_error.leaves hv'
  | ok opened =>
      obtain ⟨info, bytes⟩ := opened
      rw [hopened] at hopen
      refine hopen.bind_leaves fun w hw => ?_
      have hw' : s.Like w := hu.trans (hv.trans hw)
      have hcompile := (compileBytes_tells path bytes w).adapt ClassError.compile
      rw [translated_like hw'] at hcompile
      dsimp only
      cases htranslated : (translated s path bytes).mapError ClassError.compile with
      | error e =>
          rw [htranslated] at hcompile
          exact hcompile.bind_error.leaves hw'.tree
      | ok compiled =>
          rw [htranslated] at hcompile
          refine hcompile.bind_leaves fun x hx => ?_
          refine (reportSource_tells ..).bind_leaves fun y hy => ?_
          refine Leaves.remark fun z hz => ?_
          have hz' : s.Like z := hw'.trans (hx.trans (hy.trans hz))
          have hwrite := (writeOutput_leaves path compiled.text z).adapt ClassError.file
          rw [hz'.tree] at hwrite
          dsimp only
          generalize written s.tree path compiled.text = outcome at hwrite ⊢
          rcases outcome with ⟨e | output, tree⟩
          · exact hwrite.bind_error
          · exact hwrite.bind_tells fun a _ => (Tells.raise a _).bind fun b _ => .pure b _

theorem tree_of_written {t tree : Tree} {source : Path} {text : String} {e : FileError}
    (h : written t source text = (.error e, tree)) : tree = t := by
  unfold written at h
  dsimp only at h
  split at h
  · exact (Prod.mk.inj h).2.symm
  · cases (Prod.mk.inj h).1

/-- A failure leaves the files as they are. -/
theorem tree_of_error {settings : SourceSettings} {s : Session} {path : Path} {e : ClassError}
    (h : (compiledFile settings s path).1 = .error e) :
    (compiledFile settings s path).2 = s.tree := by
  unfold compiledFile at h ⊢
  generalize (opened settings s.tree path).mapError ClassError.file = opened at h ⊢
  rcases opened with _ | ⟨info, bytes⟩
  · rfl
  · dsimp only at h ⊢
    generalize (translated s path bytes).mapError ClassError.compile = translated at h ⊢
    rcases translated with _ | compiled
    · rfl
    · dsimp only at h ⊢
      rcases hwritten : written s.tree path compiled.text with ⟨_ | output, tree⟩
      · exact tree_of_written hwritten
      · rw [hwritten] at h
        cases h

/-! ## Other files -/

section Keeps

variable {t u : Tree} {path : Path} {front name : List Char} {directory : Place}
  {content : ByteArray}

theorem opened_of_keeps (hkeeps : t.Keeps u) (hbase : t.WellBased)
    (h : t.HasSource path front name directory content) (settings : SourceSettings) :
    opened settings u path = opened settings t path := by
  have h' := hkeeps.hasSource h
  have hread := hkeeps.read_canonical_eq hbase h
  simp only [opened, checked, h.exists_eq, h'.exists_eq, h.isFile_eq, h'.isFile_eq, h.canonical_eq,
    h'.canonical_eq, h.read_eq, h'.read_eq]
  split
  · rfl
  · split
    · rfl
    · split
      · rfl
      · simp only [ok_bind, hread]

/-- The name of the output of a source. -/
def outputOf (name : String) : String :=
  String.ofList (Path.outputName (Path.splitName name.toList.reverse).1.reverse)

/-- The place of the output of a source. -/
def outputPlace (t : Tree) (path : Path) : Place :=
  let place := (t.place path).toOption.getD []
  place.dropLast ++ [outputOf (place.getLast?.getD "")]

theorem outputPlace_eq (h : t.HasSource path front name directory content) {stem old : List Char}
    (hname : Path.Extended name stem old) :
    outputPlace t path = directory ++ [String.ofList (Path.outputName stem)] := by
  simp [outputPlace, outputOf, h.place_eq, Except.toOption, Path.splitName_of_extended hname]

/-- Either an output cannot be written, whatever other outputs there are, or it is added to them. -/
theorem written_of_hasSource (h : t.HasSource path front name directory content) (text : String) :
    (∃ e, ∀ u, t.Keeps u → written u path text = (.error e, u)) ∨
      ¬t.isDirectoryAt (outputPlace t path) ∧ ∀ u, t.Keeps u →
        written u path text = (.ok (path.withExtension "vm"),
          u.withFile (outputPlace t path) text.toUTF8) := by
  obtain ⟨stem, extension, hname, hjack⟩ := h.isSource
  have hplace := outputPlace_eq h hname
  have hwrite (u : Tree) (hu : t.Keeps u) :=
    (hu.hasSource h).write_output hname text.toUTF8
  rw [hplace]
  cases hnames : Tree.names (path.withExtension "vm") with
  | error fault =>
      refine .inl ⟨.unwritable _ fault, fun u hu => written_of_fault ?_⟩
      rw [hwrite u hu, hnames, error_bind]
  | ok names =>
      simp only [hnames, ok_bind] at hwrite
      by_cases hdot : stem = ['.']
      · refine .inl ⟨.unwritable _ .isDirectory, fun u hu => written_of_fault ?_⟩
        rw [hwrite u hu, if_pos hdot]
      · by_cases hlong : (String.ofList (Path.outputName stem)).utf8ByteSize > Tree.maxNameLength
        · refine .inl ⟨.unwritable _ .nameTooLong, fun u hu => written_of_fault ?_⟩
          rw [hwrite u hu, if_neg hdot, if_pos hlong]
        · by_cases hthere : t.isDirectoryAt (directory ++ [String.ofList (Path.outputName stem)])
          · refine .inl ⟨.unwritable _ .isDirectory, fun u hu => written_of_fault ?_⟩
            rw [hwrite u hu, if_neg hdot, if_neg hlong, hu.directory, if_pos hthere]
          · refine .inr ⟨hthere, fun u hu => written_of_write ?_⟩
            rw [hwrite u hu, if_neg hdot, if_neg hlong, hu.directory, if_neg hthere]

theorem keeps_withOutput (h : t.HasSource path front name directory content)
    (hplace : ¬t.isDirectoryAt (outputPlace t path)) (hkeeps : t.Keeps u)
    (bytes : ByteArray) : t.Keeps (u.withFile (outputPlace t path) bytes) := by
  obtain ⟨stem, extension, hname, -⟩ := h.isSource
  rw [← hkeeps.directory] at hplace
  rw [outputPlace_eq h hname] at hplace ⊢
  exact hkeeps.trans
    (Tree.keeps_withFile (Path.not_isSourceName_output hname.stem) hplace bytes)

/-- The tree after a compilation whose output has this place. -/
def withResult (t : Tree) (place : Place) : Except ClassError CompiledFile → Tree
  | .ok f => t.withFile place f.compiled.text.toUTF8
  | .error _ => t

/-- What a source compiles to among outputs: the same as without them, and its own output is all
that is added. -/
theorem compiledFile_of_keeps (settings : SourceSettings) {s w : Session}
    (h : s.tree.HasSource path front name directory content) (hbase : s.tree.WellBased)
    (hkeeps : s.tree.Keeps w.tree) (hsettings : w.settings = s.settings)
    (htraced : w.traced = s.traced) :
    let result := (compiledFile settings s path).1
    compiledFile settings w path =
        (result, withResult w.tree (outputPlace s.tree path) result) ∧
      s.tree.Keeps (withResult w.tree (outputPlace s.tree path) result) := by
  have htranslated (bytes : ByteArray) : translated w path bytes = translated s path bytes := by
    rw [translated, translated, hsettings, htraced]
  simp only [compiledFile, opened_of_keeps hkeeps hbase h, htranslated]
  cases (opened settings s.tree path).mapError ClassError.file with
  | error e => exact ⟨rfl, hkeeps⟩
  | ok opened =>
      dsimp only
      cases (translated s path opened.2).mapError ClassError.compile with
      | error e => exact ⟨rfl, hkeeps⟩
      | ok compiled =>
          dsimp only
          obtain ⟨e, hwritten⟩ | ⟨hplace, hwritten⟩ := written_of_hasSource h compiled.text
          · rw [hwritten w.tree hkeeps, hwritten s.tree (.refl _)]
            exact ⟨rfl, hkeeps⟩
          · rw [hwritten w.tree hkeeps, hwritten s.tree (.refl _)]
            exact ⟨rfl, keeps_withOutput h hplace hkeeps _⟩

end Keeps

end JackToolchain.Project
