import JackToolchain.Project.Batch
import JackToolchain.Proofs.Files.Order
import JackToolchain.Proofs.Project.Compiling

/-!
# Listings

The sources that are discovered in a directory: they come in the order of their paths, and stand
with their outputs in the same directory.
-/

namespace JackToolchain.Project

open JackToolchain.Diagnostics JackToolchain.Files

/-- What the discovery of sources comes to. -/
def discovered (t : Tree) (directory : Path) (maxFiles : Option Nat) :
    Except BatchError (List Path) :=
  if !t.isDirectory directory then .error (.directoryNotFound directory)
  else
    let files := (((t.list directory).toOption.getD []).map directory.child).filter fun path =>
      path.isJackSource && t.isFile path
    if files.isEmpty then .error (.noFiles directory)
    else if files.length > Limits.maxFilesPerBatch then .error (.tooManyFiles files.length)
    else .ok (files.take (maxFiles.getD files.length))

theorem discoverSources_tells (directory : Path) (maxFiles : Option Nat) (s : Session) :
    Tells (discoverSources directory maxFiles) s (discovered s.tree directory maxFiles) := by
  have hfails {u : Session} {α : Type} (e : BatchError) :
      Tells (failWith e.event e : Attempt BatchError α) u (.error e) := .failWith u _ e
  unfold discoverSources discovered
  refine (Tells.raise s _).bind fun u hu => (Tells.get u).bind fun v hv => ?_
  rw [← hu.tree]
  refine Tells.check (hfails _) ?_
  dsimp only
  refine Tells.check (hfails _) (Tells.check (hfails _) (Tells.remark fun w hw => ?_))
  exact (Tells.raise w _).bind fun x hx => .pure x _

section

variable {t : Tree} {directory : Path} {maxFiles : Option Nat} {files : List Path}

theorem sublist_of_discovered (h : discovered t directory maxFiles = .ok files) :
    ∃ names, (t.list directory = .ok names ∨ names = []) ∧
      files.Sublist (names.map directory.child) ∧
      ∀ path ∈ files, path.isJackSource ∧ t.isFile path := by
  unfold discovered at h
  split at h
  · cases h
  · dsimp only at h
    split at h
    · cases h
    · split at h
      · cases h
      · cases h
        refine ⟨(t.list directory).toOption.getD [], ?_,
          (List.take_sublist ..).trans List.filter_sublist, fun path hpath => ?_⟩
        · cases t.list directory with
          | error fault => exact .inr rfl
          | ok names => exact .inl rfl
        · have hmem := List.mem_of_mem_take hpath
          simp only [List.mem_filter, Bool.and_eq_true] at hmem
          exact hmem.2

/-- All that is discovered is a source. -/
theorem hasSource_of_discovered (h : discovered t directory maxFiles = .ok files) {path : Path}
    (hpath : path ∈ files) :
    ∃ front name place content, t.HasSource path front name place content := by
  obtain ⟨-, -, -, hsources⟩ := sublist_of_discovered h
  exact Tree.hasSource_of_isFile (hsources path hpath).1 (hsources path hpath).2

/-- A listing is in the order of paths, and none comes twice. -/
theorem sorted_of_discovered (hnames : t.WellNamed)
    (h : discovered t directory maxFiles = .ok files) :
    files.Pairwise fun a b => Path.compare a b = .lt := by
  obtain ⟨names, hlist, hsub, -⟩ := sublist_of_discovered h
  obtain ⟨hsorted, his⟩ : names.Pairwise (· < ·) ∧ ∀ name ∈ names, IsName name := by
    rcases hlist with hlist | rfl
    · exact Tree.list_sorted hnames hlist
    · exact ⟨.nil, by simp⟩
  exact (Path.pairwise_children directory hsorted his).sublist hsub

/-- The sources of a listing stand in one place. -/
theorem hasSource_together (hnames : t.WellNamed)
    (h : discovered t directory maxFiles = .ok files) {path : Path} (hpath : path ∈ files) :
    ∃ name place content, t.HasSource path (Path.frontOf directory) name place content := by
  obtain ⟨names, hlist, hsub, hsources⟩ := sublist_of_discovered h
  obtain ⟨front, name, place, content, hsource⟩ :=
    Tree.hasSource_of_isFile (hsources path hpath).1 (hsources path hpath).2
  obtain ⟨n, hn, rfl⟩ := List.mem_map.mp (hsub.subset hpath)
  have hslashless : '/' ∉ n.toList := by
    rcases hlist with hlist | rfl
    · exact ((Tree.list_sorted hnames hlist).2 n hn).slashless
    · cases hn
  obtain ⟨rfl, -⟩ := hsource.endsIn.unique (Path.endsIn_child directory hslashless)
  exact ⟨name, place, content, hsource⟩

/-- Sources of a listing whose outputs have different paths have outputs in different places. -/
theorem outputPlace_ne (hnames : t.WellNamed) (h : discovered t directory maxFiles = .ok files)
    {a b : Path} (ha : a ∈ files) (hb : b ∈ files)
    (hne : a.withExtension "vm" ≠ b.withExtension "vm") : outputPlace t a ≠ outputPlace t b := by
  obtain ⟨name, place, content, hsource⟩ := hasSource_together hnames h ha
  obtain ⟨name', place', content', hsource'⟩ := hasSource_together hnames h hb
  obtain ⟨stem, old, hname, -⟩ := hsource.isSource
  obtain ⟨stem', old', hname', -⟩ := hsource'.isSource
  rw [outputPlace_eq hsource hname, outputPlace_eq hsource' hname']
  intro heq
  have houtput : Path.outputName stem = Path.outputName stem' := by
    simpa [String.ofList_inj] using (List.append_inj' heq rfl).2
  refine hne (String.toList_inj.mp ?_)
  rw [(Path.endsIn_output hsource.endsIn hname hsource.isSource.special.2.2).split,
    (Path.endsIn_output hsource'.endsIn hname' hsource'.isSource.special.2.2).split, houtput]

end

end JackToolchain.Project
