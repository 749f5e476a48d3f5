import JackToolchain.Proofs.Files.Sources

/-!
# Outputs in a tree

What of a tree stays if files are written that are no sources: its directories, all that can be
reached, the sources and the ways to them. The output of a source is such a file.
-/

namespace JackToolchain.Files.Tree

open JackToolchain.Files.Path

variable {t u : Tree}

/-! ## Files that are no sources -/

/-- The second tree has what the first one has, but for contents of files that are no sources. -/
structure Keeps (t u : Tree) : Prop where
  base : u.base = t.base
  directory : ∀ place, u.isDirectoryAt place = t.isDirectoryAt place
  present : ∀ place, (t.node? place).isSome → (u.node? place).isSome
  source : ∀ front name, IsSourceName name →
    u.node? (front ++ [String.ofList name]) = t.node? (front ++ [String.ofList name])

namespace Keeps

theorem refl (t : Tree) : t.Keeps t :=
  ⟨rfl, fun _ => rfl, fun _ => id, fun _ _ _ => rfl⟩

theorem trans {v : Tree} (h : t.Keeps u) (h' : u.Keeps v) : t.Keeps v :=
  ⟨h'.base.trans h.base, fun place => (h'.directory place).trans (h.directory place),
    fun place hplace => h'.present place (h.present place hplace),
    fun front name hname => (h'.source front name hname).trans (h.source front name hname)⟩

theorem origin_eq (h : t.Keeps u) (path : Path) : u.origin path = t.origin path := by
  rw [origin, origin, h.base]

theorem follow (h : t.Keeps u) {start place : Place} {names : List String}
    (hfollow : t.follow start names = .ok place) : u.follow start names = .ok place := by
  induction names generalizing start with
  | nil => exact hfollow
  | cons name rest ih =>
      simp only [Tree.follow, h.directory] at hfollow ⊢
      split at hfollow
      · cases hfollow
      · rename_i hdirectory
        rw [if_neg hdirectory]
        split at hfollow
        · rename_i hplain
          rw [if_pos hplain]
          exact ih hfollow
        · rename_i hplain
          rw [if_neg hplain]
          split at hfollow
          · rename_i hdots
            rw [if_pos hdots]
            exact ih hfollow
          · rename_i hdots
            rw [if_neg hdots]
            split at hfollow
            · cases hfollow
            · rename_i hshort
              rw [if_neg hshort]
              split at hfollow
              · rename_i n hnode
                obtain ⟨m, hm⟩ := Option.isSome_iff_exists.mp
                  (h.present _ (Option.isSome_iff_exists.mpr ⟨n, hnode⟩))
                simp only [hm]
                exact ih hfollow
              · cases hfollow

theorem hasSource (h : t.Keeps u) {path : Path} {front name : List Char} {directory : Place}
    {content : ByteArray} (hsource : t.HasSource path front name directory content) :
    u.HasSource path front name directory content where
  endsIn := hsource.endsIn
  isSource := hsource.isSource
  short := hsource.short
  names := hsource.names
  follow := by
    rw [h.origin_eq]
    exact h.follow hsource.follow
  isDirectory := (h.directory directory).trans hsource.isDirectory
  node := (h.source directory name hsource.isSource).trans hsource.node

/-- The way to a place that is there is the same in both trees. -/
theorem follow_eq (h : t.Keeps u) {start rest : Place} (hnames : ∀ name ∈ rest, IsName name)
    (hthere : (t.node? (start ++ rest)).isSome)
    (hdirectories : ∀ front, front <+: start ++ rest → front ≠ start ++ rest →
      t.isDirectoryAt front) :
    u.follow start rest = t.follow start rest := by
  induction rest generalizing start with
  | nil => rfl
  | cons name rest ih =>
      have hsplit : start ++ name :: rest = start ++ [name] ++ rest := by simp
      have hstart : t.isDirectoryAt start :=
        hdirectories start (List.prefix_append ..) (by simp)
      have hnode : (t.node? (start ++ [name])).isSome := by
        cases hrest : rest with
        | nil => rwa [hrest] at hthere
        | cons next others =>
            have hnext : t.isDirectoryAt (start ++ [name]) := by
              rw [hsplit] at hdirectories
              exact hdirectories _ (List.prefix_append ..) (by simp [hrest])
            rw [isDirectoryAt_iff.mp hnext]
            rfl
      obtain ⟨n, hn⟩ := Option.isSome_iff_exists.mp hnode
      obtain ⟨m, hm⟩ := Option.isSome_iff_exists.mp (h.present _ hnode)
      rw [hsplit] at hthere hdirectories
      have hrest := ih (fun n hn => hnames n (List.mem_cons_of_mem _ hn)) hthere hdirectories
      have hname := hnames name List.mem_cons_self
      simp [Tree.follow, h.directory, hname.nonempty, hname.noDot, hname.noDots, hn, hm, hrest]

/-- A source is read the same by its path from the root, wherever that leads. -/
theorem read_canonical_eq (h : t.Keeps u) (hbase : t.WellBased) {path : Path}
    {front name : List Char} {directory : Place} {content : ByteArray}
    (hsource : t.HasSource path front name directory content) :
    u.read ("/" ++ "/".intercalate (directory ++ [String.ofList name])) =
      t.read ("/" ++ "/".intercalate (directory ++ [String.ofList name])) := by
  set place := directory ++ [String.ofList name] with hplace
  set canonical : Path := "/" ++ "/".intercalate place with hcanonical
  have hreached := hsource.reached hbase
  have hparts : canonical.parts = "" :: place :=
    parts_canonical (by simp [hplace]) fun name hname => (hreached.names name hname).slashless
  have habsolute : canonical.isAbsolute := by
    simp [hcanonical, isAbsolute, String.startsWith_char_eq_head?]
  have hfollow : u.follow [] ("" :: place) = t.follow [] ("" :: place) := by
    have hthere : (t.node? ([] ++ place)).isSome := by
      rw [List.nil_append, hsource.node]
      rfl
    have hfollow : u.follow [] place = t.follow [] place :=
      h.follow_eq hreached.names hthere (by simpa using hreached.directories)
    simp [Tree.follow, h.directory, hfollow]
  have horigin (v : Tree) : v.origin canonical = [] := if_pos habsolute
  have hnode : ∀ found, t.follow [] ("" :: place) = .ok found → u.node? found = t.node? found := by
    intro found hfound
    rw [place_eq_of_follow hreached.names (follow_of_root hfound)]
    exact h.source directory name hsource.isSource
  simp only [Tree.read, Tree.node, Tree.place, horigin]
  cases hnames : Tree.names canonical with
  | error fault => rfl
  | ok names =>
      rw [names_eq_parts hnames, hparts, ok_bind, ok_bind, hfollow]
      cases hfound : t.follow [] ("" :: place) with
      | error fault => rfl
      | ok found => rw [ok_bind, ok_bind, hnode found hfound]

end Keeps

/-! ## Outputs -/

/-- The tree with a file at a place. -/
def withFile (t : Tree) (place : Place) (content : ByteArray) : Tree :=
  { t with nodes := t.nodes.insert place (.file content) }

theorem node?_withFile_self {place : Place} (hplace : ¬t.isDirectoryAt place)
    (content : ByteArray) : (t.withFile place content).node? place = some (.file content) := by
  have hbase : ¬place.isPrefixOf t.base := fun hprefix =>
    hplace (isDirectoryAt_of_within (List.isPrefixOf_iff_prefix.mp hprefix))
  simp [node?, withFile, hbase]

theorem node?_withFile_of_ne {place p : Place} (hne : place ≠ p) (content : ByteArray) :
    (t.withFile place content).node? p = t.node? p := by
  simp [node?, withFile, Std.HashMap.getElem?_insert, hne]

/-- A file that is no source, where there is no directory, leaves the rest of a tree. -/
theorem keeps_withFile {directory : Place} {name : List Char} (hname : ¬IsSourceName name)
    (hplace : ¬t.isDirectoryAt (directory ++ [String.ofList name])) (content : ByteArray) :
    t.Keeps (t.withFile (directory ++ [String.ofList name]) content) where
  base := rfl
  directory place := by
    by_cases hne : directory ++ [String.ofList name] = place
    · subst hne
      rw [Bool.eq_iff_iff, isDirectoryAt_iff, node?_withFile_self hplace]
      simpa using hplace
    · simp only [isDirectoryAt, node?_withFile_of_ne hne]
  present place hthere := by
    by_cases hne : directory ++ [String.ofList name] = place
    · subst hne
      rw [node?_withFile_self hplace]
      rfl
    · rwa [node?_withFile_of_ne hne]
  source front other hother := by
    refine node?_withFile_of_ne ?_ content
    intro heq
    have hsame : name = other := by
      simpa [String.ofList_inj] using (List.append_inj' heq rfl).2
    exact hname (hsame ▸ hother)

namespace HasSource

variable {path : Path} {front name stem old : List Char} {directory : Place} {content : ByteArray}

theorem origin_output (h : t.HasSource path front name directory content)
    (hname : Extended name stem old) : t.origin (path.withExtension "vm") = t.origin path := by
  have houtput := endsIn_output h.endsIn hname h.isSource.special.2.2
  have habsolute : (path.withExtension "vm").isAbsolute = path.isAbsolute := by
    rw [houtput.isAbsolute_eq, h.endsIn.isAbsolute_eq]
  rw [origin, origin, habsolute]

/-- What comes of writing the output of a source. -/
theorem write_output (h : t.HasSource path front name directory content)
    (hname : Extended name stem old) (bytes : ByteArray) :
    t.write (path.withExtension "vm") bytes =
      Tree.names (path.withExtension "vm") >>= fun _ =>
        if stem = ['.'] then .error .isDirectory
        else if (String.ofList (outputName stem)).utf8ByteSize > maxNameLength then
          .error .nameTooLong
        else if t.isDirectoryAt (directory ++ [String.ofList (outputName stem)]) then
          .error .isDirectory
        else .ok (t.withFile (directory ++ [String.ofList (outputName stem)]) bytes) := by
  have houtput := endsIn_output h.endsIn hname h.isSource.special.2.2
  rw [Tree.write]
  cases hnames : Tree.names (path.withExtension "vm") with
  | error fault => rfl
  | ok names =>
      rw [names_eq_parts hnames, houtput.parts_eq, ok_bind, ok_bind, List.dropLast_concat,
        h.origin_output hname, h.follow, ok_bind]
      simp only [h.isDirectory, List.getLast?_concat]
      by_cases hstem : stem = ['.']
      · simp [hstem, outputName]
        rfl
      · have hlength : 3 ≤ (outputName stem).length := by simp [outputName, hstem]
        have hspecial (n : List Char) (hn : n.length < 3) :
            String.ofList (outputName stem) ≠ String.ofList n := by
          intro heq
          rw [String.ofList_inj.mp heq] at hlength
          omega
        simp only [if_neg hstem, Bool.not_true, Bool.false_eq_true, if_false]
        generalize String.ofList (outputName stem) = output at hspecial ⊢
        split
        · rename_i heq
          cases heq
        · rename_i heq
          exact absurd (Option.some.inj heq) (hspecial [] (by decide))
        · rename_i heq
          exact absurd (Option.some.inj heq) (hspecial ['.'] (by decide))
        · rename_i heq
          exact absurd (Option.some.inj heq) (hspecial ['.', '.'] (by decide))
        · rename_i heq
          cases heq
          split
          · rfl
          · unfold isDirectoryAt
            rcases t.node? (directory ++ [output]) with _ | _ | _
            all_goals rfl

end HasSource

end JackToolchain.Files.Tree
