import JackToolchain.Files.Tree
import JackToolchain.Proofs.Files.Paths
import Mathlib.Data.List.Infix

/-!
# Sources in a tree

Names are followed from directory to directory. A source is a file whose path ends in the name under
which it stands in its directory.
-/

namespace JackToolchain.Files

open JackToolchain.Files.Path

@[simp] theorem ok_bind {ε α β : Type} (a : α) (f : α → Except ε β) :
    (Except.ok a >>= f) = f a := rfl

@[simp] theorem error_bind {ε α β : Type} (e : ε) (f : α → Except ε β) :
    (Except.error e >>= f) = Except.error e := rfl

/-- A name that can stand for a node: not empty, no dot or two, without slashes. -/
structure IsName (name : String) : Prop where
  nonempty : name ≠ ""
  noDot : name ≠ "."
  noDots : name ≠ ".."
  slashless : '/' ∉ name.toList

namespace Path

theorem slashless_of_mem_parts {path : Path} {part : String} (h : part ∈ path.parts) :
    '/' ∉ part.toList := by
  have hsplit : ∀ cs : List Char, ∀ p ∈ cs.splitOn '/', '/' ∉ p := by
    intro cs
    induction cs with
    | nil => simp
    | cons c rest ih =>
        rw [List.splitOn_cons_eq_if_modifyHead]
        obtain ⟨first, others, hrest⟩ := List.exists_cons_of_ne_nil (List.splitOn_ne_nil '/' rest)
        rw [hrest] at ih ⊢
        by_cases hc : c = '/'
        · simpa [hc] using ih
        · simpa [hc, Ne.symm hc] using ih
  obtain ⟨p, hp, rfl⟩ := List.mem_map.mp h
  simpa using hsplit path.toList p hp

theorem EndsIn.isAbsolute_eq {path : Path} {front name : List Char} (h : path.EndsIn front name) :
    path.isAbsolute = (front.head? == some '/') := by
  rw [isAbsolute, String.startsWith_char_eq_head?, h.split]
  rcases h.front with rfl | ⟨before, rfl⟩
  · cases name with
    | nil => rfl
    | cons c rest =>
        have hc : c ≠ '/' := fun heq => h.slashless (by simp [heq])
        simp [hc]
  · simp [List.head?_append]

/-- The parts of a path from the root. -/
theorem parts_canonical {place : Place} (hplace : place ≠ [])
    (hslashless : ∀ name ∈ place, '/' ∉ name.toList) :
    Path.parts ("/" ++ "/".intercalate place) = "" :: place := by
  have hlist : ("/" ++ "/".intercalate place).toList =
      ['/'].intercalate ([] :: place.map String.toList) := by
    obtain ⟨first, rest, rfl⟩ := List.exists_cons_of_ne_nil hplace
    rw [String.toList_append, String.toList_intercalate]
    rfl
  rw [parts, hlist, List.splitOn_intercalate]
  · simp [Function.comp_def]
  · intro l hl
    rcases List.mem_cons.mp hl with rfl | hl
    · exact List.not_mem_nil
    · obtain ⟨name, hname, rfl⟩ := List.mem_map.mp hl
      exact hslashless name hname
  · simp

end Path

namespace Tree

variable {t u : Tree}

/-- The directories on the way to the working directory have names. -/
def WellBased (t : Tree) : Prop := ∀ name ∈ t.base, IsName name

/-! ## Following names -/

theorem follow_append (t : Tree) (place : Place) (front back : List String) :
    t.follow place (front ++ back) =
      t.follow place front >>= fun between => t.follow between back := by
  induction front generalizing place with
  | nil => rfl
  | cons name rest ih =>
      simp only [List.cons_append, follow]
      split
      · rfl
      · split
        · exact ih place
        · split
          · exact ih place.dropLast
          · split
            · rfl
            · split
              · exact ih _
              · rfl

/-- Names that can stand for nodes lead to the place that they spell. -/
theorem place_eq_of_follow {start place : Place} {names : List String}
    (hnames : ∀ name ∈ names, IsName name) (h : t.follow start names = .ok place) :
    place = start ++ names := by
  induction names generalizing start with
  | nil =>
      cases h
      simp
  | cons name rest ih =>
      obtain ⟨hname, hrest⟩ := List.forall_mem_cons.mp hnames
      simp only [follow, hname.nonempty, hname.noDot, hname.noDots, decide_false, Bool.or_self,
        Bool.false_eq_true, if_false] at h
      split at h
      · cases h
      · split at h
        · cases h
        · split at h
          · simpa using ih hrest h
          · cases h

theorem follow_of_root {start place : Place} {names : List String}
    (h : t.follow start ("" :: names) = .ok place) : t.follow start names = .ok place := by
  simp only [follow] at h
  split at h
  · cases h
  · simpa using h

theorem isDirectoryAt_iff {place : Place} :
    t.isDirectoryAt place ↔ t.node? place = some .directory := by
  unfold isDirectoryAt
  split
  · simp_all
  · simp_all

theorem isDirectoryAt_of_within {place : Place} (h : place <+: t.base) :
    t.isDirectoryAt place := by
  rw [isDirectoryAt_iff, node?, if_pos (List.isPrefixOf_iff_prefix.mpr h)]

/-- The names on the way to a place are names of directories. -/
structure Reached (t : Tree) (place : Place) : Prop where
  directories : ∀ front, front <+: place → front ≠ place → t.isDirectoryAt front
  names : ∀ name ∈ place, IsName name

theorem reached_origin (h : t.WellBased) (path : Path) : t.Reached (t.origin path) := by
  unfold origin
  split
  · refine ⟨fun front hfront hne => ?_, by simp⟩
    exact absurd (List.prefix_nil.mp hfront) hne
  · exact ⟨fun front hfront _ => isDirectoryAt_of_within hfront, h⟩

theorem Reached.dropLast {place : Place} (h : t.Reached place) : t.Reached place.dropLast := by
  refine ⟨fun front hfront hne => ?_, fun name hname =>
    h.names name (place.dropLast_subset hname)⟩
  refine h.directories front (hfront.trans place.dropLast_prefix) ?_
  rintro rfl
  exact hne (hfront.eq_of_length_le (by simp)) 

theorem Reached.append {place : Place} {name : String} (h : t.Reached place)
    (hplace : t.isDirectoryAt place) (hname : IsName name) : t.Reached (place ++ [name]) := by
  refine ⟨fun front hfront hne => ?_, ?_⟩
  · rcases List.prefix_concat_iff.mp hfront with rfl | hfront
    · exact absurd rfl hne
    · by_cases heq : front = place
      · rwa [heq]
      · exact h.directories front hfront heq
  · intro n hn
    rcases List.mem_append.mp hn with hn | hn
    · exact h.names n hn
    · rwa [List.mem_singleton.mp hn]

theorem reached_of_follow {start place : Place} {names : List String} (hstart : t.Reached start)
    (hnames : ∀ name ∈ names, '/' ∉ name.toList) (h : t.follow start names = .ok place) :
    t.Reached place := by
  induction names generalizing start with
  | nil =>
      cases h
      exact hstart
  | cons name rest ih =>
      obtain ⟨hname, hrest⟩ := List.forall_mem_cons.mp hnames
      simp only [follow] at h
      split at h
      · cases h
      · rename_i hdirectory
        split at h
        · exact ih hstart hrest h
        · rename_i hplain
          split at h
          · exact ih hstart.dropLast hrest h
          · rename_i hdots
            split at h
            · cases h
            · split at h
              · refine ih (hstart.append (by simpa using hdirectory) ?_) hrest h
                simp only [Bool.or_eq_true, decide_eq_true_eq, not_or] at hplain
                exact ⟨hplain.1, hplain.2, hdots, hname⟩
              · cases h

/-- The last name on the way to a file is the name of the file. -/
theorem follow_file {start place : Place} {names : List String} {last : String}
    {content : ByteArray} (h : t.follow start (names ++ [last]) = .ok place)
    (hfile : t.node? place = some (.file content)) (hdots : last ≠ "..") :
    ∃ directory, t.follow start names = .ok directory ∧ t.isDirectoryAt directory ∧
      last ≠ "" ∧ last ≠ "." ∧ ¬last.utf8ByteSize > maxNameLength ∧
      place = directory ++ [last] := by
  rw [follow_append] at h
  cases hfront : t.follow start names with
  | error fault =>
      rw [hfront] at h
      cases h
  | ok directory =>
      rw [hfront] at h
      change t.follow directory [last] = .ok place at h
      simp only [follow] at h
      split at h
      · cases h
      · rename_i hdirectory
        have hdirectory : t.isDirectoryAt directory := by simpa using hdirectory
        split at h
        · cases h
          rw [isDirectoryAt_iff.mp hdirectory] at hfile
          cases hfile
        · rename_i hplain
          simp only [Bool.or_eq_true, decide_eq_true_eq, not_or] at hplain
          split at h
          · cases h
          · rename_i hlength
            split at h
            · cases h
              exact ⟨directory, rfl, hdirectory, hplain.1, hplain.2, hlength, rfl⟩
            · cases h

theorem names_eq_parts {path : Path} {names : List String} (h : Tree.names path = .ok names) :
    names = path.parts := by
  unfold Tree.names at h
  split at h
  · cases h
  · split at h
    · cases h
    · split at h
      · cases h
      · exact (Except.ok.inj h).symm

/-- All names of a path are followed, unless the path is empty, too long or has a null character. -/
theorem names_of_plain {path : Path} (hnull : '\x00' ∉ path.toList) (hempty : path ≠ "")
    (hlength : path.utf8ByteSize ≤ maxPathLength) : names path = .ok path.parts := by
  have hany : path.any (· == '\x00') = false := by
    rw [String.any, String.contains_bool_eq, List.any_beq']
    simpa using hnull
  have hfilled : path.isEmpty = false := by
    simpa [String.isEmpty_iff] using hempty
  rw [names, hany, hfilled, if_neg Bool.false_ne_true, if_neg Bool.false_ne_true,
    if_neg (Nat.not_lt.mpr hlength)]

/-! ## Sources -/

/-- A source stands in a directory, under a name, with a content. -/
structure HasSource (t : Tree) (path : Path) (front name : List Char) (directory : Place)
    (content : ByteArray) : Prop where
  endsIn : path.EndsIn front name
  isSource : IsSourceName name
  short : ¬(String.ofList name).utf8ByteSize > maxNameLength
  names : Tree.names path = .ok (frontParts front ++ [String.ofList name])
  follow : t.follow (t.origin path) (frontParts front) = .ok directory
  isDirectory : t.isDirectoryAt directory
  node : t.node? (directory ++ [String.ofList name]) = some (.file content)

theorem hasSource_of_isFile {path : Path} (hsource : path.isJackSource) (hfile : t.isFile path) :
    ∃ front name directory content, t.HasSource path front name directory content := by
  obtain ⟨front, name, hends⟩ := path.exists_endsIn
  obtain ⟨place, content, hplace, hnode⟩ :
      ∃ place content, t.place path = .ok place ∧ t.node? place = some (.file content) := by
    simp only [isFile, Tree.node] at hfile
    cases hplace : t.place path with
    | error fault => simp [hplace] at hfile
    | ok place =>
        cases hnode : t.node? place with
        | none => simp [hplace, hnode] at hfile
        | some n =>
            cases n with
            | directory => simp [hplace, hnode, pure, Except.pure] at hfile
            | file content => exact ⟨place, content, rfl, hnode⟩
  obtain ⟨names, hnames, hfollow⟩ :
      ∃ names, Tree.names path = .ok names ∧ t.follow (t.origin path) names = .ok place := by
    cases hnames : Tree.names path with
    | error fault => simp [Tree.place, hnames] at hplace
    | ok names => exact ⟨names, rfl, by simpa [Tree.place, hnames] using hplace⟩
  rw [names_eq_parts hnames, hends.parts_eq] at hfollow
  rw [names_eq_parts hnames, hends.parts_eq] at hnames
  have hdots : name ≠ ['.', '.'] := by
    rintro rfl
    have hlast := hends.lastName?_eq (by simp) (by simp)
    simp [isJackSource, hasExtension, extension?, hlast] at hsource
  have hdots' : String.ofList name ≠ ".." := fun heq => hdots (String.ofList_inj.mp heq)
  obtain ⟨directory, hdirectory, his, hempty, hdot, hshort, rfl⟩ :=
    follow_file hfollow hnode hdots'
  have hempty : name ≠ [] := fun heq => hempty (String.ofList_inj.mpr heq)
  have hdot : name ≠ ['.'] := fun heq => hdot (String.ofList_inj.mpr heq)
  exact ⟨front, name, directory, content, hends, (isJackSource_iff hends hempty hdot).mp hsource,
    hshort, hnames, hdirectory, his, hnode⟩

namespace HasSource

variable {path : Path} {front name : List Char} {directory : Place} {content : ByteArray}

theorem place_eq (h : t.HasSource path front name directory content) :
    t.place path = .ok (directory ++ [String.ofList name]) := by
  have hspecial := h.isSource.special
  have hempty : String.ofList name ≠ "" := fun heq => hspecial.1 (String.ofList_inj.mp heq)
  have hdot : String.ofList name ≠ "." := fun heq => hspecial.2.1 (String.ofList_inj.mp heq)
  have hdots : String.ofList name ≠ ".." := fun heq => hspecial.2.2 (String.ofList_inj.mp heq)
  have hlast : t.follow directory [String.ofList name] =
      .ok (directory ++ [String.ofList name]) := by
    simp [Tree.follow, h.isDirectory, hempty, hdot, hdots, h.short, h.node]
  change Tree.names path >>= t.follow (t.origin path) = _
  rw [h.names]
  change t.follow (t.origin path) (frontParts front ++ [String.ofList name]) = _
  rw [follow_append, h.follow]
  exact hlast

theorem node_eq (h : t.HasSource path front name directory content) :
    t.node path = .ok (.file content) := by
  rw [Tree.node, h.place_eq, ok_bind, h.node]
  rfl

theorem read_eq (h : t.HasSource path front name directory content) :
    t.read path = .ok content := by
  rw [Tree.read, h.node_eq]
  rfl

theorem isFile_eq (h : t.HasSource path front name directory content) : t.isFile path := by
  rw [Tree.isFile, h.node_eq]

theorem exists_eq (h : t.HasSource path front name directory content) : t.exists path := by
  rw [Tree.exists, h.node_eq]
  rfl

theorem canonical_eq (h : t.HasSource path front name directory content) :
    t.canonical path = .ok ("/" ++ "/".intercalate (directory ++ [String.ofList name])) := by
  rw [Tree.canonical, h.place_eq]
  rfl

theorem reached (h : t.HasSource path front name directory content) (hbase : t.WellBased) :
    t.Reached (directory ++ [String.ofList name]) := by
  have hslashless : ∀ part ∈ frontParts front, '/' ∉ part.toList := fun part hpart =>
    slashless_of_mem_parts (by rw [h.endsIn.parts_eq]; exact List.mem_append_left _ hpart)
  have hspecial := h.isSource.special
  refine (reached_of_follow (reached_origin hbase path) hslashless h.follow).append h.isDirectory
    ⟨fun heq => hspecial.1 (String.ofList_inj.mp heq),
      fun heq => hspecial.2.1 (String.ofList_inj.mp heq),
      fun heq => hspecial.2.2 (String.ofList_inj.mp heq), ?_⟩
  simpa using h.endsIn.slashless

end HasSource

end Tree

end JackToolchain.Files
