import JackToolchain.Files.Path
import Mathlib.Data.List.Induction
import Mathlib.Data.List.TakeWhile

/-!
# The last name of a path

A path is a front, empty or with a slash at its end, and a last name without slashes. Its parts are
those of the front and that name; another extension changes the name and leaves the front.
-/

namespace JackToolchain.Files.Path

/-- The path is a front and, behind the last slash, a name. -/
structure EndsIn (path : Path) (front name : List Char) : Prop where
  split : path.toList = front ++ name
  slashless : '/' ∉ name
  front : front = [] ∨ ∃ before, front = before ++ ['/']

/-- The parts of the front. -/
def frontParts (front : List Char) : List String :=
  (front.splitOn '/').dropLast.map String.ofList

theorem exists_endsIn (path : Path) : ∃ front name, path.EndsIn front name := by
  have hsplit : ∀ cs : List Char, ∃ front name, cs = front ++ name ∧ '/' ∉ name ∧
      (front = [] ∨ ∃ before, front = before ++ ['/']) := by
    intro cs
    induction cs using List.reverseRecOn with
    | nil => exact ⟨[], [], by simp⟩
    | append_singleton cs c ih =>
        by_cases hc : c = '/'
        · subst hc
          exact ⟨cs ++ ['/'], [], by simp⟩
        · obtain ⟨front, name, rfl, hname, hfront⟩ := ih
          refine ⟨front, name ++ [c], by simp, ?_, hfront⟩
          simp [hname, Ne.symm hc]
  obtain ⟨front, name, h⟩ := hsplit path.toList
  exact ⟨front, name, h.1, h.2.1, h.2.2⟩

namespace EndsIn

variable {path : Path} {front name : List Char}

theorem parts_eq (h : path.EndsIn front name) :
    path.parts = frontParts front ++ [String.ofList name] := by
  rw [parts, h.split, frontParts]
  rcases h.front with rfl | ⟨before, rfl⟩
  · simp [List.splitOn_eq_singleton h.slashless]
  · rw [List.append_assoc, List.singleton_append, List.splitOn_append_cons_self,
      List.splitOn_eq_singleton h.slashless, List.splitOn_append_cons_self]
    simp

/-- The front and the name of a path are the only ones. -/
theorem unique {front' name' : List Char} (h : path.EndsIn front name)
    (h' : path.EndsIn front' name') : front = front' ∧ name = name' := by
  have hlast := congrArg List.getLast? (h.parts_eq.symm.trans h'.parts_eq)
  have hname : name = name' := by simpa [String.ofList_inj] using hlast
  have hsplit := h.split.symm.trans h'.split
  rw [hname] at hsplit
  exact ⟨List.append_cancel_right hsplit, hname⟩

/-- The last name of a path is told by its end, unless it says nothing. -/
theorem lastName?_eq (h : path.EndsIn front name) (hempty : name ≠ []) (hdot : name ≠ ['.']) :
    path.lastName? = if name = ['.', '.'] then none
      else some (path.toList.reverse, name.reverse) := by
  obtain ⟨c, rest, hreverse⟩ := List.exists_cons_of_ne_nil (List.reverse_ne_nil_iff.mpr hempty)
  have hslash : c ≠ '/' := by
    rintro rfl
    exact h.slashless (List.mem_reverse.mp (by simp [hreverse]))
  have hpath : path.toList.reverse = c :: (rest ++ front.reverse) := by
    rw [h.split, List.reverse_append, hreverse, List.cons_append]
  have hkeep : dropTail path.toList.reverse = path.toList.reverse := by
    rw [hpath]
    cases rest with
    | nil =>
        have hc : c ≠ '.' := by
          rintro rfl
          exact hdot (List.reverse_eq_iff.mp hreverse)
        unfold dropTail
        split
        · rename_i heq
          exact absurd (List.cons.inj heq).1 hslash
        · rename_i heq
          exact absurd (List.cons.inj heq).1 hc
        · rfl
    | cons d rest =>
        have hd : d ≠ '/' := by
          rintro rfl
          exact h.slashless (List.mem_reverse.mp (by simp [hreverse]))
        unfold dropTail
        split
        · rename_i heq
          exact absurd (List.cons.inj heq).1 hslash
        · rename_i heq
          exact absurd (List.cons.inj (List.cons.inj heq).2).1 hd
        · rfl
  have htake : path.toList.reverse.takeWhile (· != '/') = name.reverse := by
    rw [h.split, List.reverse_append, List.takeWhile_append_of_pos]
    · rcases h.front with rfl | ⟨before, rfl⟩
      all_goals simp
    · intro d hd
      simp only [bne_iff_ne]
      rintro rfl
      exact h.slashless (List.mem_reverse.mp hd)
  have hempty' : name.reverse ≠ [] := by simpa using hempty
  have hdot' : name.reverse ≠ ['.'] := by
    simpa [List.reverse_eq_iff] using hdot
  have hdots : name.reverse = ['.', '.'] ↔ name = ['.', '.'] := by
    simp [List.reverse_eq_iff]
  simp [lastName?, hkeep, htake, hempty', hdot', hdots]

end EndsIn

/-! ## Names with an extension -/

/-- A name is a stem and, behind its last dot, an extension. -/
structure Extended (name stem extension : List Char) : Prop where
  split : name = stem ++ '.' :: extension
  stem : stem ≠ []
  dotless : '.' ∉ extension

theorem splitName_of_extended {name stem extension : List Char}
    (h : Extended name stem extension) :
    splitName name.reverse = (stem.reverse, some extension.reverse) := by
  have hreverse : name.reverse = extension.reverse ++ '.' :: stem.reverse := by simp [h.split]
  have hall : ∀ c ∈ extension.reverse, (c != '.') = true := by
    intro c hc
    simp only [bne_iff_ne]
    rintro rfl
    exact h.dotless (List.mem_reverse.mp hc)
  have htake : name.reverse.takeWhile (· != '.') = extension.reverse := by
    rw [hreverse, List.takeWhile_append_of_pos hall]
    simp
  have hdrop : name.reverse.dropWhile (· != '.') = '.' :: stem.reverse := by
    rw [hreverse, List.dropWhile_append_of_pos hall]
    simp
  have hstem : stem.reverse.isEmpty = false := by simp [h.stem]
  simp [splitName, htake, hdrop, hstem]

/-- Only names with a stem and an extension have an extension. -/
theorem extended_of_splitName {name stem extension : List Char}
    (h : splitName name.reverse = (stem, some extension)) :
    Extended name stem.reverse extension.reverse := by
  unfold splitName at h
  split at h
  · rename_i rest hdrop
    split at h
    · cases h
    · rename_i hstem
      simp only [Prod.mk.injEq, Option.some.injEq] at h
      obtain ⟨rfl, rfl⟩ := h
      refine ⟨?_, by simpa using hstem, ?_⟩
      · have hparts := List.takeWhile_append_dropWhile (p := (· != '.')) (l := name.reverse)
        rw [hdrop] at hparts
        calc name = name.reverse.reverse := name.reverse_reverse.symm
          _ = (name.reverse.takeWhile (· != '.') ++ '.' :: rest).reverse := by rw [hparts]
          _ = _ := by simp
      · intro hdot
        simpa using List.mem_takeWhile_imp (List.mem_reverse.mp hdot)
  · cases h

theorem map_toLower_eq_iff {cs : List Char} (extension : String) :
    (String.ofList cs).map Char.toLower = extension ↔
      cs.map Char.toLower = extension.toList := by
  rw [← String.toList_inj, String.toList_map, String.toList_ofList]

/-- The name is that of a source. -/
def IsSourceName (name : List Char) : Prop :=
  ∃ stem extension, Extended name stem extension ∧
    extension.map Char.toLower = ['j', 'a', 'c', 'k']

theorem IsSourceName.special {name : List Char} (h : IsSourceName name) :
    name ≠ [] ∧ name ≠ ['.'] ∧ name ≠ ['.', '.'] := by
  obtain ⟨stem, extension, hname, hjack⟩ := h
  have hextension : extension ≠ [] := by
    rintro rfl
    cases hjack
  obtain ⟨c, cs, rfl⟩ := List.exists_cons_of_ne_nil hextension
  obtain ⟨d, ds, rfl⟩ := List.exists_cons_of_ne_nil hname.stem
  rw [hname.split]
  refine ⟨by simp, by simp, ?_⟩
  intro hdots
  have hlength := congrArg List.length hdots
  simp only [List.length_append, List.length_cons, List.length_nil] at hlength
  omega

theorem isJackSource_iff {path : Path} {front name : List Char} (h : path.EndsIn front name)
    (hempty : name ≠ []) (hdot : name ≠ ['.']) : path.isJackSource ↔ IsSourceName name := by
  have hlast := h.lastName?_eq hempty hdot
  constructor
  · intro hsource
    simp only [isJackSource, hasExtension, extension?, Option.any_eq_true] at hsource
    obtain ⟨e, he, hjack⟩ := hsource
    rw [hlast] at he
    split at he
    · cases he
    · simp only [Option.bind_some, Option.map_eq_some_iff] at he
      obtain ⟨extension, hextension, rfl⟩ := he
      refine ⟨_, _, extended_of_splitName (Prod.ext rfl hextension), ?_⟩
      exact (map_toLower_eq_iff "jack").mp (beq_iff_eq.mp hjack)
  · intro hsource
    have hdots := hsource.special.2.2
    obtain ⟨stem, extension, hname, hjack⟩ := hsource
    have hlower := (map_toLower_eq_iff "jack").mpr hjack
    simp only [isJackSource, hasExtension, extension?, hlast, if_neg hdots, Option.bind_some,
      splitName_of_extended hname, Option.map_some, List.reverse_reverse, Option.any_some,
      hlower, beq_self_eq_true]

/-- Another extension stands behind the same stem. A stem that is a single dot is left as two. -/
theorem withExtension_eq {path : Path} {front name stem old : List Char}
    (h : path.EndsIn front name) (hname : Extended name stem old) (hdots : name ≠ ['.', '.'])
    {extension : String} (hextension : extension ≠ "") :
    (path.withExtension extension).toList =
      front ++ if stem = ['.'] then ['.', '.'] else stem ++ '.' :: extension.toList := by
  have hempty : name ≠ [] := by simp [hname.split]
  have hdot : name ≠ ['.'] := by
    rw [hname.split]
    intro heq
    have hlength := congrArg List.length heq
    have hstem := List.length_pos_iff.mpr hname.stem
    simp only [List.length_append, List.length_cons, List.length_nil] at hlength
    omega
  have hold : path.extension? = some (String.ofList old) := by
    simp [extension?, h.lastName?_eq hempty hdot, hdots, splitName_of_extended hname]
  have hcut : path.toList.take (path.length - old.length) = front ++ (stem ++ ['.']) := by
    have hlist : path.toList = (front ++ (stem ++ ['.'])) ++ old := by
      rw [h.split, hname.split]
      simp
    have hlength : path.length - old.length = (front ++ (stem ++ ['.'])).length := by
      rw [← String.length_toList, hlist, List.length_append, Nat.add_sub_cancel]
    rw [hlength, hlist, List.take_left]
  have hshort : EndsIn (String.ofList (front ++ (stem ++ ['.']))) front (stem ++ ['.']) := by
    refine ⟨String.toList_ofList, ?_, h.front⟩
    have hslash := h.slashless
    rw [hname.split] at hslash
    simp only [List.mem_append, List.mem_cons, not_or] at hslash ⊢
    exact ⟨hslash.1, by decide, List.not_mem_nil⟩
  have hlast := hshort.lastName?_eq (by simp) (by simp [hname.stem])
  have htwo : stem ++ ['.'] = ['.', '.'] ↔ stem = ['.'] := by
    rw [show ['.', '.'] = ['.'] ++ ['.'] from rfl, List.append_left_inj]
  rw [withExtension, hold, Option.map_some, Option.getD_some, String.length_ofList, hcut,
    extendStem, hlast]
  simp only [htwo]
  by_cases hstem : stem = ['.']
  · simp [hstem]
  · have hsplit : splitName (stem ++ ['.']).reverse = (stem.reverse, some []) := by
      have hagain : Extended (stem ++ ['.']) stem [] := ⟨rfl, hname.stem, List.not_mem_nil⟩
      simpa using splitName_of_extended hagain
    have hdropped : (stem ++ ['.']).reverse.length - stem.reverse.length = 1 := by simp
    simp only [hstem, if_false, hextension, hsplit, hdropped, String.toList_append,
      String.toList_ofList]
    simp

/-- The name of the output that is written for a source. -/
def outputName (stem : List Char) : List Char :=
  if stem = ['.'] then ['.', '.'] else stem ++ '.' :: ['v', 'm']

/-- The output of a source stands beside it. -/
theorem endsIn_output {path : Path} {front name stem old : List Char}
    (h : path.EndsIn front name) (hname : Extended name stem old) (hdots : name ≠ ['.', '.']) :
    (path.withExtension "vm").EndsIn front (outputName stem) := by
  refine ⟨?_, ?_, h.front⟩
  · rw [withExtension_eq h hname hdots (by decide)]
    rfl
  · have hslash := h.slashless
    rw [hname.split] at hslash
    unfold outputName
    split
    · decide
    · simp only [List.mem_append, List.mem_cons, not_or] at hslash ⊢
      exact ⟨hslash.1, by decide, by decide, by decide, List.not_mem_nil⟩

/-- An output has not the name of a source. -/
theorem not_isSourceName_output {stem : List Char} (hstem : stem ≠ []) :
    ¬IsSourceName (outputName stem) := by
  intro hsource
  by_cases hdot : stem = ['.']
  · exact hsource.special.2.2 (by simp [outputName, hdot])
  · obtain ⟨stem', extension, hname, hjack⟩ := hsource
    have houtput : Extended (outputName stem) stem ['v', 'm'] := by
      refine ⟨?_, hstem, by decide⟩
      rw [outputName, if_neg hdot]
    have hsame := (splitName_of_extended hname).symm.trans (splitName_of_extended houtput)
    have hextension : extension = ['v', 'm'] := by
      simpa [List.reverse_eq_iff] using (Prod.mk.inj hsame).2
    rw [hextension] at hjack
    revert hjack
    decide

end JackToolchain.Files.Path
