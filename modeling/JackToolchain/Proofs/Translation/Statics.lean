import JackToolchain.Proofs.Machine.Linking
import JackToolchain.Proofs.Translation.Text
import Mathlib.Data.List.Nodup
import Mathlib.Data.List.Range

/-!
# Homes of static variables

A static variable has a name in assembly and an address in the memory of the stack machine. Files
with different names share neither.
-/

namespace JackToolchain.Machine

open JackToolchain.Stack JackToolchain.Text

/-- The static variables of files: their names in assembly and their addresses. -/
def staticHomes (base : Nat) : List SourceFile → List (String × Nat)
  | [] => []
  | (file, commands) :: rest =>
    ((List.range (staticCount commands)).map fun i => (staticName file i, base + i)) ++
      staticHomes (base + staticCount commands) rest

theorem length_staticHomes (base : Nat) (files : List SourceFile) :
    (staticHomes base files).length = staticTotal files := by
  induction files generalizing base with
  | nil => rfl
  | cons file files ih => simp [staticHomes, ih, staticTotal]

theorem staticName_inj {file file' : String} {i i' : Nat} :
    staticName file i = staticName file' i' ↔ file = file' ∧ i = i' := by
  constructor
  · intro h
    have hchars := congrArg String.toList h
    rw [toList_staticName, toList_staticName] at hchars
    have hback (file : String) (i : Nat) :
        (file.toList ++ '.' :: Nat.toDigits 10 i).reverse.takeWhile isDigit =
          (Nat.toDigits 10 i).reverse := by
      have hdigits : ∀ c ∈ (Nat.toDigits 10 i).reverse, isDigit c = true := fun c hc =>
        isDigit_of_mem_toDigits (List.mem_reverse.mp hc)
      rw [List.reverse_append, List.reverse_cons, List.append_assoc,
        List.takeWhile_append_of_pos hdigits]
      have hdot : isDigit '.' = false := by decide
      simp [hdot]
    have hdigits : Nat.toDigits 10 i = Nat.toDigits 10 i' := by
      rw [← List.reverse_inj, ← hback file i, hchars, hback]
    rw [hdigits] at hchars
    have hfiles := List.append_cancel_right hchars
    have hnumbers := congrArg (fun digits => Nat.ofDigitChars 10 digits 0) hdigits
    simp only [Nat.ofDigitChars_ten_toDigits] at hnumbers
    exact ⟨String.toList_inj.mp hfiles, hnumbers⟩
  · rintro ⟨rfl, rfl⟩
    rfl

theorem range_of_mem_staticHomes {base : Nat} {files : List SourceFile} {home : String × Nat}
    (h : home ∈ staticHomes base files) : base ≤ home.2 ∧ home.2 < base + staticTotal files ∧
      ∃ file ∈ files, ∃ i, home.1 = staticName file.1 i := by
  induction files generalizing base with
  | nil => cases h
  | cons file files ih =>
      obtain ⟨name, commands⟩ := file
      have htotal : staticTotal ((name, commands) :: files) =
          staticCount commands + staticTotal files := rfl
      rcases List.mem_append.mp h with h | h
      · obtain ⟨i, hi, rfl⟩ := List.mem_map.mp h
        have hlt := List.mem_range.mp hi
        refine ⟨Nat.le_add_right base i, ?_, (name, commands), List.mem_cons_self, i, rfl⟩
        rw [htotal]
        simp only
        omega
      · obtain ⟨hlow, hhigh, file, hfile, hname⟩ := ih h
        refine ⟨by omega, by omega, file, List.mem_cons_of_mem _ hfile, hname⟩

theorem nodup_names {base : Nat} {files : List SourceFile} (h : (files.map Prod.fst).Nodup) :
    ((staticHomes base files).map Prod.fst).Nodup := by
  induction files generalizing base with
  | nil => exact List.nodup_nil
  | cons file files ih =>
      obtain ⟨name, commands⟩ := file
      rw [List.map_cons, List.nodup_cons] at h
      rw [staticHomes, List.map_append, List.map_map, List.nodup_append]
      refine ⟨?_, ih h.2, ?_⟩
      · refine List.nodup_range.map_on ?_
        intro i _ j _ hij
        exact (staticName_inj.mp hij).2
      · intro front hfront back hback heq
        obtain ⟨i, _, rfl⟩ := List.mem_map.mp hfront
        obtain ⟨home, hhome, rfl⟩ := List.mem_map.mp hback
        obtain ⟨_, _, other, hother, j, hname⟩ := range_of_mem_staticHomes hhome
        have hsame := staticName_inj.mp (heq.trans hname)
        have hmem : other.1 ∈ files.map Prod.fst := List.mem_map_of_mem hother
        exact h.1 (hsame.1 ▸ hmem)

theorem nodup_addresses (base : Nat) (files : List SourceFile) :
    ((staticHomes base files).map Prod.snd).Nodup := by
  induction files generalizing base with
  | nil => exact List.nodup_nil
  | cons file files ih =>
      obtain ⟨name, commands⟩ := file
      rw [staticHomes, List.map_append, List.map_map, List.nodup_append]
      refine ⟨?_, ih _, ?_⟩
      · refine List.nodup_range.map_on ?_
        intro i _ j _ hij
        exact Nat.add_left_cancel hij
      · intro front hfront back hback heq
        obtain ⟨i, hi, rfl⟩ := List.mem_map.mp hfront
        obtain ⟨home, hhome, rfl⟩ := List.mem_map.mp hback
        have hlow := (range_of_mem_staticHomes hhome).1
        have hlt := List.mem_range.mp hi
        simp only [Function.comp_apply] at heq
        omega

/-- Names and addresses of static variables determine each other. -/
theorem staticHomes_inj {base : Nat} {files : List SourceFile} (h : (files.map Prod.fst).Nodup)
    {home home' : String × Nat} (hhome : home ∈ staticHomes base files)
    (hhome' : home' ∈ staticHomes base files) : home.1 = home'.1 ↔ home.2 = home'.2 := by
  constructor
  · intro heq
    rw [List.inj_on_of_nodup_map (nodup_names h) hhome hhome' heq]
  · intro heq
    rw [List.inj_on_of_nodup_map (nodup_addresses base files) hhome hhome' heq]

theorem le_foldl_max (commands : List Command) (n : Nat) :
    n ≤ commands.foldl (fun n command => max n (staticsOf command)) n := by
  induction commands generalizing n with
  | nil => exact le_refl n
  | cons command rest ih => exact (le_max_left n _).trans (ih _)

theorem staticsOf_le_staticCount {command : Command} {commands : List Command}
    (h : command ∈ commands) : staticsOf command ≤ staticCount commands := by
  have hfold (n : Nat) :
      staticsOf command ≤ commands.foldl (fun n command => max n (staticsOf command)) n := by
    induction commands generalizing n with
    | nil => cases h
    | cons other rest ih =>
        rcases List.mem_cons.mp h with rfl | h
        · exact (le_max_right n _).trans (le_foldl_max rest _)
        · exact ih h _
  exact hfold 0

/-- The static variables that a command accesses are among those of its file. -/
theorem mem_staticHomes {base : Nat} {files : List SourceFile} {row : Row} {i : Nat}
    (hrow : row ∈ rows base files) (hi : i < staticsOf row.command) :
    (staticName row.file i, row.base + i) ∈ staticHomes base files := by
  induction files generalizing base with
  | nil => cases hrow
  | cons file files ih =>
      obtain ⟨name, commands⟩ := file
      rcases List.mem_append.mp hrow with hrow | hrow
      · obtain ⟨hfile, hbase, hcommand⟩ := mem_of_mem_rowsFrom hrow
        have hlt := staticsOf_le_staticCount hcommand
        refine List.mem_append.mpr (.inl (List.mem_map.mpr ⟨i, List.mem_range.mpr (by omega), ?_⟩))
        rw [hfile, hbase]
      · exact List.mem_append.mpr (.inr (ih hrow))

end JackToolchain.Machine
