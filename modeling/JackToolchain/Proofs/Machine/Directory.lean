import JackToolchain.Proofs.Machine.Linking
import Mathlib.Data.List.Nodup

/-!
# What a directory finds

Every function that was noted is found, and every label that no other row has. No function is noted
twice.
-/

namespace JackToolchain.Machine

open JackToolchain.Stack

namespace Row

/-- The function that starts at a row. -/
def function? (row : Row) : Option String :=
  match row.command with
  | .function name _ => some name
  | _ => none

/-- The label at a row, with the function around it. -/
def label? (row : Row) : Option (String × String) :=
  match row.command with
  | .label name => some (row.owner, name)
  | _ => none

end Row

namespace Directory

variable {d d' : Directory} {row : Row} {noted : List Row}

/-- What one more row changes. -/
structure Notes (d : Directory) (row : Row) (d' : Directory) : Prop where
  size : d'.size = d.size + 1
  fresh : ∀ name, row.function? = some name → d.functions[name]? = none
  functions : ∀ name,
    d'.functions[name]? = if row.function? = some name then some d.size else d.functions[name]?
  labels : ∀ key, d'.labels[key]? = if row.label? = some key then some d.size else d.labels[key]?

theorem notes_of_add (h : d.add row.owner row.command = .ok d') : d.Notes row d' := by
  unfold Directory.add at h
  split at h
  · rename_i name locals hcommand
    split at h
    · cases h
    · rename_i hfresh
      have hfunction : row.function? = some name := by rw [Row.function?, hcommand]
      have hlabel : row.label? = none := by rw [Row.label?, hcommand]
      cases h
      refine ⟨rfl, fun other hother => ?_, fun other => ?_, fun key => ?_⟩
      · rw [hfunction, Option.some.injEq] at hother
        subst hother
        simpa using hfresh
      · rw [hfunction]
        simp [Std.HashMap.getElem?_insert]
      · rw [hlabel]
        simp
  · rename_i name hcommand
    have hfunction : row.function? = none := by rw [Row.function?, hcommand]
    have hlabel : row.label? = some (row.owner, name) := by rw [Row.label?, hcommand]
    cases h
    refine ⟨rfl, fun other hother => ?_, fun other => ?_, fun key => ?_⟩
    · rw [hfunction] at hother
      cases hother
    · rw [hfunction]
      simp
    · rw [hlabel]
      simp [Std.HashMap.getElem?_insert]
  · rename_i hfunction hlabel
    have hfunction : row.function? = none := by
      unfold Row.function?
      split
      · rename_i name locals hcommand
        exact absurd hcommand (hfunction name locals)
      · rfl
    have hlabel : row.label? = none := by
      unfold Row.label?
      split
      · rename_i name hcommand
        exact absurd hcommand (hlabel name)
      · rfl
    cases h
    refine ⟨rfl, fun other hother => ?_, fun other => ?_, fun key => ?_⟩
    · rw [hfunction] at hother
      cases hother
    · rw [hfunction]
      simp
    · rw [hlabel]
      simp

/-- What more rows change. -/
structure Finds (d : Directory) (noted : List Row) (d' : Directory) : Prop where
  nodup : (noted.filterMap Row.function?).Nodup
  fresh : ∀ name ∈ noted.filterMap Row.function?, d.functions[name]? = none
  kept : ∀ (name : String) (i : Nat), d.functions[name]? = some i → d'.functions[name]? = some i
  function : ∀ (i : Nat) (row : Row) name, noted[i]? = some row → row.function? = some name →
    d'.functions[name]? = some (d.size + i)
  other : ∀ key : String × String, key ∉ noted.filterMap Row.label? →
    d'.labels[key]? = d.labels[key]?
  label : (noted.filterMap Row.label?).Nodup → ∀ (i : Nat) (row : Row) key, noted[i]? = some row →
    row.label? = some key → d'.labels[key]? = some (d.size + i)

theorem finds_nil : d.Finds [] d := by
  refine ⟨.nil, ?_, fun _ _ h => h, ?_, fun _ _ => rfl, ?_⟩
  all_goals simp

theorem Finds.cons {mid : Directory} (h : d.Notes row mid) (hs : mid.Finds noted d') :
    d.Finds (row :: noted) d' := by
  have hcons {β : Type} (f : Row → Option β) :
      (row :: noted).filterMap f = (f row).toList ++ noted.filterMap f := by
    cases hf : f row <;> simp [hf]
  have hkept (name : String) (i : Nat) (hi : d.functions[name]? = some i) :
      d'.functions[name]? = some i := by
    apply hs.kept
    rw [h.functions, if_neg, hi]
    intro hrow
    rw [h.fresh name hrow] at hi
    cases hi
  have hnew (name : String) (hrow : row.function? = some name) :
      name ∉ noted.filterMap Row.function? := by
    intro hmem
    have hnone := hs.fresh name hmem
    rw [h.functions, if_pos hrow] at hnone
    cases hnone
  constructor
  · rw [hcons]
    cases hrow : row.function? with
    | none => exact hs.nodup
    | some name => exact List.nodup_cons.mpr ⟨hnew name hrow, hs.nodup⟩
  · intro name hmem
    rw [hcons, List.mem_append, Option.mem_toList] at hmem
    rcases hmem with hrow | hmem
    · exact h.fresh name hrow
    · have hnone := hs.fresh name hmem
      rw [h.functions] at hnone
      split at hnone
      · cases hnone
      · exact hnone
  · exact hkept
  · intro i other name hi hother
    cases i with
    | zero =>
        cases hi
        apply hs.kept
        rw [h.functions, if_pos hother]
        rfl
    | succ i =>
        rw [hs.function i other name hi hother, h.size]
        congr 1
        omega
  · intro key hmem
    rw [hcons, List.mem_append, Option.mem_toList, not_or] at hmem
    rw [hs.other key hmem.2, h.labels, if_neg hmem.1]
  · intro hnodup i other key hi hother
    rw [hcons, List.nodup_append] at hnodup
    obtain ⟨-, hrest, hapart⟩ := hnodup
    cases i with
    | zero =>
        cases hi
        rw [hs.other, h.labels, if_pos hother]
        · rfl
        · exact fun hmem => hapart key (by simp [hother]) key hmem rfl
    | succ i =>
        rw [hs.label hrest i other key hi hother, h.size]
        congr 1
        omega

theorem finds_of_addRows (h : d.addRows noted = .ok d') : d.Finds noted d' := by
  induction noted generalizing d with
  | nil =>
      cases h
      exact finds_nil
  | cons row noted ih =>
      rw [addRows, List.foldlM_cons] at h
      obtain ⟨mid, hrow, hrest⟩ := exists_of_bind h
      exact .cons (notes_of_add hrow) (ih hrest)

/-- Every label that was noted is found somewhere. -/
theorem exists_label_of_addRows (h : d.addRows noted = .ok d') {key : String × String}
    (hkey : key ∈ noted.filterMap Row.label?) : ∃ i, d'.labels[key]? = some i := by
  induction noted generalizing d with
  | nil => cases hkey
  | cons row noted ih =>
      rw [addRows, List.foldlM_cons] at h
      obtain ⟨mid, hrow, hrest⟩ := exists_of_bind h
      by_cases hlater : key ∈ noted.filterMap Row.label?
      · exact ih hrest hlater
      · obtain ⟨other, hother, hlabel⟩ := List.mem_filterMap.mp hkey
        have hsame : other = row := by
          rcases List.mem_cons.mp hother with hsame | hmem
          · exact hsame
          · exact absurd (List.mem_filterMap.mpr ⟨other, hmem, hlabel⟩) hlater
        refine ⟨d.size, ?_⟩
        rw [(finds_of_addRows hrest).other key hlater, (notes_of_add hrow).labels,
          if_pos (hsame ▸ hlabel)]

end Directory

end JackToolchain.Machine
