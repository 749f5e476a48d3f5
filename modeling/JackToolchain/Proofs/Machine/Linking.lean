import JackToolchain.Machine.Program
import JackToolchain.Proofs.Stack.Names
import Mathlib.Data.List.Forall2

/-!
# What linking leaves

The commands of all files in a row, and the instructions that they become: labels and functions are
where the directory says.
-/

namespace JackToolchain.Machine

open JackToolchain.Stack

/-- A command with what surrounds it. -/
structure Row where
  file : String
  /-- The first address of the file's static variables. -/
  base : Nat
  owner : String
  command : Command
  deriving DecidableEq, Repr

/-- The function around a command and what follows it. -/
def ownerAfter (owner : String) : Command → String
  | .function name _ => name
  | _ => owner

def rowsFrom (file : String) (base : Nat) (owner : String) : List Command → List Row
  | [] => []
  | command :: rest =>
    ⟨file, base, ownerAfter owner command, command⟩ ::
      rowsFrom file base (ownerAfter owner command) rest

/-- The rows of all files. -/
def rows (base : Nat) : List SourceFile → List Row
  | [] => []
  | (file, commands) :: rest =>
    rowsFrom file base topLevel commands ++ rows (base + staticCount commands) rest

theorem mem_of_mem_rowsFrom {file owner : String} {base : Nat} {commands : List Command} {row : Row}
    (h : row ∈ rowsFrom file base owner commands) :
    row.file = file ∧ row.base = base ∧ row.command ∈ commands := by
  induction commands generalizing owner with
  | nil => cases h
  | cons command rest ih =>
      rcases List.mem_cons.mp h with rfl | h
      · exact ⟨rfl, rfl, List.mem_cons_self⟩
      · obtain ⟨hfile, hbase, hmem⟩ := ih h
        exact ⟨hfile, hbase, List.mem_cons_of_mem _ hmem⟩

theorem mem_commands {base : Nat} {files : List SourceFile} {row : Row}
    (hrow : row ∈ rows base files) : ∃ file ∈ files, row.command ∈ file.2 := by
  induction files generalizing base with
  | nil => cases hrow
  | cons file files ih =>
      rcases List.mem_append.mp hrow with hrow | hrow
      · exact ⟨file, List.mem_cons_self, (mem_of_mem_rowsFrom hrow).2.2⟩
      · obtain ⟨other, hother, hcommand⟩ := ih hrow
        exact ⟨other, List.mem_cons_of_mem _ hother, hcommand⟩

theorem toList_owned (file : String) (base : Nat) (commands : List Command) :
    (owned commands).toList =
      (rowsFrom file base topLevel commands).map fun row => (row.owner, row.command) := by
  let next (state : String × Array (String × Command)) (command : Command) :=
    (ownerAfter state.1 command, state.2.push (ownerAfter state.1 command, command))
  have hfold (owner : String) (done : Array (String × Command)) :
      (commands.foldl next (owner, done)).2.toList =
        done.toList ++
          (rowsFrom file base owner commands).map fun row => (row.owner, row.command) := by
    induction commands generalizing owner done with
    | nil => simp [rowsFrom]
    | cons command rest ih => simp [next, ih, rowsFrom]
  have howned : owned commands = (commands.foldl next (topLevel, #[])).2 := rfl
  rw [howned, hfold, List.nil_append]

/-! ## Where functions and labels are -/

/-- A directory of some rows. -/
structure Directory.Locates (d : Directory) (noted : List Row) : Prop where
  size : d.size = noted.length
  functions : ∀ name i, d.functions[name]? = some i →
    ∃ (row : Row) (locals : UInt16), noted[i]? = some row ∧ row.command = .function name locals
  labels : ∀ owner name i, d.labels[(owner, name)]? = some i →
    ∃ row : Row, noted[i]? = some row ∧ row.owner = owner ∧ row.command = .label name

namespace Directory

variable {d d' : Directory} {front : List Row} {row : Row}

theorem Locates.add (h : d.Locates front) (hadd : d.add row.owner row.command = .ok d') :
    d'.Locates (front ++ [row]) := by
  have hlast : (front ++ [row])[d.size]? = some row := by
    rw [h.size]
    simp
  have hkeep {i : Nat} {other : Row} (hother : front[i]? = some other) :
      (front ++ [row])[i]? = some other := by
    rw [List.getElem?_append_left (List.getElem?_eq_some_iff.mp hother).1, hother]
  have hfunctions (name : String) (i : Nat) (hname : d.functions[name]? = some i) :
      ∃ other locals, (front ++ [row])[i]? = some other ∧ other.command = .function name locals := by
    obtain ⟨other, locals, hother, hcommand⟩ := h.functions name i hname
    exact ⟨other, locals, hkeep hother, hcommand⟩
  have hlabels (owner name : String) (i : Nat) (hname : d.labels[(owner, name)]? = some i) :
      ∃ other, (front ++ [row])[i]? = some other ∧ other.owner = owner ∧
        other.command = .label name := by
    obtain ⟨other, hother, howner, hcommand⟩ := h.labels owner name i hname
    exact ⟨other, hkeep hother, howner, hcommand⟩
  unfold Directory.add at hadd
  split at hadd
  · rename_i name locals hcommand
    split at hadd
    · cases hadd
    · cases hadd
      refine ⟨by simp [h.size], ?_, hlabels⟩
      intro other i hother
      rw [Std.HashMap.getElem?_insert] at hother
      split at hother
      · rename_i hsame
        cases hother
        exact ⟨row, locals, hlast, (eq_of_beq hsame) ▸ hcommand⟩
      · exact hfunctions other i hother
  · rename_i name hcommand
    cases hadd
    refine ⟨by simp [h.size], hfunctions, ?_⟩
    intro owner other i hother
    rw [Std.HashMap.getElem?_insert] at hother
    split at hother
    · rename_i hsame
      cases hother
      obtain ⟨rfl, rfl⟩ := Prod.mk.inj (eq_of_beq hsame)
      exact ⟨row, hlast, rfl, hcommand⟩
    · exact hlabels owner other i hother
  · cases hadd
    exact ⟨by simp [h.size], hfunctions, hlabels⟩

/-- Notes rows. -/
def addRows (d : Directory) (noted : List Row) : Except LinkError Directory :=
  noted.foldlM (fun d row => d.add row.owner row.command) d

theorem Locates.addRows {back : List Row} (h : d.Locates front) (hadd : d.addRows back = .ok d') :
    d'.Locates (front ++ back) := by
  induction back generalizing d front with
  | nil =>
      cases hadd
      simpa using h
  | cons row back ih =>
      rw [Directory.addRows, List.foldlM_cons] at hadd
      obtain ⟨next, hfirst, hadd⟩ := exists_of_bind hadd
      simpa using ih (h.add hfirst) hadd

theorem locates_nil : ({} : Directory).Locates [] where
  size := rfl
  functions name i h := by simp at h
  labels owner name i h := by simp at h

theorem addRows_append (d : Directory) (front back : List Row) :
    d.addRows (front ++ back) = d.addRows front >>= fun d => d.addRows back := by
  rw [addRows, List.foldlM_append]
  rfl

/-- The directory of files is that of their rows. -/
theorem addRows_rows (d : Directory) (base : Nat) (files : List SourceFile) :
    files.foldlM (fun d (_, commands) =>
      (owned commands).foldlM (fun d (owner, command) => d.add owner command) d) d =
      d.addRows (rows base files) := by
  induction files generalizing d base with
  | nil => rfl
  | cons file files ih =>
      obtain ⟨name, commands⟩ := file
      have hfile (d : Directory) :
          (owned commands).foldlM (fun d (owner, command) => d.add owner command) d =
            d.addRows (rowsFrom name base topLevel commands) := by
        rw [← Array.foldlM_toList, toList_owned name base, List.foldlM_map]
        rfl
      rw [List.foldlM_cons, rows, addRows_append, ← hfile]
      exact bind_congr fun d => ih d (base + staticCount commands)

end Directory

/-! ## Instructions -/

/-- What a row becomes. -/
def Resolves (d : Directory) (row : Row) (i : Instruction) : Prop :=
  resolve d row.base row.owner row.command = .ok i.op ∧ i.owner = row.owner

theorem linkCommands_spec {d : Directory} {base : Nat} {linked : List Row}
    {done done' : Array Instruction} (hbase : ∀ row ∈ linked, row.base = base)
    (h : linkCommands d base done (linked.map fun row => (row.owner, row.command)) = .ok done') :
    ∃ new, done'.toList = done.toList ++ new ∧ List.Forall₂ (Resolves d) linked new := by
  induction linked generalizing done with
  | nil =>
      cases h
      exact ⟨[], by simp, .nil⟩
  | cons row linked ih =>
      simp only [List.map_cons, linkCommands] at h
      cases hop : resolve d base row.owner row.command with
      | error e => simp [hop] at h
      | ok op =>
          simp only [hop] at h
          obtain ⟨new, hnew, hresolves⟩ := ih (fun other hother =>
            hbase other (List.mem_cons_of_mem _ hother)) h
          refine ⟨⟨op, row.owner⟩ :: new, by simp [hnew], .cons ⟨?_, rfl⟩ hresolves⟩
          rw [hbase row List.mem_cons_self, hop]

/-- How many static variables some files need. -/
def staticTotal : List SourceFile → Nat
  | [] => 0
  | (_, commands) :: rest => staticCount commands + staticTotal rest

theorem staticCount_le_staticTotal {files : List SourceFile} {file : SourceFile}
    (h : file ∈ files) : staticCount file.2 ≤ staticTotal files := by
  induction files with
  | nil => cases h
  | cons other files ih =>
      simp only [staticTotal]
      rcases List.mem_cons.mp h with rfl | h
      · exact Nat.le_add_right _ _
      · exact Nat.le_trans (ih h) (Nat.le_add_left _ _)

theorem linkFiles_spec {d : Directory} {base : Nat} {files : List SourceFile}
    {done done' : Array Instruction} (hbase : base ≤ staticEnd)
    (h : linkFiles d base done files = .ok done') :
    (∃ new, done'.toList = done.toList ++ new ∧ List.Forall₂ (Resolves d) (rows base files) new) ∧
      base + staticTotal files ≤ staticEnd := by
  induction files generalizing base done with
  | nil =>
      cases h
      exact ⟨⟨[], by simp, .nil⟩, hbase⟩
  | cons file files ih =>
      obtain ⟨name, commands⟩ := file
      simp only [linkFiles] at h
      split at h
      · cases h
      · rename_i hroom
        rw [toList_owned name base] at h
        cases hcommands : linkCommands d base done
            ((rowsFrom name base topLevel commands).map fun row => (row.owner, row.command)) with
        | error e => simp [hcommands] at h
        | ok next =>
            simp only [hcommands] at h
            obtain ⟨front, hfront, hresolves⟩ := linkCommands_spec
              (fun row hrow => (mem_of_mem_rowsFrom hrow).2.1) hcommands
            obtain ⟨⟨back, hback, hrest⟩, htotal⟩ := ih (Nat.le_of_not_lt hroom) h
            refine ⟨⟨front ++ back, by simp [hback, hfront], ?_⟩, ?_⟩
            · exact List.rel_append hresolves hrest
            · simp only [staticTotal]
              omega

/-- Every row has its instruction, and the static variables fit. -/
theorem Program.link_spec {files : List SourceFile} {p : Program}
    (h : Program.link files = .ok p) :
    ∃ d : Directory, ({} : Directory).addRows (rows staticBase files) = .ok d ∧
      p.functions = d.functions ∧
      List.Forall₂ (Resolves d) (rows staticBase files) p.instructions.toList ∧
      staticBase + staticTotal files ≤ staticEnd := by
  unfold Program.link at h
  rw [Directory.addRows_rows {} staticBase files] at h
  obtain ⟨d, hdirectory, h⟩ := exists_of_bind h
  obtain ⟨instructions, hlinked, h⟩ := exists_of_bind h
  cases h
  obtain ⟨⟨new, hnew, hresolves⟩, htotal⟩ := linkFiles_spec (by decide) hlinked
  rw [List.nil_append] at hnew
  refine ⟨d, hdirectory, rfl, ?_, htotal⟩
  rw [hnew]
  exact hresolves

end JackToolchain.Machine
