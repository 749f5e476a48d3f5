import JackToolchain.Proofs.Lists
import JackToolchain.Proofs.Machine.Directory

/-!
# Which files link

Files whose functions have different names are linked if their commands can be resolved and their
static variables have room. Where no label is set twice either, the rows of the files tell by
themselves what every command becomes.
-/

namespace JackToolchain.Machine

open JackToolchain.Stack

/-- The function that a command begins. -/
def functionOf? : Command → Option String
  | .function name _ => some name
  | _ => none

/-- The functions of a file, in order. -/
def functionsIn (commands : List Command) : List String := commands.filterMap functionOf?

theorem filterMap_function?_rowsFrom (file : String) (base : Nat) (owner : String)
    (commands : List Command) :
    (rowsFrom file base owner commands).filterMap Row.function? = functionsIn commands := by
  induction commands generalizing owner with
  | nil => rfl
  | cons command rest ih =>
      have hhead : Row.function? ⟨file, base, ownerAfter owner command, command⟩ =
          functionOf? command := by
        cases command <;> rfl
      rw [rowsFrom, functionsIn, List.filterMap_cons, List.filterMap_cons, hhead, ih, functionsIn]

theorem filterMap_function?_rows (base : Nat) (files : List SourceFile) :
    (rows base files).filterMap Row.function? = files.flatMap fun file => functionsIn file.2 := by
  induction files generalizing base with
  | nil => rfl
  | cons file files ih =>
      rw [rows, List.filterMap_append, filterMap_function?_rowsFrom, ih, List.flatMap_cons]

namespace Directory

variable {d : Directory} {row : Row} {noted : List Row}

/-- A row is noted unless it begins a function that is known. -/
theorem exists_add (h : ∀ name, row.function? = some name → d.functions[name]? = none) :
    ∃ d', d.add row.owner row.command = .ok d' := by
  unfold Directory.add
  split
  · rename_i name locals hcommand
    have hfresh := h name (by rw [Row.function?, hcommand])
    rw [if_neg (by simpa using hfresh)]
    exact ⟨_, rfl⟩
  · exact ⟨_, rfl⟩
  · exact ⟨_, rfl⟩

/-- Rows are noted if no function begins twice. -/
theorem exists_addRows (hnodup : (noted.filterMap Row.function?).Nodup)
    (hfresh : ∀ name ∈ noted.filterMap Row.function?, d.functions[name]? = none) :
    ∃ d', d.addRows noted = .ok d' := by
  induction noted generalizing d with
  | nil => exact ⟨d, rfl⟩
  | cons row noted ih =>
      have hcons : (row :: noted).filterMap Row.function? =
          row.function?.toList ++ noted.filterMap Row.function? := by
        cases hrow : row.function? <;> simp [hrow]
      rw [hcons] at hnodup hfresh
      obtain ⟨-, hrest, hapart⟩ := List.nodup_append.mp hnodup
      obtain ⟨hhead, htail⟩ := List.forall_mem_append.mp hfresh
      obtain ⟨mid, hmid⟩ := exists_add fun name hname => hhead name (Option.mem_toList.mpr hname)
      obtain ⟨d', hd'⟩ := ih (d := mid) hrest fun name hname => by
        rw [(notes_of_add hmid).functions, if_neg, htail name hname]
        exact fun hrow => hapart name (Option.mem_toList.mpr hrow) name hname rfl
      refine ⟨d', ?_⟩
      rw [addRows, List.foldlM_cons, hmid]
      exact hd'

end Directory

theorem exists_linkCommands {d : Directory} {base : Nat} {linked : List Row}
    (h : ∀ row ∈ linked, ∃ op, resolve d base row.owner row.command = .ok op)
    (done : Array Instruction) :
    ∃ done', linkCommands d base done (linked.map fun row => (row.owner, row.command)) =
      .ok done' := by
  induction linked generalizing done with
  | nil => exact ⟨done, rfl⟩
  | cons row linked ih =>
      obtain ⟨⟨op, hop⟩, hrest⟩ := List.forall_mem_cons.mp h
      simp only [List.map_cons, linkCommands, hop]
      exact ih hrest _

/-- The rows of the first file are resolved with its own static variables. -/
theorem forall_resolve_rowsFrom {d : Directory} {name owner : String} {base : Nat}
    {commands : List Command}
    (h : ∀ row ∈ rowsFrom name base owner commands,
      ∃ op, resolve d row.base row.owner row.command = .ok op) :
    ∀ row ∈ rowsFrom name base owner commands,
      ∃ op, resolve d base row.owner row.command = .ok op := by
  intro row hrow
  obtain ⟨op, hop⟩ := h row hrow
  rw [(mem_of_mem_rowsFrom hrow).2.1] at hop
  exact ⟨op, hop⟩

theorem exists_linkFiles {d : Directory} {base : Nat} {files : List SourceFile}
    (h : ∀ row ∈ rows base files, ∃ op, resolve d row.base row.owner row.command = .ok op)
    (hroom : base + staticTotal files ≤ staticEnd) (done : Array Instruction) :
    ∃ done', linkFiles d base done files = .ok done' := by
  induction files generalizing base done with
  | nil => exact ⟨done, rfl⟩
  | cons file files ih =>
      obtain ⟨name, commands⟩ := file
      rw [rows, List.forall_mem_append] at h
      obtain ⟨hfirst, hothers⟩ := h
      simp only [staticTotal] at hroom
      obtain ⟨next, hnext⟩ := exists_linkCommands (forall_resolve_rowsFrom hfirst) done
      simp only [linkFiles]
      rw [if_neg (by omega), toList_owned name base, hnext]
      exact ih hothers (by omega) next

/-- If all commands can be resolved, files are linked unless static variables find no room. -/
theorem linkFiles_eq_error {d : Directory} {base : Nat} {files : List SourceFile}
    {done : Array Instruction} {e : LinkError}
    (h : ∀ row ∈ rows base files, ∃ op, resolve d row.base row.owner row.command = .ok op)
    (he : linkFiles d base done files = .error e) : ∃ file ∈ files, e = .staticOverflow file.1 := by
  induction files generalizing base done with
  | nil => cases he
  | cons file files ih =>
      obtain ⟨name, commands⟩ := file
      rw [rows, List.forall_mem_append] at h
      obtain ⟨hfirst, hothers⟩ := h
      simp only [linkFiles] at he
      split at he
      · cases he
        exact ⟨_, List.mem_cons_self, rfl⟩
      · obtain ⟨done', hdone⟩ := exists_linkCommands (forall_resolve_rowsFrom hfirst) done
        rw [toList_owned name base, hdone] at he
        obtain ⟨file, hfile, rfl⟩ := ih hothers he
        exact ⟨file, List.mem_cons_of_mem _ hfile, rfl⟩

/-! ## What the rows tell -/

/-- Where a function begins. -/
def functionAt? (noted : List Row) (name : String) : Option Nat :=
  noted.findIdx? fun row => row.function? == some name

/-- Where a label stands. -/
def labelAt? (noted : List Row) (key : String × String) : Option Nat :=
  noted.findIdx? fun row => row.label? == some key

/-- What a call of a name becomes. -/
def targetIn (noted : List Row) (name : String) : Target :=
  match functionAt? noted name, Routine.ofName? name with
  | some entry, _ => .function entry
  | none, some routine => .host routine
  | none, none => .undefined name

/-- The instruction of a row among others. -/
def Row.instruction? (noted : List Row) (row : Row) : Option Instruction :=
  match row.command with
  | .goto name => (labelAt? noted (row.owner, name)).map fun i => ⟨.jump i, row.owner⟩
  | .ifGoto name => (labelAt? noted (row.owner, name)).map fun i => ⟨.jumpIf i, row.owner⟩
  | .call name count => some ⟨.call (targetIn noted name) count, row.owner⟩
  | .push segment index => some ⟨.push (locate row.base segment index), row.owner⟩
  | .pop segment index => some ⟨.pop (locate row.base segment index), row.owner⟩
  | .arithmetic op => some ⟨.arithmetic op, row.owner⟩
  | .label _ => some ⟨.skip, row.owner⟩
  | .function _ locals => some ⟨.enter locals, row.owner⟩
  | .return => some ⟨.return, row.owner⟩

section Rows

variable {d : Directory} {noted : List Row} {row : Row}

theorem functions_eq_functionAt? (hlocates : d.Locates noted)
    (hfinds : ({} : Directory).Finds noted d) (name : String) : d.functions[name]? = functionAt? noted name := by
  cases hat : functionAt? noted name with
  | none =>
      cases hfound : d.functions[name]? with
      | none => rfl
      | some i =>
          obtain ⟨row, locals, hrow, hcommand⟩ := hlocates.functions name i hfound
          have hno := List.findIdx?_eq_none_iff.mp hat row (List.mem_of_getElem? hrow)
          simp [Row.function?, hcommand] at hno
  | some i =>
      obtain ⟨hlt, hname, -⟩ := List.findIdx?_eq_some_iff_getElem.mp hat
      rw [hfinds.function i _ name (List.getElem?_eq_getElem hlt) (eq_of_beq hname)]
      exact congrArg some (Nat.zero_add i)

theorem labels_eq_labelAt? (hlocates : d.Locates noted) (hfinds : ({} : Directory).Finds noted d)
    (hnodup : (noted.filterMap Row.label?).Nodup) (key : String × String) :
    d.labels[key]? = labelAt? noted key := by
  obtain ⟨owner, name⟩ := key
  cases hat : labelAt? noted (owner, name) with
  | none =>
      cases hfound : d.labels[(owner, name)]? with
      | none => rfl
      | some i =>
          obtain ⟨row, hrow, rfl, hcommand⟩ := hlocates.labels owner name i hfound
          have hno := List.findIdx?_eq_none_iff.mp hat row (List.mem_of_getElem? hrow)
          simp [Row.label?, hcommand] at hno
  | some i =>
      obtain ⟨hlt, hname, -⟩ := List.findIdx?_eq_some_iff_getElem.mp hat
      rw [hfinds.label hnodup i _ _ (List.getElem?_eq_getElem hlt) (eq_of_beq hname)]
      exact congrArg some (Nat.zero_add i)

theorem resolves_of_instruction? (hlocates : d.Locates noted)
    (hfinds : ({} : Directory).Finds noted d) (hnodup : (noted.filterMap Row.label?).Nodup)
    {i : Instruction} (h : row.instruction? noted = some i) : Resolves d row i := by
  have hlabel (name : String) {target : Nat}
      (hat : labelAt? noted (row.owner, name) = some target) :
      d.label row.owner name = .ok target := by
    rw [Directory.label, labels_eq_labelAt? hlocates hfinds hnodup, hat]
  have htarget (name : String) : d.target name = targetIn noted name := by
    rw [Directory.target, functions_eq_functionAt? hlocates hfinds]
    rfl
  unfold Row.instruction? at h
  unfold Resolves
  cases hcommand : row.command with
  | goto name =>
      rw [hcommand] at h
      obtain ⟨target, hat, rfl⟩ := Option.map_eq_some_iff.mp h
      exact ⟨by rw [resolve, hlabel name hat]; rfl, rfl⟩
  | ifGoto name =>
      rw [hcommand] at h
      obtain ⟨target, hat, rfl⟩ := Option.map_eq_some_iff.mp h
      exact ⟨by rw [resolve, hlabel name hat]; rfl, rfl⟩
  | call name count =>
      rw [hcommand] at h
      cases h
      exact ⟨by rw [resolve, htarget], rfl⟩
  | _ =>
      rw [hcommand] at h
      cases h
      exact ⟨rfl, rfl⟩

theorem resolves_rightUnique : Relator.RightUnique (Resolves d) := by
  rintro row ⟨op, owner⟩ ⟨op', owner'⟩ ⟨hop, rfl⟩ ⟨hop', rfl⟩
  simp only at hop hop'
  rw [hop] at hop'
  cases hop'
  rfl

end Rows

/-- Files are linked to the instructions that their rows tell. -/
theorem exists_link {files : List SourceFile} {code : List Instruction}
    (hfunctions : ((rows staticBase files).filterMap Row.function?).Nodup)
    (hlabels : ((rows staticBase files).filterMap Row.label?).Nodup)
    (hcode : (rows staticBase files).map (Row.instruction? (rows staticBase files)) =
      code.map some)
    (hroom : staticBase + staticTotal files ≤ staticEnd) :
    ∃ p, Program.link files = .ok p ∧ p.instructions.toList = code ∧
      ∀ name, p.functions[name]? = functionAt? (rows staticBase files) name := by
  obtain ⟨d, hd⟩ := Directory.exists_addRows (d := {}) hfunctions (by simp)
  have hfinds := Directory.finds_of_addRows hd
  have hlocates := Directory.locates_nil.addRows hd
  rw [List.nil_append] at hlocates
  have hresolves : List.Forall₂ (Resolves d) (rows staticBase files) code := by
    have hmaps : List.Forall₂ (· = ·) ((rows staticBase files).map
        (Row.instruction? (rows staticBase files))) (code.map some) := by
      rw [List.forall₂_eq_eq_eq, hcode]
    have hrows := List.forall₂_map_left_iff.mp (List.forall₂_map_right_iff.mp hmaps)
    exact hrows.imp fun row i h => resolves_of_instruction? hlocates hfinds hlabels h
  have hresolve : ∀ row ∈ rows staticBase files,
      ∃ op, resolve d row.base row.owner row.command = .ok op := by
    intro row hrow
    obtain ⟨k, hk⟩ := List.mem_iff_getElem?.mp hrow
    obtain ⟨i, -, hop, -⟩ := exists_of_forall₂ hresolves hk
    exact ⟨i.op, hop⟩
  obtain ⟨instructions, hlinked⟩ := exists_linkFiles hresolve hroom #[]
  have hlink : Program.link files = .ok ⟨instructions, d.functions⟩ := by
    unfold Program.link
    rw [Directory.addRows_rows {} staticBase files, hd]
    simp only [bind, Except.bind, hlinked]
    rfl
  refine ⟨_, hlink, ?_, functions_eq_functionAt? hlocates hfinds⟩
  obtain ⟨d', hd', -, hresolves', -⟩ := Program.link_spec hlink
  rw [hd] at hd'
  cases hd'
  exact resolves_rightUnique.forall₂ hresolves' hresolves

end JackToolchain.Machine
