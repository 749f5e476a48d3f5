import JackToolchain.Proofs.Machine.Parts
import JackToolchain.Proofs.Machine.Placement
import JackToolchain.Proofs.Translation.Build

/-!
# Functions in a linked program

The commands of a compiled class stand in the linked program as functions in a row. Labels of a
function are found where they stand in it.
-/

namespace JackToolchain.Stack.Expander.IsFunction

open JackToolchain.Machine JackToolchain.Lowering

variable {c f : String} {front code rest : List Command} {i j k : Nat}

theorem begins (h : IsFunction c f code) :
    ∃ locals, code[0]? = some (.function (fullName c f) locals) := by
  obtain ⟨locals, inner, rfl, -⟩ := h.parts
  exact ⟨locals, rfl⟩

theorem inner (h : IsFunction c f code) {d : Command} (hd : code[i + 1]? = some d) :
    InnerCommand d := by
  obtain ⟨locals, inner, rfl, hinner, -⟩ := h.parts
  exact hinner d (List.mem_of_getElem? hd)

theorem name_eq (h : IsFunction c f code) {name : String} {locals : UInt16}
    (hmem : .function name locals ∈ code) : name = fullName c f := by
  obtain ⟨locals', inner, rfl, hinner, -⟩ := h.parts
  rcases List.mem_cons.mp hmem with heq | hmem
  · cases heq
    rfl
  · exact (hinner _ hmem).elim

/-- A label stands in one place of a function. -/
theorem eq_of_label (h : IsFunction c f code) {name : String}
    (hi : code[i]? = some (.label name)) (hj : code[j]? = some (.label name)) : i = j := by
  obtain ⟨locals, inner, rfl, -, hnodup, -⟩ := h.parts
  have hall : (labelsIn (.function (fullName c f) locals :: inner)).Nodup := hnodup
  exact Lowering.eq_of_label hall hi hj

/-! ## Among other functions -/

theorem getElem?_among (front rest : List Command) (hi : i < code.length) :
    (front ++ (code ++ rest))[front.length + i]? = code[i]? := by
  rw [List.getElem?_append_right (Nat.le_add_right ..), Nat.add_sub_cancel_left,
    List.getElem?_append_left hi]

theorem within (h : IsFunction c f code) (front rest : List Command) (hi : i < code.length) :
    Within (front ++ (code ++ rest)) (fullName c f) front.length (front.length + i) := by
  refine ⟨?_, Nat.le_add_right .., fun j hj hji name locals hfunction => ?_⟩
  · obtain ⟨locals, hbegins⟩ := h.begins
    exact ⟨locals, (getElem?_among front rest (Nat.zero_lt_of_lt hi)).trans hbegins⟩
  · obtain ⟨n, rfl⟩ : ∃ n, j = front.length + (n + 1) := ⟨j - front.length - 1, by omega⟩
    rw [getElem?_among front rest (by omega)] at hfunction
    exact h.inner hfunction

/-- What is in a function stands before the next one begins. -/
theorem lt_of_within {codes : List (List Command)} {name : String} {d : Command}
    (hcodes : ∀ other ∈ codes, ∃ f, IsFunction c f other) (hcode : code ≠ [])
    (h : Within (front ++ (code ++ codes.flatten)) name front.length k)
    (hk : (front ++ (code ++ codes.flatten))[k]? = some d) : k < front.length + code.length := by
  have hpos := List.length_pos_iff.mpr hcode
  by_contra hge
  cases codes with
  | nil =>
      have hlt := (List.getElem?_eq_some_iff.mp hk).1
      simp at hlt
      omega
  | cons next codes =>
      obtain ⟨f', hnext⟩ := hcodes next List.mem_cons_self
      obtain ⟨locals, inner, rfl, -⟩ := hnext.parts
      refine h.last (front.length + code.length) (by omega) (by omega) (fullName c f') locals ?_
      rw [List.getElem?_append_right (Nat.le_add_right ..), Nat.add_sub_cancel_left,
        List.getElem?_append_right (le_refl _), Nat.sub_self]
      rfl

end JackToolchain.Stack.Expander.IsFunction

namespace JackToolchain.Machine

open JackToolchain.Stack JackToolchain.Stack.Expander JackToolchain.Lowering

/-- A program of files and the directory that they were resolved by. -/
structure Linked.Of (l : Linked) (files : List SourceFile) : Prop where
  locates : l.directory.Locates (rows staticBase files)
  finds : ({} : Directory).Finds (rows staticBase files) l.directory
  labels : ∀ key ∈ (rows staticBase files).filterMap Row.label?,
    ∃ i, l.directory.labels[key]? = some i
  functions : l.program.functions = l.directory.functions
  resolves : List.Forall₂ (Resolves l.directory) (rows staticBase files)
    l.program.instructions.toList
  room : staticBase + staticTotal files ≤ staticEnd

theorem exists_linked {files : List SourceFile} {p : Program} (h : Program.link files = .ok p) :
    ∃ l : Linked, l.program = p ∧ l.Of files := by
  obtain ⟨d, hnoted, hfunctions, hresolves, hroom⟩ := Program.link_spec h
  have hlocates := Directory.locates_nil.addRows hnoted
  rw [List.nil_append] at hlocates
  exact ⟨⟨p, d⟩, rfl, hlocates, Directory.finds_of_addRows hnoted,
    fun _ => Directory.exists_label_of_addRows hnoted, hfunctions, hresolves, hroom⟩

namespace Linked.Of

variable {l : Linked} {files : List SourceFile} {part : Part} {c f : String}
  {front code : List Command} {codes : List (List Command)}

theorem entry (h : l.Of files) (hpart : part ∈ parts 0 staticBase files)
    (hcommands : part.commands = front ++ (code ++ codes.flatten)) (hcode : IsFunction c f code) :
    l.directory.functions[fullName c f]? = some (part.start + front.length) := by
  obtain ⟨locals, hbegins⟩ := hcode.begins
  have hpos : 0 < code.length := (List.getElem?_eq_some_iff.mp hbegins).1
  have hentry : part.commands[front.length]? = some (.function (fullName c f) locals) := by
    rw [hcommands]
    exact (IsFunction.getElem?_among front _ hpos).trans hbegins
  exact functions_of_begin h.finds hpart hentry

/-- The commands of a function stand in a row. -/
theorem placed (h : l.Of files) (htop : ∀ file ∈ files, NoneAtTop file.2)
    (hpart : part ∈ parts 0 staticBase files)
    (hcommands : part.commands = front ++ (code ++ codes.flatten)) (hcode : IsFunction c f code)
    (hcodes : ∀ other ∈ codes, ∃ f, IsFunction c f other) :
    Site.Placed ⟨l, part.base, staticCount part.commands, fullName c f⟩
      (part.start + front.length) code := by
  have hcommand {i : Nat} {d : Command} (hi : code[i]? = some d) :
      part.commands[front.length + i]? = some d ∧
        Within part.commands (fullName c f) front.length (front.length + i) := by
    have hlt := (List.getElem?_eq_some_iff.mp hi).1
    rw [hcommands]
    exact ⟨(IsFunction.getElem?_among front _ hlt).trans hi, hcode.within front _ hlt⟩
  constructor
  · intro i d hi
    obtain ⟨hd, hwithin⟩ := hcommand hi
    have hrow := getElem?_rows hpart hd
    obtain ⟨instruction, hinstruction, hop, howner⟩ := exists_of_forall₂ h.resolves hrow
    rw [Array.getElem?_toList, ← Nat.add_assoc] at hinstruction
    simp only [Part.row, hwithin.ownerOf_eq] at hop howner
    refine ⟨instruction.op, ?_, hop, staticsOf_le_staticCount (List.mem_of_getElem? hd)⟩
    rw [hinstruction, ← howner]
  · intro i name hi
    obtain ⟨hd, hwithin⟩ := hcommand hi
    have hkey : (fullName c f, name) ∈ (rows staticBase files).filterMap Row.label? := by
      refine List.mem_filterMap.mpr ⟨_, List.mem_of_getElem? (getElem?_rows hpart hd), ?_⟩
      simp only [Row.label?, Part.row, hwithin.ownerOf_eq]
    obtain ⟨target, htarget⟩ := h.labels _ hkey
    have hlabel : l.directory.label (fullName c f) name = .ok target := by
      rw [Directory.label, htarget]
    have hjumps := jumpsTo_of_label h.locates h.finds htop hpart (k := front.length + i)
      (hwithin.ownerOf_eq.symm ▸ hlabel)
    obtain ⟨j, rfl, hj, hwithin'⟩ := hjumps.inside _ _ hwithin
    rw [hcommands] at hj hwithin'
    have hne : code ≠ [] := List.ne_nil_of_mem (List.mem_of_getElem? hi)
    have hlt := IsFunction.lt_of_within hcodes hne hwithin' hj
    obtain ⟨n, rfl⟩ := Nat.exists_eq_add_of_le hwithin'.le
    rw [IsFunction.getElem?_among front _ (by omega)] at hj
    obtain rfl := hcode.eq_of_label hi hj
    rw [hlabel, Nat.add_assoc]

end Linked.Of

end JackToolchain.Machine
