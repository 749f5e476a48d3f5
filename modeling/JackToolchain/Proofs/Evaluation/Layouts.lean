import JackToolchain.Proofs.Evaluation.Agreement
import JackToolchain.Proofs.Syntax.Identifiers
import JackToolchain.Proofs.Translation.Functions

/-!
# Layouts of compiled classes

The linked program of compiled classes has their subroutines as they were lowered, each class with
static variables of its own.
-/

namespace JackToolchain.Evaluation

open JackToolchain.Machine JackToolchain.Lowering JackToolchain.Syntax JackToolchain.Scope
open JackToolchain.Stack JackToolchain.Stack.Expander JackToolchain.Token

/-- Nothing is declared twice in a class. -/
structure Distinct (tree : ClassTree) : Prop where
  members : (tree.classVars.flatMap ClassVars.names).Nodup
  subroutines : (tree.subroutines.map Subroutine.name).Nodup
  scopes : ∀ s ∈ tree.subroutines, s.variables.Nodup

instance (tree : ClassTree) : Decidable (Distinct tree) :=
  decidable_of_iff
    ((tree.classVars.flatMap ClassVars.names).Nodup ∧
      (tree.subroutines.map Subroutine.name).Nodup ∧ ∀ s ∈ tree.subroutines, s.variables.Nodup)
    ⟨fun ⟨hmembers, hsubroutines, hscopes⟩ => ⟨hmembers, hsubroutines, hscopes⟩,
      fun h => ⟨h.members, h.subroutines, h.scopes⟩⟩

/-- Trees of sources and the classes that these are compiled to. The names of the classes are
different, and no subroutine has the name of a routine of the machine. -/
structure Compiled (trees : List ClassTree) (classes : List CompiledClass) : Prop where
  sources : List.Forall₂ (fun tree c => ∃ name lx,
    (Compilation.ofLexer name lx).result = .ok c ∧ Compiles lx tree c) trees classes
  names : (trees.map ClassTree.name).Nodup
  distinct : ∀ tree ∈ trees, Distinct tree
  routines : ∀ tree ∈ trees, ∀ s ∈ tree.subroutines,
    Routine.ofName? s!"{tree.name}.{s.name}" = none

/-! ## Scopes -/

theorem names_classDeclarations (tree : ClassTree) :
    (classDeclarations tree).map Declaration.name = tree.classVars.flatMap ClassVars.names := by
  simp only [classDeclarations, List.map_flatMap, List.map_map, Function.comp_def, List.map_id']

theorem names_subroutineDeclarations (className : String) (s : Subroutine) :
    (subroutineDeclarations className s).map Declaration.name =
      (if s.kind = .method then ["this"] else []) ++ s.variables := by
  simp only [subroutineDeclarations, Subroutine.variables, List.map_append, List.map_flatMap,
    List.map_map, Function.comp_def, List.map_id', List.append_assoc]
  split <;> rfl

section Classes

variable {lx : Lexer} {tree : ClassTree} {c : CompiledClass} {s : Subroutine}

/-- No variable has the name of an object. -/
theorem this_notMem (h : Compiles lx tree c) (hs : s ∈ tree.subroutines) :
    "this" ∉ s.variables ++ Statement.mentionedInAll s.body := by
  obtain ⟨t, t', ht, hparse⟩ := h.parsed
  intro hmem
  have hreserved : Keyword.ofText? "this" = some .thisWord := by decide
  rw [ClassTree.not_reserved_of_ofStream ht hparse hs hmem] at hreserved
  cases hreserved

theorem nodup_subroutineDeclarations (h : Compiles lx tree c) (hdistinct : Distinct tree)
    (hs : s ∈ tree.subroutines) :
    ((subroutineDeclarations tree.name s).map Declaration.name).Nodup := by
  have hvariables := hdistinct.scopes s hs
  have hthis := fun hmem => this_notMem h hs (List.mem_append_left _ hmem)
  rw [names_subroutineDeclarations]
  split
  · exact List.nodup_cons.mpr ⟨hthis, hvariables⟩
  · exact hvariables

/-! ## Blocks -/

/-- The commands of a class have the block of a subroutine among those of others. -/
theorem exists_block (h : Compiles lx tree c) (hs : s ∈ tree.subroutines) :
    ∃ labels body front, ∃ codes : List (List Command), YieldsBlock tree labels s (openingOf tree s) body ∧
      c.commands = front ++ (blockOf tree s (openingOf tree s) body ++ codes.flatten) ∧
      ∀ code ∈ codes, ∃ f, IsFunction tree.name f code := by
  obtain ⟨blocks, hblocks, hcommands⟩ := yields_of_lowerClass h.lowered
  have hfunctions := isFunction_blocks hblocks h.proper h.proper.subroutines
  obtain ⟨block, hblock, labels, body, hyields, rfl⟩ :=
    exists_right_of_forall₂ hblocks.forall₂ hs
  obtain ⟨front, codes, rfl⟩ := List.append_of_mem hblock
  refine ⟨labels, body, front.flatten, codes, hyields, by rw [hcommands]; simp, fun code hcode => ?_⟩
  obtain ⟨other, -, hother⟩ := exists_left_of_forall₂ hfunctions
    (List.mem_append_right front (List.mem_cons_of_mem _ hcode))
  exact ⟨other.name, hother⟩

theorem exists_subroutine (h : Compiles lx tree c) {name : String} {locals : UInt16}
    (hmem : .function name locals ∈ c.commands) :
    ∃ s ∈ tree.subroutines, name = s!"{tree.name}.{s.name}" := by
  obtain ⟨blocks, hblocks, hcommands⟩ := yields_of_lowerClass h.lowered
  rw [hcommands] at hmem
  obtain ⟨block, hblock, hmem⟩ := List.mem_flatten.mp hmem
  obtain ⟨s, hs, hfunction⟩ :=
    exists_left_of_forall₂ (isFunction_blocks hblocks h.proper h.proper.subroutines) hblock
  exact ⟨s, hs, hfunction.name_eq hmem⟩

end Classes

namespace Compiled

variable {trees : List ClassTree} {classes : List CompiledClass} {tree other : ClassTree}
  {l : Linked}

theorem files_eq (h : Compiled trees classes) :
    (filesOf classes).map Prod.fst = trees.map ClassTree.name := by
  have hall := h.sources
  rw [filesOf, List.map_map]
  clear h
  induction hall with
  | nil => rfl
  | cons hfirst _ ih =>
      obtain ⟨name, lx, -, hcompiles⟩ := hfirst
      exact congrArg₂ List.cons hcompiles.className ih

theorem noneAtTop (h : Compiled trees classes) : ∀ file ∈ filesOf classes, NoneAtTop file.2 := by
  intro file hfile
  obtain ⟨c, hc, rfl⟩ := List.mem_map.mp hfile
  obtain ⟨tree, -, name, lx, -, hcompiles⟩ := exists_left_of_forall₂ h.sources hc
  exact noneAtTop_of_wellNamed hcompiles.wellNamed

theorem exists_part (h : Compiled trees classes) (htree : tree ∈ trees) :
    ∃ lx c, ∃ part ∈ parts 0 staticBase (filesOf classes), Compiles lx tree c ∧
      part.commands = c.commands ∧ part.file = tree.name ∧
      part? (filesOf classes) tree.name = some part := by
  obtain ⟨c, hc, name, lx, -, hcompiles⟩ := exists_right_of_forall₂ h.sources htree
  obtain ⟨part, hpart, hfile, hcommands⟩ :=
    Machine.exists_part 0 staticBase (List.mem_map_of_mem hc : _ ∈ filesOf classes)
  have hname : part.file = tree.name := hfile.trans hcompiles.className
  have hnames : ((filesOf classes).map Prod.fst).Nodup := h.files_eq ▸ h.names
  exact ⟨lx, c, part, hpart, hcompiles, hcommands, hname, hname ▸ part?_file hnames hpart⟩

/-- A function that the program has is a subroutine. -/
theorem exists_of_functions (h : Compiled trees classes) (hl : l.Of (filesOf classes))
    {name : String} {entry : Nat} (hentry : l.directory.functions[name]? = some entry) :
    ∃ tree ∈ trees, ∃ s ∈ tree.subroutines, name = s!"{tree.name}.{s.name}" := by
  obtain ⟨row, locals, hrow, hcommand⟩ := hl.locates.functions name entry hentry
  obtain ⟨file, hfile, hmem⟩ := mem_commands (List.mem_of_getElem? hrow)
  obtain ⟨c, hc, rfl⟩ := List.mem_map.mp hfile
  obtain ⟨tree, htree, source, lx, -, hcompiles⟩ := exists_left_of_forall₂ h.sources hc
  rw [hcommand] at hmem
  exact ⟨tree, htree, exists_subroutine hcompiles hmem⟩

theorem target_routine (h : Compiled trees classes) (hl : l.Of (filesOf classes)) (r : Routine) :
    l.directory.target r.name = .host r := by
  have hnone : l.directory.functions[r.name]? = none := by
    by_contra hsome
    obtain ⟨entry, hentry⟩ := Option.ne_none_iff_exists'.mp hsome
    obtain ⟨tree, htree, s, hs, hname⟩ := h.exists_of_functions hl hentry
    have hroutine := h.routines tree htree s hs
    rw [← hname, Routine.ofName?_name] at hroutine
    cases hroutine
  rw [Directory.target, hnone, Routine.ofName?_name]

/-- The address of the first static variable of a class. -/
def base (classes : List CompiledClass) (name : String) : Nat :=
  (part? (filesOf classes) name).elim 0 Part.base

/-- How many static variables a class has. -/
def size (classes : List CompiledClass) (name : String) : Nat :=
  (part? (filesOf classes) name).elim 0 fun part => staticCount part.commands

theorem range (h : Compiled trees classes) (hl : l.Of (filesOf classes)) (htree : tree ∈ trees) :
    16 ≤ base classes tree.name ∧ base classes tree.name + size classes tree.name ≤ 256 := by
  obtain ⟨lx, c, part, hpart, -, -, -, hfound⟩ := h.exists_part htree
  have hbounds := base_bounds hpart
  have hroom := hl.room
  have hend : staticEnd = 256 := rfl
  have hstart : staticBase = 16 := rfl
  simp only [base, size, hfound, Option.elim_some]
  omega

theorem apart (h : Compiled trees classes) (htree : tree ∈ trees) (hother : other ∈ trees) :
    tree = other ∨
      base classes tree.name + size classes tree.name ≤ base classes other.name ∨
      base classes other.name + size classes other.name ≤ base classes tree.name := by
  obtain ⟨lx, c, part, hpart, -, -, hfile, hfound⟩ := h.exists_part htree
  obtain ⟨lx', c', part', hpart', -, -, hfile', hfound'⟩ := h.exists_part hother
  simp only [base, size, hfound, hfound', Option.elim_some]
  rcases bases_apart hpart hpart' with hsame | hapart
  · refine .inl (List.inj_on_of_nodup_map h.names htree hother ?_)
    rw [← hfile, ← hfile', hsame]
  · exact .inr hapart

theorem placed (h : Compiled trees classes) (hl : l.Of (filesOf classes)) (htree : tree ∈ trees)
    {s : Subroutine} (hs : s ∈ tree.subroutines) : ∃ entry labels opening body,
      l.directory.functions[s!"{tree.name}.{s.name}"]? = some entry ∧
        YieldsBlock tree labels s opening body ∧
        Site.Placed ⟨l, base classes tree.name, size classes tree.name, s!"{tree.name}.{s.name}"⟩
          entry (blockOf tree s opening body) := by
  obtain ⟨lx, c, part, hpart, hcompiles, hcommands, -, hfound⟩ := h.exists_part htree
  obtain ⟨labels, body, front, codes, hblock, hsplit, hcodes⟩ := exists_block hcompiles hs
  have hfunction := isFunction_block hblock hcompiles.proper (hcompiles.proper.subroutines s hs)
  have hentry := hl.entry hpart (hcommands.trans hsplit) hfunction
  have hplaced := hl.placed h.noneAtTop hpart (hcommands.trans hsplit) hfunction hcodes
  refine ⟨_, labels, _, body, hentry, hblock, ?_⟩
  simp only [base, size, hfound, Option.elim_some]
  exact hplaced

/-- The layout of compiled classes in their program. -/
def layout (h : Compiled trees classes) (hl : l.Of (filesOf classes)) : Layout ⟨trees, true⟩ where
  linked := l
  base := base classes
  size := size classes
  strict := rfl
  members tree htree := by
    rw [names_classDeclarations]
    exact (h.distinct tree htree).members
  scopes tree htree s hs := by
    obtain ⟨lx, c, part, -, hcompiles, -⟩ := h.exists_part htree
    exact nodup_subroutineDeclarations hcompiles (h.distinct tree htree) hs
  named tree htree s hs := by
    obtain ⟨lx, c, part, -, hcompiles, -⟩ := h.exists_part htree
    exact fun hmem => this_notMem hcompiles hs (List.mem_append_right _ hmem)
  range tree htree := h.range hl htree
  apart tree htree other hother := h.apart htree hother
  routines := h.target_routine hl
  placed tree htree s hs := h.placed hl htree hs

end Compiled

end JackToolchain.Evaluation
