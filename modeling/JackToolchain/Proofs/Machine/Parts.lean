import JackToolchain.Proofs.Lists
import JackToolchain.Proofs.Machine.Directory
import JackToolchain.Proofs.Translation.Statics
import Mathlib.Order.Interval.Finset.Nat

/-!
# Files in a program

The commands of a file stand in a row from some address on, and its static variables have addresses
that no other file has. A jump inside of a function stays inside of it, and a call of a function of
the program goes to where that begins.
-/

namespace JackToolchain.Machine

open JackToolchain.Stack

/-- A file in a program. -/
structure Part where
  file : String
  commands : List Command
  /-- The address of the first command. -/
  start : Nat
  /-- The address of the first static variable. -/
  base : Nat

def parts (start base : Nat) : List SourceFile → List Part
  | [] => []
  | (file, commands) :: rest =>
    ⟨file, commands, start, base⟩ ::
      parts (start + commands.length) (base + staticCount commands) rest

/-- The addresses of the static variables of a file. -/
def Part.statics (part : Part) : Finset Nat :=
  Finset.Ico part.base (part.base + staticCount part.commands)

/-- A command is in a function: no other one begins between them. -/
structure Within (commands : List Command) (name : String) (entry k : Nat) : Prop where
  begins : ∃ locals, commands[entry]? = some (.function name locals)
  le : entry ≤ k
  last : ∀ j, entry < j → j ≤ k → ∀ other locals, commands[j]? ≠ some (.function other locals)

/-! ## Static variables -/

section Statics

variable {start base : Nat} {files : List SourceFile} {part : Part}

theorem statics_subset (h : part ∈ parts start base files) :
    part.statics ⊆ Finset.Ico base (base + staticTotal files) := by
  induction files generalizing start base with
  | nil => cases h
  | cons file files ih =>
      obtain ⟨name, commands⟩ := file
      rcases List.mem_cons.mp h with rfl | h
      · exact Finset.Ico_subset_Ico_right (Nat.add_le_add_left (Nat.le_add_right _ _) _)
      · refine (ih h).trans ?_
        rw [staticTotal, ← Nat.add_assoc]
        exact Finset.Ico_subset_Ico_left (Nat.le_add_right _ _)

/-- No two files share an address for static variables. -/
theorem pairwise_disjoint_statics (start base : Nat) (files : List SourceFile) :
    (parts start base files).Pairwise fun a b => Disjoint a.statics b.statics := by
  induction files generalizing start base with
  | nil => exact .nil
  | cons file files ih =>
      obtain ⟨name, commands⟩ := file
      refine .cons (fun part hpart => ?_) (ih _ _)
      exact Finset.disjoint_of_subset_right (statics_subset hpart)
        (Finset.Ico_disjoint_Ico_consecutive _ _ _)

theorem base_bounds (h : part ∈ parts start base files) : base ≤ part.base ∧
    part.base + staticCount part.commands ≤ base + staticTotal files := by
  induction files generalizing start base with
  | nil => cases h
  | cons file files ih =>
      obtain ⟨name, commands⟩ := file
      rw [staticTotal]
      rcases List.mem_cons.mp h with rfl | h
      · simp only
        omega
      · have hrest := ih h
        omega

/-- Of two files one has its static variables behind those of the other. -/
theorem bases_apart {part' : Part} (h : part ∈ parts start base files)
    (h' : part' ∈ parts start base files) :
    part = part' ∨ part.base + staticCount part.commands ≤ part'.base ∨
      part'.base + staticCount part'.commands ≤ part.base := by
  induction files generalizing start base with
  | nil => cases h
  | cons file files ih =>
      rcases List.mem_cons.mp h with rfl | h
      · rcases List.mem_cons.mp h' with rfl | h'
        · exact .inl rfl
        · exact .inr (.inl (base_bounds h').1)
      · rcases List.mem_cons.mp h' with rfl | h'
        · exact .inr (.inr (base_bounds h).1)
        · exact ih h h'

end Statics

/-! ## Parts of files -/

section Files

variable {start base : Nat} {files : List SourceFile} {part : Part}

theorem map_file_parts (start base : Nat) (files : List SourceFile) :
    (parts start base files).map Part.file = files.map Prod.fst := by
  induction files generalizing start base with
  | nil => rfl
  | cons file files ih => exact congrArg _ (ih _ _)

theorem exists_part (start base : Nat) {file : SourceFile} (h : file ∈ files) :
    ∃ part ∈ parts start base files, part.file = file.1 ∧ part.commands = file.2 := by
  induction files generalizing start base with
  | nil => cases h
  | cons other files ih =>
      rcases List.mem_cons.mp h with rfl | h
      · exact ⟨_, List.mem_cons_self, rfl, rfl⟩
      · obtain ⟨part, hpart, hfile⟩ := ih (start + other.2.length) (base + staticCount other.2) h
        exact ⟨part, List.mem_cons_of_mem _ hpart, hfile⟩

/-- The part of the file of a name. -/
def part? (files : List SourceFile) (name : String) : Option Part :=
  (parts 0 staticBase files).find? fun part => part.file == name

theorem part?_file (hnames : (files.map Prod.fst).Nodup)
    (h : part ∈ parts 0 staticBase files) : part? files part.file = some part := by
  unfold part?
  cases hfound : (parts 0 staticBase files).find? fun other => other.file == part.file with
  | none => simpa using List.find?_eq_none.mp hfound part h
  | some other =>
      rw [← map_file_parts 0 staticBase] at hnames
      have hfile : other.file = part.file := by simpa using List.find?_some hfound
      exact congrArg some
        (List.inj_on_of_nodup_map hnames (List.mem_of_find?_eq_some hfound) h hfile)

end Files

/-! ## Functions around commands -/

/-- No function has the name of what is outside of all functions. -/
def NoneAtTop (commands : List Command) : Prop :=
  ∀ name locals, .function name locals ∈ commands → name ≠ topLevel

theorem noneAtTop_of_wellNamed {commands : List Command} (h : ∀ c ∈ commands, c.WellNamed) :
    NoneAtTop commands := by
  intro name locals hmem htop
  have hname : Text.isName name.toList = true := h _ hmem
  rw [htop] at hname
  exact absurd hname (by decide)

theorem noneAtTop_of_wellFormed {commands : List Command} (h : ∀ c ∈ commands, c.WellFormed) :
    NoneAtTop commands :=
  noneAtTop_of_wellNamed fun c hc => (h c hc).named

/-- The function around a command. -/
def ownerOf (commands : List Command) (k : Nat) : String :=
  (commands.take (k + 1)).foldl ownerAfter topLevel

section Owners

variable {commands : List Command} {name : String} {entry k : Nat}

theorem ownerOf_succ (commands : List Command) (k : Nat) :
    ownerOf commands (k + 1) =
      (commands[k + 1]?.toList).foldl ownerAfter (ownerOf commands k) := by
  rw [ownerOf, ownerOf, List.take_add_one, List.foldl_append]

theorem ownerAfter_eq {c : Command} {owner : String}
    (hc : ∀ other locals, c ≠ .function other locals) : ownerAfter owner c = owner := by
  cases c with
  | function other locals => exact absurd rfl (hc other locals)
  | _ => rfl

theorem ownerOf_begin {locals : UInt16} (h : commands[k]? = some (.function name locals)) :
    ownerOf commands k = name := by
  cases k with
  | zero =>
      cases commands with
      | nil => cases h
      | cons c rest =>
          cases h
          rfl
  | succ k =>
      rw [ownerOf_succ, h]
      rfl

theorem ownerOf_inner (h : ∀ other locals, commands[k + 1]? ≠ some (.function other locals)) :
    ownerOf commands (k + 1) = ownerOf commands k := by
  rw [ownerOf_succ]
  cases hc : commands[k + 1]? with
  | none => rfl
  | some c =>
      refine ownerAfter_eq fun other locals hfunction => h other locals ?_
      rw [hc, hfunction]

theorem Within.ownerOf_eq (h : Within commands name entry k) : ownerOf commands k = name := by
  obtain ⟨⟨locals, hbegins⟩, hle, hlast⟩ := h
  induction k, hle using Nat.le_induction with
  | base => exact ownerOf_begin hbegins
  | succ k hle ih =>
      rw [ownerOf_inner (hlast (k + 1) (Nat.lt_succ_of_le hle) le_rfl)]
      exact ih fun j hj hjk => hlast j hj (hjk.trans (Nat.le_succ k))

/-- What is not outside of all functions is in one. -/
theorem exists_within (h : ownerOf commands k = name) (hname : name ≠ topLevel) :
    ∃ entry, Within commands name entry k := by
  induction k with
  | zero =>
      cases commands with
      | nil => exact absurd h.symm hname
      | cons c rest =>
          cases c with
          | function other locals =>
              cases h
              exact ⟨0, ⟨locals, rfl⟩, le_rfl, fun j hj hle => by omega⟩
          | _ => exact absurd h.symm hname
  | succ k ih =>
      by_cases hbegins : ∃ other locals, commands[k + 1]? = some (.function other locals)
      · obtain ⟨other, locals, hbegins⟩ := hbegins
        obtain rfl : other = name := (ownerOf_begin hbegins).symm.trans h
        exact ⟨k + 1, ⟨locals, hbegins⟩, le_rfl, fun j hj hle => by omega⟩
      · simp only [not_exists] at hbegins
        obtain ⟨entry, hentry, hle, hlast⟩ := ih (by rw [← h, ownerOf_inner hbegins])
        refine ⟨entry, hentry, hle.trans (Nat.le_succ k), fun j hj hjk => ?_⟩
        rcases Nat.lt_succ_iff_lt_or_eq.mp (Nat.lt_succ_of_le hjk) with hlt | rfl
        · exact hlast j hj (Nat.le_of_lt_succ hlt)
        · exact hbegins

end Owners

/-! ## Addresses -/

/-- The row of a command. -/
def Part.row (part : Part) (k : Nat) (c : Command) : Row :=
  ⟨part.file, part.base, ownerOf part.commands k, c⟩

theorem getElem?_rowsFrom (file : String) (base : Nat) (commands : List Command) (k : Nat) :
    (rowsFrom file base topLevel commands)[k]? =
      commands[k]?.map fun c => ⟨file, base, ownerOf commands k, c⟩ := by
  have hrows (owner : String) : (rowsFrom file base owner commands)[k]? = commands[k]?.map fun c =>
      ⟨file, base, (commands.take (k + 1)).foldl ownerAfter owner, c⟩ := by
    induction commands generalizing owner k with
    | nil => rfl
    | cons c rest ih =>
        cases k with
        | zero => rfl
        | succ k => exact ih k (ownerAfter owner c)
  exact hrows topLevel

theorem length_rowsFrom (file : String) (base : Nat) (commands : List Command) :
    (rowsFrom file base topLevel commands).length = commands.length := by
  have hlength (owner : String) : (rowsFrom file base owner commands).length = commands.length := by
    induction commands generalizing owner with
    | nil => rfl
    | cons c rest ih => exact congrArg Nat.succ (ih _)
  exact hlength topLevel

section Addresses

variable {start base : Nat} {files : List SourceFile} {part : Part}

theorem row_of_part (h : part ∈ parts start base files) {k : Nat} {c : Command}
    (hc : part.commands[k]? = some c) :
    ∃ n, part.start = start + n ∧ (rows base files)[n + k]? = some (part.row k c) := by
  induction files generalizing start base with
  | nil => cases h
  | cons file files ih =>
      obtain ⟨name, commands⟩ := file
      rcases List.mem_cons.mp h with rfl | h
      · have hlt := (List.getElem?_eq_some_iff.mp hc).1
        refine ⟨0, rfl, ?_⟩
        rw [rows, Nat.zero_add, List.getElem?_append_left (by rwa [length_rowsFrom]),
          getElem?_rowsFrom]
        exact congrArg (Option.map _) hc
      · obtain ⟨n, hn, hrow⟩ := ih h
        refine ⟨commands.length + n, by omega, ?_⟩
        rw [rows, List.getElem?_append_right (by rw [length_rowsFrom]; omega), length_rowsFrom,
          Nat.add_assoc, Nat.add_sub_cancel_left, hrow]

theorem exists_part_of_row (start : Nat) {i : Nat} {row : Row}
    (h : (rows base files)[i]? = some row) :
    ∃ part ∈ parts start base files, ∃ k c,
      start + i = part.start + k ∧ part.commands[k]? = some c ∧ row = part.row k c := by
  induction files generalizing start base i with
  | nil => cases h
  | cons file files ih =>
      obtain ⟨name, commands⟩ := file
      rw [rows] at h
      by_cases hlt : i < commands.length
      · rw [List.getElem?_append_left (by rwa [length_rowsFrom]), getElem?_rowsFrom] at h
        obtain ⟨c, hc, rfl⟩ := Option.map_eq_some_iff.mp h
        exact ⟨_, List.mem_cons_self, i, c, rfl, hc, rfl⟩
      · rw [List.getElem?_append_right (by rw [length_rowsFrom]; omega), length_rowsFrom] at h
        obtain ⟨part, hpart, k, c, hk, hc, hrow⟩ := ih (start + commands.length) h
        exact ⟨part, List.mem_cons_of_mem _ hpart, k, c, by omega, hc, hrow⟩

theorem le_start (h : part ∈ parts start base files) : start ≤ part.start := by
  induction files generalizing start base with
  | nil => cases h
  | cons file files ih =>
      rcases List.mem_cons.mp h with rfl | h
      · exact le_rfl
      · exact (Nat.le_add_right _ _).trans (ih h)

/-- A command has its address to itself. -/
theorem eq_of_address_eq {part' : Part} (h : part ∈ parts start base files)
    (h' : part' ∈ parts start base files) {k k' : Nat} (hk : k < part.commands.length)
    (hk' : k' < part'.commands.length) (heq : part.start + k = part'.start + k') :
    part = part' := by
  induction files generalizing start base with
  | nil => cases h
  | cons file files ih =>
      obtain ⟨name, commands⟩ := file
      rcases List.mem_cons.mp h with rfl | h
      · rcases List.mem_cons.mp h' with rfl | h'
        · rfl
        · have hle := le_start h'
          simp only at hk heq
          omega
      · rcases List.mem_cons.mp h' with rfl | h'
        · have hle := le_start h
          simp only at hk' heq
          omega
        · exact ih h h'

theorem file_of_part (h : part ∈ parts start base files) : (part.file, part.commands) ∈ files := by
  induction files generalizing start base with
  | nil => cases h
  | cons file files ih =>
      rcases List.mem_cons.mp h with rfl | h
      · exact List.mem_cons_self
      · exact List.mem_cons_of_mem _ (ih h)

theorem getElem?_rows (h : part ∈ parts 0 base files) {k : Nat} {c : Command}
    (hc : part.commands[k]? = some c) :
    (rows base files)[part.start + k]? = some (part.row k c) := by
  obtain ⟨n, hn, hrow⟩ := row_of_part h hc
  rwa [hn, Nat.zero_add]

theorem length_rows (base : Nat) (files : List SourceFile) :
    (rows base files).length = (files.map fun file => file.2.length).sum := by
  induction files generalizing base with
  | nil => rfl
  | cons file files ih => rw [rows, List.length_append, length_rowsFrom, ih, List.map_cons,
      List.sum_cons]

end Addresses

/-! ## Operations of commands -/

namespace Part

/-- An operand of a push or pop in a file. -/
structure Holds (part : Part) (segment : Segment) (index : UInt16) (location : Location) :
    Prop where
  located : location = locate part.base segment index
  static : segment = .static → location = .fixed (part.base + index.toNat) ∧
    part.base + index.toNat ∈ part.statics
  fixed : segment = .pointer ∨ segment = .temp →
    ∃ address ∈ Finset.Icc 3 12, location = .fixed address

/-- A target of a jump to a label is that label, in the same function if there is one. -/
structure JumpsTo (part : Part) (all : List Part) (k : Nat) (label : String) (target : Nat) :
    Prop where
  labelled : ∃ other ∈ all, ∃ j,
    target = other.start + j ∧ other.commands[j]? = some (.label label)
  inside : ∀ name entry, Within part.commands name entry k → ∃ j,
    target = part.start + j ∧ part.commands[j]? = some (.label label) ∧
      Within part.commands name entry j

end Part

/-- A target of a call is the function of that name, if there is one. -/
structure CallsTo (all : List Part) (name : String) (target : Target) : Prop where
  defined : ∀ other ∈ all, ∀ (j : Nat) (locals : UInt16),
    other.commands[j]? = some (.function name locals) → target = .function (other.start + j)
  begins : ∀ address, target = .function address → ∃ other ∈ all, ∃ j locals,
    address = other.start + j ∧ other.commands[j]? = some (.function name locals)

/-- The operation of a command of a file. -/
inductive Part.Performs (part : Part) (all : List Part) (k : Nat) : Command → Op → Prop
  | push {segment : Segment} {index : UInt16} {location : Location}
    (h : part.Holds segment index location) : Performs part all k (.push segment index)
      (.push location)
  | pop {segment : Segment} {index : UInt16} {location : Location}
    (h : part.Holds segment index location) : Performs part all k (.pop segment index)
      (.pop location)
  | arithmetic (op : Arithmetic) : Performs part all k (.arithmetic op) (.arithmetic op)
  | label (name : String) : Performs part all k (.label name) .skip
  | goto {name : String} {target : Nat} (h : part.JumpsTo all k name target) :
    Performs part all k (.goto name) (.jump target)
  | ifGoto {name : String} {target : Nat} (h : part.JumpsTo all k name target) :
    Performs part all k (.ifGoto name) (.jumpIf target)
  | function (name : String) (locals : UInt16) :
    Performs part all k (.function name locals) (.enter locals)
  | call {name : String} {target : Target} (h : CallsTo all name target) (arguments : UInt16) :
    Performs part all k (.call name arguments) (.call target arguments)
  | return : Performs part all k .return .return

section Operations

variable {base : Nat} {files : List SourceFile} {part : Part} {k : Nat} {d : Directory}

/-- A file begins a function where the directory finds it. -/
theorem functions_of_begin (hfinds : ({} : Directory).Finds (rows base files) d)
    (hpart : part ∈ parts 0 base files) {name : String} {locals : UInt16}
    (h : part.commands[k]? = some (.function name locals)) :
    d.functions[name]? = some (part.start + k) := by
  rw [hfinds.function _ _ name (getElem?_rows hpart h) rfl]
  exact congrArg some (Nat.zero_add _)

theorem jumpsTo_of_label (hlocates : d.Locates (rows base files))
    (hfinds : ({} : Directory).Finds (rows base files) d)
    (htop : ∀ file ∈ files, NoneAtTop file.2) (hpart : part ∈ parts 0 base files)
    {label : String} {target : Nat}
    (h : d.label (ownerOf part.commands k) label = .ok target) :
    part.JumpsTo (parts 0 base files) k label target := by
  have hlabel : d.labels[(ownerOf part.commands k, label)]? = some target := by
    unfold Directory.label at h
    split at h
    · rename_i address haddress
      cases h
      exact haddress
    · cases h
  obtain ⟨row, hrow, howner, hcommand⟩ := hlocates.labels _ _ _ hlabel
  obtain ⟨other, hother, j, c, hj, hc, rfl⟩ := exists_part_of_row 0 hrow
  rw [Nat.zero_add] at hj
  obtain rfl : c = .label label := hcommand
  refine ⟨⟨other, hother, j, hj, hc⟩, fun name entry hwithin => ?_⟩
  obtain ⟨locals, hbegins⟩ := hwithin.begins
  have hname : name ≠ topLevel :=
    htop _ (file_of_part hpart) name locals (List.mem_of_getElem? hbegins)
  obtain ⟨entry', hwithin'⟩ := exists_within (howner.trans hwithin.ownerOf_eq) hname
  obtain ⟨locals', hbegins'⟩ := hwithin'.begins
  -- Both functions have the same name, so they begin at the same address.
  have haddress : part.start + entry = other.start + entry' := by
    have hfound := functions_of_begin hfinds hpart hbegins
    rw [functions_of_begin hfinds hother hbegins'] at hfound
    exact (Option.some.inj hfound).symm
  obtain rfl : part = other := eq_of_address_eq hpart hother
    (List.getElem?_eq_some_iff.mp hbegins).1 (List.getElem?_eq_some_iff.mp hbegins').1 haddress
  obtain rfl : entry = entry' := Nat.add_left_cancel haddress
  exact ⟨j, hj, hc, hwithin'⟩

theorem callsTo_target (hlocates : d.Locates (rows base files))
    (hfinds : ({} : Directory).Finds (rows base files) d) (name : String) :
    CallsTo (parts 0 base files) name (d.target name) := by
  constructor
  · intro other hother j locals hj
    rw [Directory.target, functions_of_begin hfinds hother hj]
  · intro address haddress
    have hfunction : d.functions[name]? = some address := by
      unfold Directory.target at haddress
      split at haddress
      · rename_i entry _ hentry
        cases haddress
        exact hentry
      · cases haddress
      · cases haddress
    obtain ⟨row, locals, hrow, hcommand⟩ := hlocates.functions _ _ hfunction
    obtain ⟨other, hother, j, c, hj, hc, rfl⟩ := exists_part_of_row 0 hrow
    rw [Nat.zero_add] at hj
    obtain rfl : c = .function name locals := hcommand
    exact ⟨other, hother, j, locals, hj, hc⟩

theorem holds_locate (hpart : part ∈ parts 0 base files) (hroom : base + staticTotal files ≤ 256)
    {c : Command} (hc : c ∈ part.commands) {segment : Segment} {index : UInt16} {pops : Bool}
    (hstatic : segment = .static → staticsOf c = min (index.toNat + 1) 65535)
    (haccess : segment.violation? index pops = none) :
    part.Holds segment index (locate part.base segment index) := by
  refine ⟨rfl, ?_, ?_⟩
  · rintro rfl
    have hcount := staticsOf_le_staticCount hc
    have htotal : staticCount part.commands ≤ staticTotal files :=
      staticCount_le_staticTotal (file_of_part hpart)
    rw [hstatic rfl] at hcount
    refine ⟨rfl, Finset.mem_Ico.mpr ⟨Nat.le_add_right _ _, ?_⟩⟩
    omega
  · rintro (rfl | rfl)
    · have hindex : index.toNat ≤ 1 := by
        simpa [Segment.violation?, Segment.limit?] using haccess
      exact ⟨3 + index.toNat, Finset.mem_Icc.mpr (by omega), rfl⟩
    · have hindex : index.toNat ≤ 7 := by
        simpa [Segment.violation?, Segment.limit?] using haccess
      exact ⟨5 + index.toNat, Finset.mem_Icc.mpr (by omega), rfl⟩

theorem performs_of_resolve (hlocates : d.Locates (rows base files))
    (hfinds : ({} : Directory).Finds (rows base files) d)
    (htop : ∀ file ∈ files, NoneAtTop file.2) (hroom : base + staticTotal files ≤ 256)
    (hpart : part ∈ parts 0 base files) {c : Command} (hc : part.commands[k]? = some c)
    (haccess : c.violation? = none) {op : Op}
    (hop : resolve d part.base (ownerOf part.commands k) c = .ok op) :
    part.Performs (parts 0 base files) k c op := by
  have hmem := List.mem_of_getElem? hc
  cases c with
  | push segment index =>
      cases hop
      exact .push (holds_locate hpart hroom hmem (by rintro rfl; rfl) haccess)
  | pop segment index =>
      cases hop
      exact .pop (holds_locate hpart hroom hmem (by rintro rfl; rfl) haccess)
  | arithmetic op =>
      cases hop
      exact .arithmetic op
  | label name =>
      cases hop
      exact .label name
  | goto name =>
      obtain ⟨target, hlabel, rfl⟩ := exists_of_map hop
      exact .goto (jumpsTo_of_label hlocates hfinds htop hpart hlabel)
  | ifGoto name =>
      obtain ⟨target, hlabel, rfl⟩ := exists_of_map hop
      exact .ifGoto (jumpsTo_of_label hlocates hfinds htop hpart hlabel)
  | function name locals =>
      cases hop
      exact .function name locals
  | call name arguments =>
      cases hop
      exact .call (callsTo_target hlocates hfinds name) arguments
  | «return» =>
      cases hop
      exact .return

end Operations

/-- A program consists of files: it has their commands and no others. -/
structure Program.Consists (p : Program) (all : List Part) : Prop where
  size : p.size = (all.map fun part => part.commands.length).sum
  performs : ∀ part ∈ all, ∀ k c, part.commands[k]? = some c →
    ∃ i, p.instructions[part.start + k]? = some i ∧ part.Performs all k c i.op

theorem Program.consists_of_link {files : List SourceFile} {p : Program}
    (h : Program.link files = .ok p) (hwell : ∀ file ∈ files, ∀ c ∈ file.2, c.WellFormed) :
    p.Consists (parts 0 staticBase files) ∧
      ∀ part ∈ parts 0 staticBase files, part.statics ⊆ Finset.Ico staticBase staticEnd := by
  obtain ⟨d, hnoted, -, hresolves, htotal⟩ := Program.link_spec h
  have hlocates := Directory.locates_nil.addRows hnoted
  rw [List.nil_append] at hlocates
  have hparts (start base : Nat) (files : List SourceFile) :
      (parts start base files).map (fun part => part.commands.length) =
        files.map fun file => file.2.length := by
    induction files generalizing start base with
    | nil => rfl
    | cons file files ih => exact congrArg _ (ih _ _)
  refine ⟨⟨?_, fun part hpart k c hc => ?_⟩, fun part hpart => ?_⟩
  · rw [hparts, ← length_rows staticBase, hresolves.length_eq]
    rfl
  · have hwellFormed := hwell _ (file_of_part hpart) c (List.mem_of_getElem? hc)
    obtain ⟨i, hi, hop, -⟩ := exists_of_forall₂ hresolves (getElem?_rows hpart hc)
    rw [Array.getElem?_toList] at hi
    exact ⟨i, hi, performs_of_resolve hlocates (Directory.finds_of_addRows hnoted)
      (fun file hfile => noneAtTop_of_wellFormed (hwell file hfile)) htotal hpart hc
      hwellFormed.access hop⟩
  · exact (statics_subset hpart).trans (Finset.Ico_subset_Ico_right htotal)

end JackToolchain.Machine
