import JackToolchain.Proofs.Machine.CheckedRun
import JackToolchain.Proofs.Machine.Parts

/-!
# Links of the checked machine

Files that link for the running machine link for the checked one, to the same program with a table
of names. So no place is outside of its sequence in linking, and no address is too large.
-/

namespace JackToolchain.Machine

open JackToolchain.Stack

/-! ## The first pass -/

/-- A first pass notes what the directory does, with places for names. -/
structure Indexes (x : Checked.Index) (d : Directory) (noted : List Row) : Prop where
  functions : x.functions = d.functions
  size : x.owners.size = d.size
  owners : List.Forall₂ (fun i row => x.names[i]? = some row.owner) x.owners.toList noted
  top : x.names[0]? = some topLevel
  distinct : ∀ (i j : Nat) (name : String), x.names[i]? = some name → x.names[j]? = some name →
    i = j
  known : ∀ (i : Nat) (name : String), x.names[i]? = some name →
    i = 0 ∨ d.functions.contains name = true
  labels : ∀ (i : Nat) (owner name : String), x.names[i]? = some owner →
    x.labels[(i, name)]? = d.labels[(owner, name)]?
  places : ∀ (i : Nat) (name : String), x.labels[(i, name)]? ≠ none → i < x.names.size
  labelled : ∀ owner name : String, d.labels[(owner, name)]? ≠ none →
    ∃ i : Nat, x.names[i]? = some owner

section FirstPass

variable {x : Checked.Index} {d d' : Directory} {noted : List Row}

theorem indexes_nil : Indexes {} {} [] where
  functions := rfl
  size := rfl
  owners := .nil
  top := rfl
  distinct i j name hi hj := by
    have hone (k : Nat) (hk : (#[topLevel] : Array String)[k]? = some name) : k = 0 := by
      have hlt := (Array.getElem?_eq_some_iff.mp hk).1
      simpa using hlt
    rw [hone i hi, hone j hj]
  known i name hi := by
    have hlt := (Array.getElem?_eq_some_iff.mp hi).1
    exact .inl (by simpa using hlt)
  labels i owner name hi := by simp
  places i name hi := by simp at hi
  labelled owner name h := by simp at h

/-- The name of a new function is new to the table. -/
theorem Indexes.fresh (h : Indexes x d noted) {name : String} (hname : name ≠ topLevel)
    (hfresh : d.functions.contains name = false) (i : Nat) : x.names[i]? ≠ some name := by
  intro hi
  rcases h.known i name hi with rfl | hknown
  · rw [h.top] at hi
    exact hname (Option.some.inj hi).symm
  · rw [hfresh] at hknown
    cases hknown

theorem Indexes.addFunction (h : Indexes x d noted) {row : Row} {name : String}
    (howner : row.owner = name) (hname : name ≠ topLevel)
    (hfresh : d.functions.contains name = false) :
    Indexes { x with
        names := x.names.push name
        owners := x.owners.push x.names.size
        functions := x.functions.insert name x.owners.size }
      { d with functions := d.functions.insert name d.size, size := d.size + 1 }
      (noted ++ [row]) := by
  have hlast : (x.names.push name)[x.names.size]? = some name := by simp
  have hkept {i : Nat} {other : String} (hi : x.names[i]? = some other) :
      (x.names.push name)[i]? = some other := by
    have hlt := (Array.getElem?_eq_some_iff.mp hi).1
    rw [Array.getElem?_push, if_neg (Nat.ne_of_lt hlt), hi]
  have hcases {i : Nat} {other : String} (hi : (x.names.push name)[i]? = some other) :
      i = x.names.size ∧ name = other ∨ x.names[i]? = some other := by
    rw [Array.getElem?_push] at hi
    split at hi
    · exact .inl ⟨by assumption, Option.some.inj hi⟩
    · exact .inr hi
  have hnew := h.fresh hname hfresh
  constructor
  · simp only [h.functions, h.size]
  · simp [h.size]
  · rw [Array.toList_push]
    refine List.rel_append (h.owners.imp fun i row hi => hkept hi) (.cons ?_ .nil)
    rw [howner, hlast]
  · exact hkept h.top
  · intro i j other hi hj
    rcases hcases hi with ⟨rfl, rfl⟩ | hi
    · rcases hcases hj with ⟨rfl, -⟩ | hj
      · rfl
      · exact absurd hj (hnew j)
    · rcases hcases hj with ⟨rfl, rfl⟩ | hj
      · exact absurd hi (hnew i)
      · exact h.distinct i j other hi hj
  · intro i other hi
    rcases hcases hi with ⟨-, rfl⟩ | hi
    · exact .inr (by simp)
    · rcases h.known i other hi with rfl | hknown
      · exact .inl rfl
      · exact .inr (by simp [hknown])
  · intro i owner other hi
    rcases hcases hi with ⟨rfl, rfl⟩ | hi
    · have hleft : x.labels[(x.names.size, other)]? = none := by
        by_contra hsome
        exact absurd (h.places _ _ hsome) (Nat.lt_irrefl _)
      have hright : d.labels[(name, other)]? = none := by
        by_contra hsome
        obtain ⟨j, hj⟩ := h.labelled _ _ hsome
        exact hnew j hj
      exact hleft.trans hright.symm
    · exact h.labels i owner other hi
  · intro i other hi
    exact (h.places i other hi).trans_le (by simp)
  · intro owner other hother
    obtain ⟨i, hi⟩ := h.labelled owner other hother
    exact ⟨i, hkept hi⟩

theorem Indexes.addLabel (h : Indexes x d noted) (row : Row) {i : Nat}
    (hi : x.names[i]? = some row.owner) (name : String) :
    Indexes { x with
        owners := x.owners.push i
        labels := x.labels.insert (i, name) x.owners.size }
      { d with labels := d.labels.insert (row.owner, name) d.size, size := d.size + 1 }
      (noted ++ [row]) := by
  have hlt := (Array.getElem?_eq_some_iff.mp hi).1
  refine ⟨h.functions, by simp [h.size], ?_, h.top, h.distinct, h.known, ?_, ?_, ?_⟩
  · rw [Array.toList_push]
    exact List.rel_append h.owners (.cons hi .nil)
  · intro j owner other hj
    have hsame : (i, name) = (j, other) ↔ (row.owner, name) = (owner, other) := by
      constructor
      · rintro ⟨rfl, rfl⟩
        rw [hi] at hj
        rw [Option.some.inj hj]
      · rintro ⟨rfl, rfl⟩
        rw [h.distinct i j row.owner hi hj]
    simp only [Std.HashMap.getElem?_insert, beq_iff_eq, hsame, h.labels j owner other hj, h.size]
  · intro j other hj
    simp only [Std.HashMap.getElem?_insert, beq_iff_eq] at hj
    split at hj
    · rename_i heq
      cases heq
      exact hlt
    · exact h.places j other hj
  · intro owner other hother
    simp only [Std.HashMap.getElem?_insert, beq_iff_eq] at hother
    split at hother
    · rename_i heq
      cases heq
      exact ⟨i, hi⟩
    · exact h.labelled owner other hother

theorem Indexes.addOther (h : Indexes x d noted) (row : Row) {i : Nat}
    (hi : x.names[i]? = some row.owner) :
    Indexes { x with owners := x.owners.push i } { d with size := d.size + 1 }
      (noted ++ [row]) := by
  refine ⟨h.functions, by simp [h.size], ?_, h.top, h.distinct, h.known, h.labels, h.places,
    h.labelled⟩
  rw [Array.toList_push]
  exact List.rel_append h.owners (.cons hi .nil)

theorem Indexes.add (h : Indexes x d noted) {row : Row} {owner : String} {i : Nat}
    (hi : x.names[i]? = some owner) (hrow : row.owner = ownerAfter owner row.command)
    (hname : ∀ name locals, row.command = .function name locals → name ≠ topLevel)
    (hadd : d.add row.owner row.command = .ok d') :
    ∃ i' x', x.add i row.command = .ok (i', x') ∧ Indexes x' d' (noted ++ [row]) ∧
      x'.names[i']? = some row.owner := by
  obtain ⟨file, base, rowOwner, command⟩ := row
  simp only at hrow hname hadd ⊢
  cases command with
  | function name locals =>
      simp only [Directory.add] at hadd
      split at hadd
      · cases hadd
      · rename_i hfresh
        cases hadd
        rw [← h.functions] at hfresh
        refine ⟨_, _, if_neg hfresh, ?_, ?_⟩
        · rw [h.functions, Bool.not_eq_true] at hfresh
          exact h.addFunction hrow (hname name locals rfl) hfresh
        · rw [hrow]
          simp [ownerAfter]
  | label name =>
      cases hadd
      have howner := hi.trans (congrArg some hrow.symm)
      exact ⟨_, _, rfl, h.addLabel ⟨file, base, rowOwner, .label name⟩ howner name, howner⟩
  | _ =>
      cases hadd
      have howner := hi.trans (congrArg some hrow.symm)
      exact ⟨_, _, rfl, h.addOther ⟨file, base, rowOwner, _⟩ howner, howner⟩

theorem Indexes.addCommands (h : Indexes x d noted) {file owner : String} {base i : Nat}
    {commands : List Command} (hi : x.names[i]? = some owner) (hnames : NoneAtTop commands)
    (hadd : d.addRows (rowsFrom file base owner commands) = .ok d') :
    ∃ x', x.addCommands i commands = .ok x' ∧
      Indexes x' d' (noted ++ rowsFrom file base owner commands) := by
  induction commands generalizing x d noted owner i with
  | nil =>
      cases hadd
      exact ⟨x, rfl, by simpa [rowsFrom] using h⟩
  | cons command rest ih =>
      rw [rowsFrom, Directory.addRows, List.foldlM_cons] at hadd
      obtain ⟨mid, hfirst, hrest⟩ := exists_of_bind hadd
      obtain ⟨i', x', hx', hindexes, hi'⟩ := h.add hi rfl
        (fun name locals hcommand => hnames name locals (hcommand ▸ List.mem_cons_self)) hfirst
      obtain ⟨x'', hx'', hall⟩ := ih hindexes hi'
        (fun name locals hmem => hnames name locals (List.mem_cons_of_mem _ hmem)) hrest
      refine ⟨x'', ?_, by simpa [rowsFrom] using hall⟩
      rw [Checked.Index.addCommands, show x.add i command = .ok (i', x') from hx']
      exact hx''

theorem Indexes.addFiles (h : Indexes x d noted) {base : Nat} {files : List SourceFile}
    (hnames : ∀ file ∈ files, NoneAtTop file.2) (hadd : d.addRows (rows base files) = .ok d') :
    ∃ x', x.addFiles files = .ok x' ∧ Indexes x' d' (noted ++ rows base files) := by
  induction files generalizing x d noted base with
  | nil =>
      cases hadd
      exact ⟨x, rfl, by simpa [rows] using h⟩
  | cons file files ih =>
      obtain ⟨name, commands⟩ := file
      obtain ⟨hfirst, hrest⟩ := List.forall_mem_cons.mp hnames
      rw [rows, Directory.addRows_append] at hadd
      obtain ⟨mid, hcommands, hfiles⟩ := exists_of_bind hadd
      obtain ⟨x', hx', hindexes⟩ := h.addCommands h.top hfirst hcommands
      obtain ⟨x'', hx'', hall⟩ := ih hindexes hrest hfiles
      refine ⟨x'', ?_, by simpa [rows] using hall⟩
      rw [Checked.Index.addFiles, hx']
      exact hx''

end FirstPass

/-! ## The second pass -/

/-- Names keep their places in a table. -/
def Extends (names names' : Array String) : Prop :=
  ∀ (i : Nat) (name : String), names[i]? = some name → names'[i]? = some name

theorem extends_push (names : Array String) (name : String) :
    Extends names (names.push name) := by
  intro i other hi
  have hlt := (Array.getElem?_eq_some_iff.mp hi).1
  rw [Array.getElem?_push, if_neg (Nat.ne_of_lt hlt), hi]

theorem InstructionNamed.extend {names names' : Array String} {i : Checked.Instruction}
    {j : Instruction} (h : InstructionNamed names i j) (hnames : Extends names names') :
    InstructionNamed names' i j := by
  obtain ⟨op, owner⟩ := i
  obtain ⟨op', owner'⟩ := j
  obtain ⟨hop, howner⟩ := h
  refine ⟨?_, hnames _ _ howner⟩
  cases hop with
  | call htarget arguments =>
      cases htarget with
      | function entry => exact .call (.function entry) _
      | host routine => exact .call (.host routine) _
      | undefined hname => exact .call (.undefined (hnames _ _ hname)) _
  | push location => exact .push location
  | pop location => exact .pop location
  | arithmetic op => exact .arithmetic op
  | skip => exact .skip
  | jump target => exact .jump target
  | jumpIf target => exact .jumpIf target
  | enter locals => exact .enter locals
  | «return» => exact .return

theorem sum_eq {a b : UInt16} (h : a.toNat + b.toNat < 65536) : Checked.sum a b = .ok (a + b) :=
  if_pos h

theorem toNat_saturatingSum (a b : UInt16) :
    (Checked.saturatingSum a b).toNat = min (a.toNat + b.toNat) 65535 := by
  rw [Checked.saturatingSum, Nat.toUInt16_eq, UInt16.toNat_ofNat']
  omega

theorem toNat_staticsOf (command : Command) :
    (Checked.staticsOf command).toNat = staticsOf command := by
  cases command with
  | push segment index =>
      cases segment with
      | static => exact toNat_saturatingSum index 1
      | _ => rfl
  | pop segment index =>
      cases segment with
      | static => exact toNat_saturatingSum index 1
      | _ => rfl
  | _ => rfl

theorem toNat_staticCount (commands : List Command) :
    (Checked.staticCount commands).toNat = staticCount commands := by
  have hfold (n : UInt16) : (commands.foldl (fun n c => max n (Checked.staticsOf c)) n).toNat =
      commands.foldl (fun n c => max n (staticsOf c)) n.toNat := by
    induction commands generalizing n with
    | nil => rfl
    | cons command rest ih =>
        have hmax (a b : UInt16) : (max a b).toNat = max a.toNat b.toNat := by
          simp only [UInt16.max_def, Nat.max_def, apply_ite UInt16.toNat, UInt16.le_iff_toNat_le]
        rw [List.foldl_cons, List.foldl_cons, ih, hmax, toNat_staticsOf]
  exact hfold 0

section SecondPass

variable {x : Checked.Index} {d : Directory} {noted : List Row} {names : Array String}
  {base : UInt16} {i : Nat}

/-- An access to a segment has an address that fits. -/
theorem locate_checked {segment : Segment} {index : UInt16} {pops : Bool}
    (hstatic : segment = .static → base.toNat + index.toNat < 65536)
    (h : segment.violation? index pops = none) :
    Checked.locate base segment index = .ok (locate base.toNat segment index) := by
  cases segment with
  | static =>
      have hsum := hstatic rfl
      rw [Checked.locate, sum_eq hsum]
      simp only [locate, bind, Except.bind, pure, Except.pure, UInt16.toNat_add,
        Nat.mod_eq_of_lt hsum]
  | temp =>
      have hindex : index.toNat ≤ 7 := by
        simpa [Segment.violation?, Segment.limit?] using h
      have hsum : (5 : UInt16).toNat + index.toNat < 65536 := by
        rw [show (5 : UInt16).toNat = 5 from rfl]
        omega
      rw [Checked.locate, sum_eq hsum]
      simp only [locate, bind, Except.bind, pure, Except.pure, UInt16.toNat_add,
        Nat.mod_eq_of_lt hsum]
      rfl
  | _ => rfl

theorem Indexes.label (h : Indexes x d noted) {i target : Nat} {owner name : String}
    (howner : x.names[i]? = some owner) (hlabel : d.label owner name = .ok target) :
    x.label names i name = .ok target := by
  rw [Directory.label, ← h.labels i owner name howner] at hlabel
  rw [Checked.Index.label]
  cases haddress : x.labels[(i, name)]? with
  | none =>
      rw [haddress] at hlabel
      cases hlabel
  | some address =>
      rw [haddress] at hlabel
      cases hlabel
      rfl

theorem Indexes.target (h : Indexes x d noted) (names : Array String) (base : UInt16) (i : Nat)
    (name : String) (arguments : UInt16) :
    ∃ target names', Checked.resolve x names base i (.call name arguments) =
        .ok (.call target arguments, names') ∧
      Extends names names' ∧ TargetNamed names' target (d.target name) := by
  rw [Checked.resolve, Directory.target, h.functions]
  cases d.functions[name]? with
  | some entry => exact ⟨_, _, rfl, fun _ _ hi => hi, .function entry⟩
  | none =>
      cases Routine.ofName? name with
      | some routine => exact ⟨_, _, rfl, fun _ _ hi => hi, .host routine⟩
      | none => exact ⟨_, _, rfl, extends_push names name, .undefined (by simp)⟩

/-- A command has its operation, with the names it needs. -/
theorem resolve_checked (h : Indexes x d noted) (names : Array String) {i : Nat} {owner : String}
    (howner : x.names[i]? = some owner) {command : Command} {op : Op}
    (haccess : command.violation? = none) (hstatic : base.toNat + staticsOf command ≤ staticEnd)
    (hop : resolve d base.toNat owner command = .ok op) :
    ∃ op' names', Checked.resolve x names base i command = .ok (op', names') ∧
      Extends names names' ∧ OpNamed names' op' op := by
  have hsame : Extends names names := fun _ _ hi => hi
  have hend : staticEnd = 256 := rfl
  have hfits (index : UInt16) (hindex : min (index.toNat + 1) 65535 ≤ staticsOf command) :
      base.toNat + index.toNat < 65536 := by
    omega
  cases command with
  | push segment index =>
      cases hop
      have hlocate : Checked.locate base segment index = .ok (locate base.toNat segment index) :=
        locate_checked (fun hsegment => hfits index (by rw [hsegment]; exact le_refl _)) haccess
      refine ⟨_, names, ?_, hsame, .push _⟩
      simp only [Checked.resolve, hlocate]
      rfl
  | pop segment index =>
      cases hop
      have hlocate : Checked.locate base segment index = .ok (locate base.toNat segment index) :=
        locate_checked (fun hsegment => hfits index (by rw [hsegment]; exact le_refl _)) haccess
      refine ⟨_, names, ?_, hsame, .pop _⟩
      simp only [Checked.resolve, hlocate]
      rfl
  | arithmetic op =>
      cases hop
      exact ⟨_, names, rfl, hsame, .arithmetic op⟩
  | label name =>
      cases hop
      exact ⟨_, names, rfl, hsame, .skip⟩
  | goto name =>
      obtain ⟨target, hlabel, rfl⟩ := exists_of_map hop
      refine ⟨_, names, ?_, hsame, .jump target⟩
      simp only [Checked.resolve, h.label howner hlabel]
      rfl
  | ifGoto name =>
      obtain ⟨target, hlabel, rfl⟩ := exists_of_map hop
      refine ⟨_, names, ?_, hsame, .jumpIf target⟩
      simp only [Checked.resolve, h.label howner hlabel]
      rfl
  | function name locals =>
      cases hop
      exact ⟨_, names, rfl, hsame, .enter locals⟩
  | call name arguments =>
      cases hop
      obtain ⟨target, names', hresolve, hextends, htarget⟩ := h.target names base i name
        arguments
      exact ⟨_, names', hresolve, hextends, .call htarget arguments⟩
  | «return» =>
      cases hop
      exact ⟨_, names, rfl, hsame, .return⟩

theorem linkCommands_checked (h : Indexes x d noted) (done : Checked.Linked)
    {file owner : String} {commands : List Command} {front back : List Row}
    {new : List Instruction}
    (hnoted : noted = front ++ (rowsFrom file base.toNat owner commands ++ back))
    (hsize : done.instructions.size = front.length) (hnames : Extends x.names done.names)
    (haccess : ∀ c ∈ commands, c.violation? = none)
    (hstatic : ∀ c ∈ commands, base.toNat + staticsOf c ≤ staticEnd)
    (hnew : List.Forall₂ (Resolves d) (rowsFrom file base.toNat owner commands) new) :
    ∃ done' added, Checked.linkCommands x base done commands = .ok done' ∧
      done'.instructions.toList = done.instructions.toList ++ added ∧
      Extends done.names done'.names ∧ List.Forall₂ (InstructionNamed done'.names) added new := by
  induction commands generalizing owner front done new with
  | nil =>
      cases hnew
      exact ⟨done, [], rfl, by simp, fun _ _ hi => hi, .nil⟩
  | cons command rest ih =>
      obtain ⟨hfirst, haccess⟩ := List.forall_mem_cons.mp haccess
      obtain ⟨hfits, hstatic⟩ := List.forall_mem_cons.mp hstatic
      rw [rowsFrom, List.cons_append] at hnoted
      cases hnew with
      | @cons row instruction _ new hresolves hnew =>
          obtain ⟨hop, howner⟩ := hresolves
          have hrow : noted[front.length]? =
              some ⟨file, base.toNat, ownerAfter owner command, command⟩ := by
            rw [hnoted]
            simp
          obtain ⟨i, hi, hname⟩ := exists_of_forall₂ h.owners.flip hrow
          rw [Array.getElem?_toList, ← hsize] at hi
          obtain ⟨op', names', hresolve, hextends, hnamed⟩ :=
            resolve_checked h done.names hname hfirst hfits hop
          have hnoted' : noted = front ++ [⟨file, base.toNat, ownerAfter owner command, command⟩] ++
              (rowsFrom file base.toNat (ownerAfter owner command) rest ++ back) := by
            simp [hnoted]
          have hnames' : Extends x.names names' := fun j other hj =>
            hextends j other (hnames j other hj)
          obtain ⟨done', added, hlinked, hlist, hkept, hall⟩ :=
            ih ⟨done.instructions.push ⟨op', i⟩, names'⟩ hnoted' (by simp [hsize]) hnames' haccess
              hstatic hnew
          refine ⟨done', ⟨op', i⟩ :: added, ?_, by simp [hlist],
            fun j other hj => hkept j other (hextends j other hj), .cons ?_ hall⟩
          · simp only [Checked.linkCommands, Checked.item, hi, bind, Except.bind, hresolve]
            exact hlinked
          · refine InstructionNamed.extend ⟨hnamed, ?_⟩ hkept
            rw [howner]
            exact hextends i _ (hnames i _ hname)

theorem linkFiles_checked (h : Indexes x d noted) (done : Checked.Linked)
    {files : List SourceFile} {front : List Row} {new : List Instruction}
    (hnoted : noted = front ++ rows base.toNat files)
    (hsize : done.instructions.size = front.length) (hnames : Extends x.names done.names)
    (haccess : ∀ file ∈ files, ∀ c ∈ file.2, c.violation? = none)
    (htotal : base.toNat + staticTotal files ≤ staticEnd)
    (hnew : List.Forall₂ (Resolves d) (rows base.toNat files) new) :
    ∃ done' added, Checked.linkFiles x base done files = .ok done' ∧
      done'.instructions.toList = done.instructions.toList ++ added ∧
      Extends done.names done'.names ∧ List.Forall₂ (InstructionNamed done'.names) added new := by
  induction files generalizing base front done new with
  | nil =>
      cases hnew
      exact ⟨done, [], rfl, by simp, fun _ _ hi => hi, .nil⟩
  | cons file files ih =>
      obtain ⟨name, commands⟩ := file
      obtain ⟨hfirst, haccess⟩ := List.forall_mem_cons.mp haccess
      rw [staticTotal] at htotal
      rw [rows] at hnoted hnew
      have hcommands := (List.forall₂_take_append _ _ _ hnew.flip).flip
      have hfiles := (List.forall₂_drop_append _ _ _ hnew.flip).flip
      have hstatic : ∀ c ∈ commands, base.toNat + staticsOf c ≤ staticEnd := fun c hc =>
        (Nat.add_le_add_left (staticsOf_le_staticCount hc) _).trans (by omega)
      obtain ⟨mid, added, hmid, hlist, hkept, hnamed⟩ :=
        linkCommands_checked h done hnoted hsize hnames hfirst hstatic hcommands
      have hend : staticEnd = 256 := rfl
      have hnext : (Checked.saturatingSum base (Checked.staticCount commands)).toNat =
          base.toNat + staticCount commands := by
        rw [toNat_saturatingSum, toNat_staticCount]
        omega
      rw [← List.append_assoc, ← hnext] at hnoted
      have hlength : mid.instructions.size =
          (front ++ rowsFrom name base.toNat topLevel commands).length := by
        rw [← Array.length_toList, hlist, List.length_append, List.length_append,
          Array.length_toList, hsize, hnamed.length_eq, ← hcommands.length_eq]
      rw [← hnext] at hfiles
      obtain ⟨done', added', hdone, hlist', hkept', hnamed'⟩ := ih mid hnoted hlength
        (fun i other hi => hkept i other (hnames i other hi)) haccess (by omega) hfiles
      refine ⟨done', added ++ added', ?_, by simp [hlist, hlist'],
        fun i other hi => hkept' i other (hkept i other hi), ?_⟩
      · have hfits :
            ¬(256 : UInt16) < Checked.saturatingSum base (Checked.staticCount commands) := by
          rw [UInt16.lt_iff_toNat_lt, hnext]
          exact Nat.not_lt.mpr ((Nat.add_le_add_left (Nat.le_add_right _ _) _).trans htotal)
        simp only [Checked.linkFiles, if_neg hfits, hmid, bind, Except.bind]
        exact hdone
      · rw [← List.take_append_drop (rowsFrom name base.toNat topLevel commands).length new]
        exact List.rel_append (hnamed.imp fun _ _ hi => hi.extend hkept') hnamed'

end SecondPass

/-- What links for the running machine links for the checked one. -/
theorem link_checked {files : List SourceFile} {p : Program} (h : Program.link files = .ok p)
    (hwell : ∀ file ∈ files, ∀ c ∈ file.2, c.WellFormed) :
    ∃ P, Checked.Program.link files = .ok P ∧ ProgramNamed P p := by
  obtain ⟨d, hnoted, hfunctions, hresolves, htotal⟩ := Program.link_spec h
  have hnames : ∀ file ∈ files, NoneAtTop file.2 := fun file hfile =>
    noneAtTop_of_wellFormed (hwell file hfile)
  obtain ⟨x, hx, hindexes⟩ := indexes_nil.addFiles hnames hnoted
  have hrows : [] ++ rows staticBase files = [] ++ rows (16 : UInt16).toNat files := rfl
  obtain ⟨done, added, hdone, hlist, -, hnamed⟩ := linkFiles_checked hindexes ⟨#[], x.names⟩ hrows
    rfl (fun _ _ hi => hi)
    (fun file hfile c hc => (hwell file hfile c hc).access) htotal hresolves
  refine ⟨{ done with functions := x.functions }, ?_, ?_, ?_⟩
  · simp only [Checked.Program.link, hx, bind, Except.bind, hdone]
    rfl
  · rw [hlist]
    exact hnamed
  · rw [hfunctions]
    exact hindexes.functions

end JackToolchain.Machine
