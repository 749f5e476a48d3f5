import JackToolchain.Proofs.Lowering.Accesses
import JackToolchain.Proofs.Lowering.Jumps
import JackToolchain.Proofs.Machine.Resolution

/-!
# Where the jumps of compiled classes lead

Classes whose functions have different names are linked, if their static variables have room. Each
jump then goes to the label that its own statement has put into the block.
-/

namespace JackToolchain.Machine

open JackToolchain.Stack JackToolchain.Stack.Expander JackToolchain.Lowering JackToolchain.Syntax

/-! ## Blocks of classes -/

section Blocks

variable {tree : ClassTree} {s : Subroutine} {labels : Labels} {body commands : List Command}

/-- The block of a subroutine begins one function, and jumps to its own labels. -/
theorem isFunction_of_yieldsBlock (h : YieldsBlock tree labels s (openingOf tree s) body) :
    IsFunction tree.name s.name (blockOf tree s (openingOf tree s) body) := by
  have hplain := plain_opening tree s
  have hinto := jumpsInto_statements _ _ _ h.body
  obtain ⟨marks, hmarks⟩ := marked_statements _ _ _ h.body
  have hlabels : labelsIn (openingOf tree s ++ body) = marks.map Mark.text := by
    rw [labelsIn_append, labelsIn_plain hplain, hmarks.labels, List.nil_append]
  refine ⟨_, _, rfl, fun d hd => ?_, ?_, ?_⟩
  · cases d with
    | function name locals => cases h.isBlockOf.single _ hd
    | label name =>
        have hname : name ∈ labelsIn (openingOf tree s ++ body) :=
          List.mem_filterMap.mpr ⟨_, hd, rfl⟩
        rw [hlabels] at hname
        obtain ⟨m, -, rfl⟩ := List.mem_map.mp hname
        exact ⟨m, rfl⟩
    | _ => trivial
  · rw [labelsIn_append, labelsIn_plain hplain]
    exact hmarks.nodup_labelsIn
  · rw [jumpsInto_append_iff]
    exact ⟨jumpsInto_of_straight (fun d hd => (hplain d hd).1) _,
      hinto.mono (List.subset_append_right ..)⟩

theorem forall₂_isFunction {ss : List Subroutine} {blocks : List (List Command)}
    (h : YieldsBlocks tree labels ss blocks) :
    List.Forall₂ (fun s block => IsFunction tree.name s.name block) ss blocks := by
  refine h.forall₂.imp ?_
  rintro s _ ⟨labels, body, hyields, rfl⟩
  exact isFunction_of_yieldsBlock hyields

/-- A function of a class among its others. -/
structure Among (tree : ClassTree) (s : Subroutine) (block : List Command)
    (commands front : List Command) (others : List (List Command)) : Prop where
  split : commands = front ++ (block ++ others.flatten)
  function : IsFunction tree.name s.name block
  others : ∀ other ∈ others, ∃ f, IsFunction tree.name f other

theorem exists_among (h : (lowerClass tree).result = .ok commands) (hs : s ∈ tree.subroutines) :
    ∃ labels body front others, YieldsBlock tree labels s (openingOf tree s) body ∧
      Among tree s (blockOf tree s (openingOf tree s) body) commands front others := by
  obtain ⟨blocks, hblocks, rfl⟩ := yields_of_lowerClass h
  obtain ⟨block, hblock, labels, body, hyields, rfl⟩ := exists_right_of_forall₂ hblocks.forall₂ hs
  obtain ⟨front, others, rfl⟩ := List.append_of_mem hblock
  refine ⟨labels, body, front.flatten, others, hyields, by simp, isFunction_of_yieldsBlock hyields,
    fun other hother => ?_⟩
  obtain ⟨s', -, hfunction⟩ := exists_left_of_forall₂ (forall₂_isFunction hblocks)
    (List.mem_append_right front (List.mem_cons_of_mem _ hother))
  exact ⟨s'.name, hfunction⟩

/-- A command of a class is in a function of it. -/
theorem exists_among_of_getElem? (h : (lowerClass tree).result = .ok commands) {k : Nat}
    {c : Command} (hc : commands[k]? = some c) :
    ∃ s ∈ tree.subroutines, ∃ block front others i, Among tree s block commands front others ∧
      k = front.length + i ∧ block[i]? = some c := by
  obtain ⟨blocks, hblocks, rfl⟩ := yields_of_lowerClass h
  have hfunctions := forall₂_isFunction hblocks
  clear h hblocks
  generalize tree.subroutines = ss at hfunctions
  induction hfunctions generalizing k with
  | nil => cases hc
  | @cons s block ss others first rest ih =>
      rw [List.flatten_cons] at hc
      by_cases hk : k < block.length
      · rw [List.getElem?_append_left hk] at hc
        refine ⟨s, List.mem_cons_self, block, [], others, k, ⟨rfl, first, fun other hother => ?_⟩,
          (Nat.zero_add k).symm, hc⟩
        obtain ⟨s', -, hfunction⟩ := exists_left_of_forall₂ rest hother
        exact ⟨s'.name, hfunction⟩
      · obtain ⟨n, rfl⟩ := Nat.exists_eq_add_of_le (Nat.le_of_not_lt hk)
        rw [List.getElem?_append_right (Nat.le_add_right ..), Nat.add_sub_cancel_left] at hc
        obtain ⟨s', hs', block', front, others', i, hamong, rfl, hi⟩ := ih hc
        refine ⟨s', List.mem_cons_of_mem _ hs', block', block ++ front, others', i,
          ⟨?_, hamong.function, hamong.others⟩, ?_, hi⟩
        · rw [List.flatten_cons, hamong.split, List.append_assoc]
        · rw [List.length_append, Nat.add_assoc]

/-- The function around a command of a class. -/
theorem Among.ownerOf_eq {block front : List Command} {others : List (List Command)} {i : Nat}
    (h : Among tree s block commands front others) (hi : i < block.length) :
    ownerOf commands (front.length + i) = fullName tree.name s.name := by
  rw [h.split]
  exact (h.function.within front others.flatten hi).ownerOf_eq

theorem noneAtTop_of_lowerClass (h : (lowerClass tree).result = .ok commands) :
    NoneAtTop commands := by
  intro name locals hmem htop
  obtain ⟨k, hk⟩ := List.mem_iff_getElem?.mp hmem
  obtain ⟨s, -, block, front, others, i, hamong, -, hi⟩ := exists_among_of_getElem? h hk
  have hname := hamong.function.name_eq (List.mem_of_getElem? hi)
  have hdot : '.' ∈ topLevel.toList := by
    rw [← htop, hname, toList_fullName]
    simp
  exact absurd hdot (by decide)

end Blocks

/-! ## Jumps in a program -/

theorem exists_label_of_jump {c f name : String} {block : List Command} (h : IsFunction c f block)
    {i : Nat} {x : Command} (hx : block[i]? = some x) (hname : targetOf? x = some name) :
    ∃ j : Nat, block[j]? = some (.label name) := by
  obtain ⟨locals, inner, rfl, -, -, hinto⟩ := h.parts
  rcases List.mem_cons.mp (List.mem_of_getElem? hx) with rfl | hmem
  · cases hname
  · exact List.mem_iff_getElem?.mp (List.mem_cons_of_mem _ (hinto x hmem name hname))

/-- Every command of compiled classes can be resolved. -/
theorem exists_resolve {base : Nat} {files : List SourceFile} {d : Directory}
    (hlowered : ∀ file ∈ files, ∃ tree, (lowerClass tree).result = .ok file.2)
    (hlabels : ∀ key ∈ (rows base files).filterMap Row.label?, ∃ i, d.labels[key]? = some i) :
    ∀ row ∈ rows base files, ∃ op, resolve d row.base row.owner row.command = .ok op := by
  intro row hrow
  obtain ⟨n, hn⟩ := List.mem_iff_getElem?.mp hrow
  obtain ⟨part, hpart, k, c, -, hc, rfl⟩ := exists_part_of_row 0 hn
  have hjump (name : String) (hname : targetOf? c = some name) :
      ∃ target, d.label (ownerOf part.commands k) name = .ok target := by
    obtain ⟨tree, htree⟩ : ∃ tree, (lowerClass tree).result = .ok part.commands :=
      hlowered _ (file_of_part hpart)
    obtain ⟨s, -, block, front, others, i, hamong, rfl, hi⟩ := exists_among_of_getElem? htree hc
    obtain ⟨j, hj⟩ := exists_label_of_jump hamong.function hi hname
    have howner := hamong.ownerOf_eq (List.getElem?_eq_some_iff.mp hi).1
    have hlt := (List.getElem?_eq_some_iff.mp hj).1
    have hlabel : part.commands[front.length + j]? = some (.label name) := by
      rw [hamong.split]
      exact (IsFunction.getElem?_among front _ hlt).trans hj
    have hkey : (ownerOf part.commands (front.length + i), name) ∈
        (rows base files).filterMap Row.label? := by
      refine List.mem_filterMap.mpr ⟨_, List.mem_of_getElem? (getElem?_rows hpart hlabel), ?_⟩
      rw [howner, ← hamong.ownerOf_eq hlt]
      rfl
    obtain ⟨target, htarget⟩ := hlabels _ hkey
    exact ⟨target, by rw [Directory.label, htarget]⟩
  simp only [Part.row]
  cases c with
  | goto name =>
      obtain ⟨target, htarget⟩ := hjump name rfl
      exact ⟨.jump target, by rw [resolve, htarget]; rfl⟩
  | ifGoto name =>
      obtain ⟨target, htarget⟩ := hjump name rfl
      exact ⟨.jumpIf target, by rw [resolve, htarget]; rfl⟩
  | _ => exact ⟨_, rfl⟩

/-- Compiled classes are linked unless static variables find no room. -/
theorem eq_staticOverflow_of_link {files : List SourceFile}
    (hlowered : ∀ file ∈ files, ∃ tree, (lowerClass tree).result = .ok file.2)
    (hnodup : (files.flatMap fun file => functionsIn file.2).Nodup) {e : LinkError}
    (h : Program.link files = .error e) : ∃ file ∈ files, e = .staticOverflow file.1 := by
  rw [← filterMap_function?_rows staticBase] at hnodup
  obtain ⟨d, hd⟩ := Directory.exists_addRows (d := {}) hnodup (by simp)
  have hresolve := exists_resolve hlowered fun _ => Directory.exists_label_of_addRows hd
  unfold Program.link at h
  rw [Directory.addRows_rows {} staticBase files, hd] at h
  cases hlinked : linkFiles d staticBase #[] files with
  | error e' =>
      obtain ⟨file, hfile, rfl⟩ := linkFiles_eq_error hresolve hlinked
      simp only [bind, Except.bind, hlinked] at h
      cases h
      exact ⟨file, hfile, rfl⟩
  | ok instructions =>
      simp only [bind, Except.bind, hlinked] at h
      cases h

/-- What a jump of a block becomes. -/
def jumpTo : Command → Nat → Op
  | .goto _, target => .jump target
  | _, target => .jumpIf target

/-- The jumps of a subroutine in a program that has its block from an address on. Each of them is
made by a statement of the subroutine, and goes to the label that this statement has put there. -/
structure JumpsOf (p : Program) (tree : ClassTree) (s : Subroutine) (entry : Nat)
    (block : List Command) : Prop where
  functions : p.functions[fullName tree.name s.name]? = some entry
  shape : ∃ labels body, YieldsBlock tree labels s (openingOf tree s) body ∧
    block = blockOf tree s (openingOf tree s) body
  jumps : ∀ k c name, block[k]? = some c → targetOf? c = some name →
    ∃ j, Leads (contextOf tree s) (Statement.partsOfAll s.body) block k j ∧
      block[j]? = some (.label name) ∧
      p.instructions[entry + k]? = some ⟨jumpTo c (entry + j), fullName tree.name s.name⟩

theorem exists_jumpsOf {files : List SourceFile} {p : Program} {tree : ClassTree} {s : Subroutine}
    {file : SourceFile} (hnamed : ∀ file ∈ files, NoneAtTop file.2) (hfile : file ∈ files)
    (hlowered : (lowerClass tree).result = .ok file.2) (hs : s ∈ tree.subroutines)
    (hlinked : Program.link files = .ok p) : ∃ entry block, JumpsOf p tree s entry block := by
  obtain ⟨l, rfl, hl⟩ := exists_linked hlinked
  obtain ⟨part, hpart, -, hcommands⟩ := exists_part 0 staticBase hfile
  obtain ⟨labels, body, front, others, hyields, hamong⟩ := exists_among hlowered hs
  have hsplit := hcommands.trans hamong.split
  have hplaced := hl.placed hnamed hpart hsplit hamong.function hamong.others
  refine ⟨part.start + front.length, _, ?_, ⟨labels, body, hyields, rfl⟩,
    fun k c name hc hname => ?_⟩
  · rw [hl.functions]
    exact hl.entry hpart hsplit hamong.function
  · obtain ⟨j, hleads, hj⟩ := hyields.leadsAll k c name hc hname
    rw [Nat.zero_add] at hleads
    refine ⟨j, hleads, hj, ?_⟩
    obtain ⟨op, hinstruction, hop, -⟩ := hplaced.has k c hc
    have hlabel := hplaced.labels j name hj
    have hjump : resolve l.directory part.base (fullName tree.name s.name) c =
        .ok (jumpTo c (part.start + front.length + j)) := by
      cases c with
      | goto other =>
          cases hname
          rw [resolve, hlabel]
          rfl
      | ifGoto other =>
          cases hname
          rw [resolve, hlabel]
          rfl
      | _ => cases hname
    rw [hop] at hjump
    cases hjump
    exact hinstruction

/-- No two labels of a compiled class have the same name, and its functions jump to their own
labels. Compiled classes whose functions have different names are linked unless their static
variables find no room, and then each jump goes to the label of its own statement. -/
theorem labels_of_link :
    (∀ tree commands, (lowerClass tree).result = .ok commands →
      (labelsIn commands).Nodup ∧ ∃ blocks, commands = blocks.flatten ∧
        List.Forall₂ (fun s block => IsFunction tree.name s.name block) tree.subroutines blocks) ∧
    ∀ trees files,
      List.Forall₂ (fun tree file => (lowerClass tree).result = .ok file.2) trees files →
      (files.flatMap fun file => functionsIn file.2).Nodup →
      (∀ e, Program.link files = .error e → ∃ file ∈ files, e = .staticOverflow file.1) ∧
      ∀ p, Program.link files = .ok p → ∀ tree ∈ trees, ∀ s ∈ tree.subroutines,
        ∃ entry block, JumpsOf p tree s entry block := by
  refine ⟨fun tree commands h => ⟨nodup_labelsIn_of_lowerClass h, ?_⟩,
    fun trees files h hnodup => ?_⟩
  · obtain ⟨blocks, hblocks, hcommands⟩ := yields_of_lowerClass h
    exact ⟨blocks, hcommands, forall₂_isFunction hblocks⟩
  · have hlowered : ∀ file ∈ files, ∃ tree, (lowerClass tree).result = .ok file.2 := by
      intro file hfile
      obtain ⟨tree, -, htree⟩ := exists_left_of_forall₂ h hfile
      exact ⟨tree, htree⟩
    refine ⟨fun e => eq_staticOverflow_of_link hlowered hnodup, fun p hp tree htree s hs => ?_⟩
    obtain ⟨file, hfile, hcommands⟩ := exists_right_of_forall₂ h htree
    refine exists_jumpsOf (fun file hfile => ?_) hfile hcommands hs hp
    obtain ⟨tree, htree⟩ := hlowered file hfile
    exact noneAtTop_of_lowerClass htree

/-- A class with a conditional, linked by itself. -/
theorem labels_of_gate : ∃ tree p s entry block,
    (lowerClass tree).result = .ok Evaluation.gateCommands ∧
      Program.link [("Main", Evaluation.gateCommands)] = .ok p ∧ s ∈ tree.subroutines ∧
      JumpsOf p tree s entry block := by
  obtain ⟨tree, c, -, htree, -, hcommands⟩ := Evaluation.exists_gate
  obtain ⟨p, hp⟩ := Evaluation.link_gate
  have hlowered : (lowerClass tree).result = .ok Evaluation.gateCommands := by
    rw [htree.lowered, hcommands]
  have hfirst : Evaluation.gateCommands[0]? = some (.function "Main.main" 0) := rfl
  obtain ⟨s, hs, -⟩ := exists_among_of_getElem? hlowered hfirst
  obtain ⟨entry, block, hjumps⟩ := (labels_of_link.2 [tree] [("Main", Evaluation.gateCommands)]
    (.cons hlowered .nil) (by decide)).2 p hp tree List.mem_cons_self s hs
  exact ⟨tree, p, s, entry, block, hlowered, hp, hs, hjumps⟩

end JackToolchain.Machine
